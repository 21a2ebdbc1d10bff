import DirectFuse.BootArgs

/-! The grammar of argument lists. `_sysio_get_args` accepts the lists of `name=value` items, and
more: a name that a comma ends takes the next item for its value, a last name needs no value at
all, and a comma may stand at the end. -/
namespace ArgGrammar

open ExecLogic Cutting SysioState SysioInit BootTokens BootArgs

variable {S : Type} {buf : Ptr} {str name value rest : Bytes} {s : Boot S} {names : List Bytes}

/-- No quotes, backslashes or white space. -/
def Plain (str : Bytes) : Prop :=
  ∀ c ∈ str, (c ≠ marks.escape ∧ c ≠ marks.quote) ∧ c ∉ IGNORE_WHITE

/-- The name of an option, as it may stand in a list. -/
structure Named (names : List Bytes) (name : Bytes) : Prop where
  known : name ∈ names
  nonempty : name ≠ []
  free : ∀ c ∈ name, c ∉ [EQUALS, COMMA]

def Valued (value : Bytes) : Prop := ∀ c ∈ value, c ∉ [COMMA]

def item (a : Bytes × Bytes) : Bytes := a.1 ++ EQUALS :: a.2

/-- The string is the comma-separated list of the items. -/
def Listed (names : List Bytes) : List (Bytes × Bytes) → Bytes → Prop
  | [], str => str = []
  | [a], str => (Named names a.1 ∧ Valued a.2) ∧ str = item a
  | a :: b :: items, str => (Named names a.1 ∧ Valued a.2) ∧
      ∃ rest, str = item a ++ COMMA :: rest ∧ Listed names (b :: items) rest

/-- The strings that are read to their end. -/
inductive Taken (names : List Bytes) : Bytes → Prop where
  | nil : Taken names []
  | bare {name : Bytes} : Named names name → Taken names name
  | last {name value : Bytes} {d : UInt8} : Named names name → d ∈ [EQUALS, COMMA] → Valued value →
      Taken names (name ++ d :: value)
  | more {name value rest : Bytes} {d : UInt8} : Named names name → d ∈ [EQUALS, COMMA] → Valued value →
      Taken names rest → Taken names (name ++ d :: (value ++ COMMA :: rest))

/-- The strings that are read to their end, but have a name without an equals sign behind it or
end in a comma. -/
inductive Slack (names : List Bytes) : Bytes → Prop where
  | bare {name : Bytes} : Named names name → Slack names name
  | swallow {name value : Bytes} : Named names name → Valued value → Slack names (name ++ COMMA :: value)
  | swallowMore {name value rest : Bytes} : Named names name → Valued value → Taken names rest →
      Slack names (name ++ COMMA :: (value ++ COMMA :: rest))
  | trailing {name value : Bytes} : Named names name → Valued value →
      Slack names (name ++ EQUALS :: (value ++ [COMMA]))
  | later {name value rest : Bytes} : Named names name → Valued value → Slack names rest →
      Slack names (name ++ EQUALS :: (value ++ COMMA :: rest))

section Grammar

theorem Plain.append {s t : Bytes} : Plain (s ++ t) ↔ Plain s ∧ Plain t :=
  List.forall_mem_append

theorem Plain.cons {c : UInt8} {s : Bytes} (h : Plain (c :: s)) : Plain s :=
  (List.forall_mem_cons.mp h).2

theorem Named.ordinary (named : Named names name) (plain : Plain name) :
    ∀ c ∈ name, Ordinary marks [EQUALS, COMMA] IGNORE_WHITE c :=
  fun c h => ⟨(plain c h).1.1, (plain c h).1.2, named.free c h, (plain c h).2⟩

theorem Valued.ordinary (valued : Valued value) (plain : Plain value) :
    ∀ c ∈ value, Ordinary marks [COMMA] IGNORE_WHITE c :=
  fun c h => ⟨(plain c h).1.1, (plain c h).1.2, valued c h, (plain c h).2⟩

theorem item_append (a : Bytes × Bytes) (rest : Bytes) :
    item a ++ rest = a.1 ++ EQUALS :: (a.2 ++ rest) :=
  List.append_assoc a.1 _ _

theorem valueCut_last (valued : Valued value) (plain : Plain value) :
    valueCut value = ⟨value, false, []⟩ :=
  cut_whole (valued.ordinary plain)

theorem valueCut_more (valued : Valued value) (plain : Plain value) (rest : Bytes) :
    valueCut (value ++ COMMA :: rest) = ⟨value, true, rest⟩ :=
  cut_at (valued.ordinary plain) List.mem_cons_self ⟨by decide, by decide⟩ rest

theorem nameCut_at (named : Named names name) (plain : Plain name) {d : UInt8}
    (hd : d ∈ [EQUALS, COMMA]) (rest : Bytes) :
    nameCut (name ++ d :: rest) = ⟨name, true, rest⟩ := by
  apply cut_at (named.ordinary plain) hd
  rcases List.mem_pair.mp hd with rfl | rfl
  · exact ⟨by decide, by decide⟩
  · exact ⟨by decide, by decide⟩

/-- What is read from a name, its delimiter and what is behind. -/
theorem argsOf_at (named : Named names name) (plain : Plain name) {d : UInt8}
    (hd : d ∈ [EQUALS, COMMA]) (rest : Bytes) :
    argsOf names (name ++ d :: rest) =
      keepArg (name, (valueCut rest).token) (argsOf names (valueCut rest).rest) := by
  have first := nameCut_at named plain hd rest
  rw [argsOf_step (by rw [first]; exact named.nonempty) (by rw [first]; exact named.known), first]

theorem argsOf_bare (named : Named names name) (plain : Plain name) :
    argsOf names name = ([(name, [])], some []) := by
  have first : nameCut name = ⟨name, false, []⟩ := cut_whole (named.ordinary plain)
  rw [argsOf_step (by rw [first]; exact named.nonempty) (by rw [first]; exact named.known), first]
  rfl

theorem argsOf_last (named : Named names name) (valued : Valued value) {d : UInt8}
    (hd : d ∈ [EQUALS, COMMA]) (plain : Plain (name ++ d :: value)) :
    argsOf names (name ++ d :: value) = ([(name, value)], some []) := by
  obtain ⟨plainName, plainRest⟩ := Plain.append.mp plain
  rw [argsOf_at named plainName hd, valueCut_last valued plainRest.cons]
  rfl

theorem argsOf_more (named : Named names name) (valued : Valued value) {d : UInt8}
    (hd : d ∈ [EQUALS, COMMA]) (plain : Plain (name ++ d :: (value ++ COMMA :: rest))) :
    argsOf names (name ++ d :: (value ++ COMMA :: rest)) =
      keepArg (name, value) (argsOf names rest) := by
  obtain ⟨plainName, plainRest⟩ := Plain.append.mp plain
  rw [argsOf_at named plainName hd,
    valueCut_more valued (Plain.append.mp plainRest.cons).1]

theorem Plain.behind {d : UInt8} (plain : Plain (name ++ d :: (value ++ COMMA :: rest))) :
    Plain rest :=
  (Plain.append.mp (Plain.append.mp plain).2.cons).2.cons

/-- A string is read to its end if and only if it is one of those. -/
theorem taken_iff (names : List Bytes) (plain : Plain str) : (argsOf names str).2 = some [] ↔ Taken names str := by
  constructor
  · intro all
    induction long : str.length using Nat.strong_induction_on generalizing str with
    | _ n ih =>
    subst long
    rcases cut_free [EQUALS, COMMA] plain with
      ⟨free, first⟩ | ⟨name, d, rest, rfl, free, hd, first⟩
    · change nameCut str = _ at first
      by_cases empty : str = []
      · rw [empty]
        exact Taken.nil
      by_cases known : str ∈ names
      · exact Taken.bare ⟨known, empty, free⟩
      · rw [argsOf_unknown (by rw [first]; exact empty) (by rw [first]; exact known)] at all
        cases all
    · change nameCut (name ++ d :: rest) = _ at first
      by_cases empty : name = []
      · rw [argsOf_empty names (by rw [first]; exact empty)] at all
        have none := congrArg List.length (Option.some.inj all)
        rw [List.length_append, List.length_cons, List.length_nil] at none
        omega
      by_cases known : name ∈ names
      · obtain ⟨plainName, plainRest⟩ := Plain.append.mp plain
        have named : Named names name := ⟨known, empty, free⟩
        rw [argsOf_at named plainName hd] at all
        rcases cut_free [COMMA] plainRest.cons with
          ⟨valued, second⟩ | ⟨value, c, rest, rfl, valued, hc, second⟩
        · exact Taken.last named hd valued
        · obtain rfl := List.mem_singleton.mp hc
          change valueCut (value ++ COMMA :: rest) = _ at second
          rw [second] at all
          refine Taken.more named hd valued (ih rest.length ?_ plain.behind all rfl)
          simp only [List.length_append, List.length_cons]
          omega
      · rw [argsOf_unknown (by rw [first]; exact empty) (by rw [first]; exact known)] at all
        cases all
  · intro taken
    induction taken with
    | nil => rfl
    | bare named => rw [argsOf_bare named plain]
    | last named hd valued => rw [argsOf_last named valued hd plain]
    | more named hd valued _ ih =>
      rw [argsOf_more named valued hd plain]
      exact ih plain.behind

/-- A list of items is read as these items. -/
theorem argsOf_listed {items : List (Bytes × Bytes)} (listed : Listed names items str)
    (plain : Plain str) : argsOf names str = (items, some []) := by
  induction items generalizing str with
  | nil =>
    obtain rfl : str = [] := listed
    rfl
  | cons a items ih =>
    cases items with
    | nil =>
      obtain ⟨⟨named, valued⟩, rfl⟩ := listed
      exact argsOf_last named valued List.mem_cons_self plain
    | cons b items =>
      obtain ⟨⟨named, valued⟩, rest, rfl, listed⟩ := listed
      rw [item_append] at plain ⊢
      rw [argsOf_more named valued List.mem_cons_self plain, ih listed plain.behind]
      rfl

theorem listed_nil {items : List (Bytes × Bytes)} (listed : Listed names items []) :
    items = [] := by
  cases items with
  | nil => rfl
  | cons a items =>
    cases items with
    | nil =>
      have none := listed.2
      unfold item at none
      simp at none
    | cons b items =>
      obtain ⟨-, rest, none, -⟩ := listed
      unfold item at none
      simp at none

/-- A list begins with a name and an equals sign. -/
theorem Listed.head {items : List (Bytes × Bytes)} {d : UInt8} {t : Bytes}
    (listed : Listed names items (name ++ d :: t)) (free : ∀ c ∈ name, c ∉ [EQUALS, COMMA])
    (hd : d ∈ [EQUALS, COMMA]) : d = EQUALS ∧ ∃ value, Valued value ∧ (t = value ∨
      ∃ rest items', t = value ++ COMMA :: rest ∧ items' ≠ [] ∧ Listed names items' rest) := by
  cases items with
  | nil =>
    have none : name ++ d :: t = [] := listed
    simp at none
  | cons a items =>
    cases items with
    | nil =>
      obtain ⟨⟨named, valued⟩, same⟩ := listed
      obtain ⟨-, rfl, rfl⟩ := first_unique same free named.free hd List.mem_cons_self
      exact ⟨rfl, a.2, valued, Or.inl rfl⟩
    | cons b items =>
      obtain ⟨⟨named, valued⟩, rest, same, listed⟩ := listed
      rw [item_append] at same
      obtain ⟨-, rfl, rfl⟩ := first_unique same free named.free hd List.mem_cons_self
      exact ⟨rfl, a.2, valued, Or.inr ⟨rest, b :: items, rfl, List.cons_ne_nil b items, listed⟩⟩

theorem Slack.taken (slack : Slack names str) : Taken names str := by
  have equals : EQUALS ∈ [EQUALS, COMMA] := List.mem_cons_self
  have comma : COMMA ∈ [EQUALS, COMMA] := List.mem_cons_of_mem _ List.mem_cons_self
  induction slack with
  | bare named => exact Taken.bare named
  | swallow named valued => exact Taken.last named comma valued
  | swallowMore named valued rest => exact Taken.more named comma valued rest
  | trailing named valued => exact Taken.more named equals valued Taken.nil
  | later named valued _ ih => exact Taken.more named equals valued ih

theorem Slack.not_listed (slack : Slack names str) (items : List (Bytes × Bytes)) :
    ¬ Listed names items str := by
  have equals : EQUALS ∈ [EQUALS, COMMA] := List.mem_cons_self
  have comma : COMMA ∈ [EQUALS, COMMA] := List.mem_cons_of_mem _ List.mem_cons_self
  have apart : COMMA ≠ EQUALS := by decide
  induction slack generalizing items with
  | @bare name named =>
    intro listed
    -- the string has no equals sign, but every item has
    have sign : ∀ a : Bytes × Bytes, EQUALS ∈ item a := fun a =>
      List.mem_append_right _ List.mem_cons_self
    cases items with
    | nil => exact named.nonempty listed
    | cons a items =>
      cases items with
      | nil =>
        rw [listed.2] at named
        exact named.free EQUALS (sign a) equals
      | cons b items =>
        obtain ⟨-, rest, rfl, -⟩ := listed
        exact named.free EQUALS (List.mem_append_left _ (sign a)) equals
  | swallow named valued =>
    intro listed
    exact apart (listed.head named.free comma).1
  | swallowMore named valued rest =>
    intro listed
    exact apart (listed.head named.free comma).1
  | trailing named valued =>
    intro listed
    obtain ⟨-, v, valued', rfl | ⟨rest, items', same, nonempty, listed⟩⟩ :=
      listed.head named.free equals
    · exact valued' COMMA (List.mem_append_right _ List.mem_cons_self) List.mem_cons_self
    · obtain ⟨-, -, rfl⟩ := first_unique same valued valued' List.mem_cons_self List.mem_cons_self
      exact nonempty (listed_nil listed)
  | later named valued _ ih =>
    intro listed
    obtain ⟨-, v, valued', rfl | ⟨rest, items', same, -, listed⟩⟩ :=
      listed.head named.free equals
    · exact valued' COMMA (List.mem_append_right _ List.mem_cons_self) List.mem_cons_self
    · obtain ⟨-, -, rfl⟩ := first_unique same valued valued' List.mem_cons_self List.mem_cons_self
      exact ih items' listed

theorem Taken.listed_or_slack (taken : Taken names str) :
    (∃ items, Listed names items str) ∨ Slack names str := by
  induction taken with
  | nil => exact Or.inl ⟨[], rfl⟩
  | bare named => exact Or.inr (Slack.bare named)
  | @last name value d named hd valued =>
    rcases List.mem_pair.mp hd with rfl | rfl
    · exact Or.inl ⟨[(name, value)], ⟨named, valued⟩, rfl⟩
    · exact Or.inr (Slack.swallow named valued)
  | @more name value rest d named hd valued taken ih =>
    rcases List.mem_pair.mp hd with rfl | rfl
    · rcases ih with ⟨items, listed⟩ | slack
      · cases items with
        | nil =>
          obtain rfl : rest = [] := listed
          exact Or.inr (Slack.trailing named valued)
        | cons b items =>
          exact Or.inl ⟨(name, value) :: b :: items, ⟨named, valued⟩, rest,
            (item_append (name, value) _).symm, listed⟩
      · exact Or.inr (Slack.later named valued slack)
    · exact Or.inr (Slack.swallowMore named valued taken)

end Grammar

section Acceptance

variable {vec : List OptionValue}

/-- The end of the string is returned for the lists of items alone, and then the options are set
by the list; with any other string a command that has these options is refused. -/
structure Grammatical (buf : Ptr) (str : Bytes) (vec : List OptionValue) (s : Boot S)
    (stop : Option Ptr) (vec' : List OptionValue) (mem : Memory) : Prop where
  accepted : stop = some (buf.add str.length) ↔
    ∃ items, Listed (vec.map OptionValue.name) items str
  set : ∀ items, Listed (vec.map OptionValue.name) items str → SetBy mem items vec vec'
  refused : (¬ ∃ items, Listed (vec.map OptionValue.name) items str) →
    ∀ cmd (w : Works S), vec = unset cmd.options → ∃ t, doArgs w cmd buf s = .ok (-EINVAL, t)

theorem acceptedArgs_run {cmd : Command} {stop : Option Ptr} {vec' : List OptionValue} {t : Boot S}
    (text : Text s.mem buf str)
    (run : sysioGetArgs buf (unset cmd.options) s = .ok ((stop, vec'), t)) :
    acceptedArgs cmd buf s = .ok (if stop = some (buf.add str.length) then
      some (vec'.map OptionValue.value) else none, t) := by
  rw [acceptedArgs, bind_run (strlen_run text), bind_run run]
  dsimp only
  by_cases all : stop = some (buf.add str.length)
  · rw [if_pos all, if_neg (not_not.mpr all)]
    rfl
  · rw [if_neg all, if_pos all]
    rfl

/-- A string that is read to its end is accepted, list or not. -/
theorem slack_accepted (text : Text s.mem buf str) (plain : Plain str)
    (slack : Slack (vec.map OptionValue.name) str) :
    ¬ ∃ stop vec' t, sysioGetArgs buf vec s = .ok ((stop, vec'), t) ∧
      Grammatical buf str vec s stop vec' t.mem := by
  rintro ⟨stop, vec'', t', run', right⟩
  obtain ⟨vec', t, run, -⟩ := sysioGetArgs_reads text vec
  rw [run] at run'
  obtain ⟨pair, -⟩ := Prod.mk.inj (Except.ok.inj run')
  obtain ⟨rfl, -⟩ := Prod.mk.inj pair
  have all := (taken_iff _ plain).mpr slack.taken
  obtain ⟨items, listed⟩ := right.accepted.mp
    ((read_whole buf str fun l => argsOf_length).mpr all)
  exact slack.not_listed items listed

/-- For every option table and every string without quotes, backslashes and white space, argument
lists are read by their grammar, unless a name lacks its equals sign or a comma is at the end. -/
theorem argument_lists (text : Text s.mem buf str) (plain : Plain str) :
    (∃ stop vec' t, sysioGetArgs buf vec s = .ok ((stop, vec'), t) ∧
      Grammatical buf str vec s stop vec' t.mem) ↔
    ¬ Slack (vec.map OptionValue.name) str := by
  refine ⟨fun right slack => slack_accepted text plain slack right, fun strict => ?_⟩
  obtain ⟨vec', t, run, -, -, set, -⟩ := sysioGetArgs_reads text vec
  have whole := (read_whole buf str fun l => argsOf_length).trans
    (taken_iff (vec.map OptionValue.name) plain)
  refine ⟨_, vec', t, run, ?_⟩
  constructor
  case accepted =>
    constructor
    · intro all
      exact (whole.mp all).listed_or_slack.resolve_right strict
    · rintro ⟨items, listed⟩
      rw [argsOf_listed listed plain]
      simp
  case set =>
    intro items listed
    rw [argsOf_listed listed plain] at set
    exact set
  case refused =>
    rintro unlisted cmd w rfl
    have short := mt whole.mp fun taken =>
      unlisted (taken.listed_or_slack.resolve_right strict)
    refine ⟨t, ?_⟩
    rw [doArgs, bind_run (acceptedArgs_run text run), if_neg short]
    rfl

/-- A token buffer with a string in it. -/
def holding (str : Bytes) : Boot Unit :=
  ⟨fun b => if b = Buffer.tok then str ++ [0] else [], ()⟩

theorem holding_text (noNul : 0 ∉ str) : Text (holding str).mem tok str := by
  refine ⟨?_, noNul⟩
  change ((str ++ [0]).drop 0).take (str.length + 1) = str ++ [0]
  apply List.take_of_length_le
  simp

/-- "ft,dir". -/
def fileTypeComma : Bytes := bytesOf ['f', 't', ',', 'd', 'i', 'r']

theorem fileType_named : Named ((unset Command.creat.options).map OptionValue.name)
    (bytesOf ['f', 't']) where
  known := by decide
  nonempty := by decide
  free := forall_mem_of_all (by decide)

/-- "ft=dir,ft=chr". -/
def fileTypeTwice : Bytes :=
  bytesOf ['f', 't', '=', 'd', 'i', 'r', ',', 'f', 't', '=', 'c', 'h', 'r']

theorem fileTypeTwice_listed : Listed ((unset Command.creat.options).map OptionValue.name)
    [(bytesOf ['f', 't'], bytesOf ['d', 'i', 'r']), (bytesOf ['f', 't'], bytesOf ['c', 'h', 'r'])]
    fileTypeTwice := by
  refine ⟨⟨fileType_named, forall_mem_of_all (by decide)⟩, bytesOf ['f', 't', '=', 'c', 'h', 'r'],
    by decide, ?_⟩
  exact ⟨⟨fileType_named, forall_mem_of_all (by decide)⟩, by decide⟩

/-- The second of two values of a name is the one that is set. -/
theorem argument_lists_type : ∃ stop vec' t,
    sysioGetArgs tok (unset Command.creat.options) (holding fileTypeTwice) = .ok ((stop, vec'), t) ∧
      Grammatical tok fileTypeTwice (unset Command.creat.options) (holding fileTypeTwice) stop vec'
        t.mem :=
  (argument_lists (holding_text (by decide)) (forall_mem_of_all (by decide))).mpr fun slack =>
    slack.not_listed _ fileTypeTwice_listed

/-- A comma instead of the equals sign is accepted as well. -/
theorem comma_accepted : ¬ ∀ (vec : List OptionValue) (s : Boot Unit) (buf : Ptr) (str : Bytes),
    Text s.mem buf str → Plain str →
      ∃ stop vec' t, sysioGetArgs buf vec s = .ok ((stop, vec'), t) ∧
        Grammatical buf str vec s stop vec' t.mem := by
  intro right
  have text : Text (holding fileTypeComma).mem tok fileTypeComma := holding_text (by decide)
  have plain : Plain fileTypeComma := forall_mem_of_all (by decide)
  have slack : Slack ((unset Command.creat.options).map OptionValue.name) fileTypeComma :=
    @Slack.swallow _ _ (bytesOf ['d', 'i', 'r']) fileType_named (forall_mem_of_all (by decide))
  exact slack_accepted text plain slack (right _ _ _ _ text plain)

end Acceptance

end ArgGrammar
