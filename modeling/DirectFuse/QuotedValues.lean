import DirectFuse.ArgGrammar
import DirectFuse.BootLoop

/-! Quoted values in a boot script. The quotes protect a value while its command is taken from the
script, and are gone when the arguments of the command are read. -/
namespace QuotedValues

open ExecLogic Cutting SysioState SysioInit BootTokens BootArgs BootLoop
open ArgGrammar (Plain Named Valued item Listed argsOf_listed)

variable {S : Type} {w : Works S} {p : Ptr} {str script : Bytes} {s t : Boot S}

/-- The places the boot loop gets to in a script. -/
inductive Boots (w : Works S) (script : Bytes) : Ptr → Boot S → Prop where
  | start {p : Ptr} {s : Boot S} (junk : ℕ → UInt8) : Text s.mem p script → p.buffer = .arg →
      Boots w script p (withToken (allocated junk script) s)
  | comment {p q : Ptr} {s t : Boot S} : Boots w script p s →
      nextCommand p s = .ok (.comment q, t) → Boots w script q t
  | command {p q : Ptr} {s t u : Boot S} : Boots w script p s →
      nextCommand p s = .ok (.command q, t) → doCommand w tok t = .ok (0, u) → Boots w script q u

/-- A turn that goes on leaves the rest of the script. -/
theorem turn_ready (ready : Ready p str s) {found : Found} (run : nextCommand p s = .ok (found, t)) :
    (∀ q, found = .comment q → ∃ rest, Ready q rest t ∧ rest.length < str.length) ∧
    ∀ q, found = .command q → ∃ token rest, scanNext str = .command token rest ∧
      Text t.mem tok token ∧ rest.length < str.length ∧ ∀ u, Keeps t u → Ready q rest u := by
  obtain ⟨found', t', run', at_⟩ := nextCommand_finds ready.text ready.script ready.room
  obtain ⟨rfl, rfl⟩ := Prod.mk.inj (Except.ok.inj (run.symm.trans run'))
  have behind := @scanNext_behind str
  cases next : scanNext str with
  | done =>
    rw [next] at at_
    obtain ⟨rfl, -⟩ := at_
    constructor
    · intro q h
      cases h
    · intro q h
      cases h
  | malformed =>
    rw [next] at at_
    obtain ⟨rfl, -⟩ := at_
    constructor
    · intro q h
      cases h
    · intro q h
      cases h
  | comment rest =>
    rw [next] at at_ behind
    obtain ⟨rfl, rfl⟩ := at_
    obtain ⟨suffix, less⟩ := behind rfl
    constructor
    · intro q h
      cases h
      exact ⟨rest, ready.later (Keeps.refl t) suffix, less⟩
    · intro q h
      cases h
  | command token rest =>
    rw [next] at at_ behind
    obtain ⟨rfl, sys, text, kept, length⟩ := at_
    obtain ⟨suffix, less⟩ := behind rfl
    constructor
    · intro q h
      cases h
    · intro q h
      cases h
      exact ⟨token, rest, rfl, text, less, fun u keeps =>
        ready.later (Keeps.trans ⟨kept, length⟩ keeps) suffix⟩

theorem doCommand_keeps {token : Bytes} {err : ℤ} (text : Text s.mem tok token)
    (run : doCommand w tok s = .ok (err, t)) : Keeps s t := by
  obtain ⟨u, runs, -, keeps⟩ := doCommand_means w text
  rw [runs] at run
  unfold onSys at run
  cases done : deliverGiven w (commandGiven token) u.sys with
  | error f =>
    rw [done] at run
    cases run
  | ok r =>
    rw [done] at run
    obtain ⟨-, rfl⟩ := Prod.mk.inj (Except.ok.inj run)
    exact keeps

/-- From a place that it gets to, `_sysio_boot_namespace` goes on as the loop does there. -/
theorem Boots.goes_on (h : Boots w script p s) : ∃ str fuel, Ready p str s ∧ str.length < fuel ∧
    ∃ (q : Ptr) (r : Boot S) (junk : ℕ → UInt8),
      sysioBootNamespace w (some junk) q r = (bootLoop w fuel p >>= endBoot) s := by
  induction h with
  | @start p s junk text there =>
    have enough : script.length < (s.mem p.buffer).length - p.off + 1 := by
      have := text.room
      omega
    exact ⟨script, _, ready_start text there junk, enough, p, s, junk,
      sysioBootNamespace_run w junk text there⟩
  | @comment p q s t _ run ih =>
    obtain ⟨str, fuel, ready, enough, q₀, r, junk, same⟩ := ih
    obtain ⟨rest, ready', less⟩ := (turn_ready ready run).1 q rfl
    obtain _ | fuel := fuel
    · exact absurd enough (Nat.not_lt_zero _)
    refine ⟨rest, fuel, ready', by omega, q₀, r, junk, same.trans ?_⟩
    have on : bootLoop w (fuel + 1) p s = bootLoop w fuel q t := by
      rw [bootLoop, bind_run run]
    cases done : bootLoop w fuel q t with
    | error f => rw [bind_error done, bind_error (on.trans done)]
    | ok r => rw [bind_run done, bind_run (on.trans done)]
  | @command p q s t u _ run done ih =>
    obtain ⟨str, fuel, ready, enough, q₀, r, junk, same⟩ := ih
    obtain ⟨token, rest, -, text, less, later⟩ := (turn_ready ready run).2 q rfl
    obtain _ | fuel := fuel
    · exact absurd enough (Nat.not_lt_zero _)
    refine ⟨rest, fuel, later u (doCommand_keeps text done), by omega, q₀, r, junk, same.trans ?_⟩
    have on : bootLoop w (fuel + 1) p s = bootLoop w fuel q u := by
      rw [bootLoop, bind_run run]
      dsimp only
      rw [bind_run done]
      rfl
    cases done' : bootLoop w fuel q u with
    | error f => rw [bind_error done', bind_error (on.trans done')]
    | ok r => rw [bind_run done', bind_run (on.trans done')]

theorem Boots.ready (h : Boots w script p s) (text : Text s.mem p str) : Ready p str s := by
  obtain ⟨str', -, ready, -⟩ := h.goes_on
  rw [text_unique text ready.text]
  exact ready

/-- The command that the boot loop comes to, with what it sees of its options. -/
def Reaches (p : Ptr) (s : Boot S) (cmd : Command) (strs : List (Option Bytes)) : Prop :=
  ∃ q t values u, nextCommand p s = .ok (.command q, t) ∧
    handed tok t = .ok (some (cmd, values), u) ∧ Shown u.mem values strs

theorem shown_unique {mem : Memory} {values : List (Option Ptr)} {strs strs' : List (Option Bytes)}
    (h : List.Forall₂ (Shows mem) values strs) (h' : List.Forall₂ (Shows mem) values strs') :
    strs = strs' := by
  induction h generalizing strs' with
  | nil =>
    cases h'
    rfl
  | @cons value str values strs shows _ ih =>
    obtain _ | @⟨_, str', _, strs', shows', rest⟩ := h'
    have one : str = str' := by
      cases value with
      | none =>
        cases str with
        | some v => exact absurd shows id
        | none =>
          cases str' with
          | some v => exact absurd shows' id
          | none => rfl
      | some q =>
        cases str with
        | none => exact absurd shows id
        | some v =>
          cases str' with
          | none => exact absurd shows' id
          | some v' => rw [text_unique shows.2 shows'.2]
    rw [one, ih rest]

/-- A command is reached with what its string gives it, and nothing else. -/
theorem reaches_iff (ready : Ready p str s) {token rest : Bytes}
    (next : scanNext str = .command token rest) (cmd : Command) (strs : List (Option Bytes)) :
    Reaches p s cmd strs ↔ commandGiven token = some (cmd, strs) := by
  obtain ⟨found, t, run, at_⟩ := nextCommand_finds ready.text ready.script ready.room
  rw [next] at at_
  obtain ⟨rfl, sys, text, kept, length⟩ := at_
  obtain ⟨given, u, runs, -, -, handing⟩ := handed_reads text
  constructor
  · rintro ⟨q, t', values, u', run', runs', shown⟩
    obtain ⟨-, rfl⟩ := Prod.mk.inj (Except.ok.inj (run.symm.trans run'))
    obtain ⟨rfl, rfl⟩ := Prod.mk.inj (Except.ok.inj (runs.symm.trans runs'))
    generalize commandGiven token = strs' at handing
    cases handing with
    | some cmd shown' => rw [shown_unique shown.strings shown'.strings]
  · intro given_
    rw [given_] at handing
    obtain _ | ⟨_, shown⟩ := handing
    exact ⟨_, t, _, u, run, runs, shown⟩

section Text

variable {cmd : Command} {key pre post v word : Bytes} {before after : List (Bytes × Bytes)}

def front (before : List (Bytes × Bytes)) : Bytes := before.flatMap fun a => item a ++ [COMMA]

def back (after : List (Bytes × Bytes)) : Bytes := after.flatMap fun a => COMMA :: item a

/-- The arguments of a command that gives a key the value `x`, and other keys theirs before and
after it. -/
def arguments (key : Bytes) (before after : List (Bytes × Bytes)) (x : Bytes) : Bytes :=
  front before ++ (item (key, x) ++ back after)

/-- The text of a command around the value of a key. It may have white space, and quotes and
escapes of its own; what is read of it is the name of the command and plain arguments, and the key
is not given again behind the value. -/
structure Setting (cmd : Command) (key : Bytes) (before after : List (Bytes × Bytes))
    (pre post : Bytes) : Prop where
  named : Named cmd.options key
  items : ∀ a ∈ before ++ after, (Named cmd.options a.1 ∧ Valued a.2) ∧ Plain a.2
  last : ∀ a ∈ after, a.1 ≠ key
  reads_pre : Reads marks [CLOSE_BRACE] IGNORE_WHITE pre
    (cmd.name ++ COMMA :: (front before ++ (key ++ [EQUALS])))
  reads_post : Reads marks [CLOSE_BRACE] IGNORE_WHITE post (back after)

theorem option_plain {name : Bytes} (h : name ∈ cmd.options) : Plain name := by
  have all : ∀ name ∈ cmd.options, (name.all fun c =>
      decide ((c ≠ marks.escape ∧ c ≠ marks.quote) ∧ c ∉ IGNORE_WHITE)) = true := by
    cases cmd <;> decide
  exact forall_mem_of_all (all name h)

theorem name_plain (cmd : Command) : Plain cmd.name ∧ Valued cmd.name := by
  constructor
  · apply forall_mem_of_all
    cases cmd <;> decide
  · apply forall_mem_of_all
    cases cmd <;> decide

theorem equals_plain : Plain [EQUALS] := forall_mem_of_all (by decide)

theorem comma_plain : Plain [COMMA] := forall_mem_of_all (by decide)

theorem plain_item {a : Bytes × Bytes} (named : a.1 ∈ cmd.options) (value : Plain a.2) :
    Plain (item a) :=
  Plain.append.mpr ⟨option_plain named, Plain.append.mpr ⟨equals_plain, value⟩⟩

theorem Setting.plain_front (h : Setting cmd key before after pre post) : Plain (front before) := by
  intro c hc
  obtain ⟨a, ha, hc⟩ := List.mem_flatMap.mp hc
  obtain ⟨⟨named, -⟩, value⟩ := h.items a (List.mem_append_left after ha)
  exact Plain.append.mpr ⟨plain_item named.known value, comma_plain⟩ c hc

theorem Setting.plain_back (h : Setting cmd key before after pre post) : Plain (back after) := by
  intro c hc
  obtain ⟨a, ha, hc⟩ := List.mem_flatMap.mp hc
  obtain ⟨⟨named, -⟩, value⟩ := h.items a (List.mem_append_right before ha)
  exact Plain.append.mpr ⟨comma_plain, plain_item named.known value⟩ c hc

theorem listed_back {names : List Bytes} {a : Bytes × Bytes} {after : List (Bytes × Bytes)}
    (h : ∀ b ∈ a :: after, Named names b.1 ∧ Valued b.2) :
    Listed names (a :: after) (item a ++ back after) := by
  induction after generalizing a with
  | nil =>
    refine ⟨h a List.mem_cons_self, ?_⟩
    rw [back, List.flatMap_nil, List.append_nil]
  | cons b after ih =>
    refine ⟨h a List.mem_cons_self, item b ++ back after, rfl, ih fun c hc => ?_⟩
    exact h c (List.mem_cons_of_mem a hc)

theorem listed_front {names : List Bytes} {before : List (Bytes × Bytes)} {a : Bytes × Bytes}
    {after : List (Bytes × Bytes)} {str : Bytes}
    (h : ∀ b ∈ before, Named names b.1 ∧ Valued b.2) (listed : Listed names (a :: after) str) :
    Listed names (before ++ a :: after) (front before ++ str) := by
  induction before with
  | nil => exact listed
  | cons b before ih =>
    have later := ih fun c hc => h c (List.mem_cons_of_mem b hc)
    have split : front (b :: before) ++ str = item b ++ COMMA :: (front before ++ str) := by
      rw [front, List.flatMap_cons, List.append_assoc, List.append_assoc]
      rfl
    rw [split]
    cases before with
    | nil => exact ⟨h b List.mem_cons_self, _, rfl, later⟩
    | cons c before => exact ⟨h b List.mem_cons_self, _, rfl, later⟩

/-- The arguments with a plain value are read as they are meant. -/
theorem Setting.arguments_read (h : Setting cmd key before after pre post) {x : Bytes}
    (plain : Plain x) (valued : Valued x) :
    argsOf cmd.options (arguments key before after x) =
      (before ++ (key, x) :: after, some []) := by
  apply argsOf_listed
  · apply listed_front
    · intro b hb
      exact (h.items b (List.mem_append_left after hb)).1
    · apply listed_back
      intro b hb
      rcases List.mem_cons.mp hb with rfl | hb
      · exact ⟨h.named, valued⟩
      · exact (h.items b (List.mem_append_right before hb)).1
  · exact Plain.append.mpr ⟨h.plain_front,
      Plain.append.mpr ⟨plain_item h.named.known plain, h.plain_back⟩⟩

/-- The text in front of the value, the value, and the text behind it, as they are read. -/
theorem Setting.reads (h : Setting cmd key before after pre post) {text x : Bytes}
    (value : Reads marks [CLOSE_BRACE] IGNORE_WHITE text x) :
    Reads marks [CLOSE_BRACE] IGNORE_WHITE (pre ++ (text ++ post))
      (cmd.name ++ COMMA :: arguments key before after x) := by
  have all := h.reads_pre.append (value.append h.reads_post)
  have form : cmd.name ++ COMMA :: (front before ++ (key ++ [EQUALS])) ++ (x ++ back after) =
      cmd.name ++ COMMA :: arguments key before after x := by
    simp [arguments, item]
  rw [form] at all
  exact all

theorem scanNext_command {lead body token rest : Bytes} (white : ∀ c ∈ lead, c ∈ IGNORE_WHITE)
    (reads : Reads marks [CLOSE_BRACE] IGNORE_WHITE body token) :
    scanNext (lead ++ OPEN_BRACE :: (body ++ CLOSE_BRACE :: rest)) = .command token rest := by
  have brace : ¬ OPEN_BRACE ∈ IGNORE_WHITE := by decide
  have whole : commandCut (body ++ CLOSE_BRACE :: rest) = ⟨token, true, rest⟩ := by
    have ends : cut marks [CLOSE_BRACE] IGNORE_WHITE false false (CLOSE_BRACE :: rest) =
        ⟨[], true, rest⟩ := rfl
    rw [commandCut, cut_reads reads (by decide), ends, List.append_nil]
  rw [scanNext, List.dropWhile_append_of_pos (by simpa using white),
    List.dropWhile_cons_of_neg (by simpa using brace), scanHere_cons, if_neg (by decide), if_neg (by decide), whole]
  rfl

theorem commandGiven_eq (cmd : Command) (str : Bytes) :
    commandGiven (cmd.name ++ COMMA :: str) = if (argsOf cmd.options str).2 = some [] then
      some (cmd, optionsSeen cmd.options (argsOf cmd.options str).1) else none := by
  obtain ⟨plain, valued⟩ := name_plain cmd
  rw [commandGiven, ArgGrammar.valueCut_more valued plain, commandOf_name]
  rfl

theorem lastValue_append (l l' : List (Bytes × Bytes)) (name : Bytes) :
    lastValue (l ++ l') name = (lastValue l' name).or (lastValue l name) := by
  induction l with
  | nil =>
    rw [List.nil_append, lastValue, Option.or_none]
  | cons a l ih =>
    rw [List.cons_append, lastValue, ih, lastValue, Option.or_assoc]

theorem lastValue_absent {l : List (Bytes × Bytes)} {name : Bytes} (h : ∀ a ∈ l, a.1 ≠ name) :
    lastValue l name = none := by
  cases found : lastValue l name with
  | none => rfl
  | some v => exact absurd rfl (h _ (lastValue_some found))

/-- The key has the value, and the other options do not depend on it. -/
theorem Setting.lastValue_eq (h : Setting cmd key before after pre post) (x : Bytes)
    (name : Bytes) : lastValue (before ++ (key, x) :: after) name =
      if name = key then some x else (lastValue after name).or (lastValue before name) := by
  rw [lastValue_append, lastValue]
  by_cases same : name = key
  · subst same
    rw [if_pos rfl, if_pos rfl, lastValue_absent h.last]
    rfl
  · rw [if_neg fun e => same e.symm, if_neg same, Option.or_none]

theorem Unmarked.suffix {s t : Bytes} (h : Unmarked marks t) (suffix : s <:+ t) :
    Unmarked marks s :=
  ⟨fun mem => h.1 (suffix.mem mem), fun mem => h.2 (suffix.mem mem)⟩

/-- A value that is read from a text without quotes has no comma and no white space. -/
theorem readArgs_ordinary {names : List Bytes} {fuel : ℕ} {str : Bytes}
    (unmarked : Unmarked marks str) {a : Bytes × Bytes} (h : a ∈ (readArgs names fuel str).1) :
    ∀ c ∈ a.2, Ordinary marks [COMMA] IGNORE_WHITE c := by
  induction fuel generalizing str with
  | zero => exact absurd h List.not_mem_nil
  | succ fuel ih =>
    have later : Unmarked marks (nameCut str).rest :=
      Unmarked.suffix unmarked (cut_rest _ _ _ false false str)
    unfold readArgs at h
    split_ifs at h with empty known
    · exact absurd h List.not_mem_nil
    · rcases List.mem_cons.mp h with rfl | h
      · intro c hc
        exact ordinary_token later hc
      · exact ih (Unmarked.suffix later (cut_rest _ _ _ false false _)) h
    · exact absurd h List.not_mem_nil

theorem unmarked_of_plain {s : Bytes} (h : Plain s) : Unmarked marks s :=
  ⟨fun mem => (h _ mem).1.1 rfl, fun mem => (h _ mem).1.2 rfl⟩

/-- What a command is given when the value is plain. -/
theorem Setting.given_plain (h : Setting cmd key before after pre post) {x : Bytes}
    (plain : Plain x) (valued : Valued x) :
    commandGiven (cmd.name ++ COMMA :: arguments key before after x) =
      some (cmd, optionsSeen cmd.options (before ++ (key, x) :: after)) := by
  rw [commandGiven_eq, h.arguments_read plain valued, if_pos rfl]

theorem optionsSeen_get {names : List Bytes} {args : List (Bytes × Bytes)} (j : ℕ) :
    (optionsSeen names args)[j]? =
      (names[j]?).map fun n => (lastValue args n).filter (· ≠ []) := by
  rw [optionsSeen, List.getElem?_map]

/-- The place of the key among the options. -/
def keyPlace (cmd : Command) (key : Bytes) : ℕ := cmd.options.idxOf key

theorem keyPlace_get (known : key ∈ cmd.options) :
    cmd.options[keyPlace cmd key]? = some key := by
  unfold keyPlace
  rw [List.getElem?_eq_getElem (List.idxOf_lt_length_of_mem known)]
  exact congrArg some (List.getElem_idxOf _)

/-- A word that needs no quotes. -/
structure PlainWord (word : Bytes) : Prop where
  nonempty : word ≠ []
  plain : ∀ c ∈ word, Ordinary marks [CLOSE_BRACE, COMMA] IGNORE_WHITE c

/-- The value arrives at the command as it was quoted, and the other options are as for any plain
word in its place, wherever the boot loop comes to the command. -/
def Arrives (w : Works S) (cmd : Command) (key pre post v : Bytes) (p : Ptr) (s : Boot S) : Prop :=
  ∃ strs, Reaches p s cmd strs ∧ strs[keyPlace cmd key]? = some (some v) ∧
    ∀ (script lead word rest : Bytes) (q : Ptr) (t : Boot S), Boots w script q t →
      (∀ c ∈ lead, c ∈ IGNORE_WHITE) → PlainWord word →
      Text t.mem q (lead ++ OPEN_BRACE :: ((pre ++ (word ++ post)) ++ CLOSE_BRACE :: rest)) →
      ∃ strs', Reaches q t cmd strs' ∧ ∀ j, j ≠ keyPlace cmd key → strs'[j]? = strs[j]?

theorem PlainWord.reads (h : PlainWord word) :
    Reads marks [CLOSE_BRACE] IGNORE_WHITE word word := by
  apply Reads.word
  intro c hc
  have ordinary := h.plain c hc
  exact ⟨ordinary.escape, ordinary.quote, fun e => ordinary.delim (List.mem_cons.mpr
    (Or.inl (List.mem_singleton.mp e))), ordinary.ignore⟩

theorem PlainWord.valued (h : PlainWord word) : Plain word ∧ Valued word := by
  constructor
  · intro c hc
    have ordinary := h.plain c hc
    exact ⟨⟨ordinary.escape, ordinary.quote⟩, ordinary.ignore⟩
  · intro c hc comma
    exact (h.plain c hc).delim (List.mem_cons_of_mem _ comma)

theorem quoted_reads (unmarked : Unmarked marks v) :
    Reads marks [CLOSE_BRACE] IGNORE_WHITE (QUOTE :: (v ++ [QUOTE])) v := by
  have quoted : Reads marks [CLOSE_BRACE] IGNORE_WHITE (marks.quote :: (v ++ marks.quote :: []))
      (v ++ []) := Reads.quoted unmarked Reads.nil
  rwa [List.append_nil] at quoted

theorem Setting.reaches (h : Setting cmd key before after pre post) (boots : Boots w script p s)
    {lead text x rest : Bytes} (white : ∀ c ∈ lead, c ∈ IGNORE_WHITE)
    (value : Reads marks [CLOSE_BRACE] IGNORE_WHITE text x)
    (here : Text s.mem p
      (lead ++ OPEN_BRACE :: ((pre ++ (text ++ post)) ++ CLOSE_BRACE :: rest)))
    (strs : List (Option Bytes)) : Reaches p s cmd strs ↔
      commandGiven (cmd.name ++ COMMA :: arguments key before after x) = some (cmd, strs) :=
  reaches_iff (boots.ready here) (scanNext_command white (h.reads value)) cmd strs

/-- A value with a comma or white space in it, or an empty one, does not arrive. -/
theorem Setting.lost (h : Setting cmd key before after pre post) (unmarked : Unmarked marks v)
    {strs : List (Option Bytes)} (given :
      commandGiven (cmd.name ++ COMMA :: arguments key before after v) = some (cmd, strs))
    (there : strs[keyPlace cmd key]? = some (some v)) :
    v ≠ [] ∧ ∀ c ∈ v, c ≠ COMMA ∧ c ∉ IGNORE_WHITE := by
  rw [commandGiven_eq] at given
  by_cases all : (argsOf cmd.options (arguments key before after v)).2 = some []
  · rw [if_pos all] at given
    obtain ⟨-, rfl⟩ := Prod.mk.inj (Option.some.inj given)
    rw [optionsSeen_get, keyPlace_get h.named.known, Option.map_some, Option.some_inj,
      Option.filter_eq_some_iff] at there
    obtain ⟨last, nonempty⟩ := there
    have clean : Unmarked marks (arguments key before after v) := by
      refine unmarked_append.mpr ⟨unmarked_of_plain h.plain_front, unmarked_append.mpr
        ⟨unmarked_append.mpr ⟨unmarked_of_plain (option_plain h.named.known), ?_⟩,
          unmarked_of_plain h.plain_back⟩⟩
      exact unmarked_cons.mpr ⟨⟨by decide, by decide⟩, unmarked⟩
    have ordinary := readArgs_ordinary clean (lastValue_some last)
    refine ⟨by simpa using nonempty, fun c hc => ⟨?_, (ordinary c hc).ignore⟩⟩
    rintro rfl
    exact (ordinary _ hc).delim List.mem_cons_self
  · rw [if_neg all] at given
    cases given

/-- Wherever the boot loop comes to a command that gives a key a quoted value, the value arrives as
it is if and only if it is not empty and has no comma and no white space in it. -/
theorem quoted_value (boots : Boots w script p s) (h : Setting cmd key before after pre post)
    {lead rest : Bytes} (white : ∀ c ∈ lead, c ∈ IGNORE_WHITE) (unmarked : Unmarked marks v)
    (here : Text s.mem p (lead ++ OPEN_BRACE ::
      ((pre ++ ((QUOTE :: (v ++ [QUOTE])) ++ post)) ++ CLOSE_BRACE :: rest))) :
    Arrives w cmd key pre post v p s ↔ v ≠ [] ∧ ∀ c ∈ v, c ≠ COMMA ∧ c ∉ IGNORE_WHITE := by
  have reaches := h.reaches boots white (quoted_reads unmarked) here
  constructor
  · rintro ⟨strs, reached, there, -⟩
    exact h.lost unmarked ((reaches strs).mp reached) there
  · rintro ⟨nonempty, free⟩
    have plain : Plain v := fun c hc => ⟨⟨fun e => unmarked.1 (e ▸ hc),
      fun e => unmarked.2 (e ▸ hc)⟩, (free c hc).2⟩
    have valued : Valued v := fun c hc comma => (free c hc).1 (List.mem_singleton.mp comma)
    refine ⟨_, (reaches _).mpr (h.given_plain plain valued), ?_, ?_⟩
    · rw [optionsSeen_get, keyPlace_get h.named.known, Option.map_some, h.lastValue_eq,
        if_pos rfl, Option.filter_some_pos (by simpa using nonempty)]
    · intro script' lead' word rest' q t boots' white' plainWord here'
      obtain ⟨plain', valued'⟩ := plainWord.valued
      refine ⟨_, (h.reaches boots' white' plainWord.reads here' _).mpr
        (h.given_plain plain' valued'), ?_⟩
      intro j hj
      rw [optionsSeen_get, optionsSeen_get]
      cases name : cmd.options[j]? with
      | none => rfl
      | some n =>
        have other : n ≠ key := by
          rintro rfl
          apply hj
          obtain ⟨inside, rfl⟩ := List.getElem?_eq_some_iff.mp name
          exact ((options_nodup cmd).idxOf_getElem j inside).symm
        rw [Option.map_some, Option.map_some, h.lastValue_eq, h.lastValue_eq, if_neg other,
          if_neg other]

/-- "{creat,ft=dir,nm=", then the value in quotes, then ",pm=0}". -/
def directoryNamed (v : Bytes) : Bytes :=
  OPEN_BRACE :: ((bytesOf ['c', 'r', 'e', 'a', 't', ',', 'f', 't', '=', 'd', 'i', 'r', ',', 'n', 'm',
    '='] ++ ((QUOTE :: (v ++ [QUOTE])) ++ bytesOf [',', 'p', 'm', '=', '0'])) ++ [CLOSE_BRACE])

theorem directory_setting : Setting .creat (bytesOf ['n', 'm'])
    [(bytesOf ['f', 't'], bytesOf ['d', 'i', 'r'])] [(bytesOf ['p', 'm'], bytesOf ['0'])]
    (bytesOf ['c', 'r', 'e', 'a', 't', ',', 'f', 't', '=', 'd', 'i', 'r', ',', 'n', 'm', '='])
    (bytesOf [',', 'p', 'm', '=', '0']) where
  named := ⟨by decide, by decide, forall_mem_of_all (by decide)⟩
  items := by
    intro a ha
    rcases List.mem_cons.mp ha with rfl | ha
    · exact ⟨⟨⟨by decide, by decide, forall_mem_of_all (by decide)⟩, forall_mem_of_all (by decide)⟩,
        forall_mem_of_all (by decide)⟩
    · obtain rfl := List.mem_singleton.mp ha
      exact ⟨⟨⟨by decide, by decide, forall_mem_of_all (by decide)⟩, forall_mem_of_all (by decide)⟩,
        forall_mem_of_all (by decide)⟩
  last := by decide
  reads_pre := by
    apply Reads.word
    intro c hc
    have plain : ∀ c ∈ bytesOf ['c', 'r', 'e', 'a', 't', ',', 'f', 't', '=', 'd', 'i', 'r', ',', 'n',
        'm', '='], (c ≠ marks.escape ∧ c ≠ marks.quote) ∧ c ∉ [CLOSE_BRACE] ∧ c ∉ IGNORE_WHITE :=
      forall_mem_of_all (by decide)
    obtain ⟨⟨escape, quote⟩, brace, white⟩ := plain c hc
    exact ⟨escape, quote, brace, white⟩
  reads_post := by
    apply Reads.word
    intro c hc
    have plain : ∀ c ∈ bytesOf [',', 'p', 'm', '=', '0'],
        (c ≠ marks.escape ∧ c ≠ marks.quote) ∧ c ∉ [CLOSE_BRACE] ∧ c ∉ IGNORE_WHITE :=
      forall_mem_of_all (by decide)
    obtain ⟨⟨escape, quote⟩, brace, white⟩ := plain c hc
    exact ⟨escape, quote, brace, white⟩

/-- The boot loop at the start of a script. -/
def started (str : Bytes) : Boot Unit := withToken (allocated (fun _ => 7) str) (scripted str)

theorem started_boots (noNul : 0 ∉ str) : Boots idleWorks str ⟨.arg, 0⟩ (started str) :=
  Boots.start (fun _ => 7) (scripted_text noNul) rfl

theorem started_text (noNul : 0 ∉ str) : Text (started str).mem ⟨.arg, 0⟩ str :=
  (ready_start (scripted_text noNul) rfl fun _ => 7).text

/-- "/a" arrives. -/
theorem quoted_value_path : Arrives idleWorks .creat (bytesOf ['n', 'm'])
    (bytesOf ['c', 'r', 'e', 'a', 't', ',', 'f', 't', '=', 'd', 'i', 'r', ',', 'n', 'm', '='])
    (bytesOf [',', 'p', 'm', '=', '0']) (bytesOf ['/', 'a']) ⟨.arg, 0⟩
    (started (directoryNamed (bytesOf ['/', 'a']))) :=
  (@quoted_value Unit idleWorks _ (directoryNamed (bytesOf ['/', 'a'])) _ _ _ _ _ _ _ _
    (started_boots (by decide)) directory_setting [] [] (fun c hc => absurd hc List.not_mem_nil)
    ⟨by decide, by decide⟩ (started_text (by decide))).mpr ⟨by decide, forall_mem_of_all (by decide)⟩

/-- "a b" does not: the quotes are gone when its white space is left out. -/
theorem spaced_value_lost : ¬ ∀ (w : Works Unit) (script : Bytes) (p : Ptr) (s : Boot Unit)
    (cmd : Command) (key pre post v lead rest : Bytes) (before after : List (Bytes × Bytes)),
    Boots w script p s → Setting cmd key before after pre post → (∀ c ∈ lead, c ∈ IGNORE_WHITE) →
    Unmarked marks v → Text s.mem p (lead ++ OPEN_BRACE ::
      ((pre ++ ((QUOTE :: (v ++ [QUOTE])) ++ post)) ++ CLOSE_BRACE :: rest)) →
    Arrives w cmd key pre post v p s := by
  intro right
  have boots : Boots idleWorks (directoryNamed (bytesOf ['a', ' ', 'b'])) ⟨.arg, 0⟩
      (started (directoryNamed (bytesOf ['a', ' ', 'b']))) := started_boots (by decide)
  have white : ∀ c ∈ ([] : Bytes), c ∈ IGNORE_WHITE := fun c hc => absurd hc List.not_mem_nil
  have unmarked : Unmarked marks (bytesOf ['a', ' ', 'b']) := ⟨by decide, by decide⟩
  have here : Text (started (directoryNamed (bytesOf ['a', ' ', 'b']))).mem ⟨.arg, 0⟩
      (directoryNamed (bytesOf ['a', ' ', 'b'])) := started_text (by decide)
  obtain ⟨strs, reached, there, -⟩ := right idleWorks _ _ _ _ _ _ _ _ [] [] _ _ boots
    directory_setting white unmarked here
  have given := (directory_setting.reaches boots white (quoted_reads unmarked) here strs).mp reached
  obtain ⟨-, free⟩ := directory_setting.lost unmarked given there
  exact (free 32 (by decide)).2 (by decide)

end Text

end QuotedValues
