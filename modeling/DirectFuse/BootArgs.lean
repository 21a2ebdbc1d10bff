import DirectFuse.BootTokens

/-! Argument lists: what `_sysio_get_args` reads from the string it is given, and what it sets. -/
namespace BootArgs

open ExecLogic Cutting SysioState SysioInit BootTokens

variable {S : Type} {mem mem' : Memory} {buf : Ptr} {str : Bytes} {s : Boot S}
  {vec vec' : List OptionValue}

def nameCut (str : Bytes) : Cut UInt8 := cut marks [EQUALS, COMMA] IGNORE_WHITE false false str

def valueCut (str : Bytes) : Cut UInt8 := cut marks [COMMA] IGNORE_WHITE false false str

/-- An argument read in front of others. -/
def keepArg (a : Bytes × Bytes) (r : List (Bytes × Bytes) × Option Bytes) :
    List (Bytes × Bytes) × Option Bytes := (a :: r.1, r.2)

/-- The arguments read from a string, and what is left where reading stops. Nothing is left to go
on with at a name that is no option. -/
def readArgs (names : List Bytes) : ℕ → Bytes → List (Bytes × Bytes) × Option Bytes
  | 0, str => ([], some str)
  | fuel + 1, str =>
    if (nameCut str).token = [] then ([], some str)
    else if (nameCut str).token ∈ names then
      keepArg ((nameCut str).token, (valueCut (nameCut str).rest).token)
        (readArgs names fuel (valueCut (nameCut str).rest).rest)
    else ([], none)

/-- The last value that a list of arguments gives an option. -/
def lastValue : List (Bytes × Bytes) → Bytes → Option Bytes
  | [], _ => none
  | (n, v) :: args, name => (lastValue args name).or (if n = name then some v else none)

/-- A value as the options have it: NULL stands for the empty one. -/
def Denotes (mem : Memory) : Option Ptr → Bytes → Prop
  | none, v => v = []
  | some p, v => v ≠ [] ∧ Text mem p v

/-- The place of the first option of a name. -/
def place (vec : List OptionValue) (name : Bytes) : ℕ := (vec.map OptionValue.name).idxOf name

/-- The options have the last values the arguments give them, and what is not named is as it was. -/
structure SetBy (mem : Memory) (args : List (Bytes × Bytes)) (vec vec' : List OptionValue) :
    Prop where
  names : vec'.map OptionValue.name = vec.map OptionValue.name
  named : ∀ name v, lastValue args name = some v →
    ∃ o, vec'[place vec name]? = some o ∧ o.name = name ∧ Denotes mem o.value v
  others : ∀ i, (∀ name v, lastValue args name = some v → place vec name ≠ i) → vec'[i]? = vec[i]?

theorem lastValue_some {args : List (Bytes × Bytes)} {name v : Bytes}
    (h : lastValue args name = some v) : (name, v) ∈ args := by
  induction args with
  | nil => cases h
  | cons a args ih =>
    obtain ⟨n, w⟩ := a
    rw [lastValue] at h
    cases later : lastValue args name with
    | some u =>
      rw [later, Option.some_or] at h
      exact List.mem_cons_of_mem _ (ih (later.trans h))
    | none =>
      rw [later, Option.none_or] at h
      by_cases hn : n = name
      · rw [if_pos hn] at h
        obtain rfl := Option.some.inj h
        rw [hn]
        exact List.mem_cons_self
      · rw [if_neg hn] at h
        cases h

theorem nameCut_rest (str : Bytes) : (nameCut str).rest.length ≤ str.length :=
  (cut_rest _ _ _ false false str).length_le

theorem valueCut_rest (str : Bytes) : (valueCut str).rest.length ≤ str.length :=
  (cut_rest _ _ _ false false str).length_le

theorem readArgs_length {names : List Bytes} {fuel : ℕ} {left : Bytes}
    (h : (readArgs names fuel str).2 = some left) : left.length ≤ str.length := by
  induction fuel generalizing str with
  | zero =>
    obtain rfl := Option.some.inj h
    exact le_rfl
  | succ fuel ih =>
    unfold readArgs at h
    split_ifs at h with empty known
    · obtain rfl := Option.some.inj h
      exact le_rfl
    · exact (ih h).trans ((valueCut_rest _).trans (nameCut_rest str))

/-- Every name that is read is that of an option. -/
theorem readArgs_known {names : List Bytes} {fuel : ℕ} {a : Bytes × Bytes}
    (h : a ∈ (readArgs names fuel str).1) : a.1 ∈ names := by
  induction fuel generalizing str with
  | zero => exact absurd h List.not_mem_nil
  | succ fuel ih =>
    unfold readArgs at h
    split_ifs at h with empty known
    · exact absurd h List.not_mem_nil
    · rcases List.mem_cons.mp h with rfl | h
      · exact known
      · exact ih h
    · exact absurd h List.not_mem_nil

theorem place_lt {name : Bytes} (h : name ∈ vec.map OptionValue.name) :
    place vec name < vec.length := by
  have := List.idxOf_lt_length_of_mem h
  rwa [List.length_map] at this

theorem place_inj {n name : Bytes} (h : n ∈ vec.map OptionValue.name)
    (same : place vec n = place vec name) : n = name :=
  (List.idxOf_inj h).mp same

theorem place_congr (names : vec'.map OptionValue.name = vec.map OptionValue.name)
    (name : Bytes) : place vec' name = place vec name := by
  unfold place
  rw [names]

theorem readArgs_step (names : List Bytes) (fuel : ℕ) (h : (nameCut str).token ≠ [])
    (known : (nameCut str).token ∈ names) : readArgs names (fuel + 1) str =
      keepArg ((nameCut str).token, (valueCut (nameCut str).rest).token)
        (readArgs names fuel (valueCut (nameCut str).rest).rest) := by
  rw [readArgs, if_neg h, if_pos known]

/-- `setOption` sets the first option of the name. -/
theorem setOption_eq (name : Bytes) (value : Option Ptr) :
    setOption vec name value = if name ∈ vec.map OptionValue.name then
      some (vec.set (place vec name) ⟨name, value⟩) else none := by
  induction vec with
  | nil => rfl
  | cons v vec ih =>
    rw [setOption]
    by_cases here : v.name = name
    · rw [if_pos here, if_pos (by rw [List.map_cons, here]; exact List.mem_cons_self)]
      unfold place
      rw [List.map_cons, here, List.idxOf_cons_self, List.set_cons_zero]
    · have further : place (v :: vec) name = place vec name + 1 :=
        List.idxOf_cons_ne _ here
      rw [if_neg here, ih, further, List.set_cons_succ]
      have mem : name ∈ (v :: vec).map OptionValue.name ↔ name ∈ vec.map OptionValue.name := by
        rw [List.map_cons, List.mem_cons]
        exact or_iff_right fun h => here h.symm
      by_cases there : name ∈ vec.map OptionValue.name
      · rw [if_pos there, if_pos (mem.mpr there)]
        rfl
      · rw [if_neg there, if_neg fun h => there (mem.mp h)]
        rfl

theorem set_names {name : Bytes} (h : name ∈ vec.map OptionValue.name) (value : Option Ptr) :
    (vec.set (place vec name) ⟨name, value⟩).map OptionValue.name =
      vec.map OptionValue.name := by
  rw [List.map_set]
  apply List.ext_getElem?
  intro i
  rw [List.getElem?_set]
  by_cases hi : place vec name = i
  · subst hi
    have inside : place vec name < (vec.map OptionValue.name).length :=
      List.idxOf_lt_length_of_mem h
    rw [if_pos rfl, if_pos inside]
    exact (List.getElem?_idxOf h).symm
  · rw [if_neg hi]

theorem SetBy.nil : SetBy mem [] vec vec where
  names := rfl
  named _ _ h := by cases h
  others _ _ := rfl

/-- An argument in front of others that are read behind it. -/
theorem SetBy.cons {args : List (Bytes × Bytes)} {name v : Bytes} {value : Option Ptr}
    (known : name ∈ vec.map OptionValue.name) (all : ∀ a ∈ args, a.1 ∈ vec.map OptionValue.name)
    (denotes : Denotes mem value v)
    (later : SetBy mem args (vec.set (place vec name) ⟨name, value⟩) vec') :
    SetBy mem ((name, v) :: args) vec vec' := by
  have names := set_names known value
  have place := place_congr names
  constructor
  case names => rw [later.names, names]
  case named =>
    intro n w h
    rw [lastValue] at h
    cases again : lastValue args n with
    | some u =>
      rw [again, Option.some_or] at h
      obtain rfl := Option.some.inj h
      have there := later.named n u again
      rwa [place] at there
    | none =>
      rw [again, Option.none_or] at h
      by_cases hn : name = n
      · rw [if_pos hn] at h
        obtain rfl := Option.some.inj h
        subst hn
        refine ⟨⟨name, value⟩, ?_, rfl, denotes⟩
        rw [later.others, List.getElem?_set_self (place_lt known)]
        intro n' w' h' same
        rw [place] at same
        obtain rfl : n' = name := place_inj (all _ (lastValue_some h')) same
        rw [again] at h'
        cases h'
      · rw [if_neg hn] at h
        cases h
  case others =>
    intro i out
    have here : BootArgs.place vec name ≠ i := by
      cases again : lastValue args name with
      | some u => exact out name u (by rw [lastValue, again, Option.some_or])
      | none => exact out name v (by rw [lastValue, again, Option.none_or, if_pos rfl])
    rw [later.others i, List.getElem?_set_ne here]
    intro n w h
    rw [place]
    exact out n w (by rw [lastValue, h, Option.some_or])

/-- Two strings in one buffer do not overlap. -/
def Apart (mem : Memory) (p q : Ptr) : Prop :=
  ∀ v w, Text mem p v → Text mem q w → p.off + v.length < q.off ∨ q.off + w.length < p.off

/-- The values that are set are strings of their own, in front of `buf`. -/
structure Rows (mem : Memory) (buf : Ptr) (vec : List OptionValue) : Prop where
  row : ∀ o ∈ vec, ∀ p, o.value = some p → p.buffer = buf.buffer ∧
    ∃ v, v ≠ [] ∧ Text mem p v ∧ p.off + v.length ≤ buf.off
  apart : ∀ (i j : ℕ) (o o' : OptionValue), i ≠ j → vec[i]? = some o → vec[j]? = some o' →
    ∀ p q, o.value = some p → o'.value = some q → Apart mem p q

theorem Apart.symm {p q : Ptr} (h : Apart mem p q) : Apart mem q p :=
  fun v w hv hw => (h w v hw hv).symm

theorem Rows.unset (names : List Bytes) : Rows mem buf (unset names) := by
  have none : ∀ o ∈ SysioInit.unset names, o.value = none := by
    intro o ho
    obtain ⟨n, -, rfl⟩ := List.mem_map.mp ho
    rfl
  constructor
  case row =>
    intro o ho p hp
    rw [none o ho] at hp
    cases hp
  case apart =>
    intro i j o o' _ hi _ p q hp
    rw [none o (List.mem_of_getElem? hi)] at hp
    cases hp

/-- What is read behind the values leaves them. -/
theorem Rows.text {n : ℕ} (h : Rows mem buf vec) (text : Text mem buf str)
    (within : Within buf n mem mem') (len : n = str.length) {o : OptionValue} (ho : o ∈ vec)
    {p : Ptr} (hp : o.value = some p) : p.buffer = buf.buffer ∧
      ∃ v, v ≠ [] ∧ Text mem p v ∧ Text mem' p v ∧ p.off + v.length ≤ buf.off := by
  obtain ⟨buffer, v, nonempty, there, front⟩ := h.row o ho p hp
  refine ⟨buffer, v, nonempty, there, within.text there fun _ => ?_, front⟩
  rcases Nat.lt_or_eq_of_le front with strict | same
  · exact Or.inr (Or.inl strict)
  · -- the string ends where reading begins, so that there is nothing to read
    left
    have last := there.get le_rfl
    rw [List.getElem?_append_right le_rfl, Nat.sub_self, buffer, same] at last
    cases str with
    | nil => exact len
    | cons c str =>
      rw [text.head] at last
      obtain rfl : c = 0 := Option.some.inj last
      exact absurd List.mem_cons_self text.noNul

theorem Rows.kept {n k : ℕ} (h : Rows mem buf vec) (text : Text mem buf str)
    (within : Within buf n mem mem') (len : n = str.length) : Rows mem' (buf.add k) vec := by
  constructor
  case row =>
    intro o ho p hp
    obtain ⟨buffer, v, nonempty, -, there, front⟩ := h.text text within len ho hp
    exact ⟨buffer, v, nonempty, there, Nat.le_add_right_of_le front⟩
  case apart =>
    intro i j o o' ne hi hj p q hp hq v w hv hw
    obtain ⟨-, v', -, old, new, -⟩ := h.text text within len (List.mem_of_getElem? hi) hp
    obtain ⟨-, w', -, old', new', -⟩ := h.text text within len (List.mem_of_getElem? hj) hq
    rw [text_unique hv new, text_unique hw new']
    exact h.apart i j o o' ne hi hj p q hp hq v' w' old old'

/-- A value that is set behind the others. -/
theorem Rows.set {at_ : ℕ} {name v : Bytes} {nxt rest : Ptr} (h : Rows mem rest vec)
    (front : ∀ o ∈ vec, ∀ p, o.value = some p → ∀ u, Text mem p u → p.off + u.length < nxt.off)
    (buffer : nxt.buffer = rest.buffer) (text : Text mem nxt v) (ends : nxt.off + v.length ≤ rest.off) :
    Rows mem rest (vec.set at_ ⟨name, if v = [] then none else some nxt⟩) := by
  have new : ∀ p, (if v = [] then none else some nxt) = some p → v ≠ [] ∧ p = nxt := by
    intro p hp
    by_cases empty : v = []
    · rw [if_pos empty] at hp
      cases hp
    · rw [if_neg empty] at hp
      exact ⟨empty, (Option.some.inj hp).symm⟩
  have behind : ∀ o ∈ vec, ∀ p q, o.value = some p →
      (if v = [] then none else some nxt) = some q → Apart mem p q := by
    intro o ho p q hp hq u w hu _
    rw [(new q hq).2]
    exact Or.inl (front o ho p hp u hu)
  constructor
  case row =>
    intro o ho p hp
    rcases List.mem_or_eq_of_mem_set ho with old | rfl
    · exact h.row o old p hp
    · obtain ⟨nonempty, rfl⟩ := new p hp
      exact ⟨buffer, v, nonempty, text, ends⟩
  case apart =>
    intro i j o o' ne hi hj p q hp hq
    rw [List.getElem?_set] at hi hj
    by_cases hia : at_ = i
    · have hja : at_ ≠ j := fun same => ne (hia.symm.trans same)
      rw [if_neg hja] at hj
      subst hia
      rw [if_pos rfl] at hi
      by_cases inside : at_ < vec.length
      · rw [if_pos inside] at hi
        obtain rfl := Option.some.inj hi
        exact (behind o' (List.mem_of_getElem? hj) q p hq hp).symm
      · rw [if_neg inside] at hi
        cases hi
    · rw [if_neg hia] at hi
      by_cases hja : at_ = j
      · subst hja
        rw [if_pos rfl] at hj
        by_cases inside : at_ < vec.length
        · rw [if_pos inside] at hj
          obtain rfl := Option.some.inj hj
          exact behind o (List.mem_of_getElem? hi) p q hp hq
        · rw [if_neg inside] at hj
          cases hj
      · rw [if_neg hja] at hj
        exact h.apart i j o o' ne hi hj p q hp hq

/-- Reading a name that is not empty takes something off the string. -/
theorem nameCut_shorter (h : (nameCut str).token ≠ []) :
    (valueCut (nameCut str).rest).rest.length < str.length := by
  have short := cut_length marks [EQUALS, COMMA] IGNORE_WHITE false false str
  have value := valueCut_rest (nameCut str).rest
  have long := List.length_pos_of_ne_nil h
  unfold nameCut at *
  omega

theorem denotes_value {p : Ptr} (h : Text mem p str) :
    Denotes mem (if str = [] then none else some p) str := by
  by_cases empty : str = []
  · rw [if_pos empty]
    exact empty
  · rw [if_neg empty]
    exact ⟨empty, h⟩

theorem byteAt_text {p : Ptr} (h : Text s.mem p str) :
    ∃ c, byteAt p s = .ok (c, s) ∧ (c = 0 ↔ str = []) := by
  cases str with
  | nil => exact ⟨0, byteAt_run h.stop, by simp⟩
  | cons c str =>
    refine ⟨c, byteAt_run h.head, ?_⟩
    constructor
    · rintro rfl
      exact absurd List.mem_cons_self h.noNul
    · intro no
      cases no

/-- The loop of `_sysio_get_args` reads the arguments and sets them. -/
theorem getArgsLoop_reads (fuel : ℕ) (vec : List OptionValue) (text : Text s.mem buf str) (enough : str.length < fuel) :
    ∃ vec' t, getArgsLoop fuel buf vec s = .ok
        (((readArgs (vec.map OptionValue.name) fuel str).2.map
          fun left => buf.add (str.length - left.length), vec'), t) ∧
      t.sys = s.sys ∧ Within buf str.length s.mem t.mem ∧
      SetBy t.mem (readArgs (vec.map OptionValue.name) fuel str).1 vec vec' ∧
      (Rows s.mem buf vec → Rows t.mem (buf.add str.length) vec') := by
  induction fuel generalizing buf str vec s with
  | zero => exact absurd enough (Nat.not_lt_zero _)
  | succ fuel ih =>
    obtain ⟨s₁, run₁, sys₁, within₁, name, behind⟩ := sysioGetToken_inPlace [EQUALS, COMMA]
      IGNORE_WHITE text
    have behindName := nameCut_rest str
    have behindValue := valueCut_rest (nameCut str).rest
    change sysioGetToken buf true [EQUALS, COMMA] IGNORE_WHITE buf s =
      .ok (some (buf.add (str.length - (nameCut str).rest.length)), s₁) at run₁
    change Text s₁.mem buf (nameCut str).token at name
    change Text s₁.mem (buf.add (str.length - (nameCut str).rest.length)) (nameCut str).rest
      at behind
    generalize nextAt : buf.add (str.length - (nameCut str).rest.length) = nxt at run₁ behind
    obtain ⟨c, first, nul⟩ := byteAt_text name
    rw [getArgsLoop, bind_run run₁]
    dsimp only
    rw [bind_run first]
    by_cases empty : (nameCut str).token = []
    · -- the name was cut off in place, so that the test for the end of the buffer never holds
      have here : readArgs (vec.map OptionValue.name) (fuel + 1) str = ([], some str) := by
        rw [readArgs, if_pos empty]
      rw [empty] at name
      rw [here]
      refine ⟨vec, s₁, ?_, sys₁, within₁, SetBy.nil, fun rows => rows.kept text within₁ rfl⟩
      have zero : c = 0 := nul.mpr empty
      dsimp only [Option.map_some]
      rw [Nat.sub_self, Ptr.add_zero]
      by_cases moved : nxt ≠ buf
      · rw [if_pos ⟨moved, zero⟩, bind_run (strlen_run name), List.length_nil, Ptr.add_zero,
          if_neg fun same => moved same.symm, if_pos zero]
        rfl
      · rw [if_neg fun h => moved h.1, if_pos zero]
        rfl
    · have more : c ≠ 0 := fun h => empty (nul.mp h)
      rw [if_neg fun h => more h.2, if_neg more]
      obtain ⟨s₂, run₂, sys₂, within₂, value, rest⟩ := sysioGetToken_inPlace [COMMA] IGNORE_WHITE
        behind
      change sysioGetToken nxt true [COMMA] IGNORE_WHITE nxt s₁ = .ok (some (nxt.add
        ((nameCut str).rest.length - (valueCut (nameCut str).rest).rest.length)), s₂) at run₂
      change Text s₂.mem nxt (valueCut (nameCut str).rest).token at value
      change Text s₂.mem (nxt.add ((nameCut str).rest.length -
        (valueCut (nameCut str).rest).rest.length)) (valueCut (nameCut str).rest).rest at rest
      have key : Text s₂.mem buf (nameCut str).token := by
        apply Text.token_kept name
        change Within (buf.add (str.length - (nameCut str).rest.length)) (nameCut str).rest.length
          s₁.mem s₂.mem
        rw [nextAt]
        exact within₂
      obtain ⟨d, second, nul'⟩ := byteAt_text value
      rw [bind_run run₂]
      dsimp only
      rw [bind_run (cString_run key), bind_run second]
      simp only [nul']
      rw [setOption_eq]
      have start : nxt = buf.add (str.length - (nameCut str).rest.length) := nextAt.symm
      have within : Within buf str.length s.mem s₂.mem := by
        rw [start] at within₂
        exact within₁.trans within₂ (by omega)
      by_cases known : (nameCut str).token ∈ vec.map OptionValue.name
      · rw [if_pos known, readArgs_step _ _ empty known]
        dsimp only
        have names := set_names known
          (if (valueCut (nameCut str).rest).token = [] then none else some nxt)
        have less : (valueCut (nameCut str).rest).rest.length < fuel := by
          have := nameCut_shorter empty
          omega
        obtain ⟨vec', t, run, sys, within', set, later⟩ := ih
          (vec.set (place vec (nameCut str).token) ⟨(nameCut str).token,
            if (valueCut (nameCut str).rest).token = [] then none else some nxt⟩) rest less
        rw [names] at run set
        refine ⟨vec', t, ?_, sys.trans (sys₂.trans sys₁), ?_, ?_, fun rows => ?_⟩
        · rw [run]
          dsimp only [keepArg]
          cases stop : (readArgs (vec.map OptionValue.name) fuel
              (valueCut (nameCut str).rest).rest).2 with
          | none => rfl
          | some left =>
            have := readArgs_length stop
            dsimp only [Option.map_some]
            rw [start, Ptr.add_add, Ptr.add_add]
            congr 5
            omega
        · rw [start, Ptr.add_add] at within'
          exact within.trans within' (by omega)
        · apply SetBy.cons known (fun a => readArgs_known) _ set
          apply denotes_value
          exact Text.token_kept value within'
        · have long := List.length_pos_of_ne_nil empty
          have cutName := cut_length marks [EQUALS, COMMA] IGNORE_WHITE false false str
          have cutValue := cut_length marks [COMMA] IGNORE_WHITE false false (nameCut str).rest
          change (nameCut str).token.length + (nameCut str).rest.length + _ ≤ _ at cutName
          change (valueCut (nameCut str).rest).token.length +
            (valueCut (nameCut str).rest).rest.length + _ ≤ _ at cutValue
          have whole : (nxt.add ((nameCut str).rest.length -
              (valueCut (nameCut str).rest).rest.length)).add
              (valueCut (nameCut str).rest).rest.length = buf.add str.length := by
            rw [start, Ptr.add_add, Ptr.add_add]
            congr 1
            omega
          rw [← whole]
          apply later
          have older : Rows s₂.mem (nxt.add ((nameCut str).rest.length -
              (valueCut (nameCut str).rest).rest.length)) vec := by
            rw [start, Ptr.add_add]
            exact rows.kept text within rfl
          refine older.set ?_ (Ptr.add_buffer nxt _).symm value ?_
          · intro o ho p hp u hu
            obtain ⟨-, v, -, -, there, front⟩ := rows.text text within rfl ho hp
            rw [text_unique hu there, start, Ptr.add_off]
            omega
          · rw [Ptr.add_off]
            omega
      · rw [if_neg known]
        have none : readArgs (vec.map OptionValue.name) (fuel + 1) str = ([], none) := by
          rw [readArgs, if_neg empty, if_neg known]
        rw [none]
        exact ⟨vec, s₂, rfl, sys₂.trans sys₁, within, SetBy.nil,
          fun rows => rows.kept text within rfl⟩

/-- Enough fuel is as good as more. -/
theorem readArgs_fuel (names : List Bytes) {fuel fuel' : ℕ} (enough : str.length < fuel)
    (enough' : str.length < fuel') : readArgs names fuel str = readArgs names fuel' str := by
  induction fuel generalizing fuel' str with
  | zero => exact absurd enough (Nat.not_lt_zero _)
  | succ fuel ih =>
    obtain _ | fuel' := fuel'
    · exact absurd enough' (Nat.not_lt_zero _)
    rw [readArgs, readArgs]
    by_cases empty : (nameCut str).token = []
    · rw [if_pos empty, if_pos empty]
    · have shorter := nameCut_shorter empty
      rw [if_neg empty, if_neg empty]
      by_cases known : (nameCut str).token ∈ names
      · rw [if_pos known, if_pos known]
        congr 1
        apply ih
        · omega
        · omega
      · rw [if_neg known, if_neg known]

/-- The arguments read from a string, with fuel enough for it. -/
def argsOf (names : List Bytes) (str : Bytes) : List (Bytes × Bytes) × Option Bytes :=
  readArgs names (str.length + 1) str

theorem argsOf_length {names : List Bytes} {left : Bytes} (h : (argsOf names str).2 = some left) :
    left.length ≤ str.length :=
  readArgs_length h

theorem argsOf_empty (names : List Bytes) (h : (nameCut str).token = []) :
    argsOf names str = ([], some str) := by
  rw [argsOf, readArgs, if_pos h]

theorem argsOf_unknown {names : List Bytes} (h : (nameCut str).token ≠ [])
    (unknown : (nameCut str).token ∉ names) : argsOf names str = ([], none) := by
  rw [argsOf, readArgs, if_neg h, if_neg unknown]

theorem argsOf_step {names : List Bytes} (h : (nameCut str).token ≠ [])
    (known : (nameCut str).token ∈ names) : argsOf names str =
      keepArg ((nameCut str).token, (valueCut (nameCut str).rest).token)
        (argsOf names (valueCut (nameCut str).rest).rest) := by
  rw [argsOf, readArgs_step _ _ h known, argsOf,
    readArgs_fuel names (nameCut_shorter h) (Nat.lt_succ_self _)]

/-- `_sysio_get_args` reads the arguments of its string and sets them. -/
theorem sysioGetArgs_reads (text : Text s.mem buf str) (vec : List OptionValue) :
    ∃ vec' t, sysioGetArgs buf vec s = .ok
        (((argsOf (vec.map OptionValue.name) str).2.map
          fun left => buf.add (str.length - left.length), vec'), t) ∧
      t.sys = s.sys ∧ Within buf str.length s.mem t.mem ∧
      SetBy t.mem (argsOf (vec.map OptionValue.name) str).1 vec vec' ∧
      (Rows s.mem buf vec → Rows t.mem (buf.add str.length) vec') := by
  have left : bytesLeft buf s = .ok ((s.mem buf.buffer).length - buf.off, s) := rfl
  have enough : str.length < (s.mem buf.buffer).length - buf.off + 1 := by
    have := text.room
    omega
  have reads := getArgsLoop_reads _ vec text enough
  rw [readArgs_fuel _ enough (Nat.lt_succ_self _)] at reads
  rw [sysioGetArgs, bind_run left]
  exact reads

/-- The whole string was read if nothing is left of it. -/
theorem read_whole (buf : Ptr) (str : Bytes) {left : Option Bytes} (short : ∀ l, left = some l → l.length ≤ str.length) :
    left.map (fun l => buf.add (str.length - l.length)) = some (buf.add str.length) ↔
      left = some [] := by
  cases left with
  | none =>
    constructor
    · intro h
      cases h
    · intro h
      cases h
  | some l =>
    have := short l rfl
    rw [Option.map_some, Option.some_inj, Option.some_inj, Ptr.add, Ptr.add, Ptr.mk.injEq,
      ← List.length_eq_zero_iff]
    constructor
    · rintro ⟨-, h⟩
      omega
    · intro h
      exact ⟨rfl, by omega⟩

end BootArgs
