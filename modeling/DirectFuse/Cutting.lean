import Mathlib.Data.List.Basic
import Mathlib.Data.Nat.Notation

/-! Cutting a token off the front of a text: it ends at a delimiter, what is to be ignored is left
out, and a quoted or escaped symbol stands for itself. -/
namespace Cutting

theorem forall_mem_of_all {β : Type} {P : β → Prop} [DecidablePred P] {l : List β}
    (all : (l.all fun c => decide (P c)) = true) : ∀ c ∈ l, P c := fun c hc =>
  of_decide_eq_true (List.all_eq_true.mp all c hc)

variable {α : Type} [DecidableEq α]

/-- The symbols with a meaning of their own. -/
structure Marks (α : Type) where
  escape : α
  quote : α

/-- A token, whether it was ended by a delimiter, and what is behind. -/
structure Cut (α : Type) where
  token : List α
  found : Bool
  rest : List α
  deriving DecidableEq, Repr

def Cut.keep (c : α) (k : Cut α) : Cut α := { k with token := c :: k.token }

variable (m : Marks α) (delim ignore : List α)

def cut : Bool → Bool → List α → Cut α
  | _, _, [] => ⟨[], false, []⟩
  | escape, quote, c :: str =>
    if ¬ escape ∧ c = m.escape then cut true quote str
    else if ¬ escape ∧ c = m.quote then cut false (!quote) str
    else if ¬ escape ∧ ¬ quote ∧ c ∈ delim then ⟨[], true, str⟩
    else if ¬ escape ∧ ¬ quote ∧ c ∈ ignore then cut false quote str
    else (cut false quote str).keep c

/-- A symbol that is neither a mark nor ends a token nor is left out of it. -/
structure Ordinary (c : α) : Prop where
  escape : c ≠ m.escape
  quote : c ≠ m.quote
  delim : c ∉ delim
  ignore : c ∉ ignore

/-- No symbol of the text is a mark. -/
def Unmarked (str : List α) : Prop := m.escape ∉ str ∧ m.quote ∉ str

variable {m delim ignore}

omit [DecidableEq α] in
theorem unmarked_cons {c : α} {str : List α} :
    Unmarked m (c :: str) ↔ (c ≠ m.escape ∧ c ≠ m.quote) ∧ Unmarked m str := by
  unfold Unmarked
  simp only [List.mem_cons, not_or, ne_comm (a := c), ne_eq]
  tauto

omit [DecidableEq α] in
theorem unmarked_append {s t : List α} :
    Unmarked m (s ++ t) ↔ Unmarked m s ∧ Unmarked m t := by
  unfold Unmarked
  simp only [List.mem_append, not_or]
  tauto

variable (m delim ignore) in
/-- What is cut off is shorter than what it was cut from, and the delimiter is gone. -/
theorem cut_length (escape quote : Bool) (str : List α) :
    (cut m delim ignore escape quote str).token.length +
      (cut m delim ignore escape quote str).rest.length +
      (cut m delim ignore escape quote str).found.toNat ≤ str.length := by
  induction str generalizing escape quote with
  | nil => simp [cut]
  | cons c str ih =>
    unfold cut
    split_ifs with h₁ h₂ h₃ h₄
    · exact Nat.le_succ_of_le (ih true quote)
    · exact Nat.le_succ_of_le (ih false !quote)
    · simp
    · exact Nat.le_succ_of_le (ih false quote)
    · have := ih false quote
      simp only [Cut.keep, List.length_cons]
      omega

variable (m delim ignore) in
/-- What is behind the token is the end of the text. -/
theorem cut_rest (escape quote : Bool) (str : List α) :
    (cut m delim ignore escape quote str).rest <:+ str := by
  induction str generalizing escape quote with
  | nil => exact List.nil_suffix
  | cons c str ih =>
    unfold cut
    split_ifs with h₁ h₂ h₃ h₄
    · exact (ih true quote).trans (List.suffix_cons c str)
    · exact (ih false !quote).trans (List.suffix_cons c str)
    · exact List.suffix_cons c str
    · exact (ih false quote).trans (List.suffix_cons c str)
    · exact (ih false quote).trans (List.suffix_cons c str)

theorem cut_not_found (escape quote : Bool) (str : List α)
    (h : (cut m delim ignore escape quote str).found = false) :
    (cut m delim ignore escape quote str).rest = [] := by
  induction str generalizing escape quote with
  | nil => rfl
  | cons c str ih =>
    unfold cut at h ⊢
    split_ifs at h ⊢ with h₁ h₂ h₃ h₄
    · exact ih true quote h
    · exact ih false (!quote) h
    · exact ih false quote h
    · exact ih false quote h

theorem mem_token {escape quote : Bool} {str : List α} {c : α}
    (h : c ∈ (cut m delim ignore escape quote str).token) : c ∈ str := by
  induction str generalizing escape quote with
  | nil => exact absurd h List.not_mem_nil
  | cons d str ih =>
    unfold cut at h
    split_ifs at h with h₁ h₂ h₃ h₄
    · exact List.mem_cons_of_mem d (ih h)
    · exact List.mem_cons_of_mem d (ih h)
    · exact absurd h List.not_mem_nil
    · exact List.mem_cons_of_mem d (ih h)
    · rcases List.mem_cons.mp h with rfl | h
      · exact List.mem_cons_self
      · exact List.mem_cons_of_mem d (ih h)

/-- A token of a text without marks has neither delimiters in it nor what is left out. -/
theorem ordinary_token {str : List α} (unmarked : Unmarked m str) {c : α}
    (h : c ∈ (cut m delim ignore false false str).token) : Ordinary m delim ignore c := by
  induction str with
  | nil => exact absurd h List.not_mem_nil
  | cons d str ih =>
    obtain ⟨⟨notEscape, notQuote⟩, unmarked⟩ := unmarked_cons.mp unmarked
    unfold cut at h
    rw [if_neg fun h => notEscape h.2, if_neg fun h => notQuote h.2] at h
    by_cases hd : d ∈ delim
    · rw [if_pos ⟨Bool.false_ne_true, Bool.false_ne_true, hd⟩] at h
      exact absurd h List.not_mem_nil
    rw [if_neg fun h => hd h.2.2] at h
    by_cases hi : d ∈ ignore
    · rw [if_pos ⟨Bool.false_ne_true, Bool.false_ne_true, hi⟩] at h
      exact ih unmarked h
    rw [if_neg fun h => hi h.2.2] at h
    rcases List.mem_cons.mp h with rfl | h
    · exact ⟨notEscape, notQuote, hd, hi⟩
    · exact ih unmarked h

theorem cut_ordinary {c : α} (h : Ordinary m delim ignore c) (str : List α) :
    cut m delim ignore false false (c :: str) = (cut m delim ignore false false str).keep c := by
  rw [cut, if_neg fun e => h.escape e.2, if_neg fun e => h.quote e.2, if_neg fun e => h.delim e.2.2,
    if_neg fun e => h.ignore e.2.2]

/-- A word goes into the token as it is. -/
theorem cut_word {word : List α} (h : ∀ c ∈ word, Ordinary m delim ignore c) (str : List α) :
    cut m delim ignore false false (word ++ str) =
      { cut m delim ignore false false str with
        token := word ++ (cut m delim ignore false false str).token } := by
  induction word with
  | nil => rfl
  | cons c word ih =>
    have here := h c List.mem_cons_self
    have later := ih fun d hd => h d (List.mem_cons_of_mem c hd)
    rw [List.cons_append, cut_ordinary here, later]
    rfl

/-- A word up to the end of the text. -/
theorem cut_whole {word : List α} (h : ∀ c ∈ word, Ordinary m delim ignore c) :
    cut m delim ignore false false word = ⟨word, false, []⟩ := by
  have whole := cut_word h []
  rw [List.append_nil] at whole
  rw [whole]
  simp [cut]

/-- A word up to a delimiter. -/
theorem cut_at {word : List α} (h : ∀ c ∈ word, Ordinary m delim ignore c) {d : α} (hd : d ∈ delim)
    (hm : d ≠ m.escape ∧ d ≠ m.quote) (str : List α) :
    cut m delim ignore false false (word ++ d :: str) = ⟨word, true, str⟩ := by
  have front : cut m delim ignore false false (d :: str) = ⟨[], true, str⟩ := by
    rw [cut, if_neg fun e => hm.1 e.2, if_neg fun e => hm.2 e.2, if_pos ⟨by simp, by simp, hd⟩]
  rw [cut_word h, front, List.append_nil]

variable (delim) in
/-- A text in which nothing is marked or left out is cut at its first delimiter, if it has one. -/
theorem cut_free {str : List α} (free : ∀ c ∈ str, (c ≠ m.escape ∧ c ≠ m.quote) ∧ c ∉ ignore) :
    (∀ c ∈ str, c ∉ delim) ∧ cut m delim ignore false false str = ⟨str, false, []⟩ ∨
    ∃ word d rest, str = word ++ d :: rest ∧ (∀ c ∈ word, c ∉ delim) ∧ d ∈ delim ∧
      cut m delim ignore false false str = ⟨word, true, rest⟩ := by
  induction str with
  | nil => exact Or.inl ⟨fun c h => absurd h List.not_mem_nil, rfl⟩
  | cons c str ih =>
    have here := free c List.mem_cons_self
    by_cases hd : c ∈ delim
    · right
      exact ⟨[], c, str, rfl, fun c h => absurd h List.not_mem_nil, hd,
        cut_at (fun c h => absurd h List.not_mem_nil) hd here.1 str⟩
    · have front := cut_ordinary ⟨here.1.1, here.1.2, hd, here.2⟩ str
      rcases ih fun e he => free e (List.mem_cons_of_mem c he) with
        ⟨none, whole⟩ | ⟨word, d, rest, rfl, none, hd', whole⟩
      · left
        rw [front, whole]
        exact ⟨List.forall_mem_cons.mpr ⟨hd, none⟩, rfl⟩
      · right
        rw [front, whole]
        exact ⟨c :: word, d, rest, rfl, List.forall_mem_cons.mpr ⟨hd, none⟩, hd', rfl⟩

omit [DecidableEq α] in
/-- A text has one first delimiter. -/
theorem first_unique {word word' : List α} {d d' : α} {rest rest' : List α}
    (same : word ++ d :: rest = word' ++ d' :: rest') (free : ∀ c ∈ word, c ∉ delim)
    (free' : ∀ c ∈ word', c ∉ delim) (hd : d ∈ delim) (hd' : d' ∈ delim) :
    word = word' ∧ d = d' ∧ rest = rest' := by
  induction word generalizing word' with
  | nil =>
    cases word' with
    | nil =>
      obtain ⟨rfl, rfl⟩ := List.cons.inj same
      exact ⟨rfl, rfl, rfl⟩
    | cons c word' =>
      obtain ⟨rfl, -⟩ := List.cons.inj same
      exact absurd hd (free' _ List.mem_cons_self)
  | cons c word ih =>
    cases word' with
    | nil =>
      obtain ⟨rfl, -⟩ := List.cons.inj same
      exact absurd hd' (free _ List.mem_cons_self)
    | cons c' word' =>
      obtain ⟨rfl, tail⟩ := List.cons.inj same
      obtain ⟨rfl, rest⟩ := ih tail (fun e he => free e (List.mem_cons_of_mem c he))
        fun e he => free' e (List.mem_cons_of_mem c he)
      exact ⟨rfl, rest⟩

variable (m delim ignore) in
/-- A text that is read as it stands up to its end: what is quoted or escaped stands for itself. -/
inductive Reads : List α → List α → Prop where
  | nil : Reads [] []
  | ignored {c : α} {str out : List α} : c ≠ m.escape → c ≠ m.quote → c ∉ delim → c ∈ ignore →
      Reads str out → Reads (c :: str) out
  | ordinary {c : α} {str out : List α} : Ordinary m delim ignore c → Reads str out →
      Reads (c :: str) (c :: out)
  | escaped {c : α} {str out : List α} : Reads str out → Reads (m.escape :: c :: str) (c :: out)
  | quoted {text str out : List α} : Unmarked m text → Reads str out →
      Reads (m.quote :: (text ++ m.quote :: str)) (text ++ out)

omit [DecidableEq α] in
theorem Reads.append {s t out out' : List α} (h : Reads m delim ignore s out)
    (h' : Reads m delim ignore t out') : Reads m delim ignore (s ++ t) (out ++ out') := by
  induction h with
  | nil => exact h'
  | ignored escape quote hd hi _ ih => exact Reads.ignored escape quote hd hi ih
  | ordinary hc _ ih => exact Reads.ordinary hc ih
  | escaped _ ih => exact Reads.escaped ih
  | quoted unmarked _ ih =>
    rw [List.cons_append, List.append_assoc, List.cons_append, List.append_assoc]
    exact Reads.quoted unmarked ih

omit [DecidableEq α] in
theorem Reads.word {word : List α} (h : ∀ c ∈ word, Ordinary m delim ignore c) :
    Reads m delim ignore word word := by
  induction word with
  | nil => exact Reads.nil
  | cons c word ih =>
    exact Reads.ordinary (h c List.mem_cons_self) (ih fun d hd => h d (List.mem_cons_of_mem c hd))

theorem cut_inQuotes {text : List α} (unmarked : Unmarked m text) (str : List α)
    (apart : m.quote ≠ m.escape) :
    cut m delim ignore false true (text ++ m.quote :: str) =
      { cut m delim ignore false false str with
        token := text ++ (cut m delim ignore false false str).token } := by
  induction text with
  | nil =>
    rw [List.nil_append, cut, if_neg fun h => apart h.2, if_pos ⟨Bool.false_ne_true, rfl⟩]
    rfl
  | cons c text ih =>
    obtain ⟨⟨escape, quote⟩, unmarked⟩ := unmarked_cons.mp unmarked
    rw [List.cons_append, cut, if_neg fun h => escape h.2, if_neg fun h => quote h.2,
      if_neg fun h => h.2.1 rfl, if_neg fun h => h.2.1 rfl, ih unmarked]
    rfl

/-- What is read goes into the token. -/
theorem cut_reads {s out : List α} (h : Reads m delim ignore s out) (apart : m.quote ≠ m.escape)
    (str : List α) : cut m delim ignore false false (s ++ str) =
      { cut m delim ignore false false str with
        token := out ++ (cut m delim ignore false false str).token } := by
  induction h with
  | nil => rfl
  | ignored escape quote hd hi _ ih =>
    rw [List.cons_append, cut, if_neg fun e => escape e.2, if_neg fun e => quote e.2,
      if_neg fun e => hd e.2.2, if_pos ⟨Bool.false_ne_true, Bool.false_ne_true, hi⟩, ih]
  | ordinary hc _ ih =>
    rw [List.cons_append, cut_ordinary hc, ih]
    rfl
  | @escaped c s out _ ih =>
    rw [List.cons_append, List.cons_append, cut, if_pos ⟨Bool.false_ne_true, rfl⟩, cut,
      if_neg fun h => h.1 rfl, if_neg fun h => h.1 rfl, if_neg fun h => h.1 rfl,
      if_neg fun h => h.1 rfl, ih]
    rfl
  | quoted unmarked _ ih =>
    rw [List.cons_append, List.append_assoc, List.cons_append, cut, if_neg fun h => apart h.2,
      if_pos ⟨Bool.false_ne_true, rfl⟩, Bool.not_false, cut_inQuotes unmarked _ apart, ih,
      List.append_assoc]

end Cutting
