import DirectFuse.ExecLogic
import DirectFuse.ByteRange

/-! Readers of a sequence. A reader takes a value off the front of what is left to be read, or finds
that no value stands there. A format tells which words spell a value, and readers that are put
together read the formats put together. -/
namespace Codec

open ExecLogic

variable {σ ε α β γ : Type}

/-- What is left to be read in a state, and in which states reading is in order. -/
structure Source (σ β : Type) where
  rest : σ → List β
  sound : σ → Prop

/-- `Fmt a w` says that the word `w` spells `a`. -/
abbrev Format (α β : Type) := α → List β → Prop

/-- The reader stops at no fault. It takes off the front any word of the format, and gives the value
that the word spells; where there is no such word it says so. -/
def Reads (v : Source σ β) (m : Exec σ ε (Option α)) (fmt : Format α β) : Prop :=
  ∀ s, v.sound s →
    (∀ a w r, fmt a w → v.rest s = w ++ r →
      ∃ t, m s = .ok (some a, t) ∧ v.sound t ∧ v.rest t = r) ∧
    ((∀ a w r, fmt a w → v.rest s ≠ w ++ r) → ∃ t, m s = .ok (none, t) ∧ v.sound t)

/-- Goes on with the value that was read, if there was one. -/
def andRead (m : Exec σ ε (Option α)) (f : α → Exec σ ε (Option γ)) : Exec σ ε (Option γ) := do
  match ← m with
  | none => pure none
  | some a => f a

/-- Reads a number of values one after the other. -/
def readList (m : Exec σ ε (Option α)) : ℕ → Exec σ ε (Option (List α))
  | 0 => pure (some [])
  | n + 1 => andRead m fun a => andRead (readList m n) fun l => pure (some (a :: l))

/-- A value, and behind it one of a format that may depend on the first. -/
def Format.seq (fmt : Format α β) (next : α → Format γ β) : Format γ β := fun c w =>
  ∃ a u v, w = u ++ v ∧ fmt a u ∧ next a c v

/-- What needs no word. -/
def Format.empty (a : α) : Format α β := fun b w => b = a ∧ w = []

/-- A list of values one after the other. -/
def Format.list (fmt : Format α β) : ℕ → Format (List α) β
  | 0 => Format.empty []
  | n + 1 => fmt.seq fun a => (Format.list fmt n).seq fun l => Format.empty (a :: l)

section Rules

variable {v : Source σ β} {m : Exec σ ε (Option α)} {fmt : Format α β}

theorem reads_congr {fmt' : Format α β} (h : Reads v m fmt) (same : ∀ a w, fmt a w ↔ fmt' a w) :
    Reads v m fmt' := by
  obtain rfl : fmt = fmt' := by
    funext a w
    exact propext (same a w)
  exact h

theorem reads_pure (a : α) : Reads v (pure (some a) : Exec σ ε (Option α)) (Format.empty a) := by
  intro s sound
  constructor
  · rintro b w r ⟨rfl, rfl⟩ hr
    exact ⟨s, rfl, sound, by simpa using hr⟩
  · intro none_
    exact absurd rfl (none_ a [] (v.rest s) ⟨rfl, rfl⟩)

theorem reads_seq {f : α → Exec σ ε (Option γ)} {next : α → Format γ β} (hm : Reads v m fmt)
    (hf : ∀ a, Reads v (f a) (next a)) : Reads v (andRead m f) (fmt.seq next) := by
  intro s sound
  constructor
  · rintro c w r ⟨a, u, x, rfl, ha, hc⟩ hr
    rw [List.append_assoc] at hr
    obtain ⟨t, hrun, hsound, hrest⟩ := (hm s sound).1 a u (x ++ r) ha hr
    obtain ⟨t', hrun', hsound', hrest'⟩ := (hf a t hsound).1 c x r hc hrest
    refine ⟨t', ?_, hsound', hrest'⟩
    unfold andRead
    rw [bind_run hrun]
    exact hrun'
  · intro none_
    by_cases there : ∃ a u r, fmt a u ∧ v.rest s = u ++ r
    · obtain ⟨a, u, r, ha, hu⟩ := there
      obtain ⟨t, hrun, hsound, hrest⟩ := (hm s sound).1 a u r ha hu
      have missing : ∀ c x r', next a c x → v.rest t ≠ x ++ r' := by
        intro c x r' hc hx
        apply none_ c (u ++ x) r' ⟨a, u, x, rfl, ha, hc⟩
        rw [hu, ← hrest, hx, List.append_assoc]
      obtain ⟨t', hrun', hsound'⟩ := (hf a t hsound).2 missing
      refine ⟨t', ?_, hsound'⟩
      unfold andRead
      rw [bind_run hrun]
      exact hrun'
    · obtain ⟨t, hrun, hsound⟩ := (hm s sound).2 fun a u r ha hu => there ⟨a, u, r, ha, hu⟩
      refine ⟨t, ?_, hsound⟩
      unfold andRead
      rw [bind_run hrun]
      rfl

theorem reads_list (hm : Reads v m fmt) (n : ℕ) : Reads v (readList m n) (fmt.list n) := by
  induction n with
  | zero => exact reads_pure []
  | succ n ih => exact reads_seq hm fun a => reads_seq ih fun l => reads_pure (a :: l)

end Rules

section Stopping

variable {e : ε}

/-- Where `m` does not run as `m'` does, it stops at the fault `e`. -/
def StopsAt (e : ε) (m m' : Exec σ ε α) : Prop := ∀ s, m s = m' s ∨ m s = .error e

theorem stopsAt_refl (m : Exec σ ε α) : StopsAt e m m := fun _ => Or.inl rfl

theorem stopsAt_bind {m m' : Exec σ ε α} {f f' : α → Exec σ ε γ} (hm : StopsAt e m m')
    (hf : ∀ a, StopsAt e (f a) (f' a)) : StopsAt e (m >>= f) (m' >>= f') := by
  intro s
  rcases hm s with same | stopped
  · cases run : m' s with
    | error e' =>
      left
      rw [bind_error run, bind_error (same.trans run)]
    | ok res =>
      obtain ⟨a, t⟩ := res
      rw [bind_run run, bind_run (same.trans run)]
      exact hf a t
  · right
    exact bind_error stopped

theorem stopsAt_andRead {m m' : Exec σ ε (Option α)} {f f' : α → Exec σ ε (Option γ)}
    (hm : StopsAt e m m') (hf : ∀ a, StopsAt e (f a) (f' a)) :
    StopsAt e (andRead m f) (andRead m' f') := by
  refine stopsAt_bind hm fun o => ?_
  cases o with
  | none => exact stopsAt_refl _
  | some a => exact hf a

theorem stopsAt_readList {m m' : Exec σ ε (Option α)} (hm : StopsAt e m m') (n : ℕ) :
    StopsAt e (readList m n) (readList m' n) := by
  induction n with
  | zero => exact stopsAt_refl _
  | succ n ih => exact stopsAt_andRead hm fun a => stopsAt_andRead ih fun l => stopsAt_refl _

end Stopping

section Formats

variable {fmt : Format α β} {next : α → Format γ β}

/-- A list is spelt by the words of its members. -/
theorem list_iff {n : ℕ} {l : List α} {w : List β} :
    fmt.list n l w ↔ l.length = n ∧ ∃ ws, List.Forall₂ fmt l ws ∧ w = ws.flatten := by
  induction n generalizing l w with
  | zero =>
    constructor
    · rintro ⟨rfl, rfl⟩
      exact ⟨rfl, [], List.Forall₂.nil, rfl⟩
    · rintro ⟨hlen, ws, hall, rfl⟩
      obtain rfl := List.length_eq_zero_iff.mp hlen
      cases hall
      exact ⟨rfl, rfl⟩
  | succ n ih =>
    constructor
    · rintro ⟨a, u, x, rfl, ha, l', u', x', rfl, hl, rfl, rfl⟩
      obtain ⟨hlen, ws, hall, rfl⟩ := ih.mp hl
      refine ⟨by rw [List.length_cons, hlen], u :: ws, List.Forall₂.cons ha hall, ?_⟩
      rw [List.append_nil, List.flatten_cons]
    · rintro ⟨hlen, ws, hall, rfl⟩
      cases hall with
      | nil => cases hlen
      | @cons a u l ws ha hall =>
        refine ⟨a, u, ws.flatten, by rw [List.flatten_cons], ha, l, ws.flatten, [], ?_, ?_, rfl, rfl⟩
        · rw [List.append_nil]
        · exact ih.mpr ⟨Nat.succ.inj hlen, ws, hall, rfl⟩

end Formats

section Numbers

open ByteRange

/-- A number of a fixed width, the high byte first. -/
def be (k n : ℕ) : List UInt8 := (le k n).reverse

def unbe (w : List UInt8) : ℕ := unle w.reverse

@[simp] theorem be_length (k n : ℕ) : (be k n).length = k := by
  rw [be, List.length_reverse, le_length]

theorem unbe_be (k n : ℕ) : unbe (be k n) = n % 256 ^ k := by
  rw [unbe, be, List.reverse_reverse, unle_le]

theorem unle_lt (w : List UInt8) : unle w < 256 ^ w.length := by
  induction w with
  | nil => exact Nat.one_pos
  | cons b l ih =>
    have hb := b.toNat_lt
    rw [unle, List.length_cons, Nat.pow_succ]
    omega

theorem le_unle (w : List UInt8) : le w.length (unle w) = w := by
  induction w with
  | nil => rfl
  | cons b l ih =>
    have hb := b.toNat_lt
    have low : UInt8.ofNat (b.toNat + 256 * unle l) = b := by
      apply UInt8.toNat_inj.mp
      rw [UInt8.toNat_ofNat']
      omega
    have high : (b.toNat + 256 * unle l) / 256 = unle l := by omega
    rw [List.length_cons, unle, le, low, high, ih]

theorem unbe_lt (w : List UInt8) : unbe w < 256 ^ w.length := by
  have := unle_lt w.reverse
  rwa [List.length_reverse] at this

/-- Every word of that length spells a number. -/
theorem be_unbe (w : List UInt8) : be w.length (unbe w) = w := by
  have := le_unle w.reverse
  rw [List.length_reverse] at this
  rw [be, unbe, this, List.reverse_reverse]

theorem le_append (j k n : ℕ) : le (j + k) n = le j n ++ le k (n / 256 ^ j) := by
  induction j generalizing n with
  | zero => rw [Nat.zero_add, le, Nat.pow_zero, Nat.div_one, List.nil_append]
  | succ j ih =>
    rw [Nat.succ_add, le, le, ih, Nat.div_div_eq_div_mul, ← Nat.pow_succ', List.cons_append]

theorem le_mod (k n : ℕ) : le k (n % 256 ^ k) = le k n := by
  have := le_unle (le k n)
  rwa [le_length, unle_le] at this

/-- A number of `j + k` bytes is its upper `k` bytes and its lower `j` bytes. -/
theorem be_append (j k n : ℕ) : be (j + k) n = be k (n / 256 ^ j) ++ be j (n % 256 ^ j) := by
  rw [be, le_append, List.reverse_append, be, be, le_mod]

/-- The numbers of `k` bytes. -/
def number (k : ℕ) : Format ℕ UInt8 := fun n w => n < 256 ^ k ∧ w = be k n

theorem number_iff {k n : ℕ} {w : List UInt8} : number k n w ↔ w.length = k ∧ n = unbe w := by
  constructor
  · rintro ⟨hn, rfl⟩
    exact ⟨be_length k n, by rw [unbe_be, Nat.mod_eq_of_lt hn]⟩
  · rintro ⟨rfl, rfl⟩
    exact ⟨unbe_lt w, (be_unbe w).symm⟩

end Numbers

end Codec
