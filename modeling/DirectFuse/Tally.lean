import Mathlib.Algebra.Order.Group.Nat
import Mathlib.Data.List.Range
import Mathlib.Logic.Function.Basic

/-! Counting the records of a table. A table is a partial function on addresses that is empty from
some address on. -/
namespace Tally

variable {α : Type}

/-- How much one slot of a table counts. -/
def weight (o : Option α) (P : α → Bool) : ℕ := if o.any P then 1 else 0

/-- The number of records below address `n` that satisfy `P`. -/
def tally : ℕ → (ℕ → Option α) → (α → Bool) → ℕ
  | 0, _, _ => 0
  | n + 1, f, P => tally n f P + weight (f n) P

@[simp] theorem weight_none {P : α → Bool} : weight none P = 0 := rfl

theorem weight_some {a : α} {P : α → Bool} : weight (some a) P = if P a then 1 else 0 := rfl

theorem tally_congr {n : ℕ} {f g : ℕ → Option α} {P : α → Bool}
    (h : ∀ k < n, weight (f k) P = weight (g k) P) : tally n f P = tally n g P := by
  induction n with
  | zero => rfl
  | succ n ih =>
    have hl := ih fun k hk => h k (Nat.lt_succ_of_lt hk)
    have hn := h n (Nat.lt_succ_self n)
    simp only [tally, hl, hn]

theorem tally_map {n : ℕ} {f : ℕ → Option α} (g : α → α) {P : α → Bool}
    (h : ∀ a, P (g a) = P a) : tally n (fun k => (f k).map g) P = tally n f P := by
  apply tally_congr
  intro k _
  cases f k with
  | none => rfl
  | some a => simp only [Option.map_some, weight_some, h]

theorem tally_update_of_le {n k : ℕ} (h : n ≤ k) (f : ℕ → Option α) (v : Option α)
    (P : α → Bool) : tally n (Function.update f k v) P = tally n f P := by
  apply tally_congr
  intro j hj
  rw [Function.update_of_ne (by omega)]

/-- Replacing a record moves the count by what the old and the new one count. -/
theorem tally_update {n k : ℕ} (h : k < n) (f : ℕ → Option α) (v : Option α) (P : α → Bool) :
    tally n (Function.update f k v) P + weight (f k) P = tally n f P + weight v P := by
  induction n with
  | zero => omega
  | succ n ih =>
    simp only [tally]
    by_cases hk : k = n
    · subst hk
      rw [tally_update_of_le (Nat.le_refl k), Function.update_self]
      omega
    · have := ih (by omega)
      rw [Function.update_of_ne (Ne.symm hk)]
      omega

/-- A record put at the first free address adds what it counts. -/
theorem tally_push (n : ℕ) (f : ℕ → Option α) (v : Option α) (P : α → Bool) :
    tally (n + 1) (Function.update f n v) P = tally n f P + weight v P := by
  simp only [tally, Function.update_self, tally_update_of_le (Nat.le_refl n)]

theorem tally_pos {n k : ℕ} {f : ℕ → Option α} {P : α → Bool} {a : α} (h : k < n)
    (hk : f k = some a) (ha : P a = true) : 0 < tally n f P := by
  induction n with
  | zero => omega
  | succ n ih =>
    simp only [tally]
    by_cases hn : k = n
    · subst hn
      simp [hk, weight_some, ha]
    · have := ih (by omega)
      omega

end Tally
