import DirectFuse.ReconcileStream
import DirectFuse.SysioFile

/-! The sum of the lengths of an I/O vector (src/rw.c), and which overflows it sees. A partial sum
that has come back to zero is never compared with the next one. -/
namespace IovecSum

open SysioState SysioFile SysioReconcile ReconcileStream

/-- How often a sum that is kept in a ssize_t has gone from the last one to the first. -/
def laps (x : ℕ) : ℕ := (x + 2 ^ 63) / 2 ^ 64

theorem wrap64_laps (x : ℕ) : wrap64 x = x - 2 ^ 64 * (laps x : ℤ) := by
  unfold wrap64 laps
  rw [Int.bmod_def]
  split <;> omega

theorem wrap64_zero_iff (x : ℕ) : wrap64 x = 0 ↔ 2 ^ 64 ∣ x := by
  rw [wrap64_laps]
  unfold laps
  omega

theorem wrap64_nonneg_iff (x : ℕ) : 0 ≤ wrap64 x ↔ x % 2 ^ 64 < 2 ^ 63 := by
  rw [wrap64_laps]
  unfold laps
  omega

/-- Adding a length makes the sum no greater exactly when it begins another lap. -/
theorem wrap64_add_le_iff {x n : ℕ} (hpos : n ≠ 0) (typed : n < 2 ^ 64) :
    wrap64 (x + n : ℕ) ≤ wrap64 x ↔ laps x < laps (x + n) := by
  rw [wrap64_laps, wrap64_laps]
  unfold laps
  omega

/-- From a sum on, one of the lengths begins another lap, and what was there before it is not a
multiple of 2^64. -/
def Caught (sum : ℕ) (lens : List ℕ) : Prop :=
  ∃ before n behind, lens = before ++ n :: behind ∧ ¬ 2 ^ 64 ∣ sum + before.sum ∧
    laps (sum + before.sum) < laps (sum + before.sum + n)

variable {sum n : ℕ} {lens : List ℕ}

theorem not_caught_nil (sum : ℕ) : ¬ Caught sum [] := by
  rintro ⟨before, n, behind, hsplit, -⟩
  cases before <;> cases hsplit

theorem caught_cons : Caught sum (n :: lens) ↔
    (¬ 2 ^ 64 ∣ sum ∧ laps sum < laps (sum + n)) ∨ Caught (sum + n) lens := by
  constructor
  · rintro ⟨before, m, behind, hsplit, hmid, hlap⟩
    cases before with
    | nil =>
      rcases List.cons.inj hsplit with ⟨rfl, rfl⟩
      exact Or.inl ⟨hmid, hlap⟩
    | cons k before =>
      rcases List.cons.inj hsplit with ⟨rfl, rfl⟩
      rw [List.sum_cons, ← Nat.add_assoc] at hmid hlap
      exact Or.inr ⟨before, m, behind, rfl, hmid, hlap⟩
  · rintro (⟨hmid, hlap⟩ | ⟨before, m, behind, rfl, hmid, hlap⟩)
    · exact ⟨[], n, lens, rfl, hmid, hlap⟩
    · refine ⟨n :: before, m, behind, rfl, ?_, ?_⟩
      · rw [List.sum_cons, ← Nat.add_assoc]
        exact hmid
      · rw [List.sum_cons, ← Nat.add_assoc]
        exact hlap

theorem lap_pos (h : laps sum < laps (sum + n)) : n ≠ 0 := by
  rintro rfl
  exact Nat.lt_irrefl _ h

/-- The loop gives an error when a lap is seen, and otherwise the sum as a ssize_t. -/
theorem sumIovecLoop_caught (typed : ∀ n ∈ lens, n < 2 ^ 64) :
    (Caught sum lens → sumIovecLoop (wrap64 sum) lens = -EINVAL) ∧
    (¬ Caught sum lens → sumIovecLoop (wrap64 sum) lens = wrap64 (sum + lens.sum : ℕ)) := by
  induction lens generalizing sum with
  | nil =>
    constructor
    · intro caught
      exact absurd caught (not_caught_nil sum)
    · intro _
      rfl
  | cons n lens ih =>
    have hn := typed n List.mem_cons_self
    have rest := @ih (sum + n) fun k hk => typed k (List.mem_cons_of_mem n hk)
    have hcc : wrap64 (wrap64 sum + n) = wrap64 (sum + n : ℕ) := by
      rw [wrap64_add, Int.natCast_add]
    -- the comparison of the source is the one of the laps
    have htest : (wrap64 sum ≠ 0 ∧ n ≠ 0 ∧ wrap64 (sum + n : ℕ) ≤ wrap64 sum) ↔
        ¬ 2 ^ 64 ∣ sum ∧ laps sum < laps (sum + n) := by
      rw [ne_eq, wrap64_zero_iff]
      constructor
      · rintro ⟨hmid, hpos, hle⟩
        exact ⟨hmid, (wrap64_add_le_iff hpos hn).mp hle⟩
      · rintro ⟨hmid, hlap⟩
        exact ⟨hmid, lap_pos hlap, (wrap64_add_le_iff (lap_pos hlap) hn).mpr hlap⟩
    rw [caught_cons, sumIovecLoop]
    simp only [hcc]
    by_cases seen : ¬ 2 ^ 64 ∣ sum ∧ laps sum < laps (sum + n)
    · rw [if_pos (htest.mpr seen)]
      constructor
      · intro _
        rfl
      · intro free
        exact absurd (Or.inl seen) free
    · rw [if_neg (mt htest.mp seen), List.sum_cons, ← Nat.add_assoc]
      constructor
      · rintro (now | later)
        · exact absurd now seen
        · exact rest.1 later
      · intro free
        exact rest.2 fun later => free (Or.inr later)

/-- A sum that fits is never caught, and so is returned. -/
theorem not_caught_of_le (h : sum + lens.sum ≤ SSIZE_MAX) : ¬ Caught sum lens := by
  rintro ⟨before, n, behind, rfl, -, hlap⟩
  have hmax : SSIZE_MAX = 2 ^ 63 - 1 := rfl
  rw [List.sum_append, List.sum_cons] at h
  unfold laps at hlap
  omega

theorem sysioSumIovec_caught (typed : ∀ n ∈ lens, n < 2 ^ 64) :
    (Caught 0 lens → sysioSumIovec lens = -EINVAL) ∧
    (lens ≠ [] → ¬ Caught 0 lens → sysioSumIovec lens = wrap64 lens.sum) := by
  have start : wrap64 (0 : ℕ) = 0 := by decide
  have loop := @sumIovecLoop_caught 0 lens typed
  rw [start, Nat.zero_add] at loop
  unfold sysioSumIovec
  constructor
  · intro caught
    split
    · rfl
    · exact loop.1 caught
  · intro hne free
    rw [if_neg hne]
    exact loop.2 free

/-- The sum can be trusted exactly when it fits, or comes out negative, or some length makes it
overflow from a partial sum that is not a multiple of 2^64. -/
theorem sum_iovec_exact (typed : ∀ n ∈ lens, n < 2 ^ 64) :
    (0 ≤ sysioSumIovec lens → lens.sum ≤ SSIZE_MAX ∧ sysioSumIovec lens = lens.sum) ↔
      lens.sum ≤ SSIZE_MAX ∨ 2 ^ 63 ≤ lens.sum % 2 ^ 64 ∨ Caught 0 lens := by
  have hmax : SSIZE_MAX = 2 ^ 63 - 1 := rfl
  by_cases caught : Caught 0 lens
  · constructor
    · intro _
      exact Or.inr (Or.inr caught)
    · intro _ hret
      rw [(sysioSumIovec_caught typed).1 caught] at hret
      cases hret
  rcases List.eq_nil_or_concat lens with rfl | hconcat
  · constructor
    · intro _
      exact Or.inl (Nat.zero_le _)
    · intro _ hret
      cases hret
  have hne : lens ≠ [] := by
    rintro rfl
    rcases hconcat with ⟨l, a, hl⟩
    cases l <;> cases hl
  rw [(sysioSumIovec_caught typed).2 hne caught, wrap64_nonneg_iff]
  constructor
  · intro trusted
    by_cases hlow : lens.sum % 2 ^ 64 < 2 ^ 63
    · exact Or.inl (trusted hlow).1
    · exact Or.inr (Or.inl (Nat.le_of_not_lt hlow))
  · rintro (fits | negative | seen) hlow
    · exact ⟨fits, wrap64_of_mem (by omega) (by omega)⟩
    · omega
    · exact absurd seen caught

theorem half_range : 0 ≤ sysioSumIovec [3, 2 ^ 62] ∧ [3, 2 ^ 62].sum ≤ SSIZE_MAX ∧
    sysioSumIovec [3, 2 ^ 62] = ([3, 2 ^ 62].sum : ℕ) := by
  have returned : 0 ≤ sysioSumIovec [3, 2 ^ 62] := by decide
  have trusted := (@sum_iovec_exact [3, 2 ^ 62] (by decide)).mpr (Or.inl (by decide))
  exact ⟨returned, trusted returned⟩

/-- Two lengths, the first all ones: their sum is 2^64 + 1, and 1 is returned. -/
theorem all_ones : ¬ ∀ lens : List ℕ, (∀ n ∈ lens, n < 2 ^ 64) → 0 ≤ sysioSumIovec lens →
    lens.sum ≤ SSIZE_MAX ∧ sysioSumIovec lens = lens.sum := by
  intro claim
  have huge := (claim [2 ^ 64 - 1, 2] (by decide) (by decide)).1
  exact absurd huge (by decide)

end IovecSum
