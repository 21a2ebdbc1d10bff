import DirectFuse.DescriptorTable

/-! The search for a free descriptor, with the index and the pointer of the loop: where it stops, and
that it does not leave the table. -/
namespace FreeDescriptors

open ExecLogic SysioState SysioInode SysioFile CoreMoves DescriptorTable
open SysioReconcile (toInt)

variable {D : Type} {e : Env D} {s t : Sys D}

/-- The loop of `find_free_fildes`, standing at `n`. Reading behind the table is a wild access. -/
def scanFildes : ℕ → ℤ → Sysio D ℤ
  | 0, _ => Exec.fault .diverge
  | fuel + 1, n => do
    let size ← Exec.read fun s => s.ft.oftab.length
    if 0 ≤ n ∧ n < size then
      let slot ← Exec.deref .wild fun s => s.ft.oftab[n.toNat]?
      if slot.isSome then
        scanFildes fuel (toInt (n + 1))
      else
        return n
    else
      return n

/-- `find_free_fildes` with its loop. -/
def findFildes (e : Env D) (low : ℤ) : Sysio D ℤ := do
  let size ← Exec.read fun s => s.ft.oftab.length
  let n ← scanFildes (size + 1) low
  if n < 0 then
    return -ENFILE
  if size ≤ n.toNat then
    let err ← fdGrow e (n.toNat + 1)
    if err ≠ 0 then
      return err
    let slot ← Exec.deref .wild fun s => s.ft.oftab[n.toNat]?
    assert slot.isNone
    return n
  return n

/-- The slots from `low` to `n` are taken, and `n` is not. -/
def FirstFree (oftab : List (Option FilId)) (low n : ℕ) : Prop :=
  low ≤ n ∧ oftab.getD n none = none ∧ ∀ k, low ≤ k → k < n → ∃ f, oftab.getD k none = some f

/-- What the search finds in the state `s` and leaves in `t`. -/
structure Allocated (s t : Sys D) (low n : ℕ) : Prop where
  first : FirstFree s.ft.oftab low n
  room : n < t.ft.oftab.length
  grown : ∃ k, t.ft = { s.ft with oftab := s.ft.oftab ++ List.replicate k none }

section Scan

theorem FirstFree.of_next {oftab : List (Option FilId)} {low n : ℕ} {f : FilId}
    (taken : oftab.getD low none = some f) (next : FirstFree oftab (low + 1) n) :
    FirstFree oftab low n := by
  obtain ⟨above, free, before⟩ := next
  refine ⟨by omega, free, fun k hk hn => ?_⟩
  by_cases hlow : k = low
  · rw [hlow]
    exact ⟨f, taken⟩
  · exact before k (by omega) hn

theorem firstFree_here {oftab : List (Option FilId)} {low : ℕ} (free : oftab.getD low none = none) :
    FirstFree oftab low low := ⟨Nat.le_refl low, free, fun k hk hn => by omega⟩

/-- There is just one first free slot. -/
theorem FirstFree.unique {oftab : List (Option FilId)} {low m n : ℕ} (hm : FirstFree oftab low m)
    (hn : FirstFree oftab low n) : m = n := by
  rcases Nat.lt_trichotomy m n with before | same | behind
  · obtain ⟨f, taken⟩ := hn.2.2 m hm.1 before
    rw [hm.2.1] at taken
    cases taken
  · exact same
  · obtain ⟨f, taken⟩ := hm.2.2 n hn.1 behind
    rw [hn.2.1] at taken
    cases taken

/-- The next index is the next descriptor, or the scan has wrapped at the end of the ints. -/
theorem next_index {n : ℕ} (int : n < 2 ^ 31) :
    (n + 1 < 2 ^ 31 ∧ toInt ((n : ℤ) + 1) = ((n + 1 : ℕ) : ℤ)) ∨
      (n + 1 = 2 ^ 31 ∧ toInt ((n : ℤ) + 1) < 0) := by
  unfold toInt
  by_cases last : n + 1 = 2 ^ 31
  · right
    constructor
    · exact last
    · rw [Int.bmod_def]
      omega
  · left
    constructor
    · omega
    · rw [Int.bmod_def]
      omega

/-- The slots before it are taken. -/
theorem taken_takeWhile_isSome (oftab : List (Option FilId)) {low k : ℕ} (from_low : low ≤ k)
    (before : k < low + ((oftab.drop low).takeWhile (·.isSome)).length) :
    ∃ f, oftab.getD k none = some f := by
  obtain ⟨j, rfl⟩ := Nat.exists_eq_add_of_le from_low
  rw [List.getD_eq_getElem?_getD, ← List.getElem?_drop]
  have inside : j < ((oftab.drop low).takeWhile (·.isSome)).length := by omega
  clear before
  generalize oftab.drop low = l at inside
  induction l generalizing j with
  | nil => simp at inside
  | cons o l ih =>
    cases o with
    | none => simp at inside
    | some f =>
      cases j with
      | zero => exact ⟨f, rfl⟩
      | succ j =>
        apply ih j (by omega)
        simpa using inside

theorem inside_of_taken {oftab : List (Option FilId)} {n : ℕ} {f : FilId}
    (taken : oftab.getD n none = some f) : n < oftab.length := by
  by_contra behind
  rw [List.getD_eq_getElem?_getD, List.getElem?_eq_none (Nat.le_of_not_lt behind)] at taken
  cases taken

/-- One pass through the loop: a free slot and the end of the table stop it. -/
theorem scanFildes_stop {fuel n : ℕ} (free : s.ft.oftab.getD n none = none) :
    scanFildes (fuel + 1) (n : ℤ) s = .ok ((n : ℤ), s) := by
  have size : (Exec.read fun s => s.ft.oftab.length : Sysio D ℕ) s = .ok (s.ft.oftab.length, s) := rfl
  unfold scanFildes
  rw [bind_run size]
  by_cases inside : n < s.ft.oftab.length
  · have bounds : (0 : ℤ) ≤ n ∧ (n : ℤ) < s.ft.oftab.length := by omega
    have slot : (Exec.deref .wild fun s => s.ft.oftab[(n : ℤ).toNat]? : Sysio D _) s =
        .ok (none, s) := by
      apply deref_ok.mpr
      rw [List.getD_eq_getElem?_getD, List.getElem?_eq_getElem inside] at free
      rw [Int.toNat_natCast, List.getElem?_eq_getElem inside]
      exact ⟨congrArg some free, rfl⟩
    rw [if_pos bounds, bind_run slot]
    rfl
  · have bounds : ¬ ((0 : ℤ) ≤ n ∧ (n : ℤ) < s.ft.oftab.length) := by omega
    rw [if_neg bounds]
    rfl

/-- A slot that is taken leaves the rest of the scan. -/
theorem scanFildes_pass {fuel n : ℕ} {f : FilId} (taken : s.ft.oftab.getD n none = some f) :
    scanFildes (fuel + 1) (n : ℤ) s = scanFildes fuel (toInt ((n : ℤ) + 1)) s := by
  have size : (Exec.read fun s => s.ft.oftab.length : Sysio D ℕ) s = .ok (s.ft.oftab.length, s) := rfl
  have inside := inside_of_taken taken
  have bounds : (0 : ℤ) ≤ n ∧ (n : ℤ) < s.ft.oftab.length := by omega
  have slot : (Exec.deref .wild fun s => s.ft.oftab[(n : ℤ).toNat]? : Sysio D _) s =
      .ok (some f, s) := by
    apply deref_ok.mpr
    rw [List.getD_eq_getElem?_getD, List.getElem?_eq_getElem inside] at taken
    rw [Int.toNat_natCast, List.getElem?_eq_getElem inside]
    exact ⟨congrArg some taken, rfl⟩
  rw [scanFildes, bind_run size, if_pos bounds, bind_run slot]
  rfl

/-- The loop stops in the table, behind it, or where the index wraps. -/
theorem scanFildes_run (fuel n : ℕ) (int : n < 2 ^ 31) (some_fuel : 0 < fuel)
    (enough : s.ft.oftab.length < n + fuel) :
    ∃ k : ℤ, scanFildes fuel n s = .ok (k, s) ∧
      ((k < 0 ∧ 2 ^ 31 ≤ s.ft.oftab.length) ∨
        (0 ≤ k ∧ k < 2 ^ 31 ∧ FirstFree s.ft.oftab n k.toNat)) := by
  induction fuel generalizing n with
  | zero => omega
  | succ fuel ih =>
    cases slot : s.ft.oftab.getD n none with
    | none =>
      refine ⟨n, scanFildes_stop slot, Or.inr ⟨by omega, by omega, ?_⟩⟩
      exact firstFree_here slot
    | some f =>
      have inside := inside_of_taken slot
      rw [scanFildes_pass slot]
      rcases next_index int with ⟨small, next⟩ | ⟨last, wrapped⟩
      · rw [next]
        obtain ⟨k, run, stop⟩ := ih (n + 1) small (by omega) (by omega)
        refine ⟨k, run, ?_⟩
        rcases stop with long | ⟨nonneg, hint, first⟩
        · exact Or.inl long
        · exact Or.inr ⟨nonneg, hint, first.of_next slot⟩
      · -- the wrapped index is below zero and ends the loop
        refine ⟨toInt ((n : ℤ) + 1), ?_, Or.inl ⟨wrapped, by omega⟩⟩
        cases fuel with
        | zero => omega
        | succ fuel =>
          have size : (Exec.read fun s => s.ft.oftab.length : Sysio D ℕ) s =
              .ok (s.ft.oftab.length, s) := rfl
          unfold scanFildes
          rw [bind_run size, if_neg fun bounds => absurd bounds.1 (by omega)]
          rfl

end Scan

section Search

/-- Growing the table always returns. -/
theorem fdGrow_run (e : Env D) (n : ℕ) (s : Sys D) : ∃ err t, fdGrow e n s = .ok (err, t) := by
  unfold fdGrow
  by_cases big : 2 ^ 31 ≤ n
  · rw [if_pos big]
    exact ⟨_, _, rfl⟩
  rw [if_neg big]
  have size : (Exec.read fun s => s.ft.oftab.length : Sysio D ℕ) s = .ok (s.ft.oftab.length, s) := rfl
  rw [bind_run size]
  by_cases fits : n ≤ s.ft.oftab.length
  · rw [if_pos fits]
    exact ⟨_, _, rfl⟩
  rw [if_neg fits]
  have got : (malloc e : Sysio D Bool) s =
      .ok (e.malloc s.mallocs, { s with mallocs := s.mallocs + 1 }) := rfl
  rw [bind_run got]
  cases e.malloc s.mallocs with
  | false => exact ⟨_, _, rfl⟩
  | true => exact ⟨_, _, rfl⟩

/-- What is found behind the loop: a free slot of the table, or one that the table grows by. -/
theorem findFildes_at {low n : ℕ} (int : n < 2 ^ 31) (first : FirstFree s.ft.oftab low n)
    (scan : scanFildes (s.ft.oftab.length + 1) low s = .ok ((n : ℤ), s)) :
    findFildes e low s = (do
      let err ← (if s.ft.oftab.length ≤ n then fdGrow e (n + 1) else pure 0)
      return if err ≠ 0 then err else (n : ℤ)) s := by
  have size : (Exec.read fun s => s.ft.oftab.length : Sysio D ℕ) s = .ok (s.ft.oftab.length, s) := rfl
  have nonneg : ¬ (n : ℤ) < 0 := by omega
  unfold findFildes
  rw [bind_run size, bind_run scan, if_neg nonneg, Int.toNat_natCast]
  by_cases behind : s.ft.oftab.length ≤ n
  · rw [if_pos behind, if_pos behind]
    obtain ⟨err, t, grow⟩ := fdGrow_run e (n + 1) s
    rw [bind_run grow, bind_run grow]
    by_cases failed : err ≠ 0
    · rw [if_pos failed, if_pos failed]
    · rw [if_neg failed, if_neg failed]
      -- the new slots are empty, which is what the assertion says
      obtain ⟨⟨k, grown, -⟩, -, long⟩ := fdGrow_ok grow
      have room : n < t.ft.oftab.length := long (not_not.mp failed)
      have empty : t.ft.oftab.getD n none = none := by
        rw [grown]
        change (s.ft.oftab ++ List.replicate k none).getD n none = none
        rw [getD_append_none]
        exact first.2.1
      have slot : (Exec.deref .wild fun s => s.ft.oftab[n]? : Sysio D _) t = .ok (none, t) := by
        apply deref_ok.mpr
        rw [List.getD_eq_getElem?_getD, List.getElem?_eq_getElem room] at empty
        rw [List.getElem?_eq_getElem room]
        exact ⟨congrArg some empty, rfl⟩
      rw [bind_run slot]
      rfl
  · rw [if_neg behind, if_neg behind]
    rfl

/-- The search for a table that an int can count is the search of the table operations. -/
theorem findFildes_find {low : ℕ} (int : low < 2 ^ 31) (short : s.ft.oftab.length < 2 ^ 31) :
    findFildes e low s = findFreeFildes e low s := by
  obtain ⟨k, scan, stop⟩ := scanFildes_run (s := s) (s.ft.oftab.length + 1) low int (by omega) (by omega)
  rcases stop with ⟨-, long⟩ | ⟨nonneg, hint, first⟩
  · omega
  obtain ⟨n, rfl⟩ := Int.eq_ofNat_of_zero_le nonneg
  rw [Int.toNat_natCast] at first
  rw [findFildes_at (by omega) first scan]
  have same : n = low + ((s.ft.oftab.drop low).takeWhile (·.isSome)).length := by
    apply first.unique
    refine ⟨by omega, getD_takeWhile_isSome _ _, fun j hj hn => ?_⟩
    exact taken_takeWhile_isSome s.ft.oftab hj hn
  rw [same]
  rfl

/-- Whatever the table and the first descriptor, the search returns: the least free descriptor, in a
table with the old slots and empty new ones, or an error that leaves the table. -/
theorem free_descriptor (e : Env D) (s : Sys D) (low : ℕ) (int : low < 2 ^ 31) :
    ∃ n t, findFildes e low s = .ok (n, t) ∧
      ((n < 0 ∧ t.ft = s.ft) ∨ (0 ≤ n ∧ Allocated s t low n.toNat)) := by
  obtain ⟨k, scan, stop⟩ := scanFildes_run (s := s) (s.ft.oftab.length + 1) low int (by omega) (by omega)
  rcases stop with ⟨wrapped, -⟩ | ⟨nonneg, hint, first⟩
  · refine ⟨-ENFILE, s, ?_, Or.inl ⟨by decide, rfl⟩⟩
    have size : (Exec.read fun s => s.ft.oftab.length : Sysio D ℕ) s =
        .ok (s.ft.oftab.length, s) := rfl
    unfold findFildes
    rw [bind_run size, bind_run scan, if_pos wrapped]
    rfl
  obtain ⟨n, rfl⟩ := Int.eq_ofNat_of_zero_le nonneg
  rw [Int.toNat_natCast] at first
  rw [findFildes_at (by omega) first scan]
  by_cases behind : s.ft.oftab.length ≤ n
  · rw [if_pos behind]
    obtain ⟨err, t, grow⟩ := fdGrow_run e (n + 1) s
    obtain ⟨⟨k, grown, -⟩, low, long⟩ := fdGrow_ok grow
    rw [bind_run grow]
    by_cases failed : err = 0
    · rw [if_neg (not_not.mpr failed)]
      refine ⟨n, t, rfl, Or.inr ⟨by omega, ?_⟩⟩
      exact ⟨first, long failed, k, grown⟩
    · rw [if_pos failed]
      refine ⟨err, t, rfl, Or.inl ⟨by omega, ?_⟩⟩
      exact (fdGrow_fails grow failed).ft
  · rw [if_neg behind]
    refine ⟨n, s, rfl, Or.inr ⟨by omega, first, ?_, 0, ?_⟩⟩
    · rw [Int.toNat_natCast]
      omega
    · simp

end Search

section Fuse

open FuseDriver FuseSystem

/-- A file has the first two descriptors, and there are no more slots. -/
def firstTwo : List TableOp := [.dup 0 1 true, .set 0 (-1) false, .fnew 108 2]

/-- The search from the start goes over both slots and makes a third. -/
theorem free_descriptor_grown :
    (0 : ℕ) < 2 ^ 31 ∧
      ∃ n t, findFreeFildes (fuseEnv calmHost) 0 (afterOps firstTwo) = .ok (n, t) ∧ n = 2 ∧
        Allocated (afterOps firstTwo) t 0 2 := by
  have int : (0 : ℕ) < 2 ^ 31 := by decide
  have taken : (afterOps firstTwo).ft.oftab = [some 0, some 0] := by decide +kernel
  have value : (findFreeFildes (fuseEnv calmHost) 0).value (afterOps firstTwo) = some 2 := by
    decide +kernel
  have short : (afterOps firstTwo).ft.oftab.length < 2 ^ 31 := by
    rw [taken]
    decide
  obtain ⟨n, t, run, found⟩ := free_descriptor (fuseEnv calmHost) (afterOps firstTwo) 0 int
  have whole : findFreeFildes (fuseEnv calmHost) 0 (afterOps firstTwo) = .ok (n, t) := by
    rw [← findFildes_find int short]
    exact run
  have second : n = 2 := by
    unfold Exec.value at value
    rw [whole] at value
    exact Option.some.inj value
  refine ⟨int, n, t, whole, second, ?_⟩
  rcases found with ⟨negative, -⟩ | ⟨-, allocated⟩
  · omega
  · rw [second] at allocated
    exact allocated

end Fuse

end FreeDescriptors
