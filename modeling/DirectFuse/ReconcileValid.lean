import DirectFuse.ReconcileFull

/-! The validation of strided vectors. What it returns is the length of the transfer unless the last
buffer goes on in another extent: the loops stop as soon as no buffer is left to be taken. -/
namespace ReconcileValid

open ExecLogic SysioState SysioReconcile ReconcileStream ReconcileFull

/-- The file offsets of a piece of an extent, without the wrap. -/
def places (off : ℤ) (n : ℕ) : List ℤ := (List.range n).map fun k : ℕ => off + (k : ℤ)

def filePlaces (xtv : List Xtvec) : List ℤ := xtv.flatMap fun x => places x.off x.len

/-- The byte at an offset is within the limit and can be addressed. -/
def Fits (limit o : ℤ) : Prop := 0 ≤ o ∧ o + 1 ≤ limit ∧ o + 1 < 2 ^ 63

/-- Whether the last buffer, `room` bytes of the current one being left, reaches beyond the extent in
which it starts while there are bytes behind that extent. -/
def cutsOff : List ℕ → ℕ → List Iovec → Bool
  | xs, room, [] =>
    match advance xs 0 with
    | [] => false
    | e :: rs => decide (e < room) && decide (0 < rs.sum)
  | xs, room, v :: l => cutsOff (advance xs room) v.len l

def truncated (xtv : List Xtvec) (iov : List Iovec) : Bool := cutsOff (xtv.map Xtvec.len) 0 iov

section Lists

theorem places_add (off : ℤ) (m n : ℕ) : places off (m + n) = places off m ++ places (off + m) n := by
  simp only [places, List.range_add, List.map_append, List.map_map]
  congr 1
  refine List.map_congr_left fun k _ => ?_
  simp only [Function.comp]
  push_cast
  omega

@[simp] theorem length_places (off : ℤ) (n : ℕ) : (places off n).length = n := by simp [places]

theorem mem_places {off o : ℤ} {n : ℕ} (h : o ∈ places off n) : off ≤ o ∧ o < off + n := by
  simp only [places, List.mem_map, List.mem_range] at h
  obtain ⟨k, hk, rfl⟩ := h
  omega

theorem cutsOff_advance_zero (xs : List ℕ) (room : ℕ) (l : List Iovec) :
    cutsOff (advance xs 0) room l = cutsOff xs room l := by
  cases l with
  | nil => simp only [cutsOff, advance_zero_advance]
  | cons v l => simp only [cutsOff, advance_zero_advance]

/-- Where the extents have no bytes, nothing is cut off. -/
theorem cutsOff_of_sum {xs : List ℕ} (hsum : xs.sum = 0) (room : ℕ) (l : List Iovec) :
    cutsOff xs room l = false := by
  have none : ∀ (xs : List ℕ) (n : ℕ), xs.sum = 0 → advance xs n = [] := by
    intro xs
    induction xs with
    | nil => exact fun _ _ => rfl
    | cons e rs ih =>
      intro n h
      rw [List.sum_cons] at h
      unfold advance
      rw [if_neg (by omega)]
      exact ih _ (by omega)
  induction l generalizing xs room with
  | nil => simp only [cutsOff, none xs 0 hsum]
  | cons v l ih =>
    rw [cutsOff, none xs room hsum]
    exact ih rfl v.len

/-- The next extent with any bytes: those before it play no part. -/
theorem nextXtv_some {xtv l : List Xtvec} {x : Xtvec} (h : nextXtv xtv = some (x, l)) :
    x.len ≠ 0 ∧ extentBytes xtv = x.len + extentBytes l ∧
      filePlaces xtv = places x.off x.len ++ filePlaces l ∧
      ∀ n, advance (xtv.map Xtvec.len) n = advance (x.len :: l.map Xtvec.len) n := by
  induction xtv with
  | nil => cases h
  | cons y xtv ih =>
    unfold nextXtv at h
    by_cases hy : y.len = 0
    · rw [if_pos hy] at h
      obtain ⟨hne, hbytes, hplaces, hadv⟩ := ih h
      refine ⟨hne, ?_, ?_, fun n => ?_⟩
      · rw [extentBytes_cons, hy, Nat.zero_add, hbytes]
      · rw [filePlaces, List.flatMap_cons, hy]
        exact hplaces
      · rw [List.map_cons, hy, advance_cons_zero, hadv]
    · rw [if_neg hy] at h
      obtain ⟨rfl, rfl⟩ := Prod.mk.inj (Option.some.inj h)
      exact ⟨hy, rfl, rfl, fun _ => rfl⟩

theorem nextXtv_none {xtv : List Xtvec} (h : nextXtv xtv = none) : extentBytes xtv = 0 := by
  induction xtv with
  | nil => rfl
  | cons y xtv ih =>
    unfold nextXtv at h
    by_cases hy : y.len = 0
    · rw [if_pos hy] at h
      rw [extentBytes_cons, hy, ih h]
    · rw [if_neg hy] at h
      cases h

/-- The next buffer with any bytes. -/
theorem nextIov_some {iov l : List Iovec} {v : Iovec} (h : nextIov iov = some (v, l)) :
    bufferBytes iov = v.len + bufferBytes l ∧ ∀ xs, cutsOff xs 0 iov = cutsOff xs v.len l := by
  induction iov with
  | nil => cases h
  | cons w iov ih =>
    unfold nextIov at h
    by_cases hw : w.len = 0
    · rw [if_pos hw] at h
      obtain ⟨hbytes, hcuts⟩ := ih h
      refine ⟨by rw [bufferBytes_cons, hw, Nat.zero_add, hbytes], fun xs => ?_⟩
      rw [cutsOff, hw, cutsOff_advance_zero, hcuts]
    · rw [if_neg hw] at h
      obtain ⟨rfl, rfl⟩ := Prod.mk.inj (Option.some.inj h)
      refine ⟨rfl, fun xs => ?_⟩
      rw [cutsOff, cutsOff_advance_zero]

end Lists

/-- A sum that overflows comes out negative, and nothing comes out beyond the range. -/
theorem wrap64_overflow (x : ℤ) :
    wrap64 x < 2 ^ 63 ∧ (2 ^ 63 ≤ x → x < 2 ^ 64 → wrap64 x < 0) := by
  unfold wrap64 Int.bmod
  simp only
  split <;> omega

/-- A fragment that passes the checks fits, and the sum does not overflow. -/
theorem checkFragment_ok {limit off cc acc next sum : ℤ} (hoff : 0 ≤ off) (hcc : 0 < cc)
    (hmax : cc ≤ SSIZE_MAX) (ha : 0 ≤ acc) (hacc : acc ≤ SSIZE_MAX)
    (h : checkFragment limit off cc acc = .ok (next, sum)) :
    next = off + cc ∧ sum = cc + acc ∧ sum ≤ SSIZE_MAX ∧ off + cc ≤ limit ∧ off + cc < 2 ^ 63 := by
  have hsize : (SSIZE_MAX : ℤ) = 2 ^ 63 - 1 := by decide
  obtain ⟨hnext, hover⟩ := wrap64_overflow (off + cc)
  obtain ⟨hsum, hover'⟩ := wrap64_overflow (cc + acc)
  unfold checkFragment at h
  simp only at h
  by_cases hwrap : off ≠ 0 ∧ wrap64 (off + cc) ≤ off
  · rw [if_pos hwrap] at h
    cases h
  rw [if_neg hwrap] at h
  by_cases hlimit : limit < wrap64 (off + cc)
  · rw [if_pos hlimit] at h
    cases h
  rw [if_neg hlimit] at h
  by_cases hacc' : acc ≠ 0 ∧ wrap64 (cc + acc) ≤ acc
  · rw [if_pos hacc'] at h
    cases h
  rw [if_neg hacc'] at h
  obtain ⟨rfl, rfl⟩ := Prod.mk.inj (Except.ok.inj h)
  have hplace : wrap64 (off + cc) = off + cc := wrap64_of_mem (by omega) (by omega)
  have htotal : wrap64 (cc + acc) = cc + acc := wrap64_of_mem (by omega) (by omega)
  rw [hplace] at hlimit
  exact ⟨hplace, htotal, by omega, by omega, by omega⟩

theorem checkFragment_error {limit off cc acc err : ℤ}
    (h : checkFragment limit off cc acc = .error err) : err < 0 := by
  unfold checkFragment at h
  simp only at h
  split at h
  · obtain rfl := Except.error.inj h
    split <;> decide
  · split at h
    · obtain rfl := Except.error.inj h
      decide
    · split at h
      · obtain rfl := Except.error.inj h
        decide
      · cases h

/-- What the loops accept fits, and it is all there is unless the last buffer is cut off. -/
theorem validxLoop_ok {limit r : ℤ} (fuel : ℕ) (off : ℤ) (len : ℕ) (xtv : List Xtvec) (room : ℕ)
    (iov : List Iovec) (acc : ℤ) (hoff : 0 ≤ off) (hroom : room < 2 ^ 64) (ha : 0 ≤ acc)
    (hacc : acc ≤ SSIZE_MAX) (hr : 0 ≤ r)
    (hrun : validxLoop limit fuel off len xtv room iov acc = .ok r) :
    ∃ m : ℕ, r = acc + m ∧ m ≤ min (len + extentBytes xtv) (room + bufferBytes iov) ∧
      (∀ o ∈ (places off len ++ filePlaces xtv).take m, Fits limit o) ∧
      (m = min (len + extentBytes xtv) (room + bufferBytes iov) ↔
        cutsOff (len :: xtv.map Xtvec.len) room iov = false) := by
  induction fuel generalizing off len xtv room iov acc with
  | zero => cases hrun
  | succ fuel ih =>
    unfold validxLoop at hrun
    by_cases hlen : len = 0
    · rw [if_pos hlen] at hrun
      cases hnext : nextXtv xtv with
      | none =>
        rw [hnext] at hrun
        obtain rfl := Except.ok.inj hrun
        have hsum := nextXtv_none hnext
        have hcuts : cutsOff (len :: xtv.map Xtvec.len) room iov = false := by
          apply cutsOff_of_sum
          rw [List.sum_cons, hlen]
          exact (Nat.zero_add _).trans hsum
        refine ⟨0, by omega, Nat.zero_le _, ?_, ?_⟩
        · rw [List.take_zero]
          exact fun o ho => by cases ho
        · rw [hcuts]
          simp only [iff_true]
          omega
      | some found =>
        obtain ⟨x, l⟩ := found
        rw [hnext] at hrun
        simp only at hrun
        obtain ⟨hne, hbytes, hplaces, hadv⟩ := nextXtv_some hnext
        by_cases hneg : x.off < 0
        · rw [if_pos hneg] at hrun
          obtain rfl := Except.ok.inj hrun
          exact absurd hr (by decide)
        rw [if_neg hneg] at hrun
        obtain ⟨m, hm, hle, hfits, hiff⟩ := ih x.off x.len l room iov acc (by omega) hroom ha hacc hrun
        have hcuts : cutsOff (len :: xtv.map Xtvec.len) room iov =
            cutsOff (x.len :: l.map Xtvec.len) room iov := by
          rw [← cutsOff_advance_zero, hlen, advance_cons_zero, hadv, cutsOff_advance_zero]
        refine ⟨m, hm, by omega, ?_, ?_⟩
        · rw [hlen, hplaces]
          exact hfits
        · rw [hcuts, ← hiff, hbytes, hlen, Nat.zero_add]
    rw [if_neg hlen] at hrun
    by_cases hempty : room = 0
    · rw [if_pos hempty] at hrun
      cases hnext : nextIov iov with
      | none =>
        rw [hnext] at hrun
        cases hrun
      | some found =>
        obtain ⟨v, l⟩ := found
        rw [hnext] at hrun
        obtain ⟨hbytes, hcuts⟩ := nextIov_some hnext
        obtain ⟨m, hm, hle, hfits, hiff⟩ := ih off len xtv v.len l acc hoff v.size ha hacc hrun
        refine ⟨m, hm, by omega, hfits, ?_⟩
        rw [hempty, hcuts, ← hiff, hbytes, Nat.zero_add]
    rw [if_neg hempty] at hrun
    by_cases hneg : wrap64 room < 0
    · rw [if_pos hneg] at hrun
      obtain rfl := Except.ok.inj hrun
      exact absurd hr (by decide)
    rw [if_neg hneg] at hrun
    simp only at hrun
    have hsize : (SSIZE_MAX : ℤ) = 2 ^ 63 - 1 := by decide
    have hroom' := (wrap64_overflow room).2
    cases hcheck : checkFragment limit off (min room len : ℕ) acc with
    | error err =>
      rw [hcheck] at hrun
      obtain rfl := Except.ok.inj hrun
      have := checkFragment_error hcheck
      omega
    | ok next =>
      obtain ⟨next, sum⟩ := next
      rw [hcheck] at hrun
      obtain ⟨rfl, rfl, hmax, hlim, hrange⟩ := checkFragment_ok hoff (by omega) (by omega) ha hacc hcheck
      simp only at hrun
      -- the fragment itself
      have hplaces : places off len = places off (min room len) ++
          places (off + (min room len : ℕ)) (len - min room len) := by
        rw [← places_add]
        congr 1
        omega
      have hfragment : ∀ o ∈ places off (min room len), Fits limit o := by
        intro o ho
        obtain ⟨hge, hlt⟩ := mem_places ho
        exact ⟨by omega, by omega, by omega⟩
      by_cases hlast : iov = []
      · rw [if_pos hlast] at hrun
        obtain rfl := Except.ok.inj hrun
        subst hlast
        refine ⟨min room len, by omega, by omega, ?_, ?_⟩
        · rw [hplaces, List.append_assoc, List.take_left' (length_places ..)]
          exact hfragment
        · have hadv : advance (len :: xtv.map Xtvec.len) 0 = len :: xtv.map Xtvec.len := by
            unfold advance
            rw [if_pos (by omega)]
            rfl
          have hnone : bufferBytes [] = 0 := rfl
          have hbytes : (xtv.map Xtvec.len).sum = extentBytes xtv := rfl
          rw [cutsOff, hadv]
          simp only [hbytes, Bool.and_eq_false_iff, decide_eq_false_iff_not, hnone]
          omega
      · rw [if_neg hlast] at hrun
        obtain ⟨m, hm, hle, hfits, hiff⟩ := ih _ _ xtv _ iov _ (by omega) (by omega) (by omega) hmax
          hrun
        refine ⟨min room len + m, by omega, by omega, ?_, ?_⟩
        · rw [hplaces, List.append_assoc]
          have htake : min room len + m = (places off (min room len)).length + m := by
            rw [length_places]
          rw [htake, List.take_length_add_append]
          intro o ho
          rcases List.mem_append.mp ho with ho | ho
          · exact hfragment o ho
          · exact hfits o ho
        · obtain ⟨v, l, rfl⟩ := List.exists_cons_of_ne_nil hlast
          have hcuts : cutsOff ((len - min room len) :: xtv.map Xtvec.len) (room - min room len) (v :: l)
              = cutsOff (len :: xtv.map Xtvec.len) room (v :: l) := by
            rw [cutsOff, cutsOff, advance_sub _ (by omega) (by omega)]
          rw [← hcuts, ← hiff]
          omega

/-- The length the validation accepts is that of the transfer, all of which fits, exactly when the
last buffer is not cut off. -/
theorem sysioValidx_ok {xtv : List Xtvec} {iov : List Iovec} {limit r : ℤ}
    (hrun : sysioValidx xtv iov limit = .ok r) (hr : 0 ≤ r) :
    ∃ m : ℕ, r = m ∧ m ≤ min (extentBytes xtv) (bufferBytes iov) ∧
      (∀ o ∈ (filePlaces xtv).take m, Fits limit o) ∧
      (m = min (extentBytes xtv) (bufferBytes iov) ↔ truncated xtv iov = false) := by
  unfold sysioValidx at hrun
  by_cases hnone : xtv = [] ∨ iov = []
  · rw [if_pos hnone] at hrun
    obtain rfl := Except.ok.inj hrun
    exact absurd hr (by decide)
  rw [if_neg hnone] at hrun
  obtain ⟨m, hm, hle, hfits, hiff⟩ := validxLoop_ok _ 0 0 xtv 0 iov 0 (Int.le_refl 0) (by decide)
    (Int.le_refl 0) (by decide) hr hrun
  have hcuts : cutsOff (0 :: xtv.map Xtvec.len) 0 iov = truncated xtv iov := by
    rw [truncated, ← cutsOff_advance_zero, advance_cons_zero, cutsOff_advance_zero]
  rw [hcuts, Nat.zero_add, Nat.zero_add] at hiff
  exact ⟨m, by omega, by omega, hfits, hiff⟩

/-- Where vectors are accepted, the length returned is that of the transfer, which fits, exactly when
the last buffer is not cut off; and a driver that moves all it is asked for moves as much exactly when
moreover the walk over the buffers does not stall. -/
theorem sysioValidx_agrees {xtv : List Xtvec} {iov : List Iovec} {limit r : ℤ}
    (hrun : sysioValidx xtv iov limit = .ok r) (hr : 0 ≤ r) :
    ((r = (min (extentBytes xtv) (bufferBytes iov) : ℕ) ∧
        ∀ o ∈ (filePlaces xtv).take (min (extentBytes xtv) (bufferBytes iov)), Fits limit o) ↔
      truncated xtv iov = false) ∧
    (extentBytes xtv ≤ SSIZE_MAX → iov.length < 2 ^ 31 → ∀ d, Full d →
      ((r = (min (extentBytes xtv) (bufferBytes iov) : ℕ) ∧
          (∀ o ∈ (filePlaces xtv).take (min (extentBytes xtv) (bufferBytes iov)), Fits limit o) ∧
          ∃ h, sysioDoio d xtv iov [] = .ok (r, h) ∧ moved h = stream xtv iov) ↔
        truncated xtv iov = false ∧ stalls true false (runs xtv) iov = false)) := by
  obtain ⟨m, rfl, -, hfits, hiff⟩ := sysioValidx_ok hrun hr
  have first : (((m : ℕ) : ℤ) = (min (extentBytes xtv) (bufferBytes iov) : ℕ) ∧
      ∀ o ∈ (filePlaces xtv).take (min (extentBytes xtv) (bufferBytes iov)), Fits limit o) ↔
      truncated xtv iov = false := by
    rw [← hiff]
    constructor
    · rintro ⟨hm, -⟩
      exact Int.ofNat.inj hm
    · intro hm
      exact ⟨congrArg _ hm, hm ▸ hfits⟩
  refine ⟨first, fun hxtv hshort d full => ?_⟩
  have hfull := sysioDoio_complete full xtv iov hxtv hshort
  rw [← first, ← hfull]
  constructor
  · rintro ⟨hm, hfit, h, hdoio, hmoved⟩
    exact ⟨⟨hm, hfit⟩, h, hm ▸ hdoio, hmoved⟩
  · rintro ⟨⟨hm, hfit⟩, h, hdoio, hmoved⟩
    exact ⟨hm, hfit, h, hm ▸ hdoio, hmoved⟩

/-- Two extents of ten bytes and a buffer of twenty that starts in the first and goes on in the
second. -/
theorem sysioValidx_disagrees :
    ¬ ∀ (xtv : List Xtvec) (iov : List Iovec) (limit r : ℤ), sysioValidx xtv iov limit = .ok r →
      0 ≤ r → r = (min (extentBytes xtv) (bufferBytes iov) : ℕ) ∧
        ∀ o ∈ (filePlaces xtv).take (min (extentBytes xtv) (bufferBytes iov)), Fits limit o := by
  intro claim
  obtain ⟨hr, -⟩ := claim [⟨0, 10, by decide⟩, ⟨100, 10, by decide⟩] [⟨0, 20, by decide⟩] 1000 10
    (by decide +kernel) (by decide)
  revert hr
  decide

theorem sysioValidx_agrees_threeBuffers :
    sysioValidx [⟨0, 10, by decide⟩, ⟨100, 10, by decide⟩]
      [⟨0, 3, by decide⟩, ⟨50, 12, by decide⟩, ⟨60, 2, by decide⟩] 1000 = .ok 17 ∧
    (17 = ((min (extentBytes [⟨0, 10, by decide⟩, ⟨100, 10, by decide⟩]) (bufferBytes
        [⟨0, 3, by decide⟩, ⟨50, 12, by decide⟩, ⟨60, 2, by decide⟩]) : ℕ) : ℤ) ∧
      ∀ o ∈ (filePlaces [⟨0, 10, by decide⟩, ⟨100, 10, by decide⟩]).take (min (extentBytes
        [⟨0, 10, by decide⟩, ⟨100, 10, by decide⟩]) (bufferBytes
        [⟨0, 3, by decide⟩, ⟨50, 12, by decide⟩, ⟨60, 2, by decide⟩])), Fits 1000 o) :=
  ⟨by decide +kernel, (sysioValidx_agrees (by decide +kernel) (by decide)).1.mpr (by decide)⟩

end ReconcileValid
