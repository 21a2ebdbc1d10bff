import DirectFuse.ReconcileValid

/-! The bounds of the two vectors that `_sysio_validx` reads. It counts the entries left with
unsigned sizes and takes one off a count as it tests it; a count that has run through zero lets the
loops go on behind the vector. -/
namespace VectorBounds

open ExecLogic SysioState SysioReconcile ReconcileStream ReconcileFull ReconcileValid

/-- The local variables of `_sysio_validx`: how far the two pointers have come, the counts of
entries left, what is left of the current extent and of the current buffer, and the sum. -/
structure Cursor where
  xtv : ℕ
  xtvlen : ℕ
  iov : ℕ
  iovlen : ℕ
  off : ℤ
  len : ℕ
  room : ℕ
  acc : ℤ
  deriving DecidableEq, Repr

/-- The rounds of a loop that looks for an entry with any bytes: where the pointer and the count have
got to, and the entry taken. A count of zero wraps as it is tested. -/
def takeEntry {α : Type} (size : α → ℕ) (vec : List α) : ℕ → ℕ → Except Fault (ℕ × ℕ × Option α)
  | i, 0 => .ok (i, 2 ^ 64 - 1, none)
  | i, n + 1 =>
    match vec[i]? with
    | none => .error .wild
    | some x => if size x = 0 then takeEntry size vec (i + 1) n else .ok (i + 1, n, some x)

/-- `while (!xtvec.xtv_len)`; an extent in front of the file is refused. -/
def loadXtv (xtv : List Xtvec) (c : Cursor) : Except Fault (Except ℤ Cursor) :=
  if c.len ≠ 0 then .ok (.ok c)
  else do
    match ← takeEntry Xtvec.len xtv c.xtv c.xtvlen with
    | (i, n, none) => .ok (.ok { c with xtv := i, xtvlen := n })
    | (i, n, some x) =>
      if x.off < 0 then .ok (.error (-EINVAL))
      else .ok (.ok { c with xtv := i, xtvlen := n, off := x.off, len := x.len })

/-- `while (!iovec.iov_len)`. -/
def loadIov (iov : List Iovec) (c : Cursor) : Except Fault Cursor :=
  if c.room ≠ 0 then .ok c
  else do
    match ← takeEntry Iovec.len iov c.iov c.iovlen with
    | (i, n, none) => .ok { c with iov := i, iovlen := n }
    | (i, n, some v) => .ok { c with iov := i, iovlen := n, room := v.len }

/-- The inner loop, which ends with the value to return or goes back to the outer one. -/
def innerLoop (iov : List Iovec) (limit : ℤ) : ℕ → Cursor → Except Fault (Except ℤ Cursor)
  | 0, _ => .error .diverge
  | fuel + 1, c => do
    let c ← loadIov iov c
    if c.room = 0 then
      .ok (.ok c)
    else if wrap64 c.room < 0 then
      .ok (.error (-EINVAL))
    else
      let cc := min c.room c.len
      match checkFragment limit c.off cc c.acc with
      | .error err => .ok (.error err)
      | .ok (next, sum) =>
        let c := { c with off := next, len := c.len - cc, room := c.room - cc, acc := sum }
        if c.len ≠ 0 ∧ c.iovlen ≠ 0 then innerLoop iov limit fuel c else .ok (.ok c)

/-- The outer loop. Every round of either loop but the last takes an entry. -/
def outerLoop (xtv : List Xtvec) (iov : List Iovec) (limit : ℤ) : ℕ → Cursor → Except Fault ℤ
  | 0, _ => .error .diverge
  | fuel + 1, c => do
    match ← loadXtv xtv c with
    | .error err => .ok err
    | .ok c =>
      if c.len = 0 then
        .ok c.acc
      else
        match ← innerLoop iov limit (iov.length + 2) c with
        | .error err => .ok err
        | .ok c =>
          if (c.xtvlen ≠ 0 ∨ c.len ≠ 0) ∧ c.iovlen ≠ 0 then outerLoop xtv iov limit fuel c
          else .ok c.acc

/-- `_sysio_validx` with its pointers and counts. -/
def validx (xtv : List Xtvec) (iov : List Iovec) (limit : ℤ) : Except Fault ℤ :=
  if xtv.length = 0 ∨ iov.length = 0 then .ok (-EINVAL)
  else outerLoop xtv iov limit (xtv.length + 1) ⟨0, xtv.length, 0, iov.length, 0, 0, 0, 0⟩

/-- The I/O vector ends in an empty entry, the extents have more bytes than it has, and no check
refuses the bytes it has or the extent behind them. -/
def Overruns (xtv : List Xtvec) (iov : List Iovec) (limit : ℤ) : Prop :=
  (∃ v, iov.getLast? = some v ∧ v.len = 0) ∧ bufferBytes iov ≤ SSIZE_MAX ∧
    (∀ o ∈ (filePlaces xtv).take (bufferBytes iov), Fits limit o) ∧
    ∃ o, (filePlaces xtv)[bufferBytes iov]? = some o ∧ 0 ≤ o

section Refinement

/-- What a loop finds from a point of a vector on. -/
theorem takeEntry_suffix {α : Type} (size : α → ℕ) {vec l : List α} (h : l <:+ vec) :
    takeEntry size vec (vec.length - l.length) l.length =
      match l.dropWhile fun x => size x == 0 with
      | [] => .ok (vec.length, 2 ^ 64 - 1, none)
      | x :: r => .ok (vec.length - r.length, r.length, some x) := by
  induction l with
  | nil => rfl
  | cons x l ih =>
    have hle := h.length_le
    have hnext : vec.length - (x :: l).length + 1 = vec.length - l.length := by
      rw [List.length_cons] at hle ⊢
      omega
    have hget : vec[vec.length - (x :: l).length]? = some x := by
      obtain ⟨p, rfl⟩ := h
      simp
    rw [List.length_cons, takeEntry, ← List.length_cons (a := x), hget]
    simp only [hnext, List.dropWhile_cons, beq_iff_eq]
    by_cases hx : size x = 0
    · rw [if_pos hx, if_pos hx]
      exact ih ((List.suffix_cons x l).trans h)
    · rw [if_neg hx, if_neg hx]

theorem nextXtv_eq (l : List Xtvec) : nextXtv l =
    match l.dropWhile fun x => x.len == 0 with
    | [] => none
    | x :: r => some (x, r) := by
  induction l with
  | nil => rfl
  | cons x l ih =>
    rw [nextXtv, List.dropWhile_cons]
    by_cases hx : x.len = 0
    · simp only [hx, if_true, beq_self_eq_true, ih]
    · simp only [hx, if_false, beq_iff_eq]

theorem nextIov_eq (l : List Iovec) : nextIov l =
    match l.dropWhile fun x => x.len == 0 with
    | [] => none
    | x :: r => some (x, r) := by
  induction l with
  | nil => rfl
  | cons x l ih =>
    rw [nextIov, List.dropWhile_cons]
    by_cases hx : x.len = 0
    · simp only [hx, if_true, beq_self_eq_true, ih]
    · simp only [hx, if_false, beq_iff_eq]

variable (xtv : List Xtvec) (iov : List Iovec) (limit : ℤ)

/-- The variables where the entries in `xs` and `ys` are left. -/
def cursor (off : ℤ) (len : ℕ) (xs : List Xtvec) (room : ℕ) (ys : List Iovec) (acc : ℤ) : Cursor :=
  ⟨xtv.length - xs.length, xs.length, iov.length - ys.length, ys.length, off, len, room, acc⟩

/-- How the outer loop goes on with what the inner one ends with. -/
def goOn (fuel : ℕ) : Except Fault (Except ℤ Cursor) → Except Fault ℤ
  | .error f => .error f
  | .ok (.error err) => .ok err
  | .ok (.ok c) =>
    if (c.xtvlen ≠ 0 ∨ c.len ≠ 0) ∧ c.iovlen ≠ 0 then outerLoop xtv iov limit fuel c else .ok c.acc

variable {xtv iov limit}

theorem outerLoop_inside (fuel : ℕ) {c : Cursor} (hlen : c.len ≠ 0) :
    outerLoop xtv iov limit (fuel + 1) c =
      goOn xtv iov limit fuel (innerLoop iov limit (iov.length + 2) c) := by
  rw [outerLoop, loadXtv, if_pos hlen]
  simp only [Bind.bind, Except.bind, hlen, if_false]
  cases innerLoop iov limit (iov.length + 2) c with
  | error f => rfl
  | ok res => cases res <;> rfl

/-- Behind the last buffer the count has wrapped, and the next round reads there. -/
theorem goOn_exhausted (fuel : ℕ) {c : Cursor} (hlen : c.len ≠ 0) (hroom : c.room = 0)
    (hiov : c.iov = iov.length) (hcount : c.iovlen = 2 ^ 64 - 1) :
    goOn xtv iov limit (fuel + 1) (.ok (.ok c)) = .error .wild := by
  have hend : iov[iov.length]? = none := List.getElem?_eq_none (Nat.le_refl _)
  have hpos : (2 ^ 64 - 1 : ℕ) = (2 ^ 64 - 2) + 1 := by decide
  have hload : loadIov iov c = .error .wild := by
    rw [loadIov, if_neg (not_not.mpr hroom), hiov, hcount, hpos, takeEntry, hend]
    rfl
  rw [goOn, if_pos ⟨Or.inr hlen, by rw [hcount]; decide⟩, outerLoop_inside fuel hlen, innerLoop, hload]
  rfl

theorem loadXtv_next {off : ℤ} {xs : List Xtvec} {room : ℕ} {ys : List Iovec} {acc : ℤ}
    (h : xs <:+ xtv) : loadXtv xtv (cursor xtv iov off 0 xs room ys acc) =
      match nextXtv xs with
      | none => .ok (.ok { cursor xtv iov off 0 [] room ys acc with xtvlen := 2 ^ 64 - 1 })
      | some (x, l) =>
        if x.off < 0 then .ok (.error (-EINVAL))
        else .ok (.ok (cursor xtv iov x.off x.len l room ys acc)) := by
  have hempty : ¬ (cursor xtv iov off 0 xs room ys acc).len ≠ 0 := not_not.mpr rfl
  rw [loadXtv, if_neg hempty, nextXtv_eq]
  simp only [cursor, takeEntry_suffix Xtvec.len h]
  cases xs.dropWhile fun x => x.len == 0 <;> rfl

theorem loadIov_next {off : ℤ} {len : ℕ} {xs : List Xtvec} {ys : List Iovec} {acc : ℤ}
    (h : ys <:+ iov) : loadIov iov (cursor xtv iov off len xs 0 ys acc) =
      match nextIov ys with
      | none => .ok { cursor xtv iov off len xs 0 [] acc with iovlen := 2 ^ 64 - 1 }
      | some (v, l) => .ok (cursor xtv iov off len xs v.len l acc) := by
  have hempty : ¬ (cursor xtv iov off len xs 0 ys acc).room ≠ 0 := not_not.mpr rfl
  rw [loadIov, if_neg hempty, nextIov_eq]
  simp only [cursor, takeEntry_suffix Iovec.len h]
  cases ys.dropWhile fun x => x.len == 0 <;> rfl

/-- What is left behind an entry taken is a shorter end of the vector. -/
theorem nextXtv_suffix {xs l : List Xtvec} {x : Xtvec} (h : nextXtv xs = some (x, l)) :
    l <:+ xs ∧ l.length < xs.length := by
  have hdrop := List.dropWhile_suffix (l := xs) fun x => x.len == 0
  rw [nextXtv_eq] at h
  cases hd : xs.dropWhile fun x => x.len == 0 with
  | nil =>
    rw [hd] at h
    cases h
  | cons y r =>
    rw [hd] at h hdrop
    obtain ⟨rfl, rfl⟩ := Prod.mk.inj (Option.some.inj h)
    exact ⟨(List.suffix_cons y r).trans hdrop, hdrop.length_le⟩

theorem nextIov_suffix {ys l : List Iovec} {v : Iovec} (h : nextIov ys = some (v, l)) :
    (v :: l) <:+ ys ∧ v.len ≠ 0 := by
  have hdrop := List.dropWhile_suffix (l := ys) fun x => x.len == 0
  rw [nextIov_eq] at h
  cases hd : ys.dropWhile fun x => x.len == 0 with
  | nil =>
    rw [hd] at h
    cases h
  | cons y r =>
    have hhead := List.head_dropWhile_not (fun x : Iovec => x.len == 0) (l := ys) (by simp [hd])
    simp only [hd, List.head_cons, beq_eq_false_iff_ne] at hhead
    rw [hd] at h hdrop
    obtain ⟨rfl, rfl⟩ := Prod.mk.inj (Option.some.inj h)
    exact ⟨hdrop, hhead⟩

/-- The fragment of a round of the inner loop. -/
theorem innerLoop_fragment (fuel : ℕ) {off : ℤ} {len : ℕ} {xs : List Xtvec} {room : ℕ}
    {ys : List Iovec} {acc : ℤ} (hroom : room ≠ 0) :
    innerLoop iov limit (fuel + 1) (cursor xtv iov off len xs room ys acc) =
      if wrap64 room < 0 then .ok (.error (-EINVAL))
      else match checkFragment limit off (min room len : ℕ) acc with
        | .error err => .ok (.error err)
        | .ok (next, sum) =>
          if len - min room len ≠ 0 ∧ ys.length ≠ 0 then
            innerLoop iov limit fuel
              (cursor xtv iov next (len - min room len) xs (room - min room len) ys sum)
          else .ok (.ok (cursor xtv iov next (len - min room len) xs (room - min room len) ys sum)) := by
  have hload : loadIov iov (cursor xtv iov off len xs room ys acc) =
      .ok (cursor xtv iov off len xs room ys acc) := if_pos hroom
  rw [innerLoop, hload]
  simp only [Bind.bind, Except.bind, cursor, hroom, if_false]
  cases checkFragment limit off (min room len : ℕ) acc <;> rfl

/-- The loops with pointers and counts come to what the loops over the vectors come to: with an
extent to be taken in the outer loop, else in the inner one. -/
theorem loops_eq (fuel : ℕ) (off : ℤ) (len : ℕ) (xs : List Xtvec) (room : ℕ) (ys : List Iovec)
    (acc : ℤ) (hxs : xs <:+ xtv) (hys : ys <:+ iov)
    (enough : 2 * (xs.length + ys.length) + (if len = 0 then 0 else 1) +
      (if room = 0 then 0 else 1) < fuel) :
    (len = 0 → ∀ outer, xs.length < outer →
      outerLoop xtv iov limit outer (cursor xtv iov off len xs room ys acc) =
        validxLoop limit fuel off len xs room ys acc) ∧
    (len ≠ 0 → ∀ outer inner, xs.length < outer →
      ys.length + (if room = 0 then 1 else 2) ≤ inner →
      goOn xtv iov limit outer (innerLoop iov limit inner (cursor xtv iov off len xs room ys acc)) =
        validxLoop limit fuel off len xs room ys acc) := by
  induction fuel generalizing off len xs room ys acc with
  | zero => exact absurd enough (Nat.not_lt_zero _)
  | succ fuel ih =>
    constructor
    · rintro rfl outer houter
      obtain ⟨outer, rfl⟩ : ∃ n, outer = n + 1 := ⟨outer - 1, by omega⟩
      rw [outerLoop, loadXtv_next hxs, validxLoop, if_pos rfl]
      cases hnext : nextXtv xs with
      | none => rfl
      | some found =>
        obtain ⟨x, l⟩ := found
        obtain ⟨hl, hlt⟩ := nextXtv_suffix hnext
        obtain ⟨hne, -⟩ := nextXtv_some hnext
        simp only
        by_cases hneg : x.off < 0
        · rw [if_pos hneg, if_pos hneg]
          rfl
        rw [if_neg hneg, if_neg hneg]
        have inside := @outerLoop_inside xtv iov limit outer
          (cursor xtv iov x.off x.len l room ys acc) hne
        have hload : loadXtv xtv (cursor xtv iov x.off x.len l room ys acc) =
            .ok (.ok (cursor xtv iov x.off x.len l room ys acc)) := if_pos hne
        rw [outerLoop, hload] at inside
        refine inside.trans ((ih x.off x.len l room ys acc (hl.trans hxs) hys ?_).2 hne outer _ ?_ ?_)
        · rw [if_neg hne]
          rw [if_pos rfl] at enough
          omega
        · omega
        · have := hys.length_le
          split <;> omega
    · intro hlen outer inner houter hinner
      obtain ⟨outer, rfl⟩ : ∃ n, outer = n + 1 := ⟨outer - 1, by omega⟩
      obtain ⟨inner, rfl⟩ : ∃ n, inner = n + 1 := ⟨inner - 1, by split at hinner <;> omega⟩
      rw [if_neg hlen] at enough
      by_cases hroom : room = 0
      · subst hroom
        rw [validxLoop, if_neg hlen, if_pos rfl]
        cases hnext : nextIov ys with
        | none =>
          rw [innerLoop, loadIov_next hys, hnext]
          exact goOn_exhausted outer hlen rfl rfl rfl
        | some found =>
          obtain ⟨v, l⟩ := found
          obtain ⟨hl, hne⟩ := nextIov_suffix hnext
          have hlt : l.length < ys.length := hl.length_le
          have hload : loadIov iov (cursor xtv iov off len xs v.len l acc) =
              .ok (cursor xtv iov off len xs v.len l acc) := if_pos hne
          have taken : innerLoop iov limit (inner + 1) (cursor xtv iov off len xs 0 ys acc) =
              innerLoop iov limit (inner + 1) (cursor xtv iov off len xs v.len l acc) := by
            rw [innerLoop, innerLoop, loadIov_next hys, hnext, hload]
          rw [taken]
          simp only [if_pos] at enough hinner
          refine (ih off len xs v.len l acc hxs (((List.suffix_cons v l).trans hl).trans hys) ?_).2
            hlen _ _ houter ?_
          · rw [if_neg hlen, if_neg hne]
            omega
          · rw [if_neg hne]
            omega
      rw [innerLoop_fragment inner hroom, validxLoop, if_neg hlen, if_neg hroom]
      rw [if_neg hroom] at enough hinner
      by_cases hneg : wrap64 room < 0
      · rw [if_pos hneg, if_pos hneg]
        rfl
      rw [if_neg hneg, if_neg hneg]
      simp only
      cases hcheck : checkFragment limit off (min room len : ℕ) acc with
      | error err => rfl
      | ok res =>
        obtain ⟨next, sum⟩ := res
        simp only
        by_cases hlast : ys = []
        · subst hlast
          rw [if_pos rfl, if_neg (fun h => h.2 rfl)]
          exact if_neg fun h => h.2 rfl
        rw [if_neg hlast]
        have hcount : ys.length ≠ 0 := fun h => hlast (List.length_eq_zero_iff.mp h)
        by_cases hmore : len - min room len = 0
        · rw [if_neg (fun h => h.1 hmore)]
          have enough' : 2 * (xs.length + ys.length) + (if len - min room len = 0 then 0 else 1) +
              (if room - min room len = 0 then 0 else 1) < fuel := by
            rw [if_pos hmore]
            split <;> omega
          by_cases hxs' : xs = []
          · subst hxs'
            obtain ⟨fuel, rfl⟩ : ∃ n, fuel = n + 1 := ⟨fuel - 1, by omega⟩
            rw [validxLoop, if_pos hmore]
            exact if_neg fun h => h.1.elim (fun h => h rfl) fun h => h hmore
          · have hleft : xs.length ≠ 0 := fun h => hxs' (List.length_eq_zero_iff.mp h)
            refine (if_pos ⟨Or.inl hleft, hcount⟩).trans ?_
            exact (ih next _ xs _ ys sum hxs hys enough').1 hmore _ houter
        · have hroom' : room - min room len = 0 := by omega
          rw [if_pos ⟨hmore, hcount⟩]
          refine (ih next _ xs _ ys sum hxs hys ?_).2 hmore _ _ houter ?_
          · rw [if_neg hmore, if_pos hroom']
            omega
          · rw [if_pos hroom']
            omega

/-- The pointers and counts come to what the vectors come to. -/
theorem validx_eq (xtv : List Xtvec) (iov : List Iovec) (limit : ℤ) :
    validx xtv iov limit = sysioValidx xtv iov limit := by
  rw [validx, sysioValidx]
  simp only [List.length_eq_zero_iff]
  by_cases hnone : xtv = [] ∨ iov = []
  · rw [if_pos hnone, if_pos hnone]
  rw [if_neg hnone, if_neg hnone]
  have start : (⟨0, xtv.length, 0, iov.length, 0, 0, 0, 0⟩ : Cursor) =
      cursor xtv iov 0 0 xtv 0 iov 0 := by
    rw [cursor, Nat.sub_self, Nat.sub_self]
  rw [start]
  refine (loops_eq _ 0 0 xtv 0 iov 0 (List.suffix_refl xtv) (List.suffix_refl iov) ?_).1 rfl _
    (Nat.lt_succ_self _)
  exact Nat.lt_succ_self _

end Refinement

section Bounds

/-- A fragment that fits passes the checks while the sum does not overflow. -/
theorem checkFragment_passes {limit off cc acc : ℤ} (hoff : 0 ≤ off) (hcc : 0 < cc) (ha : 0 ≤ acc)
    (hlimit : off + cc ≤ limit) (hrange : off + cc < 2 ^ 63) (hsum : cc + acc ≤ SSIZE_MAX) :
    checkFragment limit off cc acc = .ok (off + cc, cc + acc) := by
  have hsize : (SSIZE_MAX : ℤ) = 2 ^ 63 - 1 := by decide
  have hplace : wrap64 (off + cc) = off + cc := wrap64_of_mem (by omega) (by omega)
  have htotal : wrap64 (cc + acc) = cc + acc := wrap64_of_mem (by omega) (by omega)
  unfold checkFragment
  simp only [hplace, htotal]
  rw [if_neg (by omega), if_neg (by omega), if_neg (by omega)]

/-- `Overruns` from a point of the loops on. -/
def OverrunsFrom (limit off : ℤ) (len : ℕ) (xs : List Xtvec) (room : ℕ) (ys : List Iovec) (acc : ℤ) :
    Prop :=
  (∃ v, ys.getLast? = some v ∧ v.len = 0) ∧ acc + (room + bufferBytes ys : ℕ) ≤ SSIZE_MAX ∧
    (∀ o ∈ (places off len ++ filePlaces xs).take (room + bufferBytes ys), Fits limit o) ∧
    ∃ o, (places off len ++ filePlaces xs)[room + bufferBytes ys]? = some o ∧ 0 ≤ o

theorem nextIov_none {ys : List Iovec} (h : nextIov ys = none) :
    bufferBytes ys = 0 ∧ ∀ v ∈ ys, v.len = 0 := by
  induction ys with
  | nil => exact ⟨rfl, fun v hv => by cases hv⟩
  | cons w ys ih =>
    unfold nextIov at h
    by_cases hw : w.len = 0
    · rw [if_pos hw] at h
      obtain ⟨hbytes, hall⟩ := ih h
      refine ⟨by rw [bufferBytes_cons, hw, hbytes], fun v hv => ?_⟩
      rcases List.mem_cons.mp hv with rfl | hv
      · exact hw
      · exact hall v hv
    · rw [if_neg hw] at h
      cases h

/-- The entry taken is not the empty one at the end. -/
theorem getLast_next {ys l : List Iovec} {v : Iovec} (h : nextIov ys = some (v, l)) :
    (∃ w, ys.getLast? = some w ∧ w.len = 0) ↔ ∃ w, l.getLast? = some w ∧ w.len = 0 := by
  obtain ⟨⟨p, rfl⟩, hne⟩ := nextIov_suffix h
  cases l with
  | nil =>
    rw [List.getLast?_append]
    simp [hne]
  | cons w l =>
    rw [List.getLast?_append, List.getLast?_cons_cons]
    simp [List.getLast?_cons]

theorem places_cons {off : ℤ} {len : ℕ} (hlen : len ≠ 0) (l : List ℤ) :
    (places off len ++ l)[0]? = some off := by
  obtain ⟨n, rfl⟩ : ∃ n, len = 1 + n := ⟨len - 1, by omega⟩
  rw [places_add]
  simp [places]

@[simp] theorem length_filePlaces (xtv : List Xtvec) :
    (filePlaces xtv).length = extentBytes xtv := by
  induction xtv with
  | nil => rfl
  | cons x xtv ih =>
    rw [filePlaces, List.flatMap_cons, List.length_append, length_places, extentBytes_cons]
    exact congrArg _ ih

/-- An extent in front of the file is refused, whether bytes of it are asked for or not. -/
theorem refused_start {limit off acc : ℤ} {len room : ℕ} {xs : List Xtvec} {ys : List Iovec}
    (hlen : len ≠ 0) (hneg : off < 0) : ¬ OverrunsFrom limit off len xs room ys acc := by
  rintro ⟨-, -, hfits, o, ho, hpos⟩
  have first : (places off len ++ filePlaces xs)[0]? = some off := places_cons hlen _
  by_cases hnone : room + bufferBytes ys = 0
  · rw [hnone, first] at ho
    obtain rfl := Option.some.inj ho
    omega
  · have hmem : off ∈ (places off len ++ filePlaces xs).take (room + bufferBytes ys) := by
      rw [List.mem_take_iff_getElem]
      obtain ⟨hlt, hget⟩ := List.getElem?_eq_some_iff.mp first
      exact ⟨0, by omega, hget⟩
    have := (hfits off hmem).1
    omega

/-- The places of a fragment, and those behind it. -/
theorem places_split {off : ℤ} {c len : ℕ} (hc : c ≤ len) (xs : List Xtvec) :
    places off len ++ filePlaces xs = places off c ++ (places (off + c) (len - c) ++ filePlaces xs) := by
  rw [← List.append_assoc, ← places_add, Nat.add_sub_cancel' hc]

/-- The loops may go on with what is behind a fragment that fits. -/
theorem overrunsFrom_advance {limit off acc : ℤ} {c len room : ℕ} {xs : List Xtvec} {ys : List Iovec}
    (hlen : c ≤ len) (hroom : c ≤ room) (hfit : ∀ o ∈ places off c, Fits limit o) :
    OverrunsFrom limit off len xs room ys acc ↔
      OverrunsFrom limit (off + c) (len - c) xs (room - c) ys (c + acc) := by
  have hcount : room + bufferBytes ys = (places off c).length + (room - c + bufferBytes ys) := by
    rw [length_places]
    omega
  have hget : (places off c ++ (places (off + c) (len - c) ++ filePlaces xs))[
      (places off c).length + (room - c + bufferBytes ys)]? =
      (places (off + c) (len - c) ++ filePlaces xs)[room - c + bufferBytes ys]? := by
    rw [List.getElem?_append_right (Nat.le_add_right ..), Nat.add_sub_cancel_left]
  have hsum : acc + (room + bufferBytes ys : ℕ) = c + acc + (room - c + bufferBytes ys : ℕ) := by
    omega
  rw [OverrunsFrom, OverrunsFrom, ← hsum, places_split hlen, hcount, hget, List.take_length_add_append]
  simp only [List.mem_append]
  constructor
  · rintro ⟨hlast, hle, hfits, hstart⟩
    exact ⟨hlast, hle, fun o ho => hfits o (Or.inr ho), hstart⟩
  · rintro ⟨hlast, hle, hfits, hstart⟩
    exact ⟨hlast, hle, fun o ho => ho.elim (hfit o) (hfits o), hstart⟩

/-- The last byte of a fragment is among the first ones. -/
theorem last_place {off : ℤ} {c len n : ℕ} (hc : 0 < c) (hlen : c ≤ len) (hn : c ≤ n)
    (xs : List Xtvec) : off + c - 1 ∈ (places off len ++ filePlaces xs).take n := by
  obtain ⟨m, rfl⟩ : ∃ m, n = c + m := ⟨n - c, by omega⟩
  have htake : c + m = (places off c).length + m := by rw [length_places]
  rw [places_split hlen, htake, List.take_length_add_append, List.mem_append]
  left
  rw [places, List.mem_map]
  exact ⟨c - 1, List.mem_range.mpr (by omega), by omega⟩

theorem validxLoop_returns {limit : ℤ} (fuel : ℕ) (off : ℤ) (len : ℕ) (xs : List Xtvec) (room : ℕ)
    (ys : List Iovec) (acc : ℤ) (hoff : 0 ≤ off) (hroom : room < 2 ^ 64) (ha : 0 ≤ acc)
    (hacc : acc ≤ SSIZE_MAX) (hys : ys ≠ [] ∨ room ≠ 0)
    (enough : 2 * (xs.length + ys.length) + (if len = 0 then 0 else 1) +
      (if room = 0 then 0 else 1) < fuel) :
    (∃ r, validxLoop limit fuel off len xs room ys acc = .ok r) ↔
      ¬ OverrunsFrom limit off len xs room ys acc := by
  induction fuel generalizing off len xs room ys acc with
  | zero => exact absurd enough (Nat.not_lt_zero _)
  | succ fuel ih =>
    unfold validxLoop
    by_cases hlen : len = 0
    · subst hlen
      rw [if_pos rfl] at enough ⊢
      cases hnext : nextXtv xs with
      | none =>
        have hbytes := nextXtv_none hnext
        refine ⟨fun _ => ?_, fun _ => ⟨acc, rfl⟩⟩
        rintro ⟨-, -, -, o, ho, -⟩
        have hlt := (List.getElem?_eq_some_iff.mp ho).1
        rw [List.length_append, length_places, length_filePlaces, hbytes] at hlt
        omega
      | some found =>
        obtain ⟨x, l⟩ := found
        obtain ⟨hne, -, hplaces, -⟩ := nextXtv_some hnext
        obtain ⟨-, hlt⟩ := nextXtv_suffix hnext
        simp only
        have same : OverrunsFrom limit off 0 xs room ys acc ↔
            OverrunsFrom limit x.off x.len l room ys acc := by
          rw [OverrunsFrom, OverrunsFrom, hplaces]
          rfl
        by_cases hneg : x.off < 0
        · rw [if_pos hneg]
          refine ⟨fun _ => ?_, fun _ => ⟨_, rfl⟩⟩
          rw [same]
          exact refused_start hne hneg
        · rw [if_neg hneg, same]
          refine ih x.off x.len l room ys acc (by omega) hroom ha hacc hys ?_
          rw [if_neg hne]
          omega
    rw [if_neg hlen] at enough ⊢
    by_cases hempty : room = 0
    · subst hempty
      rw [if_pos rfl] at enough ⊢
      cases hnext : nextIov ys with
      | none =>
        obtain ⟨hbytes, hall⟩ := nextIov_none hnext
        have hne : ys ≠ [] := hys.resolve_right fun h => h rfl
        refine ⟨fun h => ?_, fun h => absurd ?_ h⟩
        · obtain ⟨r, hr⟩ := h
          cases hr
        refine ⟨⟨ys.getLast hne, List.getLast?_eq_some_getLast hne, hall _ (List.getLast_mem hne)⟩,
          ?_, ?_, off, ?_, hoff⟩
        · rw [hbytes]
          omega
        · rw [hbytes, List.take_zero]
          exact fun o ho => by cases ho
        · rw [hbytes]
          exact places_cons hlen _
      | some found =>
        obtain ⟨v, l⟩ := found
        obtain ⟨hl, hne⟩ := nextIov_suffix hnext
        have hlt : l.length < ys.length := hl.length_le
        have same : OverrunsFrom limit off len xs 0 ys acc ↔
            OverrunsFrom limit off len xs v.len l acc := by
          rw [OverrunsFrom, OverrunsFrom, getLast_next hnext, (nextIov_some hnext).1, Nat.zero_add]
        simp only
        rw [same]
        refine ih off len xs v.len l acc hoff v.size ha hacc (Or.inr hne) ?_
        rw [if_neg hlen, if_neg hne]
        omega
    rw [if_neg hempty] at enough ⊢
    have hsize : (SSIZE_MAX : ℤ) = 2 ^ 63 - 1 := by decide
    by_cases hneg : wrap64 room < 0
    · rw [if_pos hneg]
      refine ⟨fun _ => ?_, fun _ => ⟨_, rfl⟩⟩
      rintro ⟨-, hsum, -⟩
      rw [wrap64_of_mem (by omega) (by omega)] at hneg
      omega
    rw [if_neg hneg]
    simp only
    have hroom' := (wrap64_overflow room).2
    cases hcheck : checkFragment limit off (min room len : ℕ) acc with
    | error err =>
      refine ⟨fun _ => ?_, fun _ => ⟨err, rfl⟩⟩
      rintro ⟨-, hsum, hfits, -⟩
      have hend := hfits _ (@last_place off (min room len) len (room + bufferBytes ys) (by omega)
        (by omega) (by omega) xs)
      rw [checkFragment_passes hoff (by omega) ha (by have := hend.2.1; omega)
        (by have := hend.2.2; omega) (by omega)] at hcheck
      cases hcheck
    | ok res =>
      obtain ⟨next, sum⟩ := res
      obtain ⟨rfl, rfl, hmax, hlim, hrange⟩ := checkFragment_ok hoff (by omega) (by omega) ha hacc hcheck
      simp only
      by_cases hlast : ys = []
      · subst hlast
        rw [if_pos rfl]
        refine ⟨fun _ => ?_, fun _ => ⟨_, rfl⟩⟩
        rintro ⟨⟨v, hv, -⟩, -⟩
        cases hv
      have hfit : ∀ o ∈ places off (min room len), Fits limit o := by
        intro o ho
        obtain ⟨hge, hlt⟩ := mem_places ho
        exact ⟨by omega, by omega, by omega⟩
      rw [if_neg hlast, overrunsFrom_advance (Nat.min_le_right room len) (Nat.min_le_left room len) hfit]
      refine ih _ _ xs _ ys _ (by omega) (by omega) (by omega) hmax (Or.inl hlast) ?_
      by_cases hmore : len - min room len = 0
      · rw [if_pos hmore]
        split <;> omega
      · rw [if_neg hmore, if_pos (by omega)]
        omega

theorem sysioValidx_returns {xtv : List Xtvec} {iov : List Iovec} (hxtv : xtv ≠ []) (hiov : iov ≠ [])
    (limit : ℤ) : (∃ r, sysioValidx xtv iov limit = .ok r) ↔ ¬ Overruns xtv iov limit := by
  have start : Overruns xtv iov limit ↔ OverrunsFrom limit 0 0 xtv 0 iov 0 := by
    rw [Overruns, OverrunsFrom, Nat.zero_add, Int.zero_add, Int.ofNat_le]
    rfl
  rw [sysioValidx, if_neg (fun h => h.elim hxtv hiov), start]
  exact validxLoop_returns _ 0 0 xtv 0 iov 0 (Int.le_refl 0) (by decide) (Int.le_refl 0) (by decide)
    (Or.inl hiov) (Nat.lt_succ_self _)

/-- The validation ends within both vectors unless the I/O vector overruns. -/
theorem validx_in_bounds (xtv : List Xtvec) (iov : List Iovec) (limit : ℤ) :
    (∃ r, validx xtv iov limit = .ok r) ↔ ¬ Overruns xtv iov limit := by
  rw [validx_eq]
  by_cases hnone : xtv = [] ∨ iov = []
  · rw [sysioValidx, if_pos hnone]
    refine ⟨fun _ => ?_, fun _ => ⟨_, rfl⟩⟩
    rintro ⟨⟨v, hv, -⟩, -, -, o, ho, -⟩
    rcases hnone with rfl | rfl
    · cases ho
    · cases hv
  · exact sysioValidx_returns (fun h => hnone (Or.inl h)) (fun h => hnone (Or.inr h)) limit

-- An empty entry in front of one with bytes does no harm.
example : validx [⟨0, 10, by decide⟩] [⟨0, 4, by decide⟩, ⟨0, 0, by decide⟩, ⟨64, 8, by decide⟩]
    1000 = .ok 10 := by decide +kernel

/-- One extent of ten bytes and one empty buffer: the loops read behind the buffer. -/
theorem validx_behind_vector :
    ¬ ∀ (xtv : List Xtvec) (iov : List Iovec) (limit : ℤ), ∃ r, validx xtv iov limit = .ok r := by
  intro claim
  obtain ⟨r, hr⟩ := claim [⟨0, 10, by decide⟩] [⟨0, 0, by decide⟩] 1000
  have hwild : validx [⟨0, 10, by decide⟩] [⟨0, 0, by decide⟩] 1000 = .error .wild := by
    decide +kernel
  rw [hwild] at hr
  cases hr

end Bounds

end VectorBounds
