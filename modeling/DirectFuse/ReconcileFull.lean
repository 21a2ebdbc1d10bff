import DirectFuse.ReconcileStream

/-! Strided transfers with a driver that moves all it is asked for. The whole stream is moved unless
the walk over the buffers stalls at empty ones. -/
namespace ReconcileFull

open ExecLogic SysioState SysioReconcile ReconcileStream

section Stalling

/-- The lengths of the runs of contiguous extents, the first of which has `len` bytes up to `stop`
already. -/
def runsFrom : ℤ → ℕ → List Xtvec → List ℕ
  | _, len, [] => [len]
  | stop, len, x :: l =>
    if stop ≠ x.off then len :: runsFrom (wrap64 (x.off + x.len)) x.len l
    else if x.len = 0 then runsFrom stop len l
    else runsFrom (wrap64 (stop + x.len)) (len + x.len) l

/-- The lengths of the runs of contiguous extents. -/
def runs : List Xtvec → List ℕ
  | [] => []
  | x :: l => runsFrom (wrap64 (x.off + x.len)) x.len l

/-- What is left of runs behind their first `n` bytes. -/
def advance : List ℕ → ℕ → List ℕ
  | [], _ => []
  | e :: rs, n => if n < e then (e - n) :: rs else advance rs (n - e)

/-- Whether `n` bytes reach beyond the end of the first run. -/
def overruns (rs : List ℕ) (n : ℕ) : Bool :=
  match advance rs 0 with
  | [] => false
  | e :: _ => decide (e < n)

/-- Whether a buffer that reaches beyond its run comes behind an empty one, which itself is first or
comes behind one that reached beyond its run: `past` and `empty` tell what came before. -/
def stalls : Bool → Bool → List ℕ → List Iovec → Bool
  | _, _, _, [] => false
  | past, empty, rs, v :: l =>
    if v.len = 0 then stalls past true rs l
    else if overruns rs v.len then (past && empty) || stalls true false (advance rs v.len) l
    else stalls false false (advance rs v.len) l

theorem advance_zero_advance (rs : List ℕ) (n : ℕ) : advance (advance rs 0) n = advance rs n := by
  induction rs with
  | nil => rfl
  | cons e rs ih =>
    by_cases he : e = 0
    · subst he
      exact ih
    · have : advance (e :: rs) 0 = e :: rs := by
        unfold advance
        rw [if_pos (by omega)]
        rfl
      rw [this]

theorem overruns_advance_zero (rs : List ℕ) (n : ℕ) : overruns (advance rs 0) n = overruns rs n := by
  unfold overruns
  rw [advance_zero_advance]

theorem stalls_advance_zero (past empty : Bool) (rs : List ℕ) (l : List Iovec) :
    stalls past empty (advance rs 0) l = stalls past empty rs l := by
  induction l generalizing empty with
  | nil => rfl
  | cons v l ih =>
    simp only [stalls, overruns_advance_zero, advance_zero_advance, ih]

theorem stalls_nil (past empty : Bool) (l : List Iovec) : stalls past empty [] l = false := by
  induction l generalizing past empty with
  | nil => rfl
  | cons v l ih => simp [stalls, overruns, advance, ih]

/-- A run of no length plays no part. -/
theorem advance_cons_zero (rs : List ℕ) (n : ℕ) : advance (0 :: rs) n = advance rs n := by
  simp [advance]

/-- The bytes moved may be taken off the buffer and off the run. -/
theorem advance_sub {len m c : ℕ} (rs : List ℕ) (hm : c ≤ m) (hlen : c ≤ len) :
    advance ((len - c) :: rs) (m - c) = advance (len :: rs) m := by
  by_cases hlt : m < len
  · rw [advance, advance, if_pos hlt, if_pos (by omega)]
    congr 1
    omega
  · rw [advance, advance, if_neg hlt, if_neg (by omega)]
    congr 1
    omega

theorem runsFrom_coalesce (stop : ℤ) (len : ℕ) (l : List Xtvec)
    (hmax : len + extentBytes l ≤ SSIZE_MAX) :
    runsFrom stop len l = (coalesce stop len l).1 :: runs (coalesce stop len l).2 := by
  induction l generalizing stop len with
  | nil => rfl
  | cons x l ih =>
    rw [extentBytes_cons] at hmax
    unfold runsFrom coalesce
    by_cases hne : stop ≠ x.off
    · rw [if_pos hne, if_pos hne]
      rfl
    rw [if_neg hne, if_neg hne]
    by_cases hzero : x.len = 0
    · rw [if_pos hzero, if_pos hzero]
      exact ih stop len (by omega)
    · have hmod : (len + x.len) % 2 ^ 64 = len + x.len := by
        apply Nat.mod_eq_of_lt
        unfold SSIZE_MAX at hmax
        omega
      rw [if_neg hzero, if_neg hzero, hmod]
      exact ih _ _ (by omega)

/-- Buffers that fit into the run pass without a stall; once one of them is not empty, an empty one
before it is forgotten. -/
theorem stalls_gather (past empty : Bool) (n : ℕ) (rs : List ℕ) (l : List Iovec) :
    ∃ empty', stalls past empty (n :: rs) l =
      stalls (past && decide ((gather l n).2.1 = n)) empty' ((gather l n).2.1 :: rs) (gather l n).2.2 ∧
      ((gather l n).2.1 = n → (gather l n).1 ≠ 0 → empty' = true) := by
  induction l generalizing past empty n with
  | nil => exact ⟨empty, rfl, fun _ h => (h rfl).elim⟩
  | cons v l ih =>
    unfold gather
    by_cases hlt : n < v.len
    · rw [if_pos hlt]
      refine ⟨empty, by simp, fun _ h => (h rfl).elim⟩
    rw [if_neg hlt]
    have hsub := gather_spec l (n - v.len)
    by_cases hzero : v.len = 0
    · have hn : n - v.len = n := by omega
      rw [hn] at hsub ⊢
      simp only [stalls, if_pos hzero]
      by_cases hnone : (gather l n).1 = 0
      · obtain ⟨-, hrest, hsum, -⟩ := hsub
        rw [hnone] at hrest hsum
        have hleft : (gather l n).2.1 = n := by simpa [bufferBytes] using hsum
        refine ⟨true, ?_, fun _ _ => rfl⟩
        rw [hrest, hleft]
        simp
      · obtain ⟨empty', heq, hempty⟩ := ih past true n
        exact ⟨empty', heq, fun hleft _ => hempty hleft hnone⟩
    · have hfits : overruns (n :: rs) v.len = false := by
        unfold overruns advance
        rw [if_pos (by omega)]
        simp
        omega
      have hnorm : stalls false false (advance (n :: rs) v.len) l =
          stalls false false ((n - v.len) :: rs) l := by
        have := advance_sub rs (Nat.le_refl v.len) (show v.len ≤ n by omega)
        rw [Nat.sub_self] at this
        rw [← this, stalls_advance_zero]
      obtain ⟨empty', heq, -⟩ := ih false false (n - v.len)
      have hlt' : (gather l (n - v.len)).2.1 ≠ n := by omega
      refine ⟨empty', ?_, fun hleft _ => absurd hleft hlt'⟩
      simp only [stalls, if_neg hzero, hfits, Bool.false_eq_true, if_false]
      rw [hnorm, heq]
      simp [hlt']

end Stalling

section Complete

variable {d : SysioReconcile.Callback} (full : Full d)

include full

/-- With a driver that moves all it is asked for, the loops move all that is left exactly when they do
not stall. -/
theorem extentsLoop_full (fuel : ℕ) (off : ℤ) (len : ℕ) (xtv : List Xtvec) (carried : Iovec)
    (iov : List Iovec) (acc : ℤ) (h h' : List Transfer) (r : ℤ) (ha : 0 ≤ acc)
    (hmax : acc + len + extentBytes xtv ≤ SSIZE_MAX) (hshort : iov.length < 2 ^ 31)
    (hrun : extentsLoop (sysioDoioHelper d) fuel off len xtv carried iov acc h = .ok (r, h')) :
    r = acc + min (len + extentBytes xtv) (carried.len + bufferBytes iov) ↔
      stalls true false (advance (len :: runs xtv) carried.len) iov = false := by
  induction fuel generalizing off len xtv carried iov acc h with
  | zero => exact (fault_ok.mp hrun).elim
  | succ fuel ih =>
    by_cases hlen : len = 0
    · cases xtv with
      | nil =>
        unfold extentsLoop at hrun
        rw [if_pos hlen] at hrun
        obtain ⟨rfl, -⟩ := pure_ok.mp hrun
        have hnone : advance [0] carried.len = [] := rfl
        rw [hlen, runs, hnone, stalls_nil]
        simp [extentBytes]
      | cons x l =>
        unfold extentsLoop at hrun
        rw [if_pos hlen] at hrun
        rw [extentBytes_cons] at hmax ⊢
        obtain ⟨-, hbytes, -⟩ := coalesce_spec x.off x.len l (by have := ssize_lt; omega)
        have hloop := ih x.off _ _ carried iov acc h ha
          (by rw [Int.add_assoc, ← Int.natCast_add, hbytes]; omega) hshort hrun
        rw [hbytes] at hloop
        have hruns : advance (len :: runs (x :: l)) carried.len =
            advance ((coalesce (wrap64 (x.off + x.len)) x.len l).1 ::
              runs (coalesce (wrap64 (x.off + x.len)) x.len l).2) carried.len := by
          rw [hlen, advance_cons_zero, runs, runsFrom_coalesce _ _ _ (by omega)]
        rw [hruns, ← hloop, hlen, Nat.zero_add]
    by_cases hcar : carried.len = 0
    · cases iov with
      | nil =>
        unfold extentsLoop at hrun
        rw [if_neg hlen, if_neg (not_not.mpr hcar)] at hrun
        obtain ⟨rfl, -⟩ := pure_ok.mp hrun
        simp [stalls, hcar, bufferBytes]
      | cons v l =>
        obtain ⟨hk, hrest, hsum, hhead⟩ := gather_spec (v :: l) len
        by_cases hbatch : (gather (v :: l) len).1 = 0
        · unfold extentsLoop at hrun
          rw [if_neg hlen, if_neg (not_not.mpr hcar)] at hrun
          simp only [if_pos hbatch] at hrun
          have hloop := ih off len xtv v l acc h ha hmax
            (by rw [List.length_cons] at hshort; omega) hrun
          have hlt : len < v.len := by
            rw [hbatch] at hrest hsum
            have hleft : (gather (v :: l) len).2.1 = len := by simpa [bufferBytes] using hsum
            have := hhead v (by simp [hrest])
            omega
          have hover : overruns (len :: runs xtv) v.len = true := by
            unfold overruns advance
            rw [if_pos (by omega)]
            simpa using hlt
          have hstall : stalls true false (advance (len :: runs xtv) carried.len) (v :: l) =
              stalls true false (advance (len :: runs xtv) v.len) l := by
            rw [hcar, stalls_advance_zero]
            simp [stalls, hover, show v.len ≠ 0 by omega]
          rw [hstall, ← hloop, hcar, bufferBytes_cons, Nat.zero_add]
        obtain ⟨cc, h1, -, hfull, -, hstep⟩ := @extentsLoop_batch d off _ _ _ h fuel xtv v l
          hlen hcar hbatch ha (by omega)
        have hcount := toSize_toInt (show (gather (v :: l) len).1 < 2 ^ 31 by omega)
        rw [hcount, if_neg hbatch] at hfull
        have hcc := hfull (full.serves _ _)
        rw [hstep] at hrun
        obtain ⟨empty', hstall, hempty⟩ := stalls_gather true false len (runs xtv) (v :: l)
        have htotal : bufferBytes (v :: l) = bufferBytes ((v :: l).take (gather (v :: l) len).1) +
            bufferBytes ((v :: l).drop (gather (v :: l) len).1) := by
          rw [← bufferBytes_append, List.take_append_drop]
        rw [hcar, stalls_advance_zero, hstall]
        by_cases hnone : (gather (v :: l) len).2.1 = len
        · -- the batch was empty, and the driver cannot be asked for anything
          rw [if_pos (by omega)] at hrun
          have hr : r = acc := by
            have := (Prod.mk.inj (Except.ok.inj hrun)).1
            split at this <;> omega
          rw [hempty hnone hbatch, hnone]
          cases hleft : (gather (v :: l) len).2.2 with
          | nil =>
            rw [hrest] at hleft
            rw [hleft] at htotal
            simp only [stalls, iff_true]
            have : bufferBytes [] = 0 := rfl
            omega
          | cons w m =>
            have hw := hhead w (by rw [hleft]; rfl)
            have hover : overruns (len :: runs xtv) w.len = true := by
              unfold overruns advance
              rw [if_pos (by omega)]
              simp
              omega
            rw [← hrest, hleft, bufferBytes_cons w] at htotal
            have hyes : stalls (true && decide (len = len)) true (len :: runs xtv) (w :: m) = true := by
              simp [stalls, hover, show w.len ≠ 0 by omega]
            rw [hyes]
            simp only [Bool.true_eq_false, iff_false]
            omega
        · have hpart : (gather (v :: l) len).2.1 < len := by omega
          rw [if_neg (by omega), if_neg (by omega)] at hrun
          have hloop := ih _ _ _ _ _ _ _ (by omega) (by omega)
            (by rw [List.length_drop]; omega) hrun
          rw [hcar, stalls_advance_zero] at hloop
          have hlenleft : len - cc.toNat = (gather (v :: l) len).2.1 := by omega
          rw [hlenleft] at hloop
          have hflags : stalls (true && decide ((gather (v :: l) len).2.1 = len)) empty'
              ((gather (v :: l) len).2.1 :: runs xtv) (gather (v :: l) len).2.2 =
              stalls true false ((gather (v :: l) len).2.1 :: runs xtv)
                (gather (v :: l) len).2.2 := by
            cases hleft : (gather (v :: l) len).2.2 with
            | nil => rfl
            | cons w m =>
              have hw := hhead w (by rw [hleft]; rfl)
              simp [stalls, hnone, show w.len ≠ 0 by omega]
          rw [hflags, hrest]
          refine Iff.trans ?_ hloop
          omega
    · obtain ⟨cc, h1, hle, hfull, -, hstep⟩ := @extentsLoop_carried d off _ _ iov _ h fuel xtv
        hlen hcar ha (by omega) (by omega)
      have hcc := hfull (full.serves _ _)
      rw [hstep, if_neg (by omega)] at hrun
      have hloop := ih _ _ _ _ _ _ _ (by omega) (by omega) hshort hrun
      have hadv : advance ((len - cc.toNat) :: runs xtv) (carried.len - cc.toNat) =
          advance (len :: runs xtv) carried.len := advance_sub _ (by omega) (by omega)
      rw [← hadv]
      refine Iff.trans ?_ hloop
      change _ ↔ r = cc + acc + (min (len - cc.toNat + extentBytes xtv)
        (carried.len - cc.toNat + bufferBytes iov) : ℕ)
      omega

/-- The call returns the whole length and its calls have moved the whole stream, in order, exactly
when the walk does not stall. -/
theorem sysioDoio_complete (xtv : List Xtvec) (iov : List Iovec)
    (hxtv : extentBytes xtv ≤ SSIZE_MAX) (hshort : iov.length < 2 ^ 31) :
    (∃ h, sysioDoio d xtv iov [] = .ok (((min (extentBytes xtv) (bufferBytes iov) : ℕ) : ℤ), h) ∧
      moved h = stream xtv iov) ↔ stalls true false (runs xtv) iov = false := by
  obtain ⟨r, h, hrun, -, hmoved⟩ := sysioDoio_prefix d xtv iov hxtv
  have hloop := extentsLoop_full full _ 0 0 xtv ⟨0, 0, by decide⟩ iov 0 [] h r (Int.le_refl 0)
    (by omega) hshort hrun
  have hnorm : stalls true false (advance (0 :: runs xtv) 0) iov = stalls true false (runs xtv) iov := by
    rw [advance_cons_zero, stalls_advance_zero]
  rw [hnorm] at hloop
  rw [← hloop]
  simp only [Nat.zero_add]
  constructor
  · rintro ⟨h', hrun', -⟩
    obtain ⟨hr, -⟩ := Prod.mk.inj (Except.ok.inj (hrun.symm.trans hrun'))
    omega
  · intro hr
    have hcast : r = ((min (extentBytes xtv) (bufferBytes iov) : ℕ) : ℤ) := by omega
    rw [hcast, Int.toNat_natCast, ← length_stream, List.take_length] at hmoved
    exact ⟨h, hcast ▸ hrun, hmoved⟩

end Complete

/-- A driver that moves all it is asked for. -/
def fullCallback : SysioReconcile.Callback := ⟨fun _ _ n _ => n, fun _ _ _ _ => Int.le_refl _⟩

/-- Two extents and three buffers, one of them empty, that all end at different places. -/
theorem sysioDoio_complete_threeBuffers :
    ∃ h, sysioDoio fullCallback [⟨0, 10, by decide⟩, ⟨100, 10, by decide⟩]
      [⟨0, 3, by decide⟩, ⟨50, 0, by decide⟩, ⟨60, 12, by decide⟩] [] = .ok ((15 : ℕ), h) ∧
      moved h = stream [⟨0, 10, by decide⟩, ⟨100, 10, by decide⟩]
        [⟨0, 3, by decide⟩, ⟨50, 0, by decide⟩, ⟨60, 12, by decide⟩] :=
  (sysioDoio_complete (fun _ _ _ _ => rfl) [⟨0, 10, by decide⟩, ⟨100, 10, by decide⟩]
    [⟨0, 3, by decide⟩, ⟨50, 0, by decide⟩, ⟨60, 12, by decide⟩] (by decide) (by decide)).mpr
    (by decide)

/-- Ten bytes of a file and a buffer of twenty behind an empty one are accepted, but nothing moves. -/
theorem sysioDoio_incomplete :
    ¬ ∀ (d : SysioReconcile.Callback) (xtv : List Xtvec) (iov : List Iovec) (limit r : ℤ), Full d →
      sysioValidx xtv iov limit = .ok r → 0 ≤ r → extentBytes xtv < SSIZE_MAX →
      bufferBytes iov < SSIZE_MAX →
      ∃ h, sysioDoio d xtv iov [] = .ok (((min (extentBytes xtv) (bufferBytes iov) : ℕ) : ℤ), h) ∧
        moved h = stream xtv iov := by
  intro claim
  obtain ⟨h, hrun, -⟩ := claim fullCallback [⟨0, 10, by decide⟩]
    [⟨0, 0, by decide⟩, ⟨0, 20, by decide⟩] 100 10 (fun _ _ _ _ => rfl) (by decide +kernel)
    (by decide) (by decide) (by decide)
  have stalled : sysioDoio fullCallback [⟨0, 10, by decide⟩] [⟨0, 0, by decide⟩, ⟨0, 20, by decide⟩] []
      = .ok (0, []) := by decide +kernel
  rw [stalled] at hrun
  simp [extentBytes, bufferBytes] at hrun

end ReconcileFull
