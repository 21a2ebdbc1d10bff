import DirectFuse.ReconcileValid

/-! Strided transfers of extents that may be longer than any transfer. A call that returns has moved
the first bytes of the stream even so; how far the whole of a vector gets is a matter of where its
buffers end. -/
namespace ReconcileVast

open ExecLogic SysioState SysioReconcile ReconcileStream ReconcileFull ReconcileValid

/-- The lengths of the runs of contiguous extents as the code adds them up. -/
def sizes (xtv : List Xtvec) : List ℕ := (runs xtv).map fun e => e % 2 ^ 64

/-- Whether the number of buffers handed over at once is not cut down on its way through an int. -/
def counts (k : ℕ) : Bool := decide (k ≤ toSize (toInt k))

/-- Whether `n` bytes of a buffer that goes on from run to run are placed: each run it comes to has
at most `SSIZE_MAX` bytes left. -/
def carries : List ℕ → ℕ → Bool
  | _, 0 => true
  | [], _ + 1 => false
  | e :: rs, n + 1 => decide (e ≤ SSIZE_MAX) && carries rs (n + 1 - e)

/-- Whether all of the buffers are placed in runs of these lengths, with `k` buffers gathered for the
first of them. -/
def passes : ℕ → List ℕ → List Iovec → Bool
  | k, _, [] => counts k
  | k, rs, v :: l =>
    match advance rs 0 with
    | [] => false
    | e :: rs =>
      if v.len < e then passes (k + 1) ((e - v.len) :: rs) l
      else if v.len = e then counts (k + 1) && passes 0 rs l
      else counts k && carries (e :: rs) v.len && passes 0 (advance (e :: rs) v.len) l

section Coalescing

/-- The runs of contiguous extents are what the code coalesces. -/
theorem runsFrom_sizes (stop : ℤ) (len : ℕ) (l : List Xtvec) :
    (runsFrom stop len l).map (fun e => e % 2 ^ 64) =
      (coalesce stop (len % 2 ^ 64) l).1 :: sizes (coalesce stop (len % 2 ^ 64) l).2 := by
  induction l generalizing stop len with
  | nil => rfl
  | cons x l ih =>
    unfold runsFrom coalesce
    by_cases hne : stop ≠ x.off
    · rw [if_pos hne, if_pos hne]
      rfl
    rw [if_neg hne, if_neg hne]
    by_cases hzero : x.len = 0
    · rw [if_pos hzero, if_pos hzero]
      exact ih stop len
    · rw [if_neg hzero, if_neg hzero, Nat.mod_add_mod]
      exact ih _ _

theorem sizes_cons (x : Xtvec) (l : List Xtvec) :
    sizes (x :: l) = (coalesce (wrap64 (x.off + x.len)) x.len l).1 ::
      sizes (coalesce (wrap64 (x.off + x.len)) x.len l).2 := by
  have hsizes := runsFrom_sizes (wrap64 (x.off + x.len)) x.len l
  rw [Nat.mod_eq_of_lt x.size] at hsizes
  exact hsizes

end Coalescing

section Delivery

variable {d : SysioReconcile.Callback}

/-- A call for several buffers that returns has moved a first part of them. -/
theorem helper_delivers {iov : List Iovec} {count off limit cc : ℤ} {h h₁ : List Transfer}
    (hmax : limit ≤ SSIZE_MAX) (mem : toSize count ≤ iov.length ∨ limit ≤ bufferBytes iov)
    (run : sysioDoioHelper d iov count off limit h = .ok (cc, h₁)) :
    Delivered ((bufferAddresses iov).zip (offsets off limit.toNat)) h cc h₁ ∧
      (0 < cc → 0 ≤ limit) := by
  by_cases hlimit : 0 ≤ limit
  · rcases sysioEnumerateIovec_run d iov (toSize count) off limit h hlimit hmax mem with
      ⟨r, h', hrun, hdel, -⟩
    have hsame := Except.ok.inj (hrun.symm.trans run)
    rcases Prod.mk.inj hsame with ⟨rfl, rfl⟩
    exact ⟨hdel, fun _ => hlimit⟩
  · unfold sysioDoioHelper sysioEnumerateIovec at run
    by_cases hcount : toSize count = 0
    · rw [if_pos hcount] at run
      rcases pure_ok.mp run with ⟨rfl, rfl⟩
      have hneg : (-EINVAL : ℤ) ≤ 0 := by decide
      exact ⟨Delivered.nothing _ h hneg, fun hpos => absurd hpos (by decide)⟩
    · rw [if_neg hcount] at run
      rcases bind_ok.mp run with ⟨u, h', hcheck, -⟩
      exact absurd (of_decide_eq_true (check_ok.mp hcheck).1) hlimit

/-- The sum of a round that returns did not overflow. -/
theorem account_ok {cc acc r : ℤ} {h h' : List Transfer} (ha : 0 ≤ acc) (hacc : acc ≤ SSIZE_MAX)
    (hmax : cc ≤ SSIZE_MAX) {k : ℤ → Io ℤ}
    (run : (if cc ≤ 0 then pure (if acc ≠ 0 then acc else cc) else do
      let sum := wrap64 (cc + acc)
      Exec.check Fault.abort fun _ => !(acc != 0 && decide (sum ≤ acc))
      k sum : Io ℤ) h = .ok (r, h')) :
    (cc ≤ 0 ∧ r = (if acc ≠ 0 then acc else cc) ∧ h' = h) ∨
      (0 < cc ∧ cc + acc ≤ SSIZE_MAX ∧ k (cc + acc) h = .ok (r, h')) := by
  by_cases hcc : cc ≤ 0
  · rw [if_pos hcc] at run
    rcases pure_ok.mp run with ⟨rfl, rfl⟩
    exact Or.inl ⟨hcc, rfl, rfl⟩
  · rw [if_neg hcc] at run
    rcases bind_ok.mp run with ⟨u, h₁, hcheck, hrest⟩
    rcases check_ok.mp hcheck with ⟨hgood, rfl⟩
    have hpos : 0 < cc := by omega
    by_cases hsum : cc + acc ≤ SSIZE_MAX
    · rw [wrap64_of_mem (by omega) hsum] at hrest
      exact Or.inr ⟨hpos, hsum, hrest⟩
    · have hsize : (SSIZE_MAX : ℤ) = 2 ^ 63 - 1 := by decide
      have hneg := (wrap64_overflow (cc + acc)).2 (by omega) (by omega)
      have hstop : acc ≠ 0 ∧ wrap64 (cc + acc) ≤ acc := ⟨by omega, by omega⟩
      simp [hstop.1, hstop.2] at hgood

/-- What moves none of no bytes moves none of any. -/
theorem delivered_none {bytes : List (ℕ × ℤ)} {h h' : List Transfer} {r : ℤ}
    (hdel : Delivered [] h r h') : Delivered bytes h r h' := by
  have hr : r ≤ 0 := hdel.le
  rcases hdel.moved with ⟨l, hl, hmoved⟩
  refine ⟨⟨l, hl, ?_⟩, by omega⟩
  rw [hmoved, Int.toNat_of_nonpos hr]
  rfl

/-- A round that goes on with a buffer that did not fit, and returns. -/
theorem carried_delivers {off : ℤ} {len : ℕ} {carried : Iovec} {cc : ℤ} {h h₁ : List Transfer}
    (hlen : len < 2 ^ 64)
    (run : sysioDoioHelper d [carried.clip len] 1 off (wrap64 len) h = .ok (cc, h₁)) :
    cc ≤ min carried.len len ∧ cc ≤ SSIZE_MAX ∧
      ∃ l, h₁ = h ++ l ∧ moved l = span carried.base cc.toNat off := by
  have hsize : (SSIZE_MAX : ℤ) = 2 ^ 63 - 1 := by decide
  have hwrap := wrap64_overflow (len : ℤ)
  have hone : toSize 1 ≤ 1 := by decide
  rcases helper_delivers (by omega) (Or.inl hone) run with ⟨hdel, hpos⟩
  rcases hdel.moved with ⟨l, hl, hmoved⟩
  by_cases hcc : cc ≤ 0
  · refine ⟨by omega, by omega, l, hl, ?_⟩
    rw [hmoved, Int.toNat_of_nonpos hcc]
    rfl
  · have hsmall : wrap64 len = len := wrap64_of_mem (by omega) (by omega)
    have haddr : bufferAddresses [carried.clip len] = addresses carried.base (min carried.len len) := by
      simp [bufferAddresses, Iovec.clip]
    have hle := hdel.le
    rw [hsmall, haddr, Int.toNat_natCast] at hmoved hle
    rw [List.length_zip, length_addresses, length_offsets] at hle
    refine ⟨by omega, by omega, l, hl, ?_⟩
    have hsplit := @zip_span carried.base (min carried.len len) len cc.toNat off (by omega) (by omega)
      [] []
    rw [List.append_nil, List.append_nil] at hsplit
    rw [hmoved, hsplit, List.take_left']
    simp

/-- A round that hands over the buffers that fit, and returns. -/
theorem batch_delivers {off : ℤ} {len : ℕ} {iov : List Iovec} {cc : ℤ} {h h₁ : List Transfer}
    (hlen : len < 2 ^ 64)
    (run : sysioDoioHelper d iov (toInt (gather iov len).1) off
      (wrap64 ((len - (gather iov len).2.1 : ℕ) : ℤ)) h = .ok (cc, h₁)) :
    cc ≤ (len - (gather iov len).2.1 : ℕ) ∧ cc ≤ SSIZE_MAX ∧
      ∃ l, h₁ = h ++ l ∧ moved l = ((bufferAddresses iov).zip (offsets off len)).take cc.toNat := by
  rcases gather_spec iov len with ⟨-, hrest, hsum, -⟩
  have htake : bufferBytes (iov.take (gather iov len).1) ≤ bufferBytes iov := by
    conv_rhs => rw [← List.take_append_drop (gather iov len).1 iov, bufferBytes_append]
    exact Nat.le_add_right ..
  have hremain : len - (gather iov len).2.1 ≤ bufferBytes iov := by omega
  have hshort : len - (gather iov len).2.1 ≤ len := Nat.sub_le ..
  generalize toInt (gather iov len).1 = count at run
  generalize len - (gather iov len).2.1 = remain at run hremain hshort ⊢
  have hsize : (SSIZE_MAX : ℤ) = 2 ^ 63 - 1 := by decide
  have hwrap := wrap64_overflow (remain : ℤ)
  have hmem : wrap64 (remain : ℤ) ≤ bufferBytes iov := by
    by_cases hsmall : (remain : ℤ) ≤ SSIZE_MAX
    · rw [wrap64_of_mem (Int.natCast_nonneg _) hsmall]
      exact Int.ofNat_le.mpr hremain
    · have hneg := hwrap.2 (by omega) (by omega)
      omega
  rcases helper_delivers (by omega) (Or.inr hmem) run with ⟨hdel, hpos⟩
  rcases hdel.moved with ⟨l, hl, hmoved⟩
  by_cases hcc : cc ≤ 0
  · refine ⟨by omega, by omega, l, hl, ?_⟩
    rw [hmoved, Int.toNat_of_nonpos hcc, List.take_zero, List.take_zero]
  · have hsmall : (remain : ℤ) ≤ SSIZE_MAX := by
      by_contra hbig
      have hneg := hwrap.2 (by omega) (by omega)
      have hnonneg := hpos (by omega)
      omega
    have hle := hdel.le
    rw [wrap64_of_mem (Int.natCast_nonneg _) hsmall, Int.toNat_natCast] at hmoved hle
    rw [List.length_zip, length_bufferAddresses, length_offsets] at hle
    refine ⟨by omega, by omega, l, hl, ?_⟩
    have hfirst := @take_zip_offsets (bufferAddresses iov) off cc.toNat remain (by omega) []
    have hwhole := @take_zip_offsets (bufferAddresses iov) off cc.toNat len (by omega) []
    rw [List.append_nil] at hfirst hwhole
    rw [hmoved, hfirst, hwhole]

/-- Loops that return have moved the first bytes of what was left, as many as they add to the sum. -/
theorem extentsLoop_delivers (fuel : ℕ) (off : ℤ) (len : ℕ) (xtv : List Xtvec) (carried : Iovec)
    (iov : List Iovec) (acc : ℤ) (h h' : List Transfer) (r : ℤ) (hlen : len < 2 ^ 64)
    (hsum : len + extentBytes xtv ≤ 2 ^ 64) (ha : 0 ≤ acc) (hacc : acc ≤ SSIZE_MAX)
    (run : extentsLoop (sysioDoioHelper d) fuel off len xtv carried iov acc h = .ok (r, h')) :
    Delivered (rest off len xtv carried iov) h (r - acc) h' ∧ (acc = 0 ∨ acc ≤ r) ∧
      r ≤ SSIZE_MAX := by
  induction fuel generalizing off len xtv carried iov acc h with
  | zero => exact (fault_ok.mp run).elim
  | succ fuel ih =>
    have stop : (pure acc : Io ℤ) h = .ok (r, h') →
        Delivered (rest off len xtv carried iov) h (r - acc) h' ∧ (acc = 0 ∨ acc ≤ r) ∧
          r ≤ SSIZE_MAX := by
      intro hstop
      rcases pure_ok.mp hstop with ⟨rfl, rfl⟩
      exact ⟨Delivered.nothing _ h (by omega), Or.inr (Int.le_refl _), hacc⟩
    unfold extentsLoop at run
    by_cases hempty : len = 0
    · rw [if_pos hempty] at run
      cases xtv with
      | nil => exact stop run
      | cons x l =>
        rw [extentBytes_cons] at hsum
        rcases coalesce_cases x.off x.len l x.size (by omega) with ⟨hcases, hsize⟩
        have hpieces : offsets off len ++ extentOffsets (x :: l) =
            offsets x.off x.len ++ extentOffsets l := by
          rw [hempty, extentOffsets, extentOffsets, List.flatMap_cons]
          rfl
        rcases hcases with ⟨hos, hbytes⟩ | ⟨hzero, hnone, -⟩
        · rcases ih x.off _ _ carried iov acc h hsize (by omega) ha hacc run with ⟨hdel, hr⟩
          rw [rest, hos, ← hpieces] at hdel
          exact ⟨hdel, hr⟩
        · rcases ih x.off _ _ carried iov acc h hsize (by omega) ha hacc run with ⟨hdel, hr⟩
          have hleft : offsets x.off (coalesce (wrap64 (x.off + x.len)) x.len l).1 ++
              extentOffsets (coalesce (wrap64 (x.off + x.len)) x.len l).2 = [] := by
            apply List.length_eq_zero_iff.mp
            rw [List.length_append, length_offsets, length_extentOffsets, hzero, hnone]
          rw [rest, hleft, List.zip_nil_right] at hdel
          exact ⟨delivered_none hdel, hr⟩
    rw [if_neg hempty] at run
    by_cases hcar : carried.len = 0
    · rw [if_neg (not_not.mpr hcar)] at run
      cases iov with
      | nil => exact stop run
      | cons v l =>
        by_cases hbatch : (gather (v :: l) len).1 = 0
        · simp only [if_pos hbatch] at run
          rw [rest_next hcar]
          exact ih off len xtv v l acc h hlen hsum ha hacc run
        simp only [if_neg hbatch] at run
        rcases bind_ok.mp run with ⟨cc, h₁, hcall, hround⟩
        rcases batch_delivers hlen hcall with ⟨hle, hmax, m, hm, hmoved⟩
        have hsum' := @account_ok cc acc r h₁ h' ha hacc hmax (fun sum =>
          if (len - (gather (v :: l) len).2.1) - cc.toNat ≠ 0 then pure sum
          else extentsLoop (sysioDoioHelper d) fuel (wrap64 (off + cc)) (len - cc.toNat) xtv carried
            (gather (v :: l) len).2.2 sum) hround
        rcases hsum' with ⟨hcc, hr, rfl⟩ | ⟨hcc, hfits, hgo⟩
        · have hnone : r - acc ≤ 0 := by
            rw [hr]
            split <;> omega
          refine ⟨⟨⟨m, hm, ?_⟩, by omega⟩, by rw [hr]; split <;> omega, by rw [hr]; split <;> omega⟩
          rw [hmoved, Int.toNat_of_nonpos hcc, Int.toNat_of_nonpos hnone]
          rfl
        rcases gather_spec (v :: l) len with ⟨-, hrest, hbytes, -⟩
        by_cases hpart : (len - (gather (v :: l) len).2.1) - cc.toNat ≠ 0
        · rw [if_pos hpart] at hgo
          rcases pure_ok.mp hgo with ⟨rfl, rfl⟩
          refine ⟨⟨⟨m, hm, ?_⟩, ?_⟩, Or.inr (by omega), hfits⟩
          · rw [Int.add_sub_cancel, take_rest hcar (by omega)]
            exact hmoved
          · have htotal : bufferBytes ((v :: l).take (gather (v :: l) len).1) ≤
                bufferBytes (v :: l) := by
              conv_rhs => rw [← List.take_append_drop (gather (v :: l) len).1 (v :: l),
                bufferBytes_append]
              exact Nat.le_add_right ..
            rw [rest, List.length_zip, List.length_append, List.length_append,
              length_bufferAddresses, length_offsets, length_addresses]
            omega
        · rw [if_neg hpart, hrest] at hgo
          have hcast : (bufferBytes ((v :: l).take (gather (v :: l) len).1) : ℤ) = cc := by omega
          have hnat : cc.toNat = bufferBytes ((v :: l).take (gather (v :: l) len).1) := by omega
          rcases ih _ (len - cc.toNat) xtv carried _ (cc + acc) h₁ (by omega) (by omega) (by omega)
            hfits hgo with ⟨hdel, hr, hmost⟩
          refine ⟨?_, Or.inr (by omega), hmost⟩
          rw [rest_batch (k := (gather (v :: l) len).1) hcar (by omega), hcast, ← hnat]
          subst hm
          have hbehind := Delivered.after hmoved (c := cc) (by
            rw [List.length_take, List.length_zip, length_bufferAddresses, length_offsets]
            have htotal : bufferBytes ((v :: l).take (gather (v :: l) len).1) ≤
                bufferBytes (v :: l) := by
              conv_rhs => rw [← List.take_append_drop (gather (v :: l) len).1 (v :: l),
                bufferBytes_append]
              exact Nat.le_add_right ..
            omega) (by omega) hdel
          have hsame : cc + (r - (cc + acc)) = r - acc := by omega
          rwa [hsame] at hbehind
    · rw [if_pos hcar] at run
      rcases bind_ok.mp run with ⟨cc, h₁, hcall, hround⟩
      rcases carried_delivers hlen hcall with ⟨hle, hmax, m, hm, hmoved⟩
      have hsum' := @account_ok cc acc r h₁ h' ha hacc hmax (fun sum =>
        extentsLoop (sysioDoioHelper d) fuel (wrap64 (off + cc)) (len - cc.toNat) xtv
          (carried.advance cc.toNat) iov sum) hround
      rcases hsum' with ⟨hcc, hr, rfl⟩ | ⟨hcc, hfits, hgo⟩
      · have hnone : r - acc ≤ 0 := by
          rw [hr]
          split <;> omega
        refine ⟨⟨⟨m, hm, ?_⟩, by omega⟩, by rw [hr]; split <;> omega, by rw [hr]; split <;> omega⟩
        rw [hmoved, Int.toNat_of_nonpos hcc, Int.toNat_of_nonpos hnone]
        rfl
      · have hcast : ((cc.toNat : ℕ) : ℤ) = cc := by omega
        rcases ih _ (len - cc.toNat) xtv (carried.advance cc.toNat) iov (cc + acc) h₁ (by omega)
          (by omega) (by omega) hfits hgo with ⟨hdel, hr, hmost⟩
        refine ⟨?_, Or.inr (by omega), hmost⟩
        rw [rest_advance (c := cc.toNat) (by omega) (by omega), hcast]
        subst hm
        have hbehind := Delivered.after hmoved (c := cc) (by simp; omega) (by omega) hdel
        have hsame : cc + (r - (cc + acc)) = r - acc := by omega
        rwa [hsame] at hbehind

/-- Whatever lengths the extents have, a transfer that returns has moved the first bytes of the
stream, as many as it returns. -/
theorem sysioDoio_delivers {xtv : List Xtvec} {iov : List Iovec} {r : ℤ} {h : List Transfer}
    (hsum : extentBytes xtv ≤ 2 ^ 64) (run : sysioDoio d xtv iov [] = .ok (r, h)) :
    r ≤ (stream xtv iov).length ∧ moved h = (stream xtv iov).take r.toNat ∧ r ≤ SSIZE_MAX := by
  have hmax : (0 : ℤ) ≤ SSIZE_MAX := Int.natCast_nonneg _
  rcases extentsLoop_delivers _ 0 0 xtv _ iov 0 [] h r (by decide) (by omega) (Int.le_refl 0) hmax run
    with ⟨hdel, -, hmost⟩
  rw [Int.sub_zero] at hdel
  rcases hdel.moved with ⟨l, hl, hmoved⟩
  have hrest : rest 0 0 xtv ⟨0, 0, by decide⟩ iov = stream xtv iov := rfl
  rw [hrest] at hdel hmoved
  refine ⟨hdel.le, ?_, hmost⟩
  rw [hl]
  exact hmoved

end Delivery

section Passing

theorem advance_head {e : ℕ} (rs : List ℕ) (he : e ≠ 0) : advance (e :: rs) 0 = e :: rs := by
  unfold advance
  rw [if_pos (Nat.pos_of_ne_zero he)]
  rfl

@[simp] theorem counts_zero : counts 0 = true := by decide

@[simp] theorem carries_zero (rs : List ℕ) : carries rs 0 = true := by
  cases rs <;> rfl

/-- A run without bytes left does not hold a buffer up. -/
theorem carries_none (rs : List ℕ) {n : ℕ} (hn : n ≠ 0) : carries (0 :: rs) n = carries rs n := by
  rcases Nat.exists_eq_succ_of_ne_zero hn with ⟨k, rfl⟩
  have hle : decide (0 ≤ SSIZE_MAX) = true := by decide
  rw [carries, hle, Bool.true_and]
  rfl

/-- The bytes placed in a run may be taken off the buffer and off the run. -/
theorem carries_sub {e n c : ℕ} (rs : List ℕ) (he : e ≤ SSIZE_MAX) (hn : n ≠ 0) (hc : c = min n e) :
    carries (e :: rs) n = carries ((e - c) :: rs) (n - c) := by
  rcases Nat.exists_eq_succ_of_ne_zero hn with ⟨k, rfl⟩
  have hle : decide (e ≤ SSIZE_MAX) = true := decide_eq_true he
  rw [carries, hle, Bool.true_and]
  by_cases hfits : k + 1 ≤ e
  · have hdone : k + 1 - e = 0 := by omega
    have hall : k.succ - c = 0 := by omega
    rw [hdone, hall, carries_zero, carries_zero]
  · have hwhole : c = e := by omega
    have hmore : k + 1 - e ≠ 0 := by omega
    rw [hwhole, Nat.sub_self, carries_none rs hmore]

theorem carries_blocked {e n : ℕ} (rs : List ℕ) (he : ¬ e ≤ SSIZE_MAX) (hn : n ≠ 0) :
    carries (e :: rs) n = false := by
  rcases Nat.exists_eq_succ_of_ne_zero hn with ⟨k, rfl⟩
  have hgt : decide (e ≤ SSIZE_MAX) = false := decide_eq_false he
  rw [carries, hgt, Bool.false_and]

theorem passes_advance_zero (k : ℕ) (rs : List ℕ) (l : List Iovec) :
    passes k (advance rs 0) l = passes k rs l := by
  cases l with
  | nil => rfl
  | cons v l => simp only [passes, advance_zero_advance]

theorem passes_none (k : ℕ) (rs : List ℕ) (l : List Iovec) : passes k (0 :: rs) l = passes k rs l := by
  rw [← passes_advance_zero, advance_cons_zero, passes_advance_zero]

/-- A buffer that goes on behind its run. -/
theorem passes_beyond {k e : ℕ} {v : Iovec} (rs : List ℕ) (l : List Iovec) (he : e ≠ 0)
    (hbeyond : e < v.len) : passes k (e :: rs) (v :: l) =
      (counts k && (carries (e :: rs) v.len && passes 0 (advance (e :: rs) v.len) l)) := by
  have hnot : ¬ v.len < e := by omega
  have hne : v.len ≠ e := by omega
  simp only [passes, advance_head rs he, if_neg hnot, if_neg hne, Bool.and_assoc]

/-- The buffers that are gathered for a run. -/
theorem passes_gather (rs : List ℕ) (l : List Iovec) {k e : ℕ} (full : ∀ v ∈ l, v.len ≠ 0)
    (he : e ≠ 0) : passes k (e :: rs) l = (counts (k + (gather l e).1) &&
      passes 0 ((gather l e).2.1 :: rs) (gather l e).2.2) := by
  induction l generalizing k e with
  | nil => simp [passes, gather]
  | cons v l ih =>
    have hv : v.len ≠ 0 := full v List.mem_cons_self
    have full' : ∀ w ∈ l, w.len ≠ 0 := fun w hw => full w (List.mem_cons_of_mem _ hw)
    by_cases hbeyond : e < v.len
    · unfold gather
      rw [if_pos hbeyond]
      rw [passes_beyond rs l he hbeyond, passes_beyond rs l he hbeyond, counts_zero, Bool.true_and]
      rfl
    unfold gather
    rw [if_neg hbeyond]
    by_cases hexact : v.len = e
    · have hstop : gather l 0 = (0, 0, l) := by
        cases l with
        | nil => rfl
        | cons w m =>
          have hw : 0 < w.len := Nat.pos_of_ne_zero (full' w List.mem_cons_self)
          unfold gather
          rw [if_pos hw]
      have hnot : ¬ v.len < e := by omega
      rw [hexact, Nat.sub_self, hstop, passes_none]
      simp only [passes, advance_head rs he, if_neg hnot, if_pos hexact, Nat.zero_add]
    · have hfits : v.len < e := by omega
      have hleft : e - v.len ≠ 0 := by omega
      have hcount : k + ((gather l (e - v.len)).1 + 1) = k + 1 + (gather l (e - v.len)).1 := by omega
      rw [hcount, ← ih full' hleft]
      simp only [passes, advance_head rs he, if_pos hfits]

end Passing

section Passage

theorem bufferBytes_take_le (l : List Iovec) {i j : ℕ} (h : i ≤ j) :
    bufferBytes (l.take i) ≤ bufferBytes (l.take j) := by
  rcases Nat.exists_eq_add_of_le h with ⟨k, rfl⟩
  rw [List.take_add, bufferBytes_append]
  exact Nat.le_add_right ..

theorem bufferBytes_pos {l : List Iovec} (full : ∀ v ∈ l, v.len ≠ 0) (hne : l ≠ []) :
    bufferBytes l ≠ 0 := by
  rcases List.exists_cons_of_ne_nil hne with ⟨v, m, rfl⟩
  have hv := full v List.mem_cons_self
  rw [bufferBytes_cons]
  omega

/-- Where no buffer is empty, fewer of them have fewer bytes. -/
theorem bufferBytes_take_lt {l : List Iovec} (full : ∀ v ∈ l, v.len ≠ 0) {i j : ℕ} (h : i < j)
    (hj : j ≤ l.length) : bufferBytes (l.take i) < bufferBytes (l.take j) := by
  rcases Nat.exists_eq_add_of_lt h with ⟨k, rfl⟩
  have hmore : (l.drop i).take (k + 1) ≠ [] := by
    intro hnone
    have hlen := congrArg List.length hnone
    rw [List.length_take, List.length_drop, List.length_nil] at hlen
    omega
  have hbytes : bufferBytes ((l.drop i).take (k + 1)) ≠ 0 := by
    apply bufferBytes_pos _ hmore
    intro v hv
    exact full v (List.mem_of_mem_drop (List.mem_of_mem_take hv))
  rw [Nat.add_assoc, List.take_add, bufferBytes_append]
  omega

/-- The offsets reached behind the first bytes are reached. -/
theorem reach_behind {good : ℤ → Prop} {off : ℤ} {len c n : ℕ} {os : List ℤ} (hc : c ≤ len)
    (hn : c ≤ n) (reach : ∀ o ∈ (offsets off len ++ os).take n, good o) :
    (∀ o ∈ offsets off c, good o) ∧
      ∀ o ∈ (offsets (wrap64 (off + c)) (len - c) ++ os).take (n - c), good o := by
  rcases Nat.exists_eq_add_of_le hc with ⟨m, rfl⟩
  rcases Nat.exists_eq_add_of_le hn with ⟨k, rfl⟩
  have hsplit : (offsets off (c + m) ++ os).take (c + k) =
      offsets off c ++ (offsets (wrap64 (off + c)) m ++ os).take k := by
    have hlen : c + k = (offsets off c).length + k := by rw [length_offsets]
    rw [offsets_add, List.append_assoc, hlen, List.take_length_add_append]
  rw [hsplit] at reach
  rw [Nat.add_sub_cancel_left, Nat.add_sub_cancel_left]
  constructor
  · intro o ho
    exact reach o (List.mem_append_left _ ho)
  · intro o ho
    exact reach o (List.mem_append_right _ ho)

theorem wrap64_idem (x : ℤ) : wrap64 (wrap64 x) = wrap64 x := by
  have hadd := wrap64_add x 0
  rwa [Int.add_zero, Int.add_zero] at hadd

variable {d : SysioReconcile.Callback} {good : ℤ → Prop}

/-- A carried buffer is not handed over where the run has more bytes left than fit the type of the
limit. -/
theorem extentsLoop_blocked (fuel : ℕ) {off acc : ℤ} {len : ℕ} {xtv : List Xtvec} {carried : Iovec}
    {iov : List Iovec} {h : List Transfer} (hlen : len < 2 ^ 64) (hbig : ¬ len ≤ SSIZE_MAX)
    (hcar : carried.len ≠ 0) :
    extentsLoop (sysioDoioHelper d) (fuel + 1) off len xtv carried iov acc h =
      .error .assertion := by
  have hsize : (SSIZE_MAX : ℤ) = 2 ^ 63 - 1 := by decide
  have hneg := (wrap64_overflow (len : ℤ)).2 (by omega) (by omega)
  have hempty : len ≠ 0 := by omega
  have hcheck : (Exec.check Fault.assertion fun _ : List Transfer => decide (0 ≤ wrap64 len)) h =
      .error .assertion := by
    have hfalse : decide (0 ≤ wrap64 len) = false := decide_eq_false (by omega)
    unfold Exec.check
    rw [hfalse]
    rfl
  have hcall : sysioDoioHelper d [carried.clip len] 1 off (wrap64 len) h = .error .assertion := by
    have hone : toSize 1 ≠ 0 := by decide
    unfold sysioDoioHelper sysioEnumerateIovec
    rw [if_neg hone]
    exact bind_error hcheck
  unfold extentsLoop
  rw [if_neg hempty, if_pos hcar]
  exact bind_error hcall

/-- With a driver that serves the offsets reached, the loops get through all that is left exactly
when its buffers pass. -/
theorem extentsLoop_all
    (serving : ∀ off n, wrap64 off = off → (∀ o ∈ offsets off n, good o) → Serves d off n)
    (fuel : ℕ) (off : ℤ) (len : ℕ) (xtv : List Xtvec) (carried : Iovec) (iov : List Iovec) (acc : ℤ)
    (h : List Transfer) (hoff : wrap64 off = off) (typed : ∀ x ∈ xtv, wrap64 x.off = x.off)
    (hlen : len < 2 ^ 64) (hsum : len + extentBytes xtv ≤ 2 ^ 64) (full : ∀ v ∈ iov, v.len ≠ 0)
    (ha : 0 ≤ acc) (hmax : acc + (carried.len + bufferBytes iov : ℕ) ≤ SSIZE_MAX)
    (reach : ∀ o ∈ (offsets off len ++ extentOffsets xtv).take (carried.len + bufferBytes iov), good o)
    (hfuel : len + extentBytes xtv + xtv.length + iov.length < fuel) :
    (∃ h', extentsLoop (sysioDoioHelper d) fuel off len xtv carried iov acc h =
      .ok (acc + (carried.len + bufferBytes iov : ℕ), h')) ↔
      (carries (len :: sizes xtv) carried.len &&
        passes 0 (advance (len :: sizes xtv) carried.len) iov) = true := by
  induction fuel generalizing off len xtv carried iov acc h with
  | zero => omega
  | succ fuel ih =>
    by_cases hempty : len = 0
    · cases xtv with
      | nil =>
        unfold extentsLoop
        rw [if_pos hempty, hempty]
        have hnone : advance [0] carried.len = [] := rfl
        have hruns : sizes [] = [] := rfl
        rw [hruns, hnone]
        constructor
        · rintro ⟨h', run⟩
          have hsame := (pure_ok.mp run).1
          have hcar : carried.len = 0 := by omega
          have hiov : iov = [] := by
            by_contra hne
            have hpos := bufferBytes_pos full hne
            omega
          rw [hcar, hiov]
          rfl
        · intro hpass
          have hcar : carried.len = 0 := by
            by_contra hne
            rw [carries_none [] hne] at hpass
            rcases Nat.exists_eq_succ_of_ne_zero hne with ⟨k, hk⟩
            rw [hk] at hpass
            cases hpass
          cases iov with
          | nil =>
            refine ⟨h, pure_ok.mpr ⟨?_, rfl⟩⟩
            rw [hcar]
            simp [bufferBytes]
          | cons v l =>
            rw [hcar] at hpass
            cases hpass
      | cons x l =>
        rw [extentBytes_cons] at hsum hfuel
        rw [List.length_cons] at hfuel
        rcases coalesce_cases x.off x.len l x.size (by omega) with ⟨hcases, hsize⟩
        have hbehind := coalesce_suffix (wrap64 (x.off + x.len)) x.len l
        have hshort := hbehind.length_le
        have hpieces : offsets off len ++ extentOffsets (x :: l) =
            offsets x.off x.len ++ extentOffsets l := by
          rw [hempty, extentOffsets, extentOffsets, List.flatMap_cons]
          rfl
        rw [hpieces] at reach
        have htyped : ∀ y ∈ (coalesce (wrap64 (x.off + x.len)) x.len l).2, wrap64 y.off = y.off :=
          fun y hy => typed y (List.mem_cons_of_mem _ (hbehind.subset hy))
        have hreach : ∀ o ∈ (offsets x.off (coalesce (wrap64 (x.off + x.len)) x.len l).1 ++
            extentOffsets (coalesce (wrap64 (x.off + x.len)) x.len l).2).take
              (carried.len + bufferBytes iov), good o := by
          rcases hcases with ⟨hos, -⟩ | ⟨hzero, hnone, -⟩
          · rw [hos]
            exact reach
          · have hleft : offsets x.off (coalesce (wrap64 (x.off + x.len)) x.len l).1 ++
                extentOffsets (coalesce (wrap64 (x.off + x.len)) x.len l).2 = [] := by
              apply List.length_eq_zero_iff.mp
              rw [List.length_append, length_offsets, length_extentOffsets, hzero, hnone]
            rw [hleft, List.take_nil]
            exact fun o ho => absurd ho List.not_mem_nil
        have hbytes : (coalesce (wrap64 (x.off + x.len)) x.len l).1 +
            extentBytes (coalesce (wrap64 (x.off + x.len)) x.len l).2 ≤ x.len + extentBytes l := by
          rcases hcases with ⟨-, hbytes⟩ | ⟨hzero, hnone, -⟩
          · exact Nat.le_of_eq hbytes
          · omega
        have hloop := ih x.off _ _ carried iov acc h (typed x List.mem_cons_self) htyped hsize
          (by omega) full ha hmax hreach (by omega)
        have hpass : (carries (len :: sizes (x :: l)) carried.len &&
            passes 0 (advance (len :: sizes (x :: l)) carried.len) iov) =
            (carries (sizes (x :: l)) carried.len &&
              passes 0 (advance (sizes (x :: l)) carried.len) iov) := by
          rw [hempty, advance_cons_zero]
          by_cases hcar : carried.len = 0
          · rw [hcar, carries_zero, carries_zero]
          · rw [carries_none _ hcar]
        rw [hpass, sizes_cons]
        unfold extentsLoop
        rw [if_pos hempty]
        exact hloop
    by_cases hcar : carried.len = 0
    · rw [hcar, carries_zero, Bool.true_and, passes_advance_zero]
      rw [hcar, Nat.zero_add] at hmax reach
      cases iov with
      | nil =>
        unfold extentsLoop
        rw [if_neg hempty, if_neg (not_not.mpr hcar)]
        constructor
        · intro _
          rfl
        · intro _
          refine ⟨h, pure_ok.mpr ⟨?_, rfl⟩⟩
          simp [bufferBytes]
      | cons v l =>
        have full' : ∀ w ∈ l, w.len ≠ 0 := fun w hw => full w (List.mem_cons_of_mem _ hw)
        rcases gather_spec (v :: l) len with ⟨hk, hrest, hbytes, hhead⟩
        by_cases hbatch : (gather (v :: l) len).1 = 0
        · have hbeyond : len < v.len := by
            rw [hbatch] at hrest hbytes
            have hleft : (gather (v :: l) len).2.1 = len := by simpa [bufferBytes] using hbytes
            have hnext := hhead v (by simp [hrest])
            omega
          rw [List.length_cons] at hfuel
          have hloop := ih off len xtv v l acc h hoff typed hlen hsum full' ha hmax reach (by omega)
          rw [passes_beyond _ l hempty hbeyond, counts_zero, Bool.true_and, ← hloop, Nat.zero_add]
          conv_lhs => unfold extentsLoop
          rw [if_neg hempty, if_neg (not_not.mpr hcar)]
          simp only [if_pos hbatch]
          rfl
        have hfirst : bufferBytes ((v :: l).take (gather (v :: l) len).1) ≤ bufferBytes (v :: l) := by
          conv_rhs => rw [← List.take_append_drop (gather (v :: l) len).1 (v :: l),
            bufferBytes_append]
          exact Nat.le_add_right ..
        rcases @extentsLoop_batch d off _ _ _ h fuel xtv v l hempty hcar hbatch ha (by omega) with
          ⟨cc, h₁, -, hserved, -, hstep⟩
        have hlead := @reach_behind good off len (len - (gather (v :: l) len).2.1)
          (bufferBytes (v :: l)) (extentOffsets xtv) (by omega) (by omega) reach
        have hcc := hserved (serving off _ hoff hlead.1)
        rw [hstep, passes_gather _ _ full hempty, Nat.zero_add, Nat.zero_add]
        have hremain : len - (gather (v :: l) len).2.1 =
            bufferBytes ((v :: l).take (gather (v :: l) len).1) := by omega
        have hsome : bufferBytes ((v :: l).take 0) <
            bufferBytes ((v :: l).take (gather (v :: l) len).1) :=
          bufferBytes_take_lt full (Nat.pos_of_ne_zero hbatch) hk
        have hnone : bufferBytes ((v :: l).take 0) = 0 := rfl
        have htotal : bufferBytes (v :: l) = bufferBytes ((v :: l).take (gather (v :: l) len).1) +
            bufferBytes ((v :: l).drop (gather (v :: l) len).1) := by
          rw [← bufferBytes_append, List.take_append_drop]
        by_cases hcounts : counts (gather (v :: l) len).1 = true
        · -- the driver sees all of the buffers gathered
          have hcount : (gather (v :: l) len).1 ≤ toSize (toInt (gather (v :: l) len).1) :=
            of_decide_eq_true hcounts
          have hmany := bufferBytes_take_le (v :: l) hcount
          rw [if_neg (by omega)] at hcc
          have hall : cc = (len - (gather (v :: l) len).2.1 : ℕ) := by omega
          have hnat : cc.toNat = len - (gather (v :: l) len).2.1 := by omega
          rw [if_neg (by omega), if_neg (by omega), hcounts, Bool.true_and, hrest, hnat, hall]
          have hleft : len - (len - (gather (v :: l) len).2.1) = (gather (v :: l) len).2.1 := by omega
          have hmore : bufferBytes (v :: l) - (len - (gather (v :: l) len).2.1) =
              bufferBytes ((v :: l).drop (gather (v :: l) len).1) := by omega
          have hreach := hlead.2
          rw [hleft, hmore] at hreach
          rw [hleft]
          have hdrop : ((v :: l).drop (gather (v :: l) len).1).length ≤ l.length := by
            rw [List.length_drop, List.length_cons]
            omega
          rw [List.length_cons] at hfuel
          have hloop := ih (wrap64 (off + (len - (gather (v :: l) len).2.1 : ℕ)))
            (gather (v :: l) len).2.1 xtv carried ((v :: l).drop (gather (v :: l) len).1)
            ((len - (gather (v :: l) len).2.1 : ℕ) + acc) h₁ (wrap64_idem _) typed (by omega) (by omega)
            (fun w hw => full w (List.mem_of_mem_drop hw)) (by omega)
            (by rw [hcar, Nat.zero_add]; omega) (by rw [hcar, Nat.zero_add]; exact hreach) (by omega)
          rw [hcar, carries_zero, Bool.true_and, passes_advance_zero, Nat.zero_add] at hloop
          rw [← hloop, htotal, hremain]
          have hsame : acc + ((bufferBytes ((v :: l).take (gather (v :: l) len).1) +
              bufferBytes ((v :: l).drop (gather (v :: l) len).1) : ℕ) : ℤ) =
              (bufferBytes ((v :: l).take (gather (v :: l) len).1) : ℕ) + acc +
              (bufferBytes ((v :: l).drop (gather (v :: l) len).1) : ℕ) := by
            push_cast
            omega
          rw [hsame]
        · have hfew : toSize (toInt (gather (v :: l) len).1) < (gather (v :: l) len).1 := by
            by_contra hmany
            exact hcounts (decide_eq_true (Nat.le_of_not_lt hmany))
          have hfalse : counts (gather (v :: l) len).1 = false := Bool.not_eq_true _ ▸ hcounts
          rw [hfalse, Bool.false_and]
          refine iff_of_false ?_ Bool.false_ne_true
          rintro ⟨h', run⟩
          by_cases hzero : toSize (toInt (gather (v :: l) len).1) = 0
          · rw [if_pos hzero] at hcc
            have hneg : cc ≤ 0 := by
              rw [hcc]
              decide
            rw [if_pos hneg] at run
            have hsame := (Prod.mk.inj (Except.ok.inj run)).1
            split at hsame <;> omega
          · rw [if_neg hzero] at hcc
            have hless := bufferBytes_take_lt full hfew hk
            have hone : bufferBytes ((v :: l).take 0) <
                bufferBytes ((v :: l).take (toSize (toInt (gather (v :: l) len).1))) :=
              bufferBytes_take_lt full (Nat.pos_of_ne_zero hzero) (by omega)
            rw [if_neg (by omega), if_pos (by omega)] at run
            have hsame := (Prod.mk.inj (Except.ok.inj run)).1
            omega
    · by_cases hsmall : len ≤ SSIZE_MAX
      · rcases @extentsLoop_carried d off _ _ iov _ h fuel xtv hempty hcar ha (by omega) (by omega) with
          ⟨cc, h₁, -, hserved, -, hstep⟩
        have hlead := @reach_behind good off len (min carried.len len) (carried.len + bufferBytes iov)
          (extentOffsets xtv) (by omega) (by omega) reach
        have hcc := hserved (serving off _ hoff hlead.1)
        have hnat : cc.toNat = min carried.len len := by omega
        have hpos : ¬ cc ≤ 0 := by omega
        have hrest : carried.len + bufferBytes iov - min carried.len len =
            (carried.advance (min carried.len len)).len + bufferBytes iov := by
          change _ = carried.len - min carried.len len + bufferBytes iov
          omega
        have hreach := hlead.2
        rw [hrest] at hreach
        rw [hstep, if_neg hpos, hnat, hcc]
        have hloop := ih (wrap64 (off + (min carried.len len : ℕ))) (len - min carried.len len) xtv
          (carried.advance (min carried.len len)) iov ((min carried.len len : ℕ) + acc) h₁
          (wrap64_idem _) typed (by omega) (by omega) full (by omega)
          (by rw [← hrest]; omega) hreach (by omega)
        have hcarry := carries_sub (sizes xtv) hsmall hcar rfl
        have hadv := advance_sub (sizes xtv) (Nat.min_le_left carried.len len)
          (Nat.min_le_right carried.len len)
        rw [hcarry, ← hadv]
        refine Iff.trans ?_ hloop
        have hsame : acc + ((carried.len + bufferBytes iov : ℕ) : ℤ) = (min carried.len len : ℕ) + acc +
            (((carried.advance (min carried.len len)).len + bufferBytes iov : ℕ) : ℤ) := by
          rw [← hrest]
          omega
        rw [hsame]
      · rw [extentsLoop_blocked fuel hlen hsmall hcar, carries_blocked _ hsmall hcar, Bool.false_and]
        refine iff_of_false ?_ Bool.false_ne_true
        rintro ⟨h', run⟩
        cases run

/-- With a driver that serves the offsets reached, a transfer into buffers none of which is empty
fills all of them exactly when they pass. -/
theorem sysioDoio_all
    (serving : ∀ off n, wrap64 off = off → (∀ o ∈ offsets off n, good o) → Serves d off n)
    {xtv : List Xtvec} {iov : List Iovec} (typed : ∀ x ∈ xtv, wrap64 x.off = x.off)
    (hsum : extentBytes xtv ≤ 2 ^ 64) (full : ∀ v ∈ iov, v.len ≠ 0)
    (hmax : bufferBytes iov ≤ SSIZE_MAX)
    (reach : ∀ o ∈ (extentOffsets xtv).take (bufferBytes iov), good o) :
    (∃ h, sysioDoio d xtv iov [] = .ok ((bufferBytes iov : ℕ), h)) ↔
      passes 0 (sizes xtv) iov = true := by
  have hreach : ∀ o ∈ (offsets 0 0 ++ extentOffsets xtv).take (0 + bufferBytes iov), good o := by
    rw [Nat.zero_add]
    exact reach
  have hroom : (0 : ℤ) + (0 + bufferBytes iov : ℕ) ≤ SSIZE_MAX := by omega
  have hloop := extentsLoop_all serving (extentBytes xtv + xtv.length + iov.length + 1) 0 0 xtv
    ⟨0, 0, by decide⟩ iov 0 [] (by decide) typed (by decide) (by omega) full (Int.le_refl 0) hroom
    hreach (by omega)
  rw [carries_zero, Bool.true_and, advance_cons_zero, passes_advance_zero, Nat.zero_add,
    Int.zero_add] at hloop
  exact hloop

end Passage

end ReconcileVast
