import DirectFuse.SysioReconcile
import Mathlib.Data.List.Infix
import Mathlib.Data.List.Range

/-! What a strided transfer is for: the bytes of the buffers, in order, go to or come from the bytes
of the extents, in order. Whatever a driver answers, the bytes it moves are the first ones of this
stream, as many as the call returns. -/
namespace ReconcileStream

open ExecLogic SysioState SysioReconcile

theorem wrap64_of_mem {x : ℤ} (h : 0 ≤ x) (hx : x ≤ SSIZE_MAX) : wrap64 x = x := by
  unfold SSIZE_MAX at hx
  exact Int.bmod_eq_of_le (by omega) (by omega)

theorem wrap64_add (x y : ℤ) : wrap64 (wrap64 x + y) = wrap64 (x + y) := Int.bmod_add_bmod ..

section Stream

/-- The addresses of a piece of a buffer. -/
def addresses (base n : ℕ) : List ℕ := (List.range n).map (base + ·)

/-- The file offsets of a piece of an extent. -/
def offsets (off : ℤ) (n : ℕ) : List ℤ := (List.range n).map fun k : ℕ => wrap64 (off + (k : ℤ))

/-- Byte by byte, what moving `n` bytes between an address and a file offset pairs. -/
def span (base n : ℕ) (off : ℤ) : List (ℕ × ℤ) := (addresses base n).zip (offsets off n)

def bufferAddresses (iov : List Iovec) : List ℕ := iov.flatMap fun v => addresses v.base v.len

def extentOffsets (xtv : List Xtvec) : List ℤ := xtv.flatMap fun x => offsets x.off x.len

/-- The reconciled stream: buffers and extents side by side, as far as both go. -/
def stream (xtv : List Xtvec) (iov : List Iovec) : List (ℕ × ℤ) :=
  (bufferAddresses iov).zip (extentOffsets xtv)

/-- The bytes that a history of calls moved, in order. -/
def moved (h : List Transfer) : List (ℕ × ℤ) := h.flatMap fun t => span t.base t.count.toNat t.off

@[simp] theorem length_addresses (base n : ℕ) : (addresses base n).length = n := by simp [addresses]

@[simp] theorem length_offsets (off : ℤ) (n : ℕ) : (offsets off n).length = n := by simp [offsets]

@[simp] theorem length_span (base n : ℕ) (off : ℤ) : (span base n off).length = n := by simp [span]

@[simp] theorem length_bufferAddresses (iov : List Iovec) :
    (bufferAddresses iov).length = bufferBytes iov := by
  simp [bufferAddresses, bufferBytes, List.length_flatMap]

@[simp] theorem length_extentOffsets (xtv : List Xtvec) :
    (extentOffsets xtv).length = extentBytes xtv := by
  simp [extentOffsets, extentBytes, List.length_flatMap]

theorem length_stream (xtv : List Xtvec) (iov : List Iovec) :
    (stream xtv iov).length = min (extentBytes xtv) (bufferBytes iov) := by
  rw [stream, List.length_zip, length_bufferAddresses, length_extentOffsets, Nat.min_comm]

theorem addresses_add (base m n : ℕ) :
    addresses base (m + n) = addresses base m ++ addresses (base + m) n := by
  simp only [addresses, List.range_add, List.map_append, List.map_map]
  congr 1
  exact List.map_congr_left fun k _ => (Nat.add_assoc base m k).symm

theorem offsets_add (off : ℤ) (m n : ℕ) :
    offsets off (m + n) = offsets off m ++ offsets (wrap64 (off + m)) n := by
  simp only [offsets, List.range_add, List.map_append, List.map_map]
  congr 1
  refine List.map_congr_left fun k _ => ?_
  simp only [Function.comp, wrap64_add]
  congr 1
  push_cast
  omega

theorem moved_append (h l : List Transfer) : moved (h ++ l) = moved h ++ moved l :=
  List.flatMap_append

/-- The first bytes of two pieces make a span, and the rest of the pieces goes on behind it. -/
theorem zip_span {base m n c : ℕ} {off : ℤ} (hm : c ≤ m) (hn : c ≤ n) (bs : List ℕ) (os : List ℤ) :
    (addresses base m ++ bs).zip (offsets off n ++ os) = span base c off ++
      (addresses (base + c) (m - c) ++ bs).zip (offsets (wrap64 (off + c)) (n - c) ++ os) := by
  obtain ⟨m, rfl⟩ := Nat.exists_eq_add_of_le hm
  obtain ⟨n, rfl⟩ := Nat.exists_eq_add_of_le hn
  rw [addresses_add, offsets_add, List.append_assoc, List.append_assoc, List.zip_append (by simp),
    Nat.add_sub_cancel_left, Nat.add_sub_cancel_left]
  rfl

/-- The first bytes of a stream do not depend on how the extents go on behind them. -/
theorem take_zip_offsets (bs : List ℕ) {off : ℤ} {c n : ℕ} (hc : c ≤ n) (os : List ℤ) :
    (bs.zip (offsets off n ++ os)).take c = (bs.take c).zip (offsets off c) := by
  obtain ⟨n, rfl⟩ := Nat.exists_eq_add_of_le hc
  rw [List.zip, List.take_zipWith, offsets_add, List.append_assoc,
    List.take_left' (length_offsets off c)]

end Stream

/-- A run from history `h` has moved the first `r` bytes of `bytes`, or none for an error. -/
structure Delivered (bytes : List (ℕ × ℤ)) (h : List Transfer) (r : ℤ) (h' : List Transfer) :
    Prop where
  moved : ∃ l, h' = h ++ l ∧ moved l = bytes.take r.toNat
  le : r ≤ bytes.length

theorem Delivered.nothing (bytes : List (ℕ × ℤ)) (h : List Transfer) {r : ℤ} (hr : r ≤ 0) :
    Delivered bytes h r h := by
  refine ⟨⟨[], (List.append_nil h).symm, ?_⟩, by omega⟩
  rw [Int.toNat_of_nonpos hr]
  rfl

/-- A call that fails moves nothing. -/
theorem Delivered.failed (bytes : List (ℕ × ℤ)) (h : List Transfer) (t : Transfer) {r : ℤ}
    (hr : r ≤ 0) (ht : t.count ≤ 0) : Delivered bytes h r (h ++ [t]) := by
  refine ⟨⟨[t], rfl, ?_⟩, by omega⟩
  rw [Int.toNat_of_nonpos hr]
  simp [ReconcileStream.moved, Int.toNat_of_nonpos ht, span, addresses]

/-- What comes behind a first part of the bytes. -/
theorem Delivered.after {a rest : List (ℕ × ℤ)} {h l h' : List Transfer} {c r : ℤ}
    (first : ReconcileStream.moved l = a) (hc : c = a.length) (hr : 0 ≤ r)
    (k : Delivered rest (h ++ l) r h') : Delivered (a ++ rest) h (c + r) h' := by
  obtain ⟨l', hl', hmoved⟩ := k.moved
  have hsplit : (c + r).toNat = a.length + r.toNat := by omega
  refine ⟨⟨l ++ l', by rw [hl', List.append_assoc], ?_⟩, ?_⟩
  · rw [moved_append, first, hmoved, hsplit, List.take_length_add_append]
  · have := k.le
    rw [List.length_append]
    push_cast
    omega

theorem Delivered.first {a : List (ℕ × ℤ)} {l : List Transfer} {c : ℤ}
    (first : ReconcileStream.moved l = a) (hc : c = a.length) (rest : List (ℕ × ℤ))
    (h : List Transfer) : Delivered (a ++ rest) h c (h ++ l) := by
  have k := Delivered.after first hc (Int.le_refl 0)
    (Delivered.nothing rest (h ++ l) (Int.le_refl 0))
  rwa [Int.add_zero] at k

/-- A driver that moves all it is asked for. -/
def Full (d : SysioReconcile.Callback) : Prop := ∀ h base n off, d.answer h base n off = n

/-- A driver that moves all it is asked for of `n` bytes at an offset. -/
def Serves (d : SysioReconcile.Callback) (off : ℤ) (n : ℕ) : Prop := ∀ h base i m, 0 < m →
  i + m ≤ n → d.answer h base m (if i = 0 then off else wrap64 (off + (i : ℕ))) = m

theorem Full.serves {d : SysioReconcile.Callback} (full : Full d) (off : ℤ) (n : ℕ) :
    Serves d off n := fun h base _ m _ _ => full h base m _

theorem Serves.shorter {d : SysioReconcile.Callback} {off : ℤ} {m n : ℕ} (serves : Serves d off n)
    (hm : m ≤ n) : Serves d off m :=
  fun h base i k hpos hk => serves h base i k hpos (Nat.le_trans hk hm)

theorem Serves.answer {d : SysioReconcile.Callback} {off : ℤ} {m n : ℕ} (serves : Serves d off n)
    (hpos : 0 < m) (hm : m ≤ n) (h : List Transfer) (base : ℕ) : d.answer h base m off = m :=
  serves h base 0 m hpos (by omega)

/-- What is behind the first bytes is served as well. -/
theorem Serves.behind {d : SysioReconcile.Callback} {off : ℤ} {c n : ℕ} (serves : Serves d off n)
    (hc : 0 < c) (hn : c ≤ n) : Serves d (wrap64 (off + c)) (n - c) := by
  intro h base i m hpos him
  have hserved := serves h base (c + i) m hpos (by omega)
  rw [if_neg (by omega)] at hserved
  by_cases hi : i = 0
  · rw [if_pos hi]
    rw [hi, Nat.add_zero] at hserved
    exact hserved
  · rw [if_neg hi, wrap64_add, Int.add_assoc, ← Int.natCast_add]
    exact hserved

section Buffers

variable (d : SysioReconcile.Callback)

theorem call_run (base n : ℕ) (off : ℤ) (h : List Transfer) :
    d.call base n off h = .ok (d.answer h base n off, h ++ [⟨base, n, off, d.answer h base n off⟩]) :=
  rfl

@[simp] theorem bufferBytes_cons (v : Iovec) (l : List Iovec) :
    bufferBytes (v :: l) = v.len + bufferBytes l := rfl

@[simp] theorem extentBytes_cons (x : Xtvec) (l : List Xtvec) :
    extentBytes (x :: l) = x.len + extentBytes l := rfl

theorem bufferBytes_append (l m : List Iovec) :
    bufferBytes (l ++ m) = bufferBytes l + bufferBytes m := by simp [bufferBytes]

/-- The count a round adds to the sum. It stays in range, so the code does not abort. -/
theorem account_run {cc acc : ℤ} (ha : 0 ≤ acc) (hmax : cc + acc ≤ SSIZE_MAX) (k : ℤ → Io ℤ)
    (h : List Transfer) :
    (if cc ≤ 0 then pure (if acc ≠ 0 then acc else cc) else do
      let sum := wrap64 (cc + acc)
      Exec.check Fault.abort fun _ => !(acc != 0 && decide (sum ≤ acc))
      k sum : Io ℤ) h =
    if cc ≤ 0 then .ok (if acc ≠ 0 then acc else cc, h) else k (cc + acc) h := by
  by_cases hcc : cc ≤ 0
  · rw [if_pos hcc, if_pos hcc]
    rfl
  · have hsum : wrap64 (cc + acc) = cc + acc := wrap64_of_mem (by omega) hmax
    have hgood : (!(acc != 0 && decide (cc + acc ≤ acc))) = true := by
      simp
      omega
    simp only [if_neg hcc, hsum, hgood]
    rfl

/-- The count of a batch reaches the driver as it is while it fits an int. -/
theorem toSize_toInt {k : ℕ} (hk : k < 2 ^ 31) : toSize (toInt k) = k := by
  unfold toSize toInt
  rw [Int.bmod_eq_of_le (by omega) (by omega)]
  omega

/-- The first loop over the buffers finds out how much there is to move. -/
theorem available_run (l : List Iovec) (count n : ℕ) (acc : ℤ) (h : List Transfer) (ha : 0 ≤ acc)
    (hsum : acc + n ≤ SSIZE_MAX) (mem : count ≤ l.length ∨ n ≤ bufferBytes l) :
    available l count n acc h = .ok (acc + min n (bufferBytes (l.take count)), h) := by
  induction l generalizing count n acc with
  | nil =>
    have stop : n = 0 ∨ count = 0 := by
      rcases mem with hcount | hn
      · exact Or.inr (Nat.le_zero.mp hcount)
      · exact Or.inl (Nat.le_zero.mp hn)
    unfold available
    rw [if_pos stop, List.take_nil]
    simp [pure, Exec.ret, bufferBytes]
  | cons v l ih =>
    unfold available
    by_cases stop : n = 0 ∨ count = 0
    · rw [if_pos stop]
      rcases stop with rfl | rfl <;> simp [pure, Exec.ret, bufferBytes]
    rw [if_neg stop]
    obtain ⟨k, rfl⟩ : ∃ k, count = k + 1 := Nat.exists_eq_succ_of_ne_zero fun hk => stop (Or.inr hk)
    have hcc : wrap64 (if v.len < n then v.len else n : ℕ) = (min v.len n : ℕ) := by
      rw [wrap64_of_mem (by omega) (by split <;> omega)]
      split <;> omega
    simp only [hcc, List.take_succ_cons, bufferBytes_cons, Nat.add_sub_cancel]
    rw [if_neg (by omega)]
    have mem' : k ≤ l.length ∨ n - min v.len n ≤ bufferBytes l := by
      rw [List.length_cons, bufferBytes_cons] at mem
      omega
    by_cases hzero : v.len = 0
    · rw [if_pos (by omega), ih k n acc ha hsum (by omega), hzero, Nat.zero_add]
    · have hpos : 0 < min v.len n := by omega
      rw [if_neg (by omega), wrap64_of_mem (by omega) (by omega), if_neg (by omega),
        Int.toNat_natCast, ih k _ _ (by omega) (by omega) mem']
      exact congrArg (fun r => Except.ok (r, h)) (by omega)

/-- The second loop moves a first part of what there is to move: the whole if the driver serves it. -/
theorem iovecLoop_run (l : List Iovec) (count : ℕ) (off limit acc : ℤ) (h : List Transfer)
    (ha : 0 ≤ acc) (hl : 0 < limit) (hsum : acc + limit ≤ SSIZE_MAX)
    (mem : count ≤ l.length ∨ limit ≤ bufferBytes l) :
    ∃ r h', iovecLoop d l count off limit acc h = .ok (r, h') ∧ (acc = 0 ∨ acc ≤ r) ∧
      Delivered ((bufferAddresses l).zip (offsets off limit.toNat)) h (r - acc) h' ∧
      (Serves d off (min limit.toNat (bufferBytes (l.take count))) →
        r = acc + min limit (bufferBytes (l.take count))) := by
  induction l generalizing count off limit acc h with
  | nil =>
    have hcount : count = 0 := by
      rcases mem with hcount | hn
      · exact Nat.le_zero.mp hcount
      · exact absurd (Int.lt_of_lt_of_le hl hn) (by simp [bufferBytes])
    subst hcount
    refine ⟨acc, h, by simp [iovecLoop, pure, Exec.ret], Or.inr (Int.le_refl _), ?_, fun _ => ?_⟩
    · exact Delivered.nothing _ h (by omega)
    · simp [bufferBytes]
      omega
  | cons v l ih =>
    cases count with
    | zero =>
      refine ⟨acc, h, by simp [iovecLoop, pure, Exec.ret], Or.inr (Int.le_refl _), ?_, fun _ => ?_⟩
      · exact Delivered.nothing _ h (by omega)
      · simp [bufferBytes]
        omega
    | succ k =>
      rw [List.length_cons, bufferBytes_cons] at mem
      by_cases hzero : v.len = 0
      · obtain ⟨r, h', hrun, hr, hdel, hfull⟩ := ih k off limit acc h ha hl hsum (by omega)
        refine ⟨r, h', ?_, hr, ?_, ?_⟩
        · rw [iovecLoop, if_pos hzero]
          exact hrun
        · have : bufferAddresses (v :: l) = bufferAddresses l := by
            simp [bufferAddresses, hzero, addresses]
          rw [this]
          exact hdel
        · rw [List.take_succ_cons, bufferBytes_cons, hzero, Nat.zero_add]
          exact hfull
      · rw [iovecLoop, if_neg hzero]
        have hsize : (if v.len < limit.toNat then v.len else limit.toNat) = min v.len limit.toNat := by
          split <;> omega
        simp only [hsize]
        -- what the driver answers
        have hle := d.le h v.base (min v.len limit.toNat) off
        have hfull : Serves d off (min limit.toNat (bufferBytes ((v :: l).take (k + 1)))) →
            d.answer h v.base (min v.len limit.toNat) off = (min v.len limit.toNat : ℕ) := by
          intro serves
          apply serves.answer (by omega)
          rw [List.take_succ_cons, bufferBytes_cons]
          omega
        have hcall := call_run d v.base (min v.len limit.toNat) off h
        generalize d.answer h v.base (min v.len limit.toNat) off = cc at hle hfull hcall
        by_cases hcc : cc ≤ 0
        · refine ⟨if acc ≠ 0 then acc else cc, h ++ [⟨v.base, min v.len limit.toNat, off, cc⟩],
            bind_ok.mpr ⟨_, _, hcall, ?_⟩, ?_, ?_, fun full => ?_⟩
          · rw [if_pos hcc]
            rfl
          · split <;> omega
          · exact Delivered.failed _ h _ (by split <;> omega) hcc
          · have := hfull full
            omega
        have hwrap : wrap64 (cc + acc) = cc + acc := wrap64_of_mem (by omega) (by omega)
        have hgood : (!(acc != 0 && decide (cc + acc ≤ acc))) = true := by
          simp
          omega
        have hcheck : ∀ h : List Transfer,
            (Exec.check Fault.abort fun _ => !(acc != 0 && decide (cc + acc ≤ acc))) h =
              .ok ((), h) := fun h => check_ok.mpr ⟨hgood, rfl⟩
        have first : moved [⟨v.base, min v.len limit.toNat, off, cc⟩] = span v.base cc.toNat off := by
          simp [moved]
        have hsplit := @zip_span v.base v.len limit.toNat cc.toNat off (by omega) (by omega)
          (bufferAddresses l) []
        rw [List.append_nil, List.append_nil] at hsplit
        have hcast : ((cc.toNat : ℕ) : ℤ) = cc := by omega
        by_cases hstop : v.len - cc.toNat ≠ 0 ∨ limit - cc = 0
        · refine ⟨cc + acc, h ++ [⟨v.base, min v.len limit.toNat, off, cc⟩],
            bind_ok.mpr ⟨_, _, hcall, ?_⟩, Or.inr (by omega), ?_, fun full => ?_⟩
          · rw [if_neg hcc, hwrap]
            refine bind_ok.mpr ⟨_, _, hcheck _, ?_⟩
            rw [if_pos hstop]
            rfl
          · rw [bufferAddresses, List.flatMap_cons]
            rw [bufferAddresses] at hsplit
            rw [hsplit, Int.add_sub_cancel]
            exact Delivered.first first (by simp; omega) _ h
          · rw [List.take_succ_cons, bufferBytes_cons]
            have := hfull full
            omega
        · obtain ⟨r, h', hrun, hr, hdel, hall⟩ := ih k (wrap64 (off + cc)) (limit - cc) (cc + acc)
            (h ++ [⟨v.base, min v.len limit.toNat, off, cc⟩]) (by omega) (by omega) (by omega)
            (by omega)
          refine ⟨r, h', bind_ok.mpr ⟨_, _, hcall, ?_⟩, Or.inr (by omega), ?_, fun full => ?_⟩
          · rw [if_neg hcc, hwrap]
            refine bind_ok.mpr ⟨_, _, hcheck _, ?_⟩
            rw [if_neg hstop]
            exact hrun
          · rw [bufferAddresses, List.flatMap_cons]
            rw [bufferAddresses] at hsplit
            rw [hsplit, hcast]
            have hnone : v.len - cc.toNat = 0 := by omega
            have hlimit : limit.toNat - cc.toNat = (limit - cc).toNat := by omega
            have := Delivered.after first (c := cc) (by simp; omega) (by omega) hdel
            rw [hnone, hlimit]
            have hr' : cc + (r - (cc + acc)) = r - acc := by omega
            rw [hr'] at this
            exact this
          · have hpiece := hfull full
            rw [List.take_succ_cons, bufferBytes_cons] at full ⊢
            have hbehind := full.behind (c := cc.toNat) (by omega) (by omega)
            rw [hcast] at hbehind
            rw [hall (hbehind.shorter (by omega))]
            omega

/-- One call for several buffers moves a first part of them. -/
theorem sysioEnumerateIovec_run (iov : List Iovec) (count : ℕ) (off limit : ℤ) (h : List Transfer)
    (hl : 0 ≤ limit) (hmax : limit ≤ SSIZE_MAX)
    (mem : count ≤ iov.length ∨ limit ≤ bufferBytes iov) :
    ∃ r h', sysioEnumerateIovec d iov count off limit h = .ok (r, h') ∧
      Delivered ((bufferAddresses iov).zip (offsets off limit.toNat)) h r h' ∧
      (Serves d off (min limit.toNat (bufferBytes (iov.take count))) →
        r = if count = 0 then -EINVAL else min limit (bufferBytes (iov.take count))) := by
  by_cases hcount : count = 0
  · refine ⟨-EINVAL, h, ?_, Delivered.nothing _ h (by decide), fun _ => ?_⟩
    · rw [sysioEnumerateIovec, if_pos hcount]
      rfl
    · rw [if_pos hcount]
  have hav := available_run iov count limit.toNat 0 h (Int.le_refl 0) (by omega) (by omega)
  rw [Int.zero_add] at hav
  generalize hacc : min limit.toNat (bufferBytes (iov.take count)) = acc at hav
  have start : sysioEnumerateIovec d iov count off limit h =
      (if (acc : ℤ) < 0 then pure (acc : ℤ) else if (acc : ℤ) = 0 then pure 0
        else iovecLoop d iov count off limit 0) h := by
    have hcheck : (Exec.check Fault.assertion fun _ : List Transfer => decide (0 ≤ limit)) h =
        .ok ((), h) := check_ok.mpr ⟨decide_eq_true hl, rfl⟩
    simp only [sysioEnumerateIovec, if_neg hcount, bind, Exec.andThen, hcheck, hav]
  rw [start, if_neg (by omega)]
  by_cases hzero : acc = 0
  · refine ⟨0, h, ?_, Delivered.nothing _ h (Int.le_refl 0), fun _ => ?_⟩
    · rw [if_pos (by omega)]
      rfl
    · rw [if_neg hcount]
      omega
  · rw [if_neg (by omega)]
    obtain ⟨r, h', hrun, -, hdel, hfull⟩ := iovecLoop_run d iov count off limit 0 h (Int.le_refl 0)
      (by omega) (by omega) mem
    rw [Int.sub_zero] at hdel
    refine ⟨r, h', hrun, hdel, fun serves => ?_⟩
    rw [← hacc] at serves
    rw [hfull serves, if_neg hcount]
    omega

end Buffers

section Extents

theorem ssize_lt : SSIZE_MAX < 2 ^ 64 := by decide

/-- Extents without bytes do not change what is coalesced. -/
theorem coalesce_none (stop : ℤ) (len : ℕ) (l : List Xtvec) (hnone : extentBytes l = 0) :
    (coalesce stop len l).1 = len ∧ extentBytes (coalesce stop len l).2 = 0 := by
  induction l with
  | nil => exact ⟨rfl, rfl⟩
  | cons x l ih =>
    have hbytes := hnone
    rw [extentBytes_cons] at hbytes
    have hx : x.len = 0 := by omega
    unfold coalesce
    by_cases hne : stop ≠ x.off
    · rw [if_pos hne]
      exact ⟨rfl, hnone⟩
    · rw [if_neg hne, if_pos hx]
      exact ih (by omega)

theorem coalesce_suffix (stop : ℤ) (len : ℕ) (l : List Xtvec) : (coalesce stop len l).2 <:+ l := by
  induction l generalizing stop len with
  | nil => exact List.suffix_rfl
  | cons x l ih =>
    have hbehind : l <:+ x :: l := List.suffix_cons x l
    unfold coalesce
    by_cases hne : stop ≠ x.off
    · rw [if_pos hne]
    · rw [if_neg hne]
      by_cases hx : x.len = 0
      · rw [if_pos hx]
        exact (ih _ _).trans hbehind
      · rw [if_neg hx]
        exact (ih _ _).trans hbehind

/-- Where the extents cover no more than all offsets there are, a run that overflows leaves nothing
behind. -/
theorem coalesce_cases (off : ℤ) (len : ℕ) (l : List Xtvec) (hlen : len < 2 ^ 64)
    (hsum : len + extentBytes l ≤ 2 ^ 64) :
    ((offsets off (coalesce (wrap64 (off + len)) len l).1 ++
        extentOffsets (coalesce (wrap64 (off + len)) len l).2 = offsets off len ++ extentOffsets l ∧
      (coalesce (wrap64 (off + len)) len l).1 +
        extentBytes (coalesce (wrap64 (off + len)) len l).2 = len + extentBytes l) ∨
    ((coalesce (wrap64 (off + len)) len l).1 = 0 ∧
      extentBytes (coalesce (wrap64 (off + len)) len l).2 = 0 ∧ len + extentBytes l = 2 ^ 64)) ∧
    (coalesce (wrap64 (off + len)) len l).1 < 2 ^ 64 := by
  induction l generalizing len with
  | nil => exact ⟨Or.inl ⟨rfl, rfl⟩, hlen⟩
  | cons x l ih =>
    rw [extentBytes_cons] at hsum
    unfold coalesce
    by_cases hne : wrap64 (off + len) ≠ x.off
    · rw [if_pos hne]
      exact ⟨Or.inl ⟨rfl, rfl⟩, hlen⟩
    rw [if_neg hne]
    have heq : wrap64 (off + len) = x.off := not_not.mp hne
    by_cases hzero : x.len = 0
    · rw [if_pos hzero]
      have hskip : offsets off len ++ extentOffsets (x :: l) = offsets off len ++ extentOffsets l := by
        rw [extentOffsets, extentOffsets, List.flatMap_cons, hzero]
        rfl
      rw [hskip, extentBytes_cons, hzero, Nat.zero_add]
      exact ih len hlen (by omega)
    rw [if_neg hzero]
    by_cases hover : len + x.len < 2 ^ 64
    · have hstop : wrap64 (wrap64 (off + len) + x.len) = wrap64 (off + ((len + x.len : ℕ) : ℤ)) := by
        rw [wrap64_add]
        push_cast
        rw [Int.add_assoc]
      have hjoin : offsets off len ++ extentOffsets (x :: l) =
          offsets off (len + x.len) ++ extentOffsets l := by
        rw [offsets_add, heq, List.append_assoc, extentOffsets, extentOffsets, List.flatMap_cons]
      rw [Nat.mod_eq_of_lt hover, hstop, hjoin, extentBytes_cons, ← Nat.add_assoc]
      exact ih (len + x.len) hover (by omega)
    · have hfull : (len + x.len) % 2 ^ 64 = 0 := by omega
      have hnone : extentBytes l = 0 := by omega
      rw [hfull]
      rcases coalesce_none (wrap64 (wrap64 (off + len) + x.len)) 0 l hnone with ⟨hlen', hrest⟩
      exact ⟨Or.inr ⟨hlen', hrest, by rw [extentBytes_cons]; omega⟩, by omega⟩

/-- Coalescing keeps the offsets and their order. -/
theorem coalesce_spec (off : ℤ) (len : ℕ) (l : List Xtvec) (hmax : len + extentBytes l < 2 ^ 64) :
    offsets off (coalesce (wrap64 (off + len)) len l).1 ++
        extentOffsets (coalesce (wrap64 (off + len)) len l).2 = offsets off len ++ extentOffsets l ∧
      (coalesce (wrap64 (off + len)) len l).1 +
        extentBytes (coalesce (wrap64 (off + len)) len l).2 = len + extentBytes l ∧
      (coalesce (wrap64 (off + len)) len l).2.length ≤ l.length := by
  have hshort := (coalesce_suffix (wrap64 (off + len)) len l).length_le
  rcases (coalesce_cases off len l (by omega) (by omega)).1 with ⟨hos, hbytes⟩ | ⟨-, -, hover⟩
  · exact ⟨hos, hbytes, hshort⟩
  · exact absurd hover (Nat.ne_of_lt hmax)

/-- What is gathered fits, and the next buffer does not. -/
theorem gather_spec (iov : List Iovec) (n : ℕ) :
    (gather iov n).1 ≤ iov.length ∧ (gather iov n).2.2 = iov.drop (gather iov n).1 ∧
      bufferBytes (iov.take (gather iov n).1) + (gather iov n).2.1 = n ∧
      ∀ v ∈ (gather iov n).2.2.head?, (gather iov n).2.1 < v.len := by
  induction iov generalizing n with
  | nil => simp [gather, bufferBytes]
  | cons v l ih =>
    unfold gather
    by_cases hlt : n < v.len
    · rw [if_pos hlt]
      refine ⟨Nat.zero_le _, rfl, by simp [bufferBytes], fun w hw => ?_⟩
      obtain rfl : v = w := by simpa using hw
      exact hlt
    · rw [if_neg hlt]
      obtain ⟨hk, hrest, hsum, hhead⟩ := ih (n - v.len)
      refine ⟨Nat.succ_le_succ hk, hrest, ?_, hhead⟩
      change bufferBytes (v :: l.take (gather l (n - v.len)).1) + (gather l (n - v.len)).2.1 = n
      rw [bufferBytes_cons]
      omega

/-- The bytes left for the loops: `len` at `off` of the current extent and `carried` of the current
buffer, and what is behind them. -/
def rest (off : ℤ) (len : ℕ) (xtv : List Xtvec) (carried : Iovec) (iov : List Iovec) :
    List (ℕ × ℤ) :=
  (addresses carried.base carried.len ++ bufferAddresses iov).zip
    (offsets off len ++ extentOffsets xtv)

variable (d : SysioReconcile.Callback) {off : ℤ} {len : ℕ} {carried : Iovec} {iov : List Iovec}
  {acc : ℤ} {h : List Transfer}

/-- A round that goes on with a buffer that did not fit. -/
theorem extentsLoop_carried (fuel : ℕ) (xtv : List Xtvec) (hlen : len ≠ 0) (hcar : carried.len ≠ 0)
    (ha : 0 ≤ acc) (hsize : len ≤ SSIZE_MAX) (hmax : acc + min carried.len len ≤ SSIZE_MAX) :
    ∃ (cc : ℤ) (h' : List Transfer), cc ≤ min carried.len len ∧
      (Serves d off (min carried.len len) → cc = min carried.len len) ∧
      (∃ l, h' = h ++ l ∧ moved l = span carried.base cc.toNat off) ∧
      extentsLoop (sysioDoioHelper d) (fuel + 1) off len xtv carried iov acc h =
        if cc ≤ 0 then .ok (if acc ≠ 0 then acc else cc, h')
        else extentsLoop (sysioDoioHelper d) fuel (wrap64 (off + cc)) (len - cc.toNat) xtv
          (carried.advance cc.toNat) iov (cc + acc) h' := by
  have hwrap : wrap64 len = len := wrap64_of_mem (by omega) (by omega)
  obtain ⟨cc, h', hrun, hdel, hfull⟩ := sysioEnumerateIovec_run d [carried.clip len] 1 off len h
    (by omega) (by omega) (Or.inl (Nat.le_refl 1))
  obtain ⟨l, hl, hmoved⟩ := hdel.moved
  have hle : cc ≤ min carried.len len := by
    have := hdel.le
    simp [Iovec.clip, bufferBytes] at this
    omega
  refine ⟨cc, h', hle, fun serves => ?_, ⟨l, hl, ?_⟩, ?_⟩
  · have hpiece : min (len : ℤ).toNat (bufferBytes (List.take 1 [carried.clip len])) =
        min carried.len len := by
      have hclip : bufferBytes (List.take 1 [carried.clip len]) = min carried.len len := by
        simp [Iovec.clip, bufferBytes]
      omega
    rw [hpiece] at hfull
    have := hfull serves
    simp [Iovec.clip, bufferBytes] at this
    omega
  · have hsplit := @zip_span carried.base (min carried.len len) len cc.toNat off (by omega)
      (by omega) [] []
    rw [List.append_nil, List.append_nil] at hsplit
    have hone : bufferAddresses [carried.clip len] = addresses carried.base (min carried.len len) := by
      simp [bufferAddresses, Iovec.clip]
    rw [hmoved, hone, Int.toNat_natCast, hsplit, List.take_left']
    simp
  · have hcall : sysioDoioHelper d [carried.clip len] 1 off len h = .ok (cc, h') := hrun
    have := @account_run cc acc ha (by omega) (fun sum =>
      extentsLoop (sysioDoioHelper d) fuel (wrap64 (off + cc)) (len - cc.toNat) xtv
        (carried.advance cc.toNat) iov sum) h'
    rw [← this]
    conv_lhs => unfold extentsLoop
    rw [if_neg hlen, if_pos hcar, hwrap]
    exact bind_run hcall

/-- A round that hands over the buffers that fit. -/
theorem extentsLoop_batch (fuel : ℕ) (xtv : List Xtvec) (v : Iovec) (l : List Iovec) (hlen : len ≠ 0)
    (hcar : carried.len = 0) (hbatch : (gather (v :: l) len).1 ≠ 0) (ha : 0 ≤ acc)
    (hmax : acc + (len - (gather (v :: l) len).2.1 : ℕ) ≤ SSIZE_MAX) :
    ∃ (cc : ℤ) (h' : List Transfer), cc ≤ len - (gather (v :: l) len).2.1 ∧
      (Serves d off (len - (gather (v :: l) len).2.1) →
        cc = if toSize (toInt (gather (v :: l) len).1) = 0 then -EINVAL
          else min (len - (gather (v :: l) len).2.1)
            (bufferBytes ((v :: l).take (toSize (toInt (gather (v :: l) len).1))))) ∧
      (∃ k, h' = h ++ k ∧ moved k =
        ((bufferAddresses (v :: l)).zip (offsets off len)).take cc.toNat) ∧
      extentsLoop (sysioDoioHelper d) (fuel + 1) off len xtv carried (v :: l) acc h =
        if cc ≤ 0 then .ok (if acc ≠ 0 then acc else cc, h')
        else if cc < len - (gather (v :: l) len).2.1 then .ok (cc + acc, h')
        else extentsLoop (sysioDoioHelper d) fuel (wrap64 (off + cc)) (len - cc.toNat) xtv carried
          ((v :: l).drop (gather (v :: l) len).1) (cc + acc) h' := by
  obtain ⟨hk, hrest, hsum, -⟩ := gather_spec (v :: l) len
  obtain ⟨k, n, left, hg⟩ : ∃ k n left, gather (v :: l) len = (k, n, left) := ⟨_, _, _, rfl⟩
  rw [hg] at hk hrest hsum hbatch hmax ⊢
  simp only at hk hrest hsum hbatch hmax ⊢
  subst hrest
  have htake : bufferBytes ((v :: l).take k) ≤ bufferBytes (v :: l) := by
    conv_rhs => rw [← List.take_append_drop k (v :: l), bufferBytes_append]
    exact Nat.le_add_right ..
  have hroom : ((len - n : ℕ) : ℤ) ≤ SSIZE_MAX := by omega
  obtain ⟨cc, h', hrun, hdel, hfull⟩ := sysioEnumerateIovec_run d (v :: l)
    (toSize (toInt k)) off (len - n : ℕ) h (by omega) (by omega)
    (Or.inr (by omega))
  obtain ⟨m, hm, hmoved⟩ := hdel.moved
  have hle : cc ≤ (len - n : ℕ) := by
    have := hdel.le
    rw [List.length_zip, length_bufferAddresses, length_offsets] at this
    omega
  refine ⟨cc, h', by omega, fun serves => ?_, ⟨m, hm, ?_⟩, ?_⟩
  · rw [hfull (serves.shorter (by omega))]
    split <;> omega
  · rw [hmoved, Int.toNat_natCast]
    have hshort := @take_zip_offsets (bufferAddresses (v :: l)) off cc.toNat (len - n) (by omega) []
    have hlong := @take_zip_offsets (bufferAddresses (v :: l)) off cc.toNat len (by omega) []
    rw [List.append_nil] at hshort hlong
    rw [hshort, hlong]
  · have hcall : sysioDoioHelper d (v :: l) (toInt k) off ((len - n : ℕ) : ℤ) h =
      .ok (cc, h') := hrun
    have := @account_run cc acc ha (by omega) (fun sum =>
      if (len - n) - cc.toNat ≠ 0 then pure sum
      else extentsLoop (sysioDoioHelper d) fuel (wrap64 (off + cc)) (len - cc.toNat) xtv
        carried ((v :: l).drop k) sum) h'
    conv_lhs => unfold extentsLoop
    rw [if_neg hlen, if_neg (not_not.mpr hcar)]
    simp only [hg, if_neg hbatch]
    rw [wrap64_of_mem (Int.natCast_nonneg _) hroom]
    refine (bind_run hcall).trans (this.trans ?_)
    by_cases hcc : cc ≤ 0
    · rw [if_pos hcc, if_pos hcc]
    · rw [if_neg hcc, if_neg hcc]
      by_cases hshort : cc < len - n
      · rw [if_pos (by omega), if_pos hshort]
        rfl
      · rw [if_neg (by omega), if_neg hshort]

/-- The bytes of a carried buffer that were moved are the first ones left. -/
theorem rest_advance {xtv : List Xtvec} {c : ℕ} (hcar : c ≤ carried.len) (hlen : c ≤ len) :
    rest off len xtv carried iov = span carried.base c off ++
      rest (wrap64 (off + c)) (len - c) xtv (carried.advance c) iov :=
  zip_span hcar hlen _ _

/-- Once nothing is left of a buffer, it may be replaced by the next one. -/
theorem rest_next {xtv : List Xtvec} {v : Iovec} {l : List Iovec} (hcar : carried.len = 0) :
    rest off len xtv carried (v :: l) = rest off len xtv v l := by
  simp [rest, hcar, addresses, bufferAddresses]

/-- What one call for several buffers moves, in terms of the bytes left. -/
theorem take_rest {xtv : List Xtvec} {c : ℕ} (hcar : carried.len = 0) (hc : c ≤ len) :
    (rest off len xtv carried iov).take c = ((bufferAddresses iov).zip (offsets off len)).take c := by
  have hnone : addresses carried.base carried.len = [] := by simp [hcar, addresses]
  have hzip := @take_zip_offsets (bufferAddresses iov) off _ _ hc []
  rw [List.append_nil] at hzip
  rw [rest, hnone, List.nil_append, take_zip_offsets _ hc, hzip]

/-- The bytes of the buffers of a batch are the first ones left. -/
theorem rest_batch {xtv : List Xtvec} {k : ℕ} (hcar : carried.len = 0)
    (hbatch : bufferBytes (iov.take k) ≤ len) :
    rest off len xtv carried iov =
      ((bufferAddresses iov).zip (offsets off len)).take (bufferBytes (iov.take k)) ++
      rest (wrap64 (off + bufferBytes (iov.take k))) (len - bufferBytes (iov.take k)) xtv carried
        (iov.drop k) := by
  have hzip := @take_zip_offsets (bufferAddresses iov) off _ _ hbatch []
  obtain ⟨m, hm⟩ := Nat.exists_eq_add_of_le hbatch
  have hsplit : bufferAddresses iov = bufferAddresses (iov.take k) ++ bufferAddresses (iov.drop k) := by
    rw [bufferAddresses, bufferAddresses, bufferAddresses, ← List.flatMap_append,
      List.take_append_drop]
  have hlen : (bufferAddresses (iov.take k)).length = bufferBytes (iov.take k) :=
    length_bufferAddresses _
  rw [List.append_nil] at hzip
  rw [hzip, hsplit, List.take_left' hlen]
  generalize bufferBytes (iov.take k) = c at hm hlen
  have hnone : addresses carried.base carried.len = [] := by simp [hcar, addresses]
  have hsub : c + m - c = m := Nat.add_sub_cancel_left ..
  rw [rest, rest, hnone, List.nil_append, List.nil_append, hm, hsub, hsplit, offsets_add,
    List.append_assoc, List.zip_append (by simp [hlen])]

/-- Whatever the driver answers, the loops stop without a fault and have moved a first part of what
was left. -/
theorem extentsLoop_run (fuel : ℕ) (off : ℤ) (len : ℕ) (xtv : List Xtvec) (carried : Iovec)
    (iov : List Iovec) (acc : ℤ) (h : List Transfer) (ha : 0 ≤ acc)
    (hmax : acc + len + extentBytes xtv ≤ SSIZE_MAX)
    (hfuel : len + extentBytes xtv + xtv.length + iov.length < fuel) :
    ∃ r h', extentsLoop (sysioDoioHelper d) fuel off len xtv carried iov acc h = .ok (r, h') ∧
      (acc = 0 ∨ acc ≤ r) ∧ Delivered (rest off len xtv carried iov) h (r - acc) h' := by
  induction fuel generalizing off len xtv carried iov acc h with
  | zero => omega
  | succ fuel ih =>
    have stop : ∃ r h', (pure acc : Io ℤ) h = .ok (r, h') ∧ (acc = 0 ∨ acc ≤ r) ∧
        Delivered (rest off len xtv carried iov) h (r - acc) h' :=
      ⟨acc, h, rfl, Or.inr (Int.le_refl _), Delivered.nothing _ h (by omega)⟩
    by_cases hlen : len = 0
    · cases xtv with
      | nil =>
        unfold extentsLoop
        rw [if_pos hlen]
        exact stop
      | cons x l =>
        rw [extentBytes_cons] at hmax hfuel
        obtain ⟨hos, hbytes, hshort⟩ := coalesce_spec x.off x.len l (by have := ssize_lt; omega)
        obtain ⟨r, h', hrun, hr, hdel⟩ := ih x.off _ _ carried iov acc h ha
          (by rw [Int.add_assoc, ← Int.natCast_add, hbytes]; omega)
          (by rw [hbytes]; rw [List.length_cons] at hfuel; omega)
        refine ⟨r, h', ?_, hr, ?_⟩
        · unfold extentsLoop
          rw [if_pos hlen]
          exact hrun
        · have : offsets off len ++ extentOffsets (x :: l) = offsets x.off x.len ++ extentOffsets l := by
            simp [hlen, offsets, extentOffsets]
          rw [rest, hos] at hdel
          rw [rest, this]
          exact hdel
    by_cases hcar : carried.len = 0
    · cases iov with
      | nil =>
        unfold extentsLoop
        rw [if_neg hlen, if_neg (not_not.mpr hcar)]
        exact stop
      | cons v l =>
        by_cases hbatch : (gather (v :: l) len).1 = 0
        · obtain ⟨r, h', hrun, hr, hdel⟩ := ih off len xtv v l acc h ha hmax
            (by rw [List.length_cons] at hfuel; omega)
          refine ⟨r, h', ?_, hr, ?_⟩
          · unfold extentsLoop
            rw [if_neg hlen, if_neg (not_not.mpr hcar)]
            simp only [if_pos hbatch]
            exact hrun
          · rw [rest_next hcar]
            exact hdel
        · obtain ⟨cc, h1, hle, -, ⟨m, hm, hmoved⟩, hstep⟩ := @extentsLoop_batch d off _ _ _ h
            fuel xtv v l hlen hcar hbatch ha (by omega)
          obtain ⟨hk, hrest, hsum, -⟩ := gather_spec (v :: l) len
          have htotal : bufferBytes ((v :: l).take (gather (v :: l) len).1) ≤ bufferBytes (v :: l) := by
            conv_rhs => rw [← List.take_append_drop (gather (v :: l) len).1 (v :: l),
              bufferBytes_append]
            exact Nat.le_add_right ..
          rw [hstep]
          by_cases hcc : cc ≤ 0
          · rw [if_pos hcc]
            refine ⟨_, h1, rfl, by split <;> omega, ⟨⟨m, hm, ?_⟩, ?_⟩⟩
            · have : (if acc ≠ 0 then acc else cc) - acc ≤ 0 := by split <;> omega
              rw [hmoved, Int.toNat_of_nonpos hcc, Int.toNat_of_nonpos this]
              rfl
            · split <;> omega
          rw [if_neg hcc]
          by_cases hpart : cc < len - (gather (v :: l) len).2.1
          · rw [if_pos hpart]
            refine ⟨_, h1, rfl, Or.inr (by omega), ⟨⟨m, hm, ?_⟩, ?_⟩⟩
            · rw [Int.add_sub_cancel, take_rest hcar (by omega)]
              exact hmoved
            · rw [rest, List.length_zip, List.length_append, List.length_append,
                length_bufferAddresses, length_offsets, length_addresses]
              omega
          · rw [if_neg hpart]
            have hcast : (bufferBytes ((v :: l).take (gather (v :: l) len).1) : ℤ) = cc := by omega
            have hnat : cc.toNat = bufferBytes ((v :: l).take (gather (v :: l) len).1) := by omega
            obtain ⟨r, h', hrun, hr, hdel⟩ := ih (wrap64 (off + cc)) (len - cc.toNat) xtv carried
              ((v :: l).drop (gather (v :: l) len).1) (cc + acc) h1 (by omega) (by omega)
              (by rw [List.length_drop]; omega)
            refine ⟨r, h', hrun, Or.inr (by omega), ?_⟩
            rw [rest_batch (k := (gather (v :: l) len).1) hcar (by omega), hcast, ← hnat]
            subst hm
            have hr' : cc + (r - (cc + acc)) = r - acc := by omega
            have := Delivered.after hmoved (c := cc) (by
              rw [List.length_take, List.length_zip, length_bufferAddresses, length_offsets]
              omega) (by omega) hdel
            rwa [hr'] at this
    · obtain ⟨cc, h1, hle, -, ⟨m, hm, hmoved⟩, hstep⟩ := @extentsLoop_carried d off _ _ iov _ h fuel xtv
        hlen hcar ha (by omega) (by omega)
      rw [hstep]
      by_cases hcc : cc ≤ 0
      · rw [if_pos hcc]
        refine ⟨_, h1, rfl, by split <;> omega, ⟨⟨m, hm, ?_⟩, ?_⟩⟩
        · have : (if acc ≠ 0 then acc else cc) - acc ≤ 0 := by split <;> omega
          rw [hmoved, Int.toNat_of_nonpos hcc, Int.toNat_of_nonpos this]
          rfl
        · split <;> omega
      · rw [if_neg hcc]
        have hcast : ((cc.toNat : ℕ) : ℤ) = cc := by omega
        obtain ⟨r, h', hrun, hr, hdel⟩ := ih (wrap64 (off + cc)) (len - cc.toNat) xtv
          (carried.advance cc.toNat) iov (cc + acc) h1 (by omega) (by omega) (by omega)
        refine ⟨r, h', hrun, Or.inr (by omega), ?_⟩
        rw [rest_advance (c := cc.toNat) (by omega) (by omega), hcast]
        subst hm
        have := Delivered.after hmoved (c := cc) (by simp; omega) (by omega) hdel
        have hr' : cc + (r - (cc + acc)) = r - acc := by omega
        rwa [hr'] at this

/-- Whatever a driver answers and however short its counts are, the call returns, and the bytes moved
are the first ones of the reconciled stream, as many as it returns; an error means none. -/
theorem sysioDoio_prefix (xtv : List Xtvec) (iov : List Iovec)
    (hxtv : extentBytes xtv ≤ SSIZE_MAX) :
    ∃ r h, sysioDoio d xtv iov [] = .ok (r, h) ∧ r ≤ (stream xtv iov).length ∧
      moved h = (stream xtv iov).take r.toNat := by
  obtain ⟨r, h, hrun, -, hdel⟩ := extentsLoop_run d (extentBytes xtv + xtv.length + iov.length + 1) 0
    0 xtv ⟨0, 0, by decide⟩ iov 0 [] (Int.le_refl 0) (by omega) (by omega)
  rw [Int.sub_zero] at hdel
  obtain ⟨l, hl, hmoved⟩ := hdel.moved
  have hrest : rest 0 0 xtv ⟨0, 0, by decide⟩ iov = stream xtv iov := rfl
  rw [hrest] at hmoved hdel
  refine ⟨r, h, hrun, hdel.le, ?_⟩
  rw [hl]
  exact hmoved

end Extents

/-- A driver that moves half of what it is asked for, rounded up. -/
def halfCallback : SysioReconcile.Callback :=
  ⟨fun _ _ n _ => ((n + 1) / 2 : ℕ), fun _ _ _ _ => by omega⟩

theorem sysioDoio_prefix_half :
    ∃ r h, sysioDoio halfCallback [⟨0, 10, by decide⟩, ⟨100, 10, by decide⟩]
        [⟨0, 3, by decide⟩, ⟨60, 12, by decide⟩] [] = .ok (r, h) ∧
      r ≤ (stream [⟨0, 10, by decide⟩, ⟨100, 10, by decide⟩]
        [⟨0, 3, by decide⟩, ⟨60, 12, by decide⟩]).length ∧
      moved h = (stream [⟨0, 10, by decide⟩, ⟨100, 10, by decide⟩]
        [⟨0, 3, by decide⟩, ⟨60, 12, by decide⟩]).take r.toNat :=
  sysioDoio_prefix halfCallback [⟨0, 10, by decide⟩, ⟨100, 10, by decide⟩]
    [⟨0, 3, by decide⟩, ⟨60, 12, by decide⟩] (by decide)

end ReconcileStream
