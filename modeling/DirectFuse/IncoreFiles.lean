import DirectFuse.IncoreDirectory
import DirectFuse.ReconcileVast
import DirectFuse.StatefulDriver
import Mathlib.Data.Int.Interval
import Mathlib.Data.Int.ModEq

/-! Reading and writing the data of an incore file (drivers/incore/fs_incore.c). -/
namespace IncoreFiles

open ExecLogic ByteRange SysioState SysioReconcile ReconcileStream ReconcileVast FuseDirectory
open IncoreDirectory (incoreTrunc)
open StatefulDriver

/-- `incore_write` of the bytes in a buffer. -/
def incoreWrite (h : Heap) (buf : Bytes) (nbytes : ℕ) (off : ℤ) : Fd ℤ := do
  if off < 0 then
    return -EINVAL
  else
    let size ← Exec.read fun d => d.stSize
    if nbytes = 0 ∨ size < off then
      return 0
    else
      let pos := wrap64 (off + nbytes)
      if off ≠ 0 ∧ pos ≤ off then
        return -EFBIG
      else
        let err ← (if size < pos then incoreTrunc h pos.toNat false else pure 0)
        if err ≠ 0 then
          return err
        else
          storeBytes off.toNat buf
          return wrap64 nbytes

/-- `incore_read`, with the bytes for the buffer. -/
def incoreRead (nbytes : ℕ) (off : ℤ) : Fd (ℤ × Bytes) := do
  if off < 0 then
    return (-EINVAL, [])
  else
    let size ← Exec.read fun d => d.stSize
    if nbytes = 0 ∨ size < off then
      return (0, [])
    else
      let n := min (size - off.toNat) nbytes
      let bytes ← loadBytes off.toNat n
      return (wrap64 n, bytes)

/-- The data of a file, the memory of the caller and the number of calls of `incore_write`. -/
structure Machine where
  file : Directory
  memory : ℕ → UInt8
  asked : ℕ

def onFile {α : Type} (m : Fd α) : Exec Machine Fault α := fun s =>
  match m s.file with
  | .ok (a, d) => .ok (a, { s with file := d })
  | .error e => .error e

/-- Memory with bytes put at an address. -/
def put (memory : ℕ → UInt8) (base : ℕ) (bytes : Bytes) : ℕ → UInt8 := fun a =>
  if base ≤ a then bytes[a - base]?.getD (memory a) else memory a

def writeBuffer (heaps : ℕ → Heap) (base n : ℕ) (off : ℤ) : Exec Machine Fault ℤ := do
  let h ← Exec.read fun s => heaps s.asked
  let buf ← Exec.read fun s => (addresses base n).map s.memory
  Exec.write fun s => { s with asked := s.asked + 1 }
  onFile (incoreWrite h buf n off)

def readBuffer (base n : ℕ) (off : ℤ) : Exec Machine Fault ℤ := do
  let r ← onFile (incoreRead n off)
  Exec.write fun s => { s with memory := put s.memory base r.2 }
  return r.1

/-- The file has as many bytes as it says, and no more than an offset can tell. -/
structure Whole (d : Directory) : Prop where
  size : d.stSize = d.data.length
  fits : d.data.length ≤ SSIZE_MAX

theorem ssize_eq : (SSIZE_MAX : ℤ) = 2 ^ 63 - 1 := by decide

theorem wrap64_le {x : ℤ} (h : 0 ≤ x) : wrap64 x ≤ x := by
  unfold wrap64 Int.bmod
  simp only
  split <;> omega

section Calls

variable {d d' : Directory} {s s' : Machine} {h : Heap} {off r : ℤ} {n base : ℕ} {buf : Bytes}

theorem onFile_ok {α : Type} {m : Fd α} {a : α} : onFile m s = .ok (a, s') ↔
    ∃ d, m s.file = .ok (a, d) ∧ s' = { s with file := d } := by
  unfold onFile
  cases m s.file with
  | error e => simp
  | ok res =>
    rcases res with ⟨b, d⟩
    constructor
    · intro run
      rcases Prod.mk.inj (Except.ok.inj run) with ⟨rfl, rfl⟩
      exact ⟨d, rfl, rfl⟩
    · rintro ⟨d₁, run, rfl⟩
      rcases Prod.mk.inj (Except.ok.inj run) with ⟨rfl, rfl⟩
      rfl

theorem incoreTrunc_le {size : ℕ} {clear : Bool} (run : incoreTrunc h size clear d = .ok (r, d')) :
    r ≤ 0 := by
  unfold incoreTrunc at run
  split at run
  · rcases pure_ok.mp run with ⟨rfl, -⟩
    decide
  unfold fuseTrunc at run
  split at run
  · rcases bind_ok.mp run with ⟨u, d₁, -, hend⟩
    rcases pure_ok.mp hend with ⟨rfl, -⟩
    exact Int.le_refl 0
  split at run
  · rcases pure_ok.mp run with ⟨rfl, -⟩
    decide
  · rcases bind_ok.mp run with ⟨u, d₁, -, hold⟩
    rcases bind_ok.mp hold with ⟨old, d₂, -, hclear⟩
    rcases bind_ok.mp hclear with ⟨u', d₃, -, hset⟩
    rcases bind_ok.mp hset with ⟨u'', d₄, -, hend⟩
    rcases pure_ok.mp hend with ⟨rfl, -⟩
    exact Int.le_refl 0

/-- Growing a file keeps its bytes; where there is no memory, nothing changes. -/
theorem incoreTrunc_grow {size : ℕ} (hgrow : d.data.length < size)
    (run : incoreTrunc h size false d = .ok (r, d')) :
    (r < 0 ∧ d' = d) ∨ (r = 0 ∧ size ≤ SSIZE_MAX ∧
      ∃ junk, junk.length = size - d.data.length ∧ d' = ⟨d.data ++ junk, size, d.nlink⟩) := by
  unfold incoreTrunc at run
  have hmax : SSIZE_MAX = 2 ^ 63 - 1 := rfl
  by_cases hbig : 2 ^ 63 ≤ size
  · rw [if_pos hbig] at run
    rcases pure_ok.mp run with ⟨rfl, rfl⟩
    exact Or.inl ⟨by decide, rfl⟩
  rw [if_neg hbig, fuseTrunc, if_neg (by omega)] at run
  split at run
  · rcases pure_ok.mp run with ⟨rfl, rfl⟩
    exact Or.inl ⟨by decide, rfl⟩
  · rcases bind_ok.mp run with ⟨u, d₁, hwrite, run⟩
    rcases write_ok.mp hwrite with rfl
    rcases bind_ok.mp run with ⟨old, d₂, hread, run⟩
    rcases read_ok.mp hread with ⟨-, rfl⟩
    rcases bind_ok.mp run with ⟨u', d₃, hwhen, run⟩
    rcases when_ok.mp hwhen with ⟨⟨hclear, -⟩, -⟩ | ⟨-, rfl⟩
    · cases hclear
    rcases bind_ok.mp run with ⟨u'', d₄, hset, hend⟩
    rcases write_ok.mp hset with rfl
    rcases pure_ok.mp hend with ⟨rfl, rfl⟩
    refine Or.inr ⟨rfl, by omega, (List.range (size - d.data.length)).map h.junk, by simp, ?_⟩
    rw [List.take_of_length_le (Nat.le_of_lt hgrow)]

/-- A call of `incore_write` moves nothing and changes nothing, or it moves the whole buffer to its
place, which begins at the end of the file or before. -/
theorem incoreWrite_ok (whole : Whole d) (hbuf : buf.length = n)
    (run : incoreWrite h buf n off d = .ok (r, d')) :
    (r ≤ 0 ∧ d' = d) ∨ (0 < n ∧ r = n ∧ 0 ≤ off ∧ Whole d' ∧
      d'.data.length = max d.data.length (off.toNat + n) ∧
      ∀ o : ℕ, d'.data[o]? =
        if off.toNat ≤ o ∧ o < off.toNat + n then buf[o - off.toNat]? else d.data[o]?) := by
  have hmax := ssize_eq
  have hsize := whole.size
  have hfits := whole.fits
  unfold incoreWrite at run
  by_cases hneg : off < 0
  · rw [if_pos hneg] at run
    rcases pure_ok.mp run with ⟨rfl, rfl⟩
    exact Or.inl ⟨by decide, rfl⟩
  rw [if_neg hneg] at run
  rcases bind_ok.mp run with ⟨size, d₁, hread, run⟩
  rcases read_ok.mp hread with ⟨rfl, rfl⟩
  by_cases hstop : n = 0 ∨ d.stSize < off
  · rw [if_pos hstop] at run
    rcases pure_ok.mp run with ⟨rfl, rfl⟩
    exact Or.inl ⟨Int.le_refl 0, rfl⟩
  rw [if_neg hstop] at run
  have hpos : 0 < n := by omega
  have hplace : off.toNat ≤ d.data.length := by omega
  have hne : buf ≠ [] := by
    intro hnil
    rw [hnil, List.length_nil] at hbuf
    omega
  by_cases hover : off ≠ 0 ∧ wrap64 (off + n) ≤ off
  · rw [if_pos hover] at run
    rcases pure_ok.mp run with ⟨rfl, rfl⟩
    exact Or.inl ⟨by decide, rfl⟩
  rw [if_neg hover] at run
  rcases bind_ok.mp run with ⟨err, d₂, hgrow, hrest⟩
  by_cases hend : (d.stSize : ℤ) < wrap64 (off + n)
  · rw [if_pos hend] at hgrow
    rcases incoreTrunc_grow (by omega) hgrow with ⟨hfail, rfl⟩ | ⟨rfl, hroom, junk, hjunk, rfl⟩
    · rw [if_pos (by omega)] at hrest
      rcases pure_ok.mp hrest with ⟨rfl, rfl⟩
      exact Or.inl ⟨by omega, rfl⟩
    · rw [if_neg (by omega)] at hrest
      rcases bind_ok.mp hrest with ⟨u, d₃, hstore, hdone⟩
      rcases bind_ok.mp hstore with ⟨u', d₄, hcheck, hwrite⟩
      rcases check_ok.mp hcheck with ⟨hin, rfl⟩
      rcases write_ok.mp hwrite with rfl
      rcases pure_ok.mp hdone with ⟨rfl, rfl⟩
      have hbound := of_decide_eq_true hin
      have hle := @wrap64_le (off + n) (by omega)
      have hlen : (d.data ++ junk).length = off.toNat + n := by
        rw [hbuf] at hbound
        rw [List.length_append, hjunk] at hbound ⊢
        omega
      have hsame : (store 0 (d.data ++ junk) off.toNat buf).length = off.toNat + n := by
        rw [store_length (by rw [hlen, hbuf]), hlen]
      have hall : wrap64 (off + n) = off + n := by
        rw [List.length_append, hjunk] at hlen
        omega
      refine Or.inr ⟨hpos, wrap64_of_mem (by omega) (by omega), by omega, ⟨?_, ?_⟩, ?_, ?_⟩
      · change (wrap64 (off + n)).toNat = (store 0 (d.data ++ junk) off.toNat buf).length
        rw [hsame, hall]
        omega
      · change (store 0 (d.data ++ junk) off.toNat buf).length ≤ SSIZE_MAX
        rw [hsame]
        omega
      · change (store 0 (d.data ++ junk) off.toNat buf).length = _
        rw [hsame]
        omega
      · intro o
        change (store 0 (d.data ++ junk) off.toNat buf)[o]? = _
        rw [store_get hne, hbuf]
        by_cases hlow : o < off.toNat
        · rw [if_pos hlow, if_pos (by rw [hlen]; omega), if_neg (by omega),
            List.getElem?_append_left (by omega)]
        · rw [if_neg hlow]
          by_cases hmid : o < off.toNat + n
          · rw [if_pos hmid, if_pos ⟨by omega, hmid⟩]
          · rw [if_neg hmid, if_neg (by omega), List.getElem?_eq_none (by omega),
              List.getElem?_eq_none (by omega)]
  · rw [if_neg hend] at hgrow
    rcases pure_ok.mp hgrow with ⟨rfl, rfl⟩
    rw [if_neg (by omega)] at hrest
    rcases bind_ok.mp hrest with ⟨u, d₃, hstore, hdone⟩
    rcases bind_ok.mp hstore with ⟨u', d₄, hcheck, hwrite⟩
    rcases check_ok.mp hcheck with ⟨hin, rfl⟩
    rcases write_ok.mp hwrite with rfl
    rcases pure_ok.mp hdone with ⟨rfl, rfl⟩
    have hbound := of_decide_eq_true hin
    have hsame : (store 0 d.data off.toNat buf).length = d.data.length := store_length hbound
    rw [hbuf] at hbound
    refine Or.inr ⟨hpos, wrap64_of_mem (by omega) (by omega), by omega, ⟨?_, ?_⟩, ?_, ?_⟩
    · change d.stSize = (store 0 d.data off.toNat buf).length
      rw [hsame, hsize]
    · change (store 0 d.data off.toNat buf).length ≤ SSIZE_MAX
      rw [hsame]
      exact hfits
    · change (store 0 d.data off.toNat buf).length = _
      rw [hsame]
      omega
    · intro o
      change (store 0 d.data off.toNat buf)[o]? = _
      rw [store_get hne, hbuf]
      by_cases hlow : o < off.toNat
      · rw [if_pos hlow, if_pos (by omega), if_neg (by omega)]
      · rw [if_neg hlow]
        by_cases hmid : o < off.toNat + n
        · rw [if_pos hmid, if_pos ⟨by omega, hmid⟩]
        · rw [if_neg hmid, if_neg (by omega)]

/-- A call of `incore_read` does not fail, and gives the bytes from its place on: as many as are asked
for if the file has them. -/
theorem incoreRead_run (whole : Whole d) (n : ℕ) (off : ℤ) :
    ∃ r bytes, incoreRead n off d = .ok ((r, bytes), d) ∧
      ((r ≤ 0 ∧ bytes = []) ∨
        (0 ≤ off ∧ r = bytes.length ∧ bytes = fetch d.data off.toNat bytes.length)) ∧
      (0 < n → 0 ≤ off → off + n ≤ d.data.length → r = n) := by
  have hmax := ssize_eq
  have hsize := whole.size
  have hfits := whole.fits
  unfold incoreRead
  by_cases hneg : off < 0
  · rw [if_pos hneg]
    exact ⟨-EINVAL, [], rfl, Or.inl ⟨by decide, rfl⟩, by omega⟩
  rw [if_neg hneg]
  have hread : (Exec.read fun d => d.stSize : Fd ℕ) d = .ok (d.stSize, d) := rfl
  rw [bind_run hread]
  by_cases hstop : n = 0 ∨ d.stSize < off
  · rw [if_pos hstop]
    exact ⟨0, [], rfl, Or.inl ⟨Int.le_refl 0, rfl⟩, by omega⟩
  rw [if_neg hstop]
  have hin : off.toNat + min (d.stSize - off.toNat) n ≤ d.data.length := by omega
  have hlen : (fetch d.data off.toNat (min (d.stSize - off.toNat) n)).length =
      min (d.stSize - off.toNat) n := by
    rw [fetch_length]
    omega
  have hload : loadBytes off.toNat (min (d.stSize - off.toNat) n) d =
      .ok (fetch d.data off.toNat (min (d.stSize - off.toNat) n), d) := by
    have hcheck : (Exec.check Fault.wild fun d : Directory =>
        decide (off.toNat + min (d.stSize - off.toNat) n ≤ d.data.length)) d = .ok ((), d) :=
      check_ok.mpr ⟨decide_eq_true hin, rfl⟩
    exact bind_run hcheck
  have hcount : wrap64 (min (d.stSize - off.toNat) n : ℕ) = (min (d.stSize - off.toNat) n : ℕ) :=
    wrap64_of_mem (by omega) (by omega)
  refine ⟨(min (d.stSize - off.toNat) n : ℕ), _, ?_, Or.inr ⟨by omega, by rw [hlen], by rw [hlen]⟩,
    by omega⟩
  rw [bind_run hload, hcount]
  rfl

end Calls

section Drivers

theorem incoreWrite_le {h : Heap} {buf : Bytes} {n : ℕ} {off r : ℤ} {d d' : Directory}
    (run : incoreWrite h buf n off d = .ok (r, d')) : r ≤ n := by
  have hnone : (0 : ℤ) ≤ n := Int.natCast_nonneg n
  unfold incoreWrite at run
  by_cases hneg : off < 0
  · rw [if_pos hneg] at run
    rcases pure_ok.mp run with ⟨rfl, -⟩
    exact Int.le_trans (by decide) hnone
  rw [if_neg hneg] at run
  rcases bind_ok.mp run with ⟨size, d₁, -, hsized⟩
  by_cases hstop : n = 0 ∨ size < off
  · rw [if_pos hstop] at hsized
    rcases pure_ok.mp hsized with ⟨rfl, -⟩
    exact hnone
  rw [if_neg hstop] at hsized
  by_cases hover : off ≠ 0 ∧ wrap64 (off + n) ≤ off
  · rw [if_pos hover] at hsized
    rcases pure_ok.mp hsized with ⟨rfl, -⟩
    exact Int.le_trans (by decide) hnone
  rw [if_neg hover] at hsized
  rcases bind_ok.mp hsized with ⟨err, d₂, hgrow, hrest⟩
  by_cases herr : err ≠ 0
  · rw [if_pos herr] at hrest
    rcases pure_ok.mp hrest with ⟨rfl, -⟩
    by_cases hend : (size : ℤ) < wrap64 (off + n)
    · rw [if_pos hend] at hgrow
      exact Int.le_trans (incoreTrunc_le hgrow) hnone
    · rw [if_neg hend] at hgrow
      rcases pure_ok.mp hgrow with ⟨rfl, -⟩
      exact hnone
  · rw [if_neg herr] at hrest
    rcases bind_ok.mp hrest with ⟨u', d₃, -, hend⟩
    rcases pure_ok.mp hend with ⟨rfl, -⟩
    exact wrap64_le hnone

theorem incoreRead_le {n : ℕ} {off r : ℤ} {bytes : Bytes} {d d' : Directory}
    (run : incoreRead n off d = .ok ((r, bytes), d')) : r ≤ n := by
  have hnone : (0 : ℤ) ≤ n := Int.natCast_nonneg n
  unfold incoreRead at run
  by_cases hneg : off < 0
  · rw [if_pos hneg] at run
    rcases pure_ok.mp run with ⟨hr, -⟩
    rcases Prod.mk.inj hr with ⟨rfl, -⟩
    exact Int.le_trans (by decide) hnone
  rw [if_neg hneg] at run
  rcases bind_ok.mp run with ⟨size, d₁, -, hsized⟩
  by_cases hstop : n = 0 ∨ size < off
  · rw [if_pos hstop] at hsized
    rcases pure_ok.mp hsized with ⟨hr, -⟩
    rcases Prod.mk.inj hr with ⟨rfl, -⟩
    exact hnone
  · rw [if_neg hstop] at hsized
    rcases bind_ok.mp hsized with ⟨bytes', d₂, -, hend⟩
    rcases pure_ok.mp hend with ⟨hr, -⟩
    rcases Prod.mk.inj hr with ⟨rfl, -⟩
    exact Int.le_trans (wrap64_le (Int.natCast_nonneg _)) (by omega)

/-- `incore_write` as a driver, with a heap for each call. -/
def writer (heaps : ℕ → Heap) : Driver Machine where
  move := writeBuffer heaps
  le := by
    intro base n off r s s' run
    rcases bind_ok.mp run with ⟨h, s₁, -, hbuf⟩
    rcases bind_ok.mp hbuf with ⟨buf, s₂, -, hask⟩
    rcases bind_ok.mp hask with ⟨u, s₃, -, hfile⟩
    rcases onFile_ok.mp hfile with ⟨d, hwrite, -⟩
    exact incoreWrite_le hwrite

/-- `incore_read` as a driver. -/
def reader : Driver Machine where
  move := readBuffer
  le := by
    intro base n off r s s' run
    rcases bind_ok.mp run with ⟨res, s₁, hfile, hput⟩
    rcases bind_ok.mp hput with ⟨u, s₂, -, hend⟩
    rcases pure_ok.mp hend with ⟨rfl, -⟩
    rcases onFile_ok.mp hfile with ⟨d, hread, -⟩
    exact incoreRead_le hread

/-- What an operation leaves in the `ioctx`. -/
structure IoResult where
  cc : ℤ
  errno : ℤ
  deriving DecidableEq, Repr

/-- `doio`. -/
def doio (f : Driver Machine) (xtv : List Xtvec) (iov : List Iovec) : Exec Machine Fault IoResult := do
  let cc ← f.doio xtv iov
  if cc < 0 then
    return ⟨-1, -cc⟩
  else
    return ⟨cc, 0⟩

def sysioIncoreFilopRead (xtv : List Xtvec) (iov : List Iovec) : Exec Machine Fault IoResult :=
  doio reader xtv iov

def sysioIncoreFilopWrite (heaps : ℕ → Heap) (xtv : List Xtvec) (iov : List Iovec) :
    Exec Machine Fault IoResult := doio (writer heaps) xtv iov

theorem doio_count {f : Driver Machine} {xtv : List Xtvec} {iov : List Iovec} {s s' : Machine}
    {count : ℕ} : doio f xtv iov s = .ok (⟨count, 0⟩, s') ↔ f.doio xtv iov s = .ok ((count : ℤ), s') := by
  constructor
  · intro run
    rcases bind_ok.mp run with ⟨cc, s₁, hrun, hend⟩
    by_cases hcc : cc < 0
    · rw [if_pos hcc] at hend
      have hsame := congrArg IoResult.cc (pure_ok.mp hend).1
      change -1 = (count : ℤ) at hsame
      omega
    · rw [if_neg hcc] at hend
      rcases pure_ok.mp hend with ⟨hres, rfl⟩
      have hsame : cc = count := congrArg IoResult.cc hres
      rw [hsame] at hrun
      exact hrun
  · intro run
    have hnot : ¬ (count : ℤ) < 0 := by omega
    unfold doio
    rw [bind_run run, if_neg hnot]
    rfl

end Drivers

/-- The size of a file after bytes were stored at these places. -/
def sizeAfter (size : ℕ) (places : List ℤ) : ℕ := places.foldl (fun n o => max n (o.toNat + 1)) size

/-- What writing at places from addresses makes of a machine. -/
structure Wrote (s s' : Machine) (pairs : List (ℕ × ℤ)) : Prop where
  memory : s'.memory = s.memory
  whole : Whole s'.file
  places : ∀ p ∈ pairs, 0 ≤ p.2
  size : s'.file.data.length = sizeAfter s.file.data.length (pairs.map Prod.snd)
  stored : (pairs.map Prod.snd).Nodup → ∀ p ∈ pairs, s'.file.data[p.2.toNat]? = some (s.memory p.1)
  kept : ∀ o : ℕ, (o : ℤ) ∉ pairs.map Prod.snd → s'.file.data[o]? = s.file.data[o]?

/-- What reading from places to addresses makes of a machine. -/
structure Fetched (s s' : Machine) (pairs : List (ℕ × ℤ)) : Prop where
  file : s'.file = s.file
  got : (pairs.map Prod.fst).Nodup → ∀ p ∈ pairs, s.file.data[p.2.toNat]? = some (s'.memory p.1)
  kept : ∀ a, a ∉ pairs.map Prod.fst → s'.memory a = s.memory a

section Histories

variable {heaps : ℕ → Heap} {s s₁ s' : Machine} {base n : ℕ} {off r : ℤ} {h : List Transfer}

theorem span_eq (base n : ℕ) (off : ℤ) :
    span base n off = (List.range n).map fun k : ℕ => (base + k, wrap64 (off + (k : ℤ))) :=
  List.zip_map' ..

theorem mem_span {p : ℕ × ℤ} : p ∈ span base n off ↔ ∃ k < n, (base + k, wrap64 (off + (k : ℤ))) = p := by
  rw [span_eq]
  simp

theorem sizeAfter_append (size : ℕ) (a b : List ℤ) :
    sizeAfter size (a ++ b) = sizeAfter (sizeAfter size a) b := List.foldl_append

theorem sizeAfter_offsets (size : ℕ) (hoff : 0 ≤ off) (hn : 0 < n) (hmax : off + n ≤ SSIZE_MAX) :
    sizeAfter size (offsets off n) = max size (off.toNat + n) := by
  induction n with
  | zero => exact absurd hn (Nat.lt_irrefl 0)
  | succ n ih =>
    have hlast : wrap64 (off + n) = off + n := wrap64_of_mem (by omega) (by omega)
    have hsplit : offsets off (n + 1) = offsets off n ++ [off + (n : ℤ)] := by
      rw [offsets, offsets, List.range_succ, List.map_append]
      change _ ++ [wrap64 (off + (n : ℤ))] = _
      rw [hlast]
    rw [hsplit, sizeAfter_append]
    change max (sizeAfter size (offsets off n)) ((off + (n : ℤ)).toNat + 1) = _
    by_cases hfirst : n = 0
    · subst hfirst
      change max size _ = _
      omega
    · rw [ih (Nat.pos_of_ne_zero hfirst) (by omega)]
      omega

theorem span_snd (base n : ℕ) (off : ℤ) : (span base n off).map Prod.snd = offsets off n := by
  rw [span_eq, List.map_map]
  rfl

theorem span_fst (base n : ℕ) (off : ℤ) : (span base n off).map Prod.fst = addresses base n := by
  rw [span_eq, List.map_map]
  rfl

theorem Wrote.none (whole : Whole s.file) (hmem : s'.memory = s.memory) (hfile : s'.file = s.file) :
    Wrote s s' [] where
  memory := hmem
  whole := by
    rw [hfile]
    exact whole
  places := fun p hp => absurd hp List.not_mem_nil
  size := by
    rw [hfile]
    rfl
  stored := fun _ p hp => absurd hp List.not_mem_nil
  kept := fun o _ => by rw [hfile]

/-- What is written later at other places leaves what was written before. -/
theorem Wrote.trans {a b : List (ℕ × ℤ)} (first : Wrote s s₁ a) (second : Wrote s₁ s' b) :
    Wrote s s' (a ++ b) where
  memory := second.memory.trans first.memory
  whole := second.whole
  places := by
    intro p hp
    rcases List.mem_append.mp hp with hp | hp
    · exact first.places p hp
    · exact second.places p hp
  size := by
    rw [second.size, first.size, List.map_append, sizeAfter_append]
  stored := by
    intro distinct p hp
    rw [List.map_append] at distinct
    rcases List.nodup_append.mp distinct with ⟨hfirst, hsecond, hapart⟩
    rcases List.mem_append.mp hp with hp | hp
    · have hplace : ((p.2.toNat : ℕ) : ℤ) = p.2 := Int.toNat_of_nonneg (first.places p hp)
      have hother : ((p.2.toNat : ℕ) : ℤ) ∉ b.map Prod.snd := by
        rw [hplace]
        intro hlater
        exact hapart p.2 (List.mem_map_of_mem hp) p.2 hlater rfl
      rw [second.kept _ hother]
      exact first.stored hfirst p hp
    · rw [second.stored hsecond p hp, first.memory]
  kept := by
    intro o ho
    rw [List.map_append, List.mem_append, not_or] at ho
    rw [second.kept o ho.2, first.kept o ho.1]

theorem wrote_call (whole : Whole s.file) (run : writeBuffer heaps base n off s = .ok (r, s')) :
    Wrote s s' (span base r.toNat off) := by
  rcases bind_ok.mp run with ⟨heap, s₁, hheap, hbuf⟩
  rcases read_ok.mp hheap with ⟨-, rfl⟩
  rcases bind_ok.mp hbuf with ⟨buf, s₂, hread, hask⟩
  rcases read_ok.mp hread with ⟨rfl, rfl⟩
  rcases bind_ok.mp hask with ⟨u, s₃, hwrite, hfile⟩
  rcases write_ok.mp hwrite with rfl
  rcases onFile_ok.mp hfile with ⟨d, hcall, rfl⟩
  rcases incoreWrite_ok whole (by simp) hcall with ⟨hr, hd⟩ | ⟨hn, rfl, hoff, hwhole, hlen, hbytes⟩
  · have hnone : span base r.toNat off = [] := by
      rw [Int.toNat_of_nonpos hr]
      rfl
    rw [hnone]
    exact Wrote.none whole rfl hd
  have hmax := ssize_eq
  have hfits := hwhole.fits
  have hplace : ∀ k < n, wrap64 (off + (k : ℤ)) = off + k :=
    fun k hk => wrap64_of_mem (by omega) (by omega)
  rw [Int.toNat_natCast]
  refine ⟨rfl, hwhole, ?_, ?_, ?_, ?_⟩
  · intro p hp
    rcases mem_span.mp hp with ⟨k, hk, rfl⟩
    rw [hplace k hk]
    omega
  · change d.data.length = _
    rw [span_snd, sizeAfter_offsets _ hoff hn (by omega), hlen]
  · intro _ p hp
    rcases mem_span.mp hp with ⟨k, hk, rfl⟩
    change d.data[(wrap64 (off + (k : ℤ))).toNat]? = some (s.memory (base + k))
    have hat : (off + (k : ℤ)).toNat = off.toNat + k := by omega
    rw [hplace k hk, hat, hbytes, if_pos (by omega), Nat.add_sub_cancel_left, addresses,
      List.map_map, List.getElem?_map, List.getElem?_range hk]
    rfl
  · intro o ho
    change d.data[o]? = s.file.data[o]?
    rw [hbytes, if_neg ?_]
    rintro ⟨hlow, hhigh⟩
    apply ho
    rw [span_snd, offsets]
    apply List.mem_map.mpr
    refine ⟨o - off.toNat, List.mem_range.mpr (by omega), ?_⟩
    rw [hplace _ (by omega)]
    omega

theorem played_wrote (whole : Whole s.file) (played : Played (writer heaps) s h s') :
    Wrote s s' (moved h) := by
  induction played with
  | nil s => exact Wrote.none whole rfl rfl
  | cons call _ ih =>
    have first := wrote_call whole call
    exact first.trans (ih first.whole)

theorem Fetched.none (hmem : s'.memory = s.memory) (hfile : s'.file = s.file) : Fetched s s' [] where
  file := hfile
  got := fun _ p hp => absurd hp List.not_mem_nil
  kept := fun a _ => by rw [hmem]

theorem Fetched.trans {a b : List (ℕ × ℤ)} (first : Fetched s s₁ a) (second : Fetched s₁ s' b) :
    Fetched s s' (a ++ b) where
  file := second.file.trans first.file
  got := by
    intro distinct p hp
    rw [List.map_append] at distinct
    rcases List.nodup_append.mp distinct with ⟨hfirst, hsecond, hapart⟩
    rcases List.mem_append.mp hp with hp | hp
    · have hother : p.1 ∉ b.map Prod.fst := by
        intro hlater
        exact hapart p.1 (List.mem_map_of_mem hp) p.1 hlater rfl
      rw [second.kept _ hother]
      exact first.got hfirst p hp
    · rw [← first.file]
      exact second.got hsecond p hp
  kept := by
    intro o ho
    rw [List.map_append, List.mem_append, not_or] at ho
    rw [second.kept o ho.2, first.kept o ho.1]

/-- Bytes put into memory are found there, and all others are as they were. -/
theorem put_get (memory : ℕ → UInt8) (base : ℕ) (bytes : Bytes) (a : ℕ) : put memory base bytes a =
    if base ≤ a ∧ a < base + bytes.length then bytes[a - base]?.getD 0 else memory a := by
  unfold put
  by_cases hlow : base ≤ a
  · rw [if_pos hlow]
    by_cases hhigh : a < base + bytes.length
    · rw [if_pos ⟨hlow, hhigh⟩, List.getElem?_eq_getElem (by omega)]
      rfl
    · rw [if_neg (by omega), List.getElem?_eq_none (by omega)]
      rfl
  · rw [if_neg hlow, if_neg (by omega)]

theorem fetched_call (whole : Whole s.file) (run : readBuffer base n off s = .ok (r, s')) :
    Fetched s s' (span base r.toNat off) := by
  rcases incoreRead_run whole n off with ⟨r', bytes, hcall, hread, -⟩
  rcases bind_ok.mp run with ⟨res, s₁, hfile, hrest⟩
  rcases onFile_ok.mp hfile with ⟨d, hcall', rfl⟩
  rcases Prod.mk.inj (Except.ok.inj (hcall.symm.trans hcall')) with ⟨rfl, rfl⟩
  rcases bind_ok.mp hrest with ⟨u, s₂, hput, hend⟩
  rcases write_ok.mp hput with rfl
  rcases pure_ok.mp hend with ⟨rfl, rfl⟩
  rcases hread with ⟨hr, rfl⟩ | ⟨hoff, rfl, hbytes⟩
  · change Fetched s _ (span base r'.toNat off)
    have hnone : span base r'.toNat off = [] := by
      rw [Int.toNat_of_nonpos hr]
      rfl
    rw [hnone]
    apply Fetched.none
    · funext a
      change put s.memory base [] a = s.memory a
      rw [put_get, if_neg (by simp)]
    · rfl
  have hmax := ssize_eq
  have hfits := whole.fits
  have hin : off.toNat + bytes.length ≤ s.file.data.length ∨ bytes.length = 0 := by
    have hlen := congrArg List.length hbytes
    rw [fetch_length] at hlen
    omega
  have hplace : ∀ k < bytes.length, wrap64 (off + (k : ℤ)) = off + k :=
    fun k hk => wrap64_of_mem (by omega) (by omega)
  change Fetched s _ (span base ((bytes.length : ℕ) : ℤ).toNat off)
  rw [Int.toNat_natCast]
  refine ⟨rfl, ?_, ?_⟩
  · intro _ p hp
    rcases mem_span.mp hp with ⟨k, hk, rfl⟩
    change s.file.data[(wrap64 (off + (k : ℤ))).toNat]? = some (put s.memory base bytes (base + k))
    have hat : (off + (k : ℤ)).toNat = off.toNat + k := by omega
    have hbyte := fetch_get s.file.data off.toNat bytes.length k
    rw [← hbytes, if_pos hk] at hbyte
    rw [hplace k hk, hat, put_get, if_pos (by omega), Nat.add_sub_cancel_left, ← hbyte,
      List.getElem?_eq_getElem hk]
    rfl
  · intro a ha
    change put s.memory base bytes a = s.memory a
    rw [put_get, if_neg ?_]
    rintro ⟨hlow, hhigh⟩
    apply ha
    rw [span_fst, addresses]
    apply List.mem_map.mpr
    exact ⟨a - base, List.mem_range.mpr (by omega), by omega⟩

theorem played_fetched (whole : Whole s.file) (played : Played reader s h s') :
    Fetched s s' (moved h) := by
  induction played with
  | nil s => exact Fetched.none rfl rfl
  | cons call _ ih =>
    have first := fetched_call whole call
    have hwhole := whole
    rw [← first.file] at hwhole
    exact first.trans (ih hwhole)

end Histories

section Serving

variable {s : Machine} {h : List Transfer} {base n : ℕ} {off : ℤ}

/-- Calls of `incore_read` can be made in any order, and leave the file as it is. -/
theorem replay_reads (whole : Whole s.file) (h : List Transfer) :
    ∃ s', reader.replay h s = .ok ((), s') ∧ s'.file = s.file := by
  induction h generalizing s with
  | nil => exact ⟨s, rfl, rfl⟩
  | cons t l ih =>
    rcases incoreRead_run whole t.size t.off with ⟨r, bytes, hcall, -, -⟩
    have hfile := onFile_ok.mpr ⟨s.file, hcall, rfl⟩
    have hmove : reader.move t.base t.size t.off s =
        .ok (r, { s with memory := put s.memory t.base bytes }) := bind_run hfile
    rcases @ih { s with memory := put s.memory t.base bytes } whole with ⟨s', hreplay, hsame⟩
    refine ⟨s', ?_, hsame⟩
    apply bind_ok.mpr
    exact ⟨r, _, hmove, hreplay⟩

/-- `incore_read` gives all the bytes that the file has. -/
theorem reader_serves (whole : Whole s.file) (hoff : wrap64 off = off)
    (hin : ∀ o ∈ offsets off n, 0 ≤ o ∧ o < s.file.data.length) :
    Serves (reader.callback s) off n := by
  intro h base i m hpos him
  rcases replay_reads whole h with ⟨s', hreplay, hsame⟩
  have hstart : (if i = 0 then off else wrap64 (off + (i : ℕ))) = wrap64 (off + (i : ℕ)) := by
    by_cases hi : i = 0
    · rw [if_pos hi, hi]
      change off = wrap64 (off + 0)
      rw [Int.add_zero, hoff]
    · rw [if_neg hi]
  have hfits := whole.fits
  have hmax := ssize_eq
  have hall : ∀ k < m, 0 ≤ wrap64 (off + (i : ℕ)) + (k : ℤ) ∧
      wrap64 (off + (i : ℕ)) + (k : ℤ) < s.file.data.length := by
    intro k
    induction k with
    | zero =>
      intro _
      have hmem : wrap64 (off + (i : ℕ)) ∈ offsets off n :=
        List.mem_map.mpr ⟨i, List.mem_range.mpr (by omega), rfl⟩
      have hplace := hin _ hmem
      change 0 ≤ wrap64 (off + (i : ℕ)) + 0 ∧ wrap64 (off + (i : ℕ)) + 0 < _
      rw [Int.add_zero]
      exact hplace
    | succ k ih =>
      intro hk
      have hbefore := ih (by omega)
      have hmem : wrap64 (off + ((i + (k + 1) : ℕ) : ℤ)) ∈ offsets off n :=
        List.mem_map.mpr ⟨i + (k + 1), List.mem_range.mpr (by omega), rfl⟩
      have hplace := hin _ hmem
      have hnext : wrap64 (off + ((i + (k + 1) : ℕ) : ℤ)) =
          wrap64 (off + (i : ℕ)) + ((k + 1 : ℕ) : ℤ) := by
        rw [Int.natCast_add, ← Int.add_assoc, ← wrap64_add]
        generalize wrap64 (off + (i : ℕ)) = o at hbefore
        apply wrap64_of_mem
        · omega
        · omega
      rw [hnext] at hplace
      exact hplace
  have hwhole' : Whole s'.file := by
    rw [hsame]
    exact whole
  have hfirst := hall 0 hpos
  have hlast := hall (m - 1) (by omega)
  rcases incoreRead_run hwhole' m (wrap64 (off + (i : ℕ))) with ⟨r, bytes, hcall, -, hfull⟩
  have hr : r = m := by
    apply hfull hpos
    · omega
    · rw [hsame]
      omega
  rw [hstart]
  have hfile := onFile_ok.mpr ⟨s'.file, hcall, rfl⟩
  have hmove : reader.move base m (wrap64 (off + (i : ℕ))) s' =
      .ok (r, { s' with memory := put s'.memory base bytes }) := bind_run hfile
  rw [← hr]
  exact answer_move hreplay hmove

end Serving

section Transfers

variable {xtv : List Xtvec} {iov dest : List Iovec} {heaps : ℕ → Heap} {s s' : Machine} {count : ℕ}

theorem wrap64_bounds (x : ℤ) : -2 ^ 63 ≤ wrap64 x ∧ wrap64 x < 2 ^ 63 := by
  unfold wrap64 Int.bmod
  simp only
  split <;> omega

/-- Extents that are disjoint have no more bytes than there are offsets. -/
theorem extentBytes_le (disjoint : (extentOffsets xtv).Nodup) : extentBytes xtv ≤ 2 ^ 64 := by
  have hsub : (extentOffsets xtv).toFinset ⊆ Finset.Ico (-2 ^ 63 : ℤ) (2 ^ 63) := by
    intro o ho
    rcases List.mem_flatMap.mp (List.mem_toFinset.mp ho) with ⟨x, -, hx⟩
    rcases List.mem_map.mp hx with ⟨k, -, rfl⟩
    exact Finset.mem_Ico.mpr (wrap64_bounds _)
  have hcard := Finset.card_le_card hsub
  rw [List.toFinset_card_of_nodup disjoint, Int.card_Ico, length_extentOffsets] at hcard
  exact hcard

theorem wrap64_dvd {x y : ℤ} (h : wrap64 x = wrap64 y) : (2 ^ 64 : ℤ) ∣ y - x := by
  have hx := @Int.bmod_emod x (2 ^ 64)
  have hy := @Int.bmod_emod y (2 ^ 64)
  unfold wrap64 at h
  rw [h] at hx
  apply Int.ModEq.dvd
  exact hx.symm.trans hy

theorem nodup_offsets {off : ℤ} {n : ℕ} (hn : n ≤ 2 ^ 64) : (offsets off n).Nodup := by
  apply List.Nodup.map_on _ List.nodup_range
  intro i hi j hj hij
  have hi := List.mem_range.mp hi
  have hj := List.mem_range.mp hj
  have hdvd := wrap64_dvd hij
  omega

theorem take_zip_fst {as : List ℕ} {os : List ℤ} {k : ℕ} (ha : k ≤ as.length) (ho : k ≤ os.length) :
    ((as.zip os).take k).map Prod.fst = as.take k := by
  have htake : (as.zip os).take k = (as.take k).zip (os.take k) := List.take_zipWith
  rw [htake, List.map_fst_zip]
  rw [List.length_take, List.length_take]
  omega

theorem take_zip_snd {as : List ℕ} {os : List ℤ} {k : ℕ} (ha : k ≤ as.length) (ho : k ≤ os.length) :
    ((as.zip os).take k).map Prod.snd = os.take k := by
  have htake : (as.zip os).take k = (as.take k).zip (os.take k) := List.take_zipWith
  rw [htake, List.map_snd_zip]
  rw [List.length_take, List.length_take]
  omega

/-- The first bytes of the buffers are at the first offsets of the extents, and nothing else of the
file has changed. -/
structure Scattered (s s' : Machine) (xtv : List Xtvec) (iov : List Iovec) (count : ℕ) : Prop where
  total : count ≤ extentBytes xtv ∧ count ≤ bufferBytes iov
  places : ∀ o ∈ (extentOffsets xtv).take count, 0 ≤ o
  stored : ((extentOffsets xtv).take count).map (fun o => s'.file.data[o.toNat]?) =
    ((bufferAddresses iov).take count).map fun a => some (s.memory a)
  kept : ∀ o : ℕ, (o : ℤ) ∉ (extentOffsets xtv).take count → s'.file.data[o]? = s.file.data[o]?
  size : s'.file.stSize = sizeAfter s.file.stSize ((extentOffsets xtv).take count)
  whole : Whole s'.file

theorem write_scatters (whole : Whole s.file) (disjoint : (extentOffsets xtv).Nodup)
    (write : sysioIncoreFilopWrite heaps xtv iov s = .ok (⟨count, 0⟩, s')) :
    Scattered s s' xtv iov count ∧ count ≤ SSIZE_MAX := by
  rcases doio_ok.mp (doio_count.mp write) with ⟨h, hrun, played⟩
  rcases sysioDoio_delivers (extentBytes_le disjoint) hrun with ⟨hle, hmoved, hmost⟩
  rw [length_stream] at hle
  rw [Int.toNat_natCast] at hmoved
  have wrote := played_wrote whole played
  have hbuffers : count ≤ (bufferAddresses iov).length := by
    rw [length_bufferAddresses]
    omega
  have hextents : count ≤ (extentOffsets xtv).length := by
    rw [length_extentOffsets]
    omega
  have hfst : (moved h).map Prod.fst = (bufferAddresses iov).take count := by
    rw [hmoved]
    exact take_zip_fst hbuffers hextents
  have hsnd : (moved h).map Prod.snd = (extentOffsets xtv).take count := by
    rw [hmoved]
    exact take_zip_snd hbuffers hextents
  have hnodup : ((moved h).map Prod.snd).Nodup := by
    rw [hsnd]
    exact (List.take_sublist _ _).nodup disjoint
  refine ⟨⟨⟨by omega, by omega⟩, ?_, ?_, ?_, ?_, wrote.whole⟩, by omega⟩
  · intro o ho
    rw [← hsnd] at ho
    rcases List.mem_map.mp ho with ⟨p, hp, rfl⟩
    exact wrote.places p hp
  · rw [← hsnd, ← hfst, List.map_map, List.map_map]
    exact List.map_congr_left fun p hp => wrote.stored hnodup p hp
  · intro o ho
    rw [← hsnd] at ho
    exact wrote.kept o ho
  · rw [wrote.whole.size, whole.size, wrote.size, hsnd]

/-- The bytes that a transfer of the whole of some buffers puts into them. -/
theorem read_gathers (whole : Whole s.file)
    (disjoint : (extentOffsets xtv).Nodup) (apart : (bufferAddresses dest).Nodup)
    (read : sysioIncoreFilopRead xtv dest s = .ok (⟨bufferBytes dest, 0⟩, s')) :
    (bufferAddresses dest).map (fun a => some (s'.memory a)) =
      ((extentOffsets xtv).take (bufferBytes dest)).map fun o => s.file.data[o.toNat]? := by
  rcases doio_ok.mp (doio_count.mp read) with ⟨h, hrun, played⟩
  rcases sysioDoio_delivers (extentBytes_le disjoint) hrun with ⟨hle, hmoved, -⟩
  rw [length_stream] at hle
  rw [Int.toNat_natCast] at hmoved
  have fetched := played_fetched whole played
  have hbuffers : bufferBytes dest ≤ (bufferAddresses dest).length := by
    rw [length_bufferAddresses]
  have hextents : bufferBytes dest ≤ (extentOffsets xtv).length := by
    rw [length_extentOffsets]
    omega
  have hfst : (moved h).map Prod.fst = bufferAddresses dest := by
    rw [hmoved]
    have hall : (bufferAddresses dest).take (bufferBytes dest) = bufferAddresses dest :=
      List.take_of_length_le (by rw [length_bufferAddresses])
    exact (take_zip_fst hbuffers hextents).trans hall
  have hsnd : (moved h).map Prod.snd = (extentOffsets xtv).take (bufferBytes dest) := by
    rw [hmoved]
    exact take_zip_snd hbuffers hextents
  have hnodup : ((moved h).map Prod.fst).Nodup := by
    rw [hfst]
    exact apart
  rw [← hsnd, ← hfst, List.map_map, List.map_map]
  exact List.map_congr_left fun p hp => (fetched.got hnodup p hp).symm

/-- What is stored at the first offsets comes back into other buffers exactly when these pass. -/
theorem Scattered.read_iff (scattered : Scattered s s' xtv iov (bufferBytes dest))
    (typed : ∀ x ∈ xtv, wrap64 x.off = x.off) (disjoint : (extentOffsets xtv).Nodup)
    (hmost : bufferBytes dest ≤ SSIZE_MAX) (memory : ℕ → UInt8) (full : ∀ v ∈ dest, v.len ≠ 0)
    (apart : (bufferAddresses dest).Nodup) :
    (∃ s₂, sysioIncoreFilopRead xtv dest { s' with memory := memory } =
          .ok (⟨bufferBytes dest, 0⟩, s₂) ∧
        (bufferAddresses dest).map s₂.memory =
          ((bufferAddresses iov).take (bufferBytes dest)).map s.memory) ↔
      passes 0 (sizes xtv) dest = true := by
  have hwhole : Whole ({ s' with memory := memory } : Machine).file := scattered.whole
  have hreach : ∀ o ∈ (extentOffsets xtv).take (bufferBytes dest),
      0 ≤ o ∧ o < s'.file.data.length := by
    intro o ho
    refine ⟨scattered.places o ho, ?_⟩
    have hbyte : s'.file.data[o.toNat]? ∈
        ((extentOffsets xtv).take (bufferBytes dest)).map fun o => s'.file.data[o.toNat]? :=
      List.mem_map_of_mem ho
    rw [scattered.stored] at hbyte
    rcases List.mem_map.mp hbyte with ⟨a, -, hsome⟩
    rcases List.getElem?_eq_some_iff.mp hsome.symm with ⟨hlt, -⟩
    have hnonneg := scattered.places o ho
    omega
  have hall := sysioDoio_all (fun off n => reader_serves hwhole) typed (extentBytes_le disjoint) full
    hmost hreach
  rw [← hall]
  constructor
  · rintro ⟨s₂, hread, -⟩
    rcases doio_ok.mp (doio_count.mp hread) with ⟨h, hrun, -⟩
    exact ⟨h, hrun⟩
  · rintro ⟨h, hrun⟩
    rcases replay_reads hwhole h with ⟨s₂, hreplay, -⟩
    have hread : sysioIncoreFilopRead xtv dest { s' with memory := memory } =
        .ok (⟨bufferBytes dest, 0⟩, s₂) := doio_count.mpr (doio_run hrun hreplay)
    refine ⟨s₂, hread, ?_⟩
    have hbytes := (read_gathers hwhole disjoint apart hread).trans scattered.stored
    apply List.map_injective_iff.mpr (Option.some_injective UInt8)
    rw [List.map_map, List.map_map]
    exact hbytes

/-- What is written through a vector of disjoint extents is stored, and nothing else; and reading
it back through the same extents into other buffers, none of them empty, gives it exactly when these
buffers pass: none that goes on behind its run comes to a run with more than `SSIZE_MAX` bytes left,
and no number of buffers that fit a run together is cut down by an int. -/
theorem incore_scatter_gather (whole : Whole s.file) (typed : ∀ x ∈ xtv, wrap64 x.off = x.off)
    (disjoint : (extentOffsets xtv).Nodup)
    (write : sysioIncoreFilopWrite heaps xtv iov s = .ok (⟨count, 0⟩, s')) :
    Scattered s s' xtv iov count ∧
    ∀ (memory : ℕ → UInt8) (dest : List Iovec), (∀ v ∈ dest, v.len ≠ 0) →
      bufferBytes dest = count → (bufferAddresses dest).Nodup →
      ((∃ s₂, sysioIncoreFilopRead xtv dest { s' with memory := memory } = .ok (⟨count, 0⟩, s₂) ∧
          (bufferAddresses dest).map s₂.memory = ((bufferAddresses iov).take count).map s.memory) ↔
        passes 0 (sizes xtv) dest = true) := by
  rcases write_scatters whole disjoint write with ⟨scattered, hmost⟩
  refine ⟨scattered, ?_⟩
  rintro memory dest full rfl apart
  exact scattered.read_iff typed disjoint hmost memory full apart

end Transfers

section Examples

/-- A file of three bytes, and memory that holds another byte at every address. -/
def threeBytes : Machine := ⟨⟨[0, 0, 0], 3, 1⟩, fun a => UInt8.ofNat (a + 5), 0⟩

def plentiful : ℕ → Heap := fun _ => ⟨true, fun _ => 255⟩

theorem threeBytes_whole : Whole threeBytes.file := ⟨rfl, by decide⟩

/-- Three bytes and two, the latter at the end of the file first. -/
def twoExtents : List Xtvec := [⟨3, 2, by decide⟩, ⟨0, 3, by decide⟩]

theorem twoExtents_written : (sysioIncoreFilopWrite plentiful twoExtents
    [⟨0, 3, by decide⟩, ⟨9, 1, by decide⟩]).value threeBytes = some ⟨4, 0⟩ := by
  decide +kernel

/-- Four bytes from two buffers over both extents, read back into three buffers. -/
theorem twoExtents_read : ∃ s', sysioIncoreFilopWrite plentiful twoExtents
      [⟨0, 3, by decide⟩, ⟨9, 1, by decide⟩] threeBytes = .ok (⟨4, 0⟩, s') ∧
    Scattered threeBytes s' twoExtents [⟨0, 3, by decide⟩, ⟨9, 1, by decide⟩] 4 ∧
    ∃ s₂, sysioIncoreFilopRead twoExtents
        [⟨20, 1, by decide⟩, ⟨40, 2, by decide⟩, ⟨30, 1, by decide⟩]
        { s' with memory := fun _ => 0 } = .ok (⟨4, 0⟩, s₂) ∧
      (bufferAddresses [⟨20, 1, by decide⟩, ⟨40, 2, by decide⟩, ⟨30, 1, by decide⟩]).map s₂.memory =
        ((bufferAddresses [⟨0, 3, by decide⟩, ⟨9, 1, by decide⟩]).take 4).map threeBytes.memory := by
  have write := ok_of_value twoExtents_written
  generalize (sysioIncoreFilopWrite plentiful twoExtents
    [⟨0, 3, by decide⟩, ⟨9, 1, by decide⟩]).final threeBytes = s' at write
  have back := @incore_scatter_gather twoExtents [⟨0, 3, by decide⟩, ⟨9, 1, by decide⟩] plentiful
    threeBytes s' 4 threeBytes_whole (by decide) (by decide) write
  have read := (back.2 (fun _ => 0) [⟨20, 1, by decide⟩, ⟨40, 2, by decide⟩, ⟨30, 1, by decide⟩]
    (by decide) (by decide) (by decide)).mpr (by decide)
  exact ⟨s', write, back.1, read⟩

/-- One byte, and behind a gap more of them than a transfer can have. -/
def vastExtents : List Xtvec := [⟨0, 1, by decide⟩, ⟨2, 2 ^ 63, by decide⟩]

theorem vastExtents_disjoint : (extentOffsets vastExtents).Nodup := by
  apply List.nodup_append.mpr
  refine ⟨nodup_offsets (by decide), ?_, ?_⟩
  · apply List.nodup_append.mpr
    refine ⟨nodup_offsets (by decide), List.nodup_nil, ?_⟩
    intro a _ b hb
    cases hb
  · intro a ha b hb hab
    rcases List.mem_map.mp ha with ⟨i, hi, rfl⟩
    rcases List.mem_append.mp hb with hb | hb
    · rcases List.mem_map.mp hb with ⟨j, hj, rfl⟩
      have hi := List.mem_range.mp hi
      have hj := List.mem_range.mp hj
      have hdvd := wrap64_dvd hab
      change i < 1 at hi
      change j < 2 ^ 63 at hj
      change (2 ^ 64 : ℤ) ∣ (2 + (j : ℤ)) - (0 + (i : ℤ)) at hdvd
      omega
    · cases hb

theorem vastExtents_written : (sysioIncoreFilopWrite plentiful vastExtents
    [⟨0, 1, by decide⟩, ⟨1, 1, by decide⟩]).value threeBytes = some ⟨2, 0⟩ := by
  decide +kernel

/-- Two bytes written from two buffers cannot be read back into one. -/
theorem vastExtents_unread : ¬ ∀ (s s' : Machine) (heaps : ℕ → Heap) (xtv : List Xtvec)
    (iov dest : List Iovec) (limit r : ℤ) (count : ℕ) (memory : ℕ → UInt8), Whole s.file →
    (∀ x ∈ xtv, wrap64 x.off = x.off) → (extentOffsets xtv).Nodup →
    sysioValidx xtv iov limit = .ok r → 0 ≤ r →
    sysioIncoreFilopWrite heaps xtv iov s = .ok (⟨count, 0⟩, s') →
    (∀ v ∈ dest, v.len ≠ 0) → bufferBytes dest = count → (bufferAddresses dest).Nodup →
    ∃ s₂, sysioIncoreFilopRead xtv dest { s' with memory := memory } = .ok (⟨count, 0⟩, s₂) ∧
      (bufferAddresses dest).map s₂.memory = ((bufferAddresses iov).take count).map s.memory := by
  intro claim
  have write := ok_of_value vastExtents_written
  generalize (sysioIncoreFilopWrite plentiful vastExtents
    [⟨0, 1, by decide⟩, ⟨1, 1, by decide⟩]).final threeBytes = s' at write
  rcases write_scatters threeBytes_whole vastExtents_disjoint write with ⟨scattered, hmost⟩
  have accepted : sysioValidx vastExtents [⟨0, 1, by decide⟩, ⟨1, 1, by decide⟩] (2 ^ 63 - 1) =
      .ok 2 := by decide +kernel
  have read := claim threeBytes s' plentiful vastExtents [⟨0, 1, by decide⟩, ⟨1, 1, by decide⟩]
    [⟨0, 2, by decide⟩] (2 ^ 63 - 1) 2 2 s'.memory threeBytes_whole (by decide)
    vastExtents_disjoint accepted (by decide) write (by decide) (by decide) (by decide)
  have blocked : passes 0 (sizes vastExtents) [⟨0, 2, by decide⟩] = false := by decide +kernel
  have passed := (@Scattered.read_iff vastExtents [⟨0, 1, by decide⟩, ⟨1, 1, by decide⟩]
    [⟨0, 2, by decide⟩] threeBytes s' scattered (by decide) vastExtents_disjoint hmost s'.memory
    (by decide) (by decide)).mp read
  rw [blocked] at passed
  cases passed

end Examples

end IncoreFiles
