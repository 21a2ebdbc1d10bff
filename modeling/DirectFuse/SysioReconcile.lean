import DirectFuse.SysioState

/-! Strided I/O vectors (reconcile.c). Sizes and offsets have 64 bits, and offsets wrap as the code
expects of its compiler. A driver's callback sees the history of its own calls, so it may answer
differently each time. -/
namespace SysioReconcile

open ExecLogic SysioState

def EFBIG : ℤ := 27
def EOVERFLOW : ℤ := 75

def SSIZE_MAX : ℕ := 2 ^ 63 - 1

/-- Conversion to a signed type of 64 bits. -/
def wrap64 (x : ℤ) : ℤ := x.bmod (2 ^ 64)

/-- Conversion to an int, and to a size. -/
def toInt (x : ℤ) : ℤ := x.bmod (2 ^ 32)

def toSize (x : ℤ) : ℕ := (x % ((2 ^ 64 : ℕ) : ℤ)).toNat

/-- `struct iovec`. -/
structure Iovec where
  base : ℕ
  len : ℕ
  size : len < 2 ^ 64 := by decide
  deriving DecidableEq, Repr

/-- `struct intnl_xtvec`. -/
structure Xtvec where
  off : ℤ
  len : ℕ
  size : len < 2 ^ 64 := by decide
  deriving DecidableEq, Repr

/-- At most the first `n` bytes of a buffer. -/
def Iovec.clip (v : Iovec) (n : ℕ) : Iovec :=
  ⟨v.base, min v.len n, Nat.lt_of_le_of_lt (Nat.min_le_left ..) v.size⟩

/-- What is behind the first `n` bytes of a buffer. -/
def Iovec.advance (v : Iovec) (n : ℕ) : Iovec :=
  ⟨v.base + n, v.len - n, Nat.lt_of_le_of_lt (Nat.sub_le ..) v.size⟩

/-- A call of a driver's callback for `size` bytes, with its answer. -/
structure Transfer where
  base : ℕ
  size : ℕ
  off : ℤ
  count : ℤ
  deriving DecidableEq, Repr

/-- A callback: an error, 0, or how many of the bytes asked for were moved. -/
structure Callback where
  answer : List Transfer → ℕ → ℕ → ℤ → ℤ
  le : ∀ h base n off, answer h base n off ≤ n

abbrev Io (α : Type) := Exec (List Transfer) Fault α

def Callback.call (d : Callback) (base n : ℕ) (off : ℤ) : Io ℤ := do
  let h ← Exec.read id
  Exec.write fun h => h ++ [⟨base, n, off, d.answer h base n off⟩]
  return d.answer h base n off

/-- The next entry of a vector that is not empty, with those behind it. -/
def nextIov : List Iovec → Option (Iovec × List Iovec)
  | [] => none
  | v :: l => if v.len = 0 then nextIov l else some (v, l)

def nextXtv : List Xtvec → Option (Xtvec × List Xtvec)
  | [] => none
  | x :: l => if x.len = 0 then nextXtv l else some (x, l)

/-- The checks of `_sysio_validx` on a fragment of `cc` bytes at `off`: the new offset and sum, or
the error returned. -/
def checkFragment (limit off cc acc : ℤ) : Except ℤ (ℤ × ℤ) :=
  let next := wrap64 (off + cc)
  if off ≠ 0 ∧ next ≤ off then
    .error (if next < 0 then -EINVAL else -EOVERFLOW)
  else if limit < next then
    .error (-EFBIG)
  else
    let sum := wrap64 (cc + acc)
    if acc ≠ 0 ∧ sum ≤ acc then .error (-EINVAL) else .ok (next, sum)

/-- The loops of `_sysio_validx`, with `len` bytes at `off` left of the current extent and `room` of
the current buffer. Where only empty buffers are left, the count of them has run through zero and
the loops read on behind the vector. -/
def validxLoop (limit : ℤ) :
    ℕ → ℤ → ℕ → List Xtvec → ℕ → List Iovec → ℤ → Except Fault ℤ
  | 0, _, _, _, _, _, _ => .error .diverge
  | fuel + 1, off, len, xtv, room, iov, acc =>
    if len = 0 then
      match nextXtv xtv with
      | none => .ok acc
      | some (x, xtv) =>
        if x.off < 0 then .ok (-EINVAL) else validxLoop limit fuel x.off x.len xtv room iov acc
    else if room = 0 then
      match nextIov iov with
      | none => .error .wild
      | some (v, iov) => validxLoop limit fuel off len xtv v.len iov acc
    else if wrap64 room < 0 then
      .ok (-EINVAL)
    else
      let cc := min room len
      match checkFragment limit off cc acc with
      | .error err => .ok err
      | .ok (next, sum) =>
        if iov = [] then .ok sum
        else validxLoop limit fuel next (len - cc) xtv (room - cc) iov sum

/-- `_sysio_validx`. -/
def sysioValidx (xtv : List Xtvec) (iov : List Iovec) (limit : ℤ) : Except Fault ℤ :=
  if xtv = [] ∨ iov = [] then .ok (-EINVAL)
  else validxLoop limit (2 * (xtv.length + iov.length) + 1) 0 0 xtv 0 iov 0

/-- The loop that coalesces the extents behind one that ends at `stop`: the length of all of them and
the extents left. -/
def coalesce : ℤ → ℕ → List Xtvec → ℕ × List Xtvec
  | _, len, [] => (len, [])
  | stop, len, x :: l =>
    if stop ≠ x.off then (len, x :: l)
    else if x.len = 0 then coalesce stop len l
    else coalesce (wrap64 (stop + x.len)) ((len + x.len) % 2 ^ 64) l

/-- The loop that gathers the buffers that fit into `n` bytes: how many, the bytes left and the
buffers left. -/
def gather : List Iovec → ℕ → ℕ × ℕ × List Iovec
  | [], n => (0, n, [])
  | v :: l, n =>
    if n < v.len then (0, n, v :: l)
    else ((gather l (n - v.len)).1 + 1, (gather l (n - v.len)).2)

/-- The callback of `_sysio_enumerate_extents`: buffers from a point of a vector on, how many of
them, the file offset and the number of bytes. -/
abbrev Enumerator := List Iovec → ℤ → ℤ → ℤ → Io ℤ

/-- The loops of `_sysio_enumerate_extents`, with `len` bytes at `off` left of the current extent and
`carried` of the current buffer. -/
def extentsLoop (f : Enumerator) :
    ℕ → ℤ → ℕ → List Xtvec → Iovec → List Iovec → ℤ → Io ℤ
  | 0, _, _, _, _, _, _ => Exec.fault .diverge
  | fuel + 1, off, len, xtv, carried, iov, acc =>
    if len = 0 then
      match xtv with
      | [] => pure acc
      | x :: l =>
        let run := coalesce (wrap64 (x.off + x.len)) x.len l
        extentsLoop f fuel x.off run.1 run.2 carried iov acc
    else if carried.len ≠ 0 then do
      let cc ← f [carried.clip len] 1 off (wrap64 len)
      if cc ≤ 0 then
        return if acc ≠ 0 then acc else cc
      let sum := wrap64 (cc + acc)
      Exec.check .abort fun _ => !(acc != 0 && decide (sum ≤ acc))
      extentsLoop f fuel (wrap64 (off + cc)) (len - cc.toNat) xtv (carried.advance cc.toNat) iov sum
    else
      match iov with
      | [] => pure acc
      | v :: l =>
        let batch := gather (v :: l) len
        if batch.1 = 0 then
          extentsLoop f fuel off len xtv v l acc
        else do
          let remain := len - batch.2.1
          let cc ← f (v :: l) (toInt batch.1) off (wrap64 remain)
          if cc ≤ 0 then
            return if acc ≠ 0 then acc else cc
          let sum := wrap64 (cc + acc)
          Exec.check .abort fun _ => !(acc != 0 && decide (sum ≤ acc))
          if remain - cc.toNat ≠ 0 then
            return sum
          extentsLoop f fuel (wrap64 (off + cc)) (len - cc.toNat) xtv carried batch.2.2 sum

/-- The bytes of an extent vector. -/
def extentBytes (xtv : List Xtvec) : ℕ := (xtv.map Xtvec.len).sum

/-- The bytes of an I/O vector. -/
def bufferBytes (iov : List Iovec) : ℕ := (iov.map Iovec.len).sum

/-- `_sysio_enumerate_extents`. Each round moves a byte, takes a buffer or takes an extent. -/
def sysioEnumerateExtents (xtv : List Xtvec) (iov : List Iovec) (f : Enumerator) : Io ℤ :=
  extentsLoop f (extentBytes xtv + xtv.length + iov.length + 1) 0 0 xtv ⟨0, 0, by decide⟩ iov 0

/-- The first loop of `_sysio_enumerate_iovec`: how many bytes there are to move, or an error. Its
index does not run through zero, no vector having that many entries. -/
def available : List Iovec → ℕ → ℕ → ℤ → Io ℤ
  | [], count, n, acc => if n = 0 ∨ count = 0 then pure acc else Exec.fault .wild
  | v :: l, count, n, acc =>
    if n = 0 ∨ count = 0 then pure acc
    else
      let cc := wrap64 (if v.len < n then v.len else n : ℕ)
      if v.len < n ∧ cc < 0 then pure (-EINVAL)
      else if cc = 0 then available l (count - 1) n acc
      else
        let sum := wrap64 (cc + acc)
        if acc ≠ 0 ∧ sum ≤ acc then pure (-EINVAL)
        else available l (count - 1) (n - cc.toNat) sum

/-- The second loop of `_sysio_enumerate_iovec`. -/
def iovecLoop (d : Callback) : List Iovec → ℕ → ℤ → ℤ → ℤ → Io ℤ
  | _, 0, _, _, acc => pure acc
  | [], _ + 1, _, _, _ => Exec.fault .wild
  | v :: l, count + 1, off, limit, acc =>
    if v.len = 0 then iovecLoop d l count off limit acc
    else do
      let n := if v.len < limit.toNat then v.len else limit.toNat
      let cc ← d.call v.base n off
      if cc ≤ 0 then
        return if acc ≠ 0 then acc else cc
      let sum := wrap64 (cc + acc)
      Exec.check .abort fun _ => !(acc != 0 && decide (sum ≤ acc))
      if v.len - cc.toNat ≠ 0 ∨ limit - cc = 0 then
        return sum
      iovecLoop d l count (wrap64 (off + cc)) (limit - cc) sum

/-- `_sysio_enumerate_iovec`. -/
def sysioEnumerateIovec (d : Callback) (iov : List Iovec) (count : ℕ) (off limit : ℤ) : Io ℤ := do
  if count = 0 then
    return -EINVAL
  Exec.check .assertion fun _ => decide (0 ≤ limit)
  let acc ← available iov count limit.toNat 0
  if acc < 0 then
    return acc
  if acc = 0 then
    return 0
  iovecLoop d iov count off limit 0

/-- `_sysio_doio_helper`, whose count is converted to a size. -/
def sysioDoioHelper (d : Callback) : Enumerator := fun iov count off limit =>
  sysioEnumerateIovec d iov (toSize count) off limit

/-- `_sysio_doio`. -/
def sysioDoio (d : Callback) (xtv : List Xtvec) (iov : List Iovec) : Io ℤ :=
  sysioEnumerateExtents xtv iov (sysioDoioHelper d)

end SysioReconcile
