import DirectFuse.FuseDirectory

/-! The data of an incore directory (drivers/incore/fs_incore.c) byte by byte. Its records look
like those of a fuse directory, but every walk goes from a record to the offset stored in it, which
may leave a gap behind the record. -/
namespace IncoreDirectory

open ExecLogic ByteRange SysioState SysioNamei FuseDirectory
open FuseDriver (fuseDReclen)

/-- `INCORE_D_RECLEN`. -/
def incoreDReclen (namelen : ℕ) : ℕ := fuseDReclen namelen

/-- `incore_dir_template` as `_sysio_incore_init` fills it in. -/
def incoreDirTemplate : Bytes := fuseDirTemplate

/-- `S_ISDIR`. -/
def sIsDir (mode : ℕ) : Bool := mode &&& S_IFMT == S_IFDIR

/-- `incore_trunc`. -/
def incoreTrunc (h : Heap) (size : ℕ) (clear : Bool) : Fd ℤ :=
  if 2 ^ 63 ≤ size then return -EINVAL
  else fuseTrunc h size clear

/-- `incore_directory_new` for a directory that has a parent. The result tells whether there was
memory. -/
def incoreDirectoryNew (h : Heap) (ino parent : ℕ) : Fd Bool := do
  let err ← incoreTrunc h incoreDirTemplate.length true
  if err ≠ 0 then
    return false
  else
    storeBytes 0 incoreDirTemplate
    storeBytes 0 (le 8 ino)
    let off ← load 8 8
    storeBytes off (le 8 parent)
    return true

/-- A difference as a `size_t`. -/
def sizeT (a b : ℕ) : ℕ := (((a : ℤ) - b) % 2 ^ 64).toNat

/-- `probe_ty`: what a callback returns for a record and its length, with what it makes of its
argument. -/
abbrev ProbeTy (σ : Type) := ℕ → ℕ → σ → Fd (Option ℕ × σ)

/-- `incore_directory_probe` from the record `de` on; a callback that is null returns nothing. -/
def incoreDirectoryProbe {σ : Type} (data siz origin : ℕ) (entry hole : ProbeTy σ) :
    ℕ → ℕ → σ → Fd (Option ℕ × σ)
  | 0, _, _ => Exec.fault .diverge
  | fuel + 1, de, arg => do
    let off ← load (de + 8) 8
    Exec.check .assertion fun _ => decide (off ≠ 0)
    let reclen ← load (de + 16) 2
    let seen ← entry de reclen arg
    if seen.1.isSome then
      return seen
    else
      let n := sizeT off origin
      let passed ← hole de reclen seen.2
      if passed.1.isSome then
        return passed
      else if siz ≤ n then
        return (none, passed.2)
      else
        incoreDirectoryProbe data siz origin entry hole fuel (data + n) passed.2

def noCallback {σ : Type} : ProbeTy σ := fun _ _ arg => return (none, arg)

/-- `struct lookup_data`; `minsiz` is never read. -/
structure LookupData where
  name : Bytes
  de : Option ℕ
  hole : Option ℕ × ℕ
  deriving DecidableEq, Repr

/-- `INCORE_LD_INIT`. -/
def incoreLdInit (name : Bytes) : LookupData := ⟨name, none, (none, 0)⟩

/-- `incore_directory_match`. -/
def incoreDirectoryMatch : ProbeTy LookupData := fun de reclen ld => do
  let same ← fuseDirectoryMatch de reclen ld.name
  if same then
    return (some de, ld)
  else
    return (none, { ld with de := some de })

/-- `incore_directory_best_fit`. -/
def incoreDirectoryBestFit : ProbeTy LookupData := fun data len ld =>
  if ld.hole.2 = 0 ∨ len < ld.hole.2 then
    return (none, { ld with hole := (some data, len) })
  else
    return (none, ld)

/-- A probe for a name from the first record on. It looks at less than `st_size` offsets, so that
one which goes on for longer never ends. -/
def nameProbe (hole : ProbeTy LookupData) (name : Bytes) : Fd (Option ℕ × LookupData) := do
  let size ← Exec.read fun d => d.stSize
  incoreDirectoryProbe 0 size 0 incoreDirectoryMatch hole (size + 1) 0 (incoreLdInit name)

/-- The probe of `_sysio_incore_dirop_lookup`, with the inode number in the record it finds, which
is what the lookup goes on with, and the type there. -/
def entryNamed (name : Bytes) : Fd (Option (ℕ × ℕ)) := do
  let seen ← nameProbe noCallback name
  match seen.1 with
  | none => return none
  | some de => do
    let ino ← load de 8
    let type ← load (de + 18) 1
    return some (ino, type)

/-- The fields of a new record, in the order they are set. -/
def insertNew (de inum off reclen : ℕ) (type : UInt8) (name : Bytes) : Fd Unit := do
  storeBytes de (le 8 inum)
  storeBytes (de + 8) (le 8 off)
  storeBytes (de + 16) (le 2 reclen)
  storeBytes (de + 18) [type]
  storeBytes (de + 19) name

/-- `incore_directory_insert`. The link count does not wrap. -/
def incoreDirectoryInsert (h : Heap) (name : Bytes) (inum : ℕ) (type : UInt8) : Fd ℤ := do
  let reclen := incoreDReclen name.length
  let seen ← nameProbe incoreDirectoryBestFit name
  if seen.1.isSome then
    return -EEXIST
  else
    let xt ← Exec.deref .wild fun _ => seen.2.de
    let n ← load (xt + 8) 8
    let r ← load (xt + 16) 2
    let size ← Exec.read fun d => d.stSize
    let grows := decide (size = 0 ∨ size < xt + r + reclen)
    let err ← (if grows then incoreTrunc h (xt + r + reclen) true else pure 0)
    if err ≠ 0 then
      return err
    else
      let n ← Exec.read fun d => if grows then d.stSize else n
      storeBytes (xt + 8) (le 8 (xt + r))
      insertNew (xt + r) inum n reclen type name
      Exec.write fun d => { d with nlink := d.nlink + 1 }
      return 0

/-- `incore_unlink_entry` in an inode of a mode. -/
def incoreUnlinkEntry (mode : ℕ) (name : Bytes) : Fd ℤ :=
  if sIsDir mode = false then return -ENOTDIR
  else do
    let seen ← nameProbe noCallback name
    match seen.1 with
    | none => return -ENOENT
    | some de => do
      Exec.check .assertion fun _ => decide (incoreDirTemplate.length ≤ de)
      let off ← load (de + 8) 8
      storeBytes de (List.replicate (sizeT off de) 0)
      let last ← Exec.deref .wild fun _ => seen.2.de
      storeBytes (last + 8) (le 8 off)
      Exec.check .assertion fun d => decide (2 < d.nlink)
      Exec.write fun d => { d with nlink := d.nlink - 1 }
      return 0

/-- `incore_directory_position`. -/
def incoreDirectoryPosition (p : ℕ) : ProbeTy Unit := fun de _ _ =>
  return (if p ≤ de then some de else none, ())

/-- `struct copy_info`, with the bytes that were copied. -/
structure CopyInfo where
  data : Bytes
  nbytes : ℕ
  count : ℕ
  deriving DecidableEq, Repr

def DT_WHT : ℕ := 14

/-- `incore_directory_enumerate`. -/
def incoreDirectoryEnumerate : ProbeTy CopyInfo := fun de reclen cinfo => do
  let type ← load (de + 18) 1
  if type = DT_WHT then
    return (none, cinfo)
  else
    let cinfo := { cinfo with count := (cinfo.count + 1) % 2 ^ 32 }
    if cinfo.nbytes < reclen then
      return (some de, cinfo)
    else
      let bytes ← loadBytes de reclen
      return (none, { cinfo with data := cinfo.data ++ bytes, nbytes := cinfo.nbytes - reclen })

/-- `_sysio_incore_dirop_filldirentries`: the value returned, the new position and the bytes in
the buffer. Each of the two probes has `fuel` steps. -/
def sysioIncoreDiropFilldirentries (fuel posp nbytes : ℕ) : Fd (ℤ × ℕ × Bytes) := do
  let size ← Exec.read fun d => d.stSize
  if size ≤ posp then
    return (0, posp, [])
  else
    let found ← incoreDirectoryProbe 0 size posp (incoreDirectoryPosition posp) noCallback fuel 0 ()
    match found.1 with
    | none => return (0, posp, [])
    | some off => do
      let copied ← incoreDirectoryProbe off (size - off) off incoreDirectoryEnumerate noCallback
        fuel off ⟨[], nbytes, 0⟩
      let info := copied.2
      if nbytes = info.nbytes ∧ info.count ≠ 0 then
        return (-EINVAL, posp, info.data)
      else
        let n := nbytes - info.nbytes
        return (n, posp + n, info.data)

end IncoreDirectory
