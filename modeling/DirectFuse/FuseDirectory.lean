import DirectFuse.ByteRange
import DirectFuse.FuseDriver

/-! The data of a fuse directory (drivers/fuse/sysio_fuse.c) byte by byte: records of variable
length one behind the other. A record has its inode number in bytes 0 to 7, the offset of the next
one in bytes 8 to 15, its length in bytes 16 and 17, its type in byte 18 and its name from 19 on. -/
namespace FuseDirectory

open ExecLogic ByteRange SysioState SysioNamei FuseDriver

/-- What a fuse inode has of a directory: `fi_data`, `st_size` and `st_nlink`. -/
structure Directory where
  data : Bytes
  stSize : ℕ
  nlink : ℕ
  deriving DecidableEq, Repr

abbrev Fd (α : Type) := Exec Directory Fault α

/-- `n` bytes of the allocated data; there is nothing behind it to read or to write. -/
def loadBytes (off n : ℕ) : Fd Bytes := do
  Exec.check .wild fun d => decide (off + n ≤ d.data.length)
  Exec.read fun d => fetch d.data off n

def load (off n : ℕ) : Fd ℕ := do
  let bytes ← loadBytes off n
  return unle bytes

def storeBytes (off : ℕ) (bytes : Bytes) : Fd Unit := do
  Exec.check .wild fun d => decide (off + bytes.length ≤ d.data.length)
  Exec.write fun d => { d with data := store 0 d.data off bytes }

/-- A `realloc` that may fail, and must for a size of 2^63. `junk` is what the new bytes hold. -/
structure Heap where
  got : Bool
  junk : ℕ → UInt8

/-- `fuse_trunc`. -/
def fuseTrunc (h : Heap) (size : ℕ) (clear : Bool) : Fd ℤ := do
  if size = 0 then
    Exec.write fun d => { d with data := [], stSize := 0 }
    return 0
  else if !(h.got && decide (size < 2 ^ 63)) then
    return -ENOSPC
  else
    Exec.write fun d => { d with
      data := d.data.take size ++ (List.range (size - d.data.length)).map h.junk }
    let old ← Exec.read fun d => d.stSize
    Exec.when (clear = true ∧ old < size) (storeBytes old (List.replicate (size - old) 0))
    Exec.write fun d => { d with stSize := size }
    return 0

/-- `fuse_dir_template` as `_sysio_fuse_init` fills it in. -/
def fuseDirTemplate : Bytes :=
  let t := List.replicate (fuseDReclen 1 + fuseDReclen 2) 0
  let t := store 0 t 16 (le 2 (fuseDReclen 1))
  let t := store 0 t 8 (le 8 (fuseDReclen 1))
  let t := store 0 t 18 [4]
  let t := store 0 t 19 [DOT]
  let de := fuseDReclen 1
  let t := store 0 t (de + 16) (le 2 (fuseDReclen 2))
  let t := store 0 t (de + 8) (le 8 (fuseDReclen 1 + fuseDReclen 2))
  let t := store 0 t (de + 18) [4]
  store 0 t (de + 19) dotDotName

/-- What `fuse_i_alloc` makes of the attributes of a new directory. -/
def allocated : Directory := ⟨[], 0, 2⟩

/-- `fuse_directory_new`. The result tells whether there was memory. -/
def fuseDirectoryNew (h : Heap) (ino parent : ℕ) : Fd Bool := do
  let err ← fuseTrunc h fuseDirTemplate.length true
  if err ≠ 0 then
    return false
  else
    storeBytes 0 fuseDirTemplate
    storeBytes 0 (le 8 ino)
    let off ← load 8 8
    storeBytes off (le 8 parent)
    return true

/-- The loop of `fuse_directory_match` over the name, with `n` bytes left in the record. -/
def scan : ℕ → ℕ → Fd ℕ
  | 0, _ => return 0
  | n + 1, cp => do
    let c ← load cp 1
    if c = 0 then
      return 0
    else
      let len ← scan n (cp + 1)
      return len + 1

/-- Whether `strncmp` gives 0. A string ends at its NUL or where its bytes end. -/
def strncmp : Bytes → Bytes → ℕ → Bool
  | _, _, 0 => true
  | a :: l, b :: m, n + 1 => a == b && (a == 0 || strncmp l m n)
  | [], [], _ => true
  | a :: _, [], _ => a == 0
  | [], b :: _, _ => b == 0

/-- `fuse_directory_match`. -/
def fuseDirectoryMatch (de reclen : ℕ) (name : Bytes) : Fd Bool := do
  let len ← scan (reclen - 19) (de + 19)
  if name.length = len then
    let dName ← loadBytes (de + 19) len
    return strncmp dName name len
  else
    return false

/-- `fuse_directory_probe` with `fuse_directory_match` for entries: the record of that name, and
the last one looked at, which `ld->de` keeps. The callback for holes only notes lengths that this
variant of the records does not use. -/
def fuseDirectoryProbe (name : Bytes) : ℕ → ℕ → Fd (Option ℕ × ℕ)
  | 0, _ => Exec.fault .diverge
  | fuel + 1, de => do
    let reclen ← load (de + 16) 2
    Exec.check .assertion fun _ => decide (reclen ≠ 0)
    let hit ← fuseDirectoryMatch de reclen name
    if hit then
      return (some de, de)
    else
      let n := de + reclen
      let size ← Exec.read fun d => d.stSize
      if size ≤ n then
        return (none, de)
      else
        fuseDirectoryProbe name fuel n

/-- A probe from the first record on; each record moves it on by at least a byte. -/
def probe (name : Bytes) : Fd (Option ℕ × ℕ) := do
  let size ← Exec.read fun d => d.stSize
  fuseDirectoryProbe name (size + 1) 0

/-- The probe of `fuse_inop_lookup`, with the inode number of the record it finds. -/
def lookupIno (name : Bytes) : Fd (Option ℕ) := do
  let (hit, _) ← probe name
  match hit with
  | none => return none
  | some de => do
    let ino ← load de 8
    return some ino

/-- `fuse_directory_insert`. The new size, which becomes the offset in the new record, is only
set when the data grows. The link count does not wrap. -/
def fuseDirectoryInsert (h : Heap) (name : Bytes) (inum : ℕ) (type : UInt8) : Fd ℤ := do
  let reclen := fuseDReclen name.length
  let (hit, xt) ← probe name
  if hit.isSome then
    return -EEXIST
  else
    let r ← load (xt + 16) 2
    let size ← Exec.read fun d => d.stSize
    let grows := decide (size = 0 ∨ size < xt + r + reclen)
    let err ← (if grows then fuseTrunc h (xt + r + reclen) true else pure 0)
    if err ≠ 0 then
      return err
    else
      let n ← Exec.read fun d => if grows then some d.stSize else none
      storeBytes (xt + 8) (le 8 (xt + r))
      let xt := xt + r
      storeBytes xt (le 8 inum)
      let n ← Exec.deref .wild fun _ => n
      storeBytes (xt + 8) (le 8 n)
      storeBytes (xt + 16) (le 2 reclen)
      storeBytes (xt + 18) [type]
      storeBytes (xt + 19) name
      Exec.write fun d => { d with nlink := d.nlink + 1 }
      return 0

/-- `fuse_unlink_entry`. -/
def fuseUnlinkEntry (name : Bytes) : Fd ℤ := do
  let (hit, _) ← probe name
  match hit with
  | none => return -ENOENT
  | some de => do
    let reclen ← load (de + 16) 2
    storeBytes de (List.replicate reclen 0)
    storeBytes (de + 16) (le 2 reclen)
    Exec.check .assertion fun d => decide (2 < d.nlink)
    Exec.write fun d => { d with nlink := d.nlink - 1 }
    return 0

end FuseDirectory
