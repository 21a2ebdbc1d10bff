import DirectFuse.Numerals
import DirectFuse.SysioInit
import DirectFuse.SysioInterface
import DirectFuse.SysioMount

/-! The commands of the boot script: what `do_creat`, `do_mnt`, `do_chmd` and `do_open` of init.c
make of the values of their options. The library they call is a record of its calls. -/
namespace BootCommands

open ExecLogic SysioState SysioNamei SysioInit Numerals
open SysioFile (O_WRONLY O_RDWR O_CREAT O_EXCL sysioFnew sysioFdSet fRele)
open SysioInterface (SETATTR_MODE sysioOpen sysioMkdir sysioMknod)

def USHRT_MAX : ℕ := 2 ^ 16 - 1
def INT_MAX : ℤ := 2 ^ 31 - 1
def ERANGE : ℤ := 34
def EIO : ℤ := 5
def S_IFBLK : ℕ := 0o060000
def O_RDONLY : ℕ := 0

/-- The library, and the `errno` of the process, which the conversions set and never clear. -/
structure Process (S : Type) where
  errno : ℤ
  lib : S

abbrev Running (S α : Type) := Exec (Process S) Fault α

/-- `struct intent`, with the mode and the flags its arguments point to. -/
structure BootIntent where
  opmask : ℕ
  mode : ℕ
  flags : Option ℕ
  deriving DecidableEq, Repr

/-- The calls that the commands make. `start` is `_sysio_cwd`, or `_sysio_root` where that is
NULL; `ioctx` is an I/O context for the data, entered; `fdSet` forces the descriptor. -/
structure Calls (S : Type) where
  start : Running S (Option Pno)
  namei : (dir : Pno) → (path : Bytes) → (flags : ℕ) → Option BootIntent →
    Running S (ℤ × Option Pno)
  mkdir : Pno → (mode : ℕ) → Running S ℤ
  mknod : Pno → (mode dev : ℕ) → Running S ℤ
  open_ : Pno → (flags mode : ℕ) → Running S ℤ
  setattr : Pno → (mode : ℕ) → Running S ℤ
  mountRoot : (source fstype : Bytes) → (flags : ℕ) → (data : Option Bytes) → Running S ℤ
  mount : (dir : Pno) → (source target fstype : Bytes) → (flags : ℕ) → (data : Option Bytes) →
    Running S ℤ
  inoOf : Pno → Running S (Option InoId)
  ioctx : InoId → (data : Bytes) → Running S IocId
  wait : IocId → Running S ℤ
  closeIno : InoId → Running S ℤ
  fnew : Option InoId → (flags : ℕ) → Running S (Option FilId)
  fdSet : FilId → (fd : ℤ) → Running S ℤ
  fRele : FilId → Running S Unit
  pRele : Pno → Running S Unit

section Conversions

variable {S α : Type}

def convert (c : Converted α) : Running S (α × Bytes) := do
  Exec.when c.range (Exec.write fun p => { p with errno := ERANGE })
  return (c.value, c.rest)

def errno : Running S ℤ := Exec.read Process.errno

/-- `(unsigned)`. -/
def unsigned (n : ℤ) : ℕ := (n % 2 ^ 32).toNat

/-- The permissions of `creat` and `chmd`, as a mode. -/
def permissions (str : Bytes) : Running S (Option ℕ) := do
  let (perms, cp) ← convert (strtol str)
  let err ← errno
  if cp ≠ [] ∨ perms < 0 ∨ (perms = LONG_MAX ∧ err = ERANGE) ∨
      unsigned perms &&& (2 ^ 32 - 1 - 0o7777) ≠ 0 then
    return none
  return some (unsigned perms)

/-- The test of an owner or a group. The number is not used after that. -/
def identity : Option Bytes → Running S Bool
  | none => pure true
  | some str => do
    let (number, cp) ← convert (strtol str)
    let err ← errno
    return !(cp ≠ [] ∨ (number = LONG_MIN ∨ number = LONG_MAX) ∧ err = ERANGE)

/-- The flags of `mnt`. -/
def mountFlags : Option Bytes → Running S (Option ℕ)
  | none => pure (some 0)
  | some str => do
    let (flags, cp) ← convert (strtoul str)
    let err ← errno
    if cp ≠ [] ∨ flags = ULONG_MAX ∧ err = ERANGE then
      return none
    return some flags

/-- The descriptor of `open`. -/
def fildes (str : Bytes) : Running S (Option ℤ) := do
  let (l, cp) ← convert (strtol str)
  if cp ≠ [] ∨ l < 0 ∨ INT_MAX < l then
    return none
  return some l

/-- The access mode of `open`. -/
def accessMode (str : Bytes) : Running S (Option ℕ) := do
  let (ul, cp) ← convert (strtoul str)
  let err ← errno
  if cp ≠ [] ∨ ul = ULONG_MAX ∧ err = ERANGE then
    return none
  return some (ul &&& (O_RDONLY ||| O_WRONLY ||| O_RDWR))

/-- `parse_mm`. -/
def parseMm (s : Bytes) : Running S (Option ℕ) := do
  let (major, cp) ← convert (strtoul s)
  if cp.head? ≠ some PLUS ∨ USHRT_MAX < major then
    return none
  let dev := major <<< 16
  let (minor, cp) ← convert (strtoul cp.tail)
  if cp ≠ [] ∨ USHRT_MAX < minor then
    return none
  return some (dev ||| (minor &&& 0xffff))

end Conversions

/-- What `creat` creates. -/
inductive Creation where
  | dir (mode : ℕ)
  | node (mode dev : ℕ)
  | file (mode : ℕ)
  deriving DecidableEq, Repr

def Creation.intent : Creation → BootIntent
  | .dir mode => ⟨INT_CREAT, mode, none⟩
  | .node mode _ => ⟨INT_CREAT, mode, none⟩
  | .file mode => ⟨INT_CREAT, mode, some (O_CREAT ||| O_EXCL)⟩

def DIR : Bytes := bytesOf ['d', 'i', 'r']
def CHR : Bytes := bytesOf ['c', 'h', 'r']
def BLK : Bytes := bytesOf ['b', 'l', 'k']
def FILE : Bytes := bytesOf ['f', 'i', 'l', 'e']

section Commands

variable {S : Type}

def device (mm : Option Bytes) : Running S (Option ℕ) :=
  match mm with
  | none => pure none
  | some str => parseMm str

/-- The file type of `creat`, with the mode and the device number that go with it. -/
def creation (ft : Bytes) (mode : ℕ) (mm : Option Bytes) : Running S (Option Creation) := do
  if ft = DIR then
    return some (.dir mode)
  else if ft = CHR then
    let dev ← device mm
    return dev.map (.node (mode ||| S_IFCHR))
  else if ft = BLK then
    let dev ← device mm
    return dev.map (.node (mode ||| S_IFBLK))
  else if ft = FILE then
    return some (.file mode)
  else
    return none

variable (c : Calls S)

/-- The data of a new file gets an I/O context; the call that would write it is commented out. -/
def deposit (ino : InoId) : Option Bytes → Running S ℤ
  | none => pure 0
  | some data => do
    let io ← c.ioctx ino data
    let cc ← c.wait io
    return if cc < 0 then cc else if cc ≠ data.length then - EIO else 0

def create (pno : Pno) (str : Option Bytes) : Creation → Running S ℤ
  | .dir mode => c.mkdir pno mode
  | .node mode dev => c.mknod pno mode dev
  | .file mode => do
    let err ← c.open_ pno (O_CREAT ||| O_EXCL) mode
    if err ≠ 0 then
      return err
    let ino ← c.inoOf pno
    let ino ← Exec.deref .wild fun _ => ino
    let err ← deposit c ino str
    let i ← c.closeIno ino
    return if err ≠ 0 then err else i

/-- The part of `do_creat` behind its numbers. -/
def creatAt (nm ft : Bytes) (mode : ℕ) (mm str : Option Bytes) : Running S ℤ := do
  match ← c.start with
  | none => return -ENOENT
  | some dir =>
    match ← creation ft mode mm with
    | none => return -EINVAL
    | some op => do
      let (err, pno) ← c.namei dir nm (ND_NEGOK ||| ND_NOPERMCHECK) (some op.intent)
      if err ≠ 0 then
        return err
      let pno ← Exec.deref .wild fun _ => pno
      let err ← create c pno str op
      c.pRele pno
      return err

/-- `do_creat`. -/
def doCreat (ft nm pm : Bytes) (ow gr mm str : Option Bytes) : Running S ℤ := do
  match ← permissions pm with
  | none => return -EINVAL
  | some mode =>
    if !(← identity ow) then
      return -EINVAL
    if !(← identity gr) then
      return -EINVAL
    creatAt c nm ft mode mm str

/-- The part of `do_mnt` behind its flags. -/
def mntAt (ty name dir : Bytes) (flags : ℕ) (da : Option Bytes) : Running S ℤ := do
  if dir = [PATH_SEPARATOR] then
    c.mountRoot ty name (flags % 2 ^ 32) da
  else
    match ← c.start with
    | none => return -ENOENT
    | some cwd => c.mount cwd ty dir name flags da

/-- `do_mnt`; the device of its first option is cut to what is in front of its colon and what is
behind it. -/
def doMnt (ty name dir : Bytes) (fl da : Option Bytes) : Running S ℤ := do
  match ← mountFlags fl with
  | none => return -EINVAL
  | some flags => mntAt c ty name dir flags da

/-- The part of `do_chmd` behind its permissions. -/
def chmdAt (src : Bytes) (mode : ℕ) : Running S ℤ := do
  match ← c.start with
  | none => return -ENOENT
  | some dir => do
    let (err, pno) ← c.namei dir src ND_NOPERMCHECK none
    if err ≠ 0 then
      return err
    let pno ← Exec.deref .wild fun _ => pno
    let err ← c.setattr pno mode
    c.pRele pno
    return err

/-- `do_chmd`. -/
def doChmd (src pm : Bytes) : Running S ℤ := do
  match ← permissions pm with
  | none => return -EINVAL
  | some mode => chmdAt c src mode

/-- The part of `do_open` behind its numbers. -/
def openAt (nm : Bytes) (fd : ℤ) (m : ℕ) : Running S ℤ := do
  match ← c.start with
  | none => return -ENOENT
  | some dir => do
    let (err, pno) ← c.namei dir nm ND_NOPERMCHECK (some ⟨INT_OPEN, m, none⟩)
    if err ≠ 0 then
      return err
    let pno ← Exec.deref .wild fun _ => pno
    let err ← c.open_ pno m 0
    if err ≠ 0 then
      c.pRele pno
      return err
    match ← c.fnew (← c.inoOf pno) m with
    | none => do
      c.pRele pno
      return -ENOMEM
    | some fil => do
      let err ← c.fdSet fil fd
      if err < 0 then
        c.fRele fil
        c.pRele pno
        return err
      c.pRele pno
      return 0

/-- `do_open`. Both of its numbers are taken from the descriptor's option. -/
def doOpen (nm fd : Bytes) (_m : Bytes) : Running S ℤ := do
  match ← fildes fd with
  | none => return -EINVAL
  | some n =>
    match ← accessMode fd with
    | none => return -EINVAL
    | some m => openAt c nm n m

/-- The commands on the strings of their options. -/
def works : Works (Process S) where
  creat
    | [some ft, some nm, some pm, ow, gr, mm, str] => doCreat c ft nm pm ow gr mm str
    | _ => Exec.fault .wild
  mnt ty name
    | [some dir, fl, da] => doMnt c ty name dir fl da
    | _ => Exec.fault .wild
  chmd
    | [some src, some pm] => doChmd c src pm
    | _ => Exec.fault .wild
  open_
    | [some nm, some fd, some m] => doOpen c nm fd m
    | _ => Exec.fault .wild

end Commands

section Library

variable {D : Type}

/-- What the commands depend on besides the library's state: what a call leaves in `errno`, what the
driver makes of an inode that it is asked to close in place of a path node, the file system switch
and how often a driver is polled. -/
structure Outside (D : Type) where
  env : Env D
  errnoAfter : Sys D → ℤ → ℤ
  closeIno : InoId → Sysio D ℤ
  fssw : (fstype : Bytes) → (data : Option Bytes) → Option (SysioMount.FsswopMount D)
  polls : ℕ

variable (o : Outside D)

def onLib {α : Type} (m : Sysio D α) : Running (Sys D) α := fun p =>
  match m p.lib with
  | .ok (a, s) => .ok (a, ⟨o.errnoAfter s p.errno, s⟩)
  | .error f => .error f

/-- `IOCTX_INIT` for a context on the stack, and `_sysio_ioctx_enter`. -/
def fastIoctx (i : InoId) : Sysio D IocId := do
  let c ← Exec.read fun s => s.aio.nextIoctx
  Exec.write fun s =>
    { s with
      aio.ioctx := Function.update s.aio.ioctx c
        (some { fast := true, done := false, write := true, ino := i, iov := none, xtv := none,
                cc := 0, errno := 0, cbq := [] })
      aio.aioq := c :: s.aio.aioq
      aio.nextIoctx := c + 1 }
  return c

/-- The calls of the library itself. -/
def sysioCalls : Calls (Sys D) where
  start := Exec.read fun p => p.lib.mt.cwd.or p.lib.mt.root
  namei dir path flags intent :=
    onLib o (sysioNamei o.env (some dir) (some path) flags (intent.map fun i => ⟨i.opmask⟩))
  mkdir p mode := onLib o (sysioMkdir o.env p mode)
  mknod p mode dev := onLib o (sysioMknod o.env p mode dev)
  open_ p flags mode := onLib o (sysioOpen o.env p flags mode)
  setattr p _ := onLib o do
    let ino ← SysioInode.inoOf p
    SysioInode.sysioSetattr o.env (some p) ino SETATTR_MODE
  mountRoot source fstype flags data :=
    onLib o (SysioMount.sysioMountRoot (o.fssw fstype data) source fstype flags)
  mount dir source target fstype flags data :=
    onLib o (SysioMount.sysioMount o.env (o.fssw fstype data) (some dir) source target fstype flags)
  inoOf p := onLib o (SysioInode.inoOf p)
  ioctx i _ := onLib o (fastIoctx i)
  wait io := onLib o (SysioFile.sysioIoctxWait o.env io o.polls)
  closeIno i := onLib o (o.closeIno i)
  fnew ino flags := onLib o (sysioFnew o.env ino flags)
  fdSet f fd := onLib o (sysioFdSet o.env f fd true)
  fRele f := onLib o (fRele o.env f)
  pRele p := onLib o (SysioInode.pRele p)

end Library

end BootCommands
