import DirectFuse.ExecLogic
import Mathlib.Algebra.Order.Ring.Int
import Mathlib.Data.Int.Notation
import Mathlib.Data.Nat.Notation
import Mathlib.Logic.Function.Basic

/-! The records, the global variables and the driver interface of libsysio.
Intrusive queue(3) lists are Lean lists. Addresses are numbers, and a record that
was freed is absent. Path nodes are the exception: they go back to a free list and
keep their old contents until they are reused. -/
namespace SysioState

open ExecLogic

abbrev Bytes := List UInt8

abbrev Pno := ℕ
abbrev PbId := ℕ
abbrev InoId := ℕ
abbrev FsId := ℕ
abbrev MntId := ℕ
abbrev FilId := ℕ
abbrev IocId := ℕ
abbrev VecId := ℕ

/-- `abort` covers explicit aborts, `assertion` failing assertions, `wild` every use of a
NULL, dangling or uninitialised pointer, `diverge` a loop or recursion that does not end. -/
inductive Fault where
  | assertion
  | abort
  | wild
  | diverge
  deriving DecidableEq, Repr

def ENOENT : ℤ := 2
def EBADF : ℤ := 9
def ENOMEM : ℤ := 12
def EACCES : ℤ := 13
def EFAULT : ℤ := 14
def EBUSY : ℤ := 16
def EEXIST : ℤ := 17
def EXDEV : ℤ := 18
def ENODEV : ℤ := 19
def ENOTDIR : ℤ := 20
def EISDIR : ℤ := 21
def EINVAL : ℤ := 22
def ENFILE : ℤ := 23
def EMFILE : ℤ := 24
def ENOSPC : ℤ := 28
def EROFS : ℤ := 30
def EPERM : ℤ := 1
def ENOSYS : ℤ := 38
def ENOTEMPTY : ℤ := 39
def ELOOP : ℤ := 40

def S_IFMT : ℕ := 0o170000
def S_IFIFO : ℕ := 0o010000
def S_IFCHR : ℕ := 0o020000
def S_IFDIR : ℕ := 0o040000
def S_IFREG : ℕ := 0o100000
def S_IFLNK : ℕ := 0o120000

structure Stat where
  dev : ℕ
  ino : ℕ
  mode : ℕ
  nlink : ℕ
  uid : ℕ
  gid : ℕ
  size : ℕ
  deriving DecidableEq, Repr

def Stat.isDir (st : Stat) : Bool := st.mode &&& S_IFMT == S_IFDIR
def Stat.isReg (st : Stat) : Bool := st.mode &&& S_IFMT == S_IFREG
def Stat.isLnk (st : Stat) : Bool := st.mode &&& S_IFMT == S_IFLNK

/-- `struct qstr`; the length is that of `name`. -/
structure Qstr where
  name : Bytes
  hashval : ℕ
  deriving DecidableEq, Repr

/-- `struct inode`. `priv` is the address of the driver's own record. -/
structure Inode where
  immune : Bool
  zombie : Bool
  ref : ℕ
  stbuf : Stat
  fs : FsId
  fid : ℕ
  priv : ℕ
  deriving DecidableEq, Repr

/-- `struct pnode_base`. -/
structure PnodeBase where
  name : Qstr
  ino : Option InoId
  children : List PbId
  aliases : List Pno
  parent : Option PbId
  deriving DecidableEq, Repr

/-- `struct pnode`. -/
structure Pnode where
  ref : ℕ
  parent : Pno
  base : PbId
  mount : MntId
  cover : Option Pno
  deriving DecidableEq, Repr

/-- `struct mount`. `root` and `covers` are unset (`none`) until `_sysio_do_mount` sets them. -/
structure Mount where
  fs : FsId
  flags : ℕ
  root : Option Pno
  covers : Option Pno
  deriving DecidableEq, Repr

/-- `struct filesys`; `itbl` is its inode hash table. -/
structure Filesys where
  ref : ℕ
  flags : ℕ
  name : Bytes
  itbl : ℕ → List InoId
  dev : ℕ
  priv : ℕ

/-- `struct file`. -/
structure File where
  ino : InoId
  pos : ℤ
  ref : ℕ
  flags : ℕ
  pno : Pno
  deriving DecidableEq, Repr

/-- The completion callbacks the I/O calls register. -/
inductive Callback where
  | freeIov
  | freeXtv
  | fcompletio (fil : FilId)
  deriving DecidableEq, Repr

/-- `struct ioctx`. `iov` and `xtv` are the vectors it was given, `none` for one that is not on the
heap or is gone. -/
structure Ioctx where
  fast : Bool
  done : Bool
  write : Bool
  ino : InoId
  iov : Option VecId
  xtv : Option VecId
  cc : ℤ
  errno : ℤ
  cbq : List Callback
  deriving DecidableEq, Repr

def FS_ITBLSIZ : ℕ := 503
def NAMES_TABLE_LEN : ℕ := 251
def MAX_INODES_MULTIPLIER : ℕ := 3
def MAX_SYMLINK : ℕ := 250

/-- 8 kB worth of 72-byte path nodes, less two. -/
def PNODES_PER_CHUNK : ℕ := 8 * 1024 / 72 - 2

def MOUNT_F_RO : ℕ := 1
def FS_F_RO : ℕ := 1

def ND_NOFOLLOW : ℕ := 1
def ND_NEGOK : ℕ := 2
def ND_NOPERMCHECK : ℕ := 4

def R_OK : ℕ := 4
def W_OK : ℕ := 2
def X_OK : ℕ := 1

def PATH_SEPARATOR : UInt8 := 47

/-- The path-node side of inode.c: the nodes, the names table and the two node lists. -/
structure NameCache where
  pnode : Pno → Pnode
  base : PbId → Option PnodeBase
  pnodes : List Pno
  freePnodes : List Pno
  names : ℕ → List PbId
  nNames : ℕ
  maxNames : ℕ
  nextPnode : ℕ
  nextBase : ℕ

/-- The inode side of inode.c, with the file system records. -/
structure InodeCache where
  inode : InoId → Option Inode
  filesys : FsId → Option Filesys
  inodes : List InoId
  nInodes : ℕ
  maxInodes : ℕ
  nextInode : ℕ
  nextFs : ℕ

/-- The mount list, the system root and the working directory. -/
structure MountTable where
  mount : MntId → Option Mount
  mounts : List MntId
  nextMount : ℕ
  root : Option Pno
  cwd : Option Pno

/-- The open files table of file.c. -/
structure FileTable where
  file : FilId → Option File
  oftab : List (Option FilId)
  nextFile : ℕ

/-- The outstanding I/O contexts of ioctx.c and the vectors on the heap. `frees` counts how often a
vector was freed, and `ran` is the history of the callbacks, the latest last. -/
structure AioTable where
  ioctx : IocId → Option Ioctx
  aioq : List IocId
  nextIoctx : ℕ
  frees : VecId → ℕ
  nextVec : ℕ
  ran : List (IocId × Callback)

/-- Everything the library keeps between calls; `drv` belongs to the drivers. -/
structure Sys (D : Type) where
  nc : NameCache
  ic : InodeCache
  mt : MountTable
  ft : FileTable
  aio : AioTable
  umask : ℕ
  gidslen : ℕ
  mallocs : ℕ
  drv : D

abbrev Sysio (D α : Type) := Exec (Sys D) Fault α

structure Intent where
  opmask : ℕ
  deriving DecidableEq, Repr

def INT_GETATTR : ℕ := 0x01
def INT_UPDPARENT : ℕ := 0x04
def INT_OPEN : ℕ := 0x08
def INT_CREAT : ℕ := INT_UPDPARENT ||| 0x10

/-- The operations table behind `i_ops`. The first argument is the inode whose table is used,
so that one value describes any number of drivers side by side. -/
structure InodeOps (D : Type) where
  lookup : InoId → Pno → Option InoId → Option Intent → Option Bytes → Sysio D (ℤ × Option InoId)
  getattr : InoId → Option Pno → Option InoId → Sysio D ℤ
  setattr : InoId → Option Pno → InoId → ℕ → Sysio D ℤ
  mkdir : InoId → Pno → ℕ → Sysio D ℤ
  rmdir : InoId → Pno → Sysio D ℤ
  symlink : InoId → Pno → Bytes → Sysio D ℤ
  readlink : InoId → Pno → ℕ → Sysio D (ℤ × Bytes)
  open_ : InoId → Pno → ℕ → ℕ → Sysio D ℤ
  close : InoId → Pno → Sysio D ℤ
  link : InoId → Pno → Pno → Sysio D ℤ
  unlink : InoId → Pno → Sysio D ℤ
  rename : InoId → Pno → Pno → Sysio D ℤ
  read : InoId → ℕ → ℤ → Pno → Sysio D ℤ
  write : InoId → ℕ → ℤ → Pno → Sysio D ℤ
  post : InoId → Pno → IocId → Sysio D ℤ
  iodone : InoId → IocId → Sysio D Bool
  sync : InoId → Pno → Sysio D ℤ
  datasync : InoId → Option Pno → Sysio D ℤ
  mknod : InoId → Pno → ℕ → ℕ → Sysio D ℤ
  ftruncate : InoId → Pno → ℤ → Sysio D ℤ
  gone : InoId → Sysio D Unit
  fsopGone : FsId → Sysio D Unit

/-- What a call depends on besides the library's own state: whether the n-th allocation succeeds
and what the new memory holds, the caller's credentials and the drivers. -/
structure Env (D : Type) where
  malloc : ℕ → Bool
  junk : ℕ → ℕ
  euid : ℕ
  egid : ℕ
  groups : List ℕ
  ops : InodeOps D

section Access

variable {D : Type}

def malloc (e : Env D) : Sysio D Bool := fun s =>
  .ok (e.malloc s.mallocs, { s with mallocs := s.mallocs + 1 })

def pnodeAt (p : Pno) : Sysio D Pnode := Exec.read fun s => s.nc.pnode p

def baseAt (b : PbId) : Sysio D PnodeBase := Exec.deref .wild fun s => s.nc.base b

def inodeAt (i : InoId) : Sysio D Inode := Exec.deref .wild fun s => s.ic.inode i

def fsAt (f : FsId) : Sysio D Filesys := Exec.deref .wild fun s => s.ic.filesys f

def mountAt (m : MntId) : Sysio D Mount := Exec.deref .wild fun s => s.mt.mount m

def fileAt (f : FilId) : Sysio D File := Exec.deref .wild fun s => s.ft.file f

def ioctxAt (c : IocId) : Sysio D Ioctx := Exec.deref .wild fun s => s.aio.ioctx c

/-- A pointer that must not be NULL. -/
def nonNull {α : Type} (o : Option α) : Sysio D α := Exec.deref .wild fun _ => o

/-- `if (o) f(o)`. -/
def ifSome {α : Type} (o : Option α) (f : α → Sysio D Unit) : Sysio D Unit :=
  match o with
  | none => pure ()
  | some a => f a

def assert (c : Bool) : Sysio D Unit := Exec.check .assertion fun _ => c

def setPnode (p : Pno) (n : Pnode) : Sysio D Unit := Exec.write fun s =>
  { s with nc.pnode := Function.update s.nc.pnode p n }

def setBase (b : PbId) (r : PnodeBase) : Sysio D Unit := Exec.write fun s =>
  { s with nc.base := Function.update s.nc.base b (some r) }

def setInode (i : InoId) (r : Inode) : Sysio D Unit := Exec.write fun s =>
  { s with ic.inode := Function.update s.ic.inode i (some r) }

/-- Rewrites a live base node; writing a freed one is a wild access. -/
def modBase (b : PbId) (f : PnodeBase → PnodeBase) : Sysio D Unit := do
  let r ← baseAt b
  setBase b (f r)

def setFs (f : FsId) (r : Filesys) : Sysio D Unit := Exec.write fun s =>
  { s with ic.filesys := Function.update s.ic.filesys f (some r) }

def setMount (m : MntId) (r : Mount) : Sysio D Unit := Exec.write fun s =>
  { s with mt.mount := Function.update s.mt.mount m (some r) }

def setFile (f : FilId) (r : File) : Sysio D Unit := Exec.write fun s =>
  { s with ft.file := Function.update s.ft.file f (some r) }

def setIoctx (c : IocId) (r : Ioctx) : Sysio D Unit := Exec.write fun s =>
  { s with aio.ioctx := Function.update s.aio.ioctx c (some r) }

end Access

end SysioState
