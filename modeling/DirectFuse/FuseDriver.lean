import DirectFuse.SysioInterface

/-! The fuse driver (drivers/fuse/sysio_fuse.c) and the file system types built on it. A backend
is an arbitrary function of the calls it receives; the bytes read and written pass between the
caller and the backend and are left out. -/
namespace FuseDriver

open ExecLogic SysioState SysioInode SysioNamei SysioMount SysioFile SysioInterface

abbrev FinoId := ℕ
abbrev FfsId := ℕ
abbrev FiId := ℕ

/-- The calls through `fi_ops`. A path or a file info the driver failed to get is passed as NULL. -/
inductive BackendCall where
  | getattr (path : Option Bytes)
  | mknod (path : Bytes) (mode : ℕ)
  | mkdir (path : Bytes) (mode : ℕ)
  | unlink (path : Option Bytes)
  | rmdir (path : Bytes)
  | open_ (path : Option Bytes) (flags : ℕ) (fi : FiId)
  | read (path : Option Bytes) (size : ℕ) (off : ℤ) (fi : Option FiId)
  | write (path : Option Bytes) (size : ℕ) (off : ℤ) (fi : Option FiId)
  | ftruncate (path : Option Bytes) (size : ℤ) (fi : Option FiId)
  | release (path : Option Bytes) (fi : Option FiId)
  | fsync (path : Option Bytes) (datasync : ℕ) (fi : Option FiId)
  deriving DecidableEq, Repr

/-- `struct intnl_dirent`, the name cut at its first NUL. -/
structure Dirent where
  ino : ℕ
  name : Bytes
  deriving DecidableEq, Repr

/-- `struct fuse_inode`. `data` is absent for files, `ops` while `fi_ops` is not initialised;
`ffs` is the file system on whose list the record is. -/
structure FuseInode where
  st : Stat
  data : Option (List Dirent)
  file : Option FiId
  path : Option Bytes
  ops : Option ℕ
  ffs : FfsId
  deriving DecidableEq, Repr

/-- The records of the driver, its static counters and the state of the backends. `calls` is the
history of the calls sent to the backends with their results, the latest first. -/
structure FuseData (B : Type) where
  finode : FinoId → Option FuseInode
  ffs : FfsId → Option (List FinoId)
  nextFino : ℕ
  nextFfs : ℕ
  nextFi : ℕ
  nxtnum : ℕ
  cMajor : ℕ
  calls : List (BackendCall × ℤ)
  backend : B

/-- The process around the library. `fstypes` names the registered types besides "fuse", `backend`
runs a call of the backend of a type, and `hasMknod` tells whether it has a `mknod`. -/
structure Host (B : Type) where
  malloc : ℕ → Bool
  junk : ℕ → ℕ
  uid : ℕ
  gid : ℕ
  euid : ℕ
  egid : ℕ
  groups : List ℕ
  fstypes : Bytes → Option ℕ
  backend : ℕ → BackendCall → B → ℤ × B
  hasMknod : ℕ → Bool

variable {B : Type}

abbrev Fuse (B α : Type) := Sysio (FuseData B) α

section Access

def finodeAt (k : FinoId) : Fuse B FuseInode := Exec.deref .wild fun s => s.drv.finode k

def setFinode (k : FinoId) (r : FuseInode) : Fuse B Unit := Exec.write fun s =>
  { s with drv.finode := Function.update s.drv.finode k (some r) }

/-- `I2FI`. -/
def i2fi (i : InoId) : Fuse B FinoId := do
  let r ← inodeAt i
  return r.priv

/-- `P2FI`. -/
def p2fi (p : Pno) : Fuse B FinoId := do
  i2fi (← nonNull (← inoOf p))

/-- `FS2FFS`. -/
def fs2ffs (f : FsId) : Fuse B FfsId := do
  let r ← fsAt f
  return r.priv

/-- What a function without a return statement returns. -/
def noReturn (h : Host B) : Fuse B ℤ := Exec.read fun s =>
  let j : ℕ := h.junk s.mallocs % 2 ^ 32
  if j < 2 ^ 31 then (j : ℤ) else (j : ℤ) - 2 ^ 32

end Access

/-- A call through the operations of a fuse inode. -/
def backendCall (h : Host B) (ops : Option ℕ) (c : BackendCall) : Fuse B ℤ := do
  let tag ← nonNull ops
  let b ← Exec.read fun s => s.drv.backend
  Exec.write fun s =>
    { s with
      drv.backend := (h.backend tag c b).2
      drv.calls := (c, (h.backend tag c b).1) :: s.drv.calls }
  return (h.backend tag c b).1

/-- `fuse_i_destory`. -/
def fuseIDestory (k : FinoId) : Fuse B Unit := do
  let r ← finodeAt k
  let l ← Exec.deref .wild fun s => s.drv.ffs r.ffs
  Exec.write fun s =>
    { s with
      drv.ffs := Function.update s.drv.ffs r.ffs (some (l.erase k))
      drv.finode := Function.update s.drv.finode k none }

/-- `fuse_inop_gone`. -/
def fuseInopGone (i : InoId) : Fuse B Unit := do
  fuseIDestory (← i2fi i)

/-- The loop of `_sysio_fuse_fsop_gone`. -/
def destoryAll : List FinoId → Fuse B Unit
  | [] => pure ()
  | k :: l => do
    fuseIDestory k
    destoryAll l

/-- `_sysio_fuse_fsop_gone`. -/
def fuseFsopGone (f : FsId) : Fuse B Unit := do
  let q ← fs2ffs f
  let l ← Exec.deref .wild fun s => s.drv.ffs q
  destoryAll l
  Exec.write fun s => { s with drv.ffs := Function.update s.drv.ffs q none }

/-- The driver itself only calls back into the allocator and the release of inodes, which needs
the two `gone` operations and none of the others. -/
def coreOps : InodeOps (FuseData B) where
  lookup _ _ _ _ _ := Exec.fault .wild
  getattr _ _ _ := Exec.fault .wild
  setattr _ _ _ _ := Exec.fault .wild
  mkdir _ _ _ := Exec.fault .wild
  rmdir _ _ := Exec.fault .wild
  symlink _ _ _ := Exec.fault .wild
  readlink _ _ _ := Exec.fault .wild
  open_ _ _ _ _ := Exec.fault .wild
  close _ _ := Exec.fault .wild
  link _ _ _ := Exec.fault .wild
  unlink _ _ := Exec.fault .wild
  rename _ _ _ := Exec.fault .wild
  read _ _ _ _ := Exec.fault .wild
  write _ _ _ _ := Exec.fault .wild
  post _ _ _ := Exec.fault .wild
  iodone _ _ := Exec.fault .wild
  sync _ _ := Exec.fault .wild
  datasync _ _ := Exec.fault .wild
  mknod _ _ _ _ := Exec.fault .wild
  ftruncate _ _ _ := Exec.fault .wild
  gone := fuseInopGone
  fsopGone := fuseFsopGone

def coreEnv (h : Host B) : Env (FuseData B) where
  malloc := h.malloc
  junk := h.junk
  euid := h.euid
  egid := h.egid
  groups := h.groups
  ops := coreOps

/-- `fuse_inum_alloc`; the counter does not wrap. -/
def fuseInumAlloc : Fuse B ℕ := do
  let n ← Exec.read fun s => s.drv.nxtnum
  Exec.write fun s => { s with drv.nxtnum := n + 1 }
  return n

/-- `_sysio_dev_alloc` with its unsigned char counter. -/
def sysioDevAlloc : Fuse B ℕ := do
  let c ← Exec.read fun s => s.drv.cMajor
  assert (decide (c ≠ 0))
  Exec.write fun s => { s with drv.cMajor := (c + 1) % 256 }
  return c * 256

/-- `fuse_i_alloc`. -/
def fuseIAlloc (h : Host B) (q : FfsId) (st : Stat) (ops : Option ℕ) : Fuse B (Option FinoId) := do
  assert (decide (st.ino ≠ 0))
  assert (decide (st.size = 0))
  if !(← malloc (coreEnv h)) then
    return none
  let k ← Exec.read fun s => s.drv.nextFino
  let l ← Exec.deref .wild fun s => s.drv.ffs q
  Exec.write fun s =>
    { s with
      drv.finode := Function.update s.drv.finode k
        (some { st := st, data := none, file := none, path := none, ops := ops, ffs := q })
      drv.ffs := Function.update s.drv.ffs q (some (k :: l))
      drv.nextFino := k + 1 }
  return some k

/-- `FUSE_D_RECLEN`: the name starts at byte 19 of a record. -/
def fuseDReclen (namelen : ℕ) : ℕ := (19 + namelen + 1 + 8) / 8 * 8

/-- The template's second entry is called dot dot blank. -/
def dotDotName : Bytes := [DOT, DOT, 32]

/-- The operations a new inode takes over from the directory it is made in. -/
def opsOf (parent : Option FinoId) : Fuse B (Option ℕ) :=
  match parent with
  | none => pure none
  | some d => do
    let rd ← finodeAt d
    return rd.ops

/-- `fuse_directory_new`. -/
def fuseDirectoryNew (h : Host B) (q : FfsId) (parent : Option FinoId) (st : Stat) :
    Fuse B (Option FinoId) := do
  let ops ← opsOf parent
  match ← fuseIAlloc h q st ops with
  | none => return none
  | some k => do
    if !(← malloc (coreEnv h)) then
      fuseIDestory k
      return none
    let rd ← finodeAt (parent.getD k)
    let r ← finodeAt k
    setFinode k { r with
      data := some [⟨st.ino, [DOT]⟩, ⟨rd.st.ino, dotDotName⟩]
      st := { r.st with size := fuseDReclen 1 + fuseDReclen 2 } }
    return some k

/-- `fuse_directory_probe` with `fuse_directory_match`: the first record of that name. Record
lengths are never zero, so the walk over the records ends at the last one. -/
def fuseDirectoryProbe (data : List Dirent) (name : Bytes) : Option Dirent :=
  data.find? fun de => de.name == name

/-- The records of a directory; only a directory has any data to probe. -/
def direntsAt (k : FinoId) : Fuse B (List Dirent) := do
  let r ← finodeAt k
  nonNull r.data

/-- `fuse_directory_insert`. The last record ends where the data ends, so the new one is always
appended. A record length of 2^16 does not fit its field and corrupts the directory. -/
def fuseDirectoryInsert (h : Host B) (parent : FinoId) (name : Bytes) (inum : ℕ) : Fuse B ℤ := do
  let data ← direntsAt parent
  if (fuseDirectoryProbe data name).isSome then
    return -EEXIST
  if !(← malloc (coreEnv h)) then
    return -ENOSPC
  Exec.check .wild fun _ => decide (fuseDReclen name.length < 2 ^ 16)
  let r ← finodeAt parent
  setFinode parent { r with
    data := some (data ++ [⟨inum, name⟩])
    st := { r.st with size := r.st.size + fuseDReclen name.length, nlink := r.st.nlink + 1 } }
  return 0

/-- Blanks the first record called `name`; its length stays. -/
def blankEntry (name : Bytes) : List Dirent → List Dirent
  | [] => []
  | de :: l => if de.name = name then ⟨0, []⟩ :: l else de :: blankEntry name l

/-- `fuse_unlink_entry`. -/
def fuseUnlinkEntry (parent : FinoId) (name : Bytes) : Fuse B ℤ := do
  let data ← direntsAt parent
  if (fuseDirectoryProbe data name).isNone then
    return -ENOENT
  let r ← finodeAt parent
  assert (decide (2 < r.st.nlink))
  setFinode parent { r with
    data := some (blankEntry name data)
    st := { r.st with nlink := r.st.nlink - 1 } }
  return 0

/-- `fuse_inop_lookup`. A record whose inode is not in the table gets an inode made from the
attributes of the directory. -/
def fuseInopLookup (h : Host B) (p : Pno) (inop : Option InoId) : Fuse B (ℤ × Option InoId) := do
  match inop with
  | some i => do
    let fino ← finodeAt (← i2fi i)
    let r ← inodeAt i
    setInode i { r with stbuf := fino.st }
    return (0, some i)
  | none => do
    let n ← pnodeAt p
    let d ← nonNull (← inoOf n.parent)
    let rd ← inodeAt d
    let r ← baseAt n.base
    let data ← direntsAt rd.priv
    match fuseDirectoryProbe data r.name.name with
    | none => return (-ENOENT, none)
    | some de => do
      match ← sysioIFind rd.fs de.ino with
      | some i => return (0, some i)
      | none => do
        let fino ← finodeAt rd.priv
        match ← sysioINew (coreEnv h) rd.fs fino.st.ino fino.st true rd.priv with
        | none => return (-ENOENT, none)
        | some i => return (0, some i)

/-- `fuse_inop_getattr`; `fstat` passes no path node. -/
def fuseInopGetattr (h : Host B) (p : Option Pno) : Fuse B ℤ := do
  let p ← nonNull p
  let n ← pnodeAt p
  let path ← sysioPbPath (coreEnv h) n.base PATH_SEPARATOR
  let fino ← finodeAt (← p2fi p)
  backendCall h fino.ops (.getattr path)

/-- The attributes `fuse_inop_mkdir` and `fuse_inop_open` give a new inode. -/
def newStat (h : Host B) (dev ino mode nlink : ℕ) : Stat :=
  { dev := dev, ino := ino, mode := mode, nlink := nlink, uid := h.uid, gid := h.gid, size := 0 }

/-- `fuse_inop_mkdir`. Its error exits write through a directory entry that is never set. -/
def fuseInopMkdir (h : Host B) (p : Pno) (mode : ℕ) : Fuse B ℤ := do
  let n ← pnodeAt p
  let d ← nonNull (← inoOf n.parent)
  let rd ← inodeAt d
  let parent := rd.priv
  let rp ← finodeAt parent
  if !rp.st.isDir then
    return -ENOTDIR
  let f ← fsAt rd.fs
  let inum ← fuseInumAlloc
  let st := newStat h f.dev inum (S_IFDIR ||| (mode &&& 0o7777)) 2
  match ← fuseDirectoryNew h f.priv (some parent) st with
  | none => return -ENOSPC
  | some k => do
    match ← sysioINew (coreEnv h) rd.fs inum st true k with
    | none => do
      fuseIDestory k
      return -ENOMEM
    | some i => do
      let r ← baseAt n.base
      let err ← fuseDirectoryInsert h parent r.name.name inum
      Exec.check .wild fun _ => decide (err = 0)
      match ← sysioPbPath (coreEnv h) n.base PATH_SEPARATOR with
      | none => return -ENOMEM
      | some path => do
        let fino ← finodeAt k
        let err ← backendCall h fino.ops (.mkdir path mode)
        Exec.check .wild fun _ => decide (err = 0)
        modBase n.base fun r => { r with ino := some i }
        return err

/-- `fuse_inop_rmdir`. The directory entry goes before the backend is asked. -/
def fuseInopRmdir (h : Host B) (p : Pno) : Fuse B ℤ := do
  let n ← pnodeAt p
  match ← sysioPbPath (coreEnv h) n.base PATH_SEPARATOR with
  | none => return -ENOMEM
  | some path => do
    let parent ← p2fi n.parent
    let r ← baseAt n.base
    let _ ← fuseUnlinkEntry parent r.name.name
    let fino ← finodeAt (← p2fi p)
    backendCall h fino.ops (.rmdir path)

/-- `fuse_create`. No entry is made in the parent directory. -/
def fuseCreate (h : Host B) (p : Pno) (st : Stat) : Fuse B ℤ := do
  let n ← pnodeAt p
  let d ← inoOf n.parent
  assert d.isSome
  let d ← nonNull d
  let rd ← inodeAt d
  let q ← fs2ffs rd.fs
  let rp ← finodeAt rd.priv
  match ← fuseIAlloc h q st rp.ops with
  | none => return -ENOSPC
  | some k => do
    let ino ← sysioINew (coreEnv h) rd.fs st.ino st true k
    modBase n.base fun r => { r with ino := ino }
    return 0

/-- A backend that has a `mknod` is asked to make the file before it is opened. -/
def mknodFirst (h : Host B) (ops : Option ℕ) (path : Bytes) (mode : ℕ) : Fuse B Unit := do
  let tag ← nonNull ops
  Exec.when (h.hasMknod tag) do
    let _ ← backendCall h ops (.mknod path mode)

/-- The first branch of `fuse_inop_open`, for a name without an inode. The result tells whether
the path could be allocated. -/
def openCreates (h : Host B) (p : Pno) (flags mode : ℕ) : Fuse B Bool := do
  let n ← pnodeAt p
  let d ← nonNull (← inoOf n.parent)
  let rd ← inodeAt d
  let f ← fsAt rd.fs
  let inum ← fuseInumAlloc
  let _ ← fuseCreate h p (newStat h f.dev inum (S_IFREG ||| (mode &&& 0o7777)) 1)
  let k ← p2fi p
  let path ← sysioPbPath (coreEnv h) n.base PATH_SEPARATOR
  let fino ← finodeAt k
  setFinode k { fino with path := path }
  match path with
  | none => return false
  | some path => do
    Exec.when (flags &&& O_CREAT ≠ 0) (mknodFirst h fino.ops path mode)
    return true

/-- The second branch of `fuse_inop_open`. -/
def openExisting (h : Host B) (p : Pno) : Fuse B Bool := do
  let k ← p2fi p
  let n ← pnodeAt p
  let path ← sysioPbPath (coreEnv h) n.base PATH_SEPARATOR
  let fino ← finodeAt k
  setFinode k { fino with path := path }
  return true

/-- `fuse_inop_open`. The file info goes to the inode whatever the backend answers. -/
def fuseInopOpen (h : Host B) (p : Pno) (flags mode : ℕ) : Fuse B ℤ := do
  let got ← malloc (coreEnv h)
  let ino ← inoOf p
  let ready ← (if ino = none then openCreates h p flags mode else openExisting h p)
  if !ready then
    return -ENOMEM
  Exec.check .wild fun _ => got
  let fi ← Exec.read fun s => s.drv.nextFi
  Exec.write fun s => { s with drv.nextFi := fi + 1 }
  let k ← p2fi p
  let fino ← finodeAt k
  let err ← backendCall h fino.ops (.open_ fino.path flags fi)
  setFinode k { fino with file := some fi }
  return err

/-- `fuse_inop_close`, `fuse_inop_ftruncate` and `fuse_inop_sync` compute the path and call the
backend with the file info of the inode. -/
def onFile (h : Host B) (p : Pno) (call : Option Bytes → Option FiId → BackendCall) : Fuse B ℤ := do
  let n ← pnodeAt p
  let path ← sysioPbPath (coreEnv h) n.base PATH_SEPARATOR
  let fino ← finodeAt (← p2fi p)
  backendCall h fino.ops (call path fino.file)

def fuseInopClose (h : Host B) (p : Pno) : Fuse B ℤ := onFile h p .release

def fuseInopFtruncate (h : Host B) (p : Pno) (size : ℤ) : Fuse B ℤ :=
  onFile h p fun path fi => .ftruncate path size fi

def fuseInopSync (h : Host B) (p : Pno) : Fuse B ℤ := onFile h p fun path fi => .fsync path 0 fi

/-- `fuse_inop_datasync`; what `fdatasync` passes is not a path node. -/
def fuseInopDatasync (h : Host B) (p : Option Pno) : Fuse B ℤ := do
  let p ← nonNull p
  onFile h p fun path fi => .fsync path 1 fi

/-- `fuse_inop_unlink`. -/
def fuseInopUnlink (h : Host B) (p : Pno) : Fuse B ℤ := do
  let n ← pnodeAt p
  let path ← sysioPbPath (coreEnv h) n.base PATH_SEPARATOR
  let fino ← finodeAt (← p2fi p)
  backendCall h fino.ops (.unlink path)

/-- `fuse_inop_read` and `fuse_inop_write` use the path kept by the last open. -/
def fuseInopRead (h : Host B) (nbytes : ℕ) (off : ℤ) (p : Pno) : Fuse B ℤ := do
  let fino ← finodeAt (← p2fi p)
  backendCall h fino.ops (.read fino.path nbytes off fino.file)

def fuseInopWrite (h : Host B) (nbytes : ℕ) (off : ℤ) (p : Pno) : Fuse B ℤ := do
  let fino ← finodeAt (← p2fi p)
  backendCall h fino.ops (.write fino.path nbytes off fino.file)

/-- `fuse_i_ops`. The operations with an empty body return nothing definite, and the asynchronous
calls enter `fuse_inop_read` and `fuse_inop_write` with the wrong arguments. -/
def fuseIOps (h : Host B) : InodeOps (FuseData B) where
  lookup _ p inop _ _ := fuseInopLookup h p inop
  getattr _ p _ := fuseInopGetattr h p
  setattr _ _ _ _ := noReturn h
  mkdir _ p mode := fuseInopMkdir h p mode
  rmdir _ p := fuseInopRmdir h p
  symlink _ _ _ := noReturn h
  readlink _ _ _ := do
    let cc ← noReturn h
    return (cc, [])
  open_ _ p flags mode := fuseInopOpen h p flags mode
  close _ p := fuseInopClose h p
  link _ _ _ := noReturn h
  unlink _ p := fuseInopUnlink h p
  rename _ _ _ := noReturn h
  read _ nbytes off p := fuseInopRead h nbytes off p
  write _ nbytes off p := fuseInopWrite h nbytes off p
  post _ _ _ := Exec.fault .wild
  iodone _ _ := do
    let r ← noReturn h
    return r != 0
  sync _ p := fuseInopSync h p
  datasync _ p := fuseInopDatasync h p
  mknod _ _ _ _ := noReturn h
  ftruncate _ p size := fuseInopFtruncate h p size
  gone := fuseInopGone
  fsopGone := fuseFsopGone

/-- The library with the fuse driver under it. -/
def fuseEnv (h : Host B) : Env (FuseData B) := { coreEnv h with ops := fuseIOps h }

/-- The error exit of `_sysio_fuse_mount_init`. A failed `_sysio_do_mount` leaves `mnt` NULL. -/
def mountInitError (h : Host B) (fino : FinoId) (fs : Option FsId) (rooti : Option InoId)
    (rootpb : Option PbId) (err : ℤ) : Fuse B (ℤ × Option MntId) := do
  (match rootpb, rooti with
    | some b, _ => sysioPbGone (fuseEnv h) b
    | none, some i => iRele (fuseEnv h) i
    | none, none => pure ())
  (match fs with
    | some f => fsRele (fuseEnv h) f
    | none => fuseIDestory fino)
  return (err, none)

/-- `_sysio_fuse_mount_init`; the permission bits of the root come from an unset variable. -/
def sysioFuseMountInit (h : Host B) (flags : ℕ) (fstype : Bytes) (tocover : Option Pno)
    (opers : Option ℕ) : Fuse B (ℤ × Option MntId) := do
  let mode ← Exec.read fun s => h.junk s.mallocs
  if !(← malloc (coreEnv h)) then
    return (-ENOMEM, none)
  let q ← Exec.read fun s => s.drv.nextFfs
  Exec.write fun s =>
    { s with
      drv.ffs := Function.update s.drv.ffs q (some [])
      drv.nextFfs := q + 1 }
  let dev ← sysioDevAlloc
  let inum ← fuseInumAlloc
  let st := newStat h dev inum (S_IFDIR ||| 0o700 ||| (mode &&& 0o7777)) 2
  match ← fuseDirectoryNew h q none st with
  | none => return (-ENOSPC, none)
  | some k => do
    let r ← finodeAt k
    setFinode k { r with ops := opers }
    match ← sysioFsNew (coreEnv h) 0 fstype q with
    | none => mountInitError h k none none none (-ENOMEM)
    | some f => do
      match ← sysioINew (coreEnv h) f inum r.st true k with
      | none => mountInitError h k (some f) none none (-ENOMEM)
      | some rooti => do
        match ← sysioPbNew (fuseEnv h) ⟨[], 0⟩ none (some rooti) with
        | none => mountInitError h k (some f) (some rooti) none (-ENOMEM)
        | some rootpb => do
          let (err, mnt) ← sysioDoMount (fuseEnv h) f rootpb flags tocover
          if err ≠ 0 then
            mountInitError h k (some f) (some rooti) (some rootpb) err
          else
            return (0, mnt)

/-- `_sysio_fuse_fsswop_mount`; its operations table is never initialised. -/
def fuseFsswopMount (h : Host B) : FsswopMount (FuseData B) := fun _ flags fstype tocover =>
  sysioFuseMountInit h flags fstype tocover none

/-- The `fsswop_mount` of a backend's type, which leaves `*mntp` alone. -/
def backendFsswopMount (h : Host B) (tag : ℕ) : FsswopMount (FuseData B) :=
  fun _ flags fstype tocover => do
    let (err, _) ← sysioFuseMountInit h flags fstype tocover (some tag)
    return (err, none)

def fuseTypeName : Bytes := [102, 117, 115, 101]

/-- `_sysio_fssw_lookup`. -/
def fsswLookup (h : Host B) (fstype : Bytes) : Option (FsswopMount (FuseData B)) :=
  if fstype = fuseTypeName then
    some (fuseFsswopMount h)
  else
    (h.fstypes fstype).map (backendFsswopMount h)

end FuseDriver
