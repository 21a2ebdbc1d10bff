import DirectFuse.SysioMount
import DirectFuse.SysioFile

/-! The interface calls. Each returns the value the caller sees together with the negated errno it
leaves behind (0 on success). -/
namespace SysioInterface

open ExecLogic SysioState SysioInode SysioNamei SysioMount SysioFile
open SysioReconcile (wrap64 toInt SSIZE_MAX EOVERFLOW)

variable {D : Type}

abbrev Ret := ℤ × ℤ

/-- `SYSIO_INTERFACE_RETURN(err ? -1 : 0, err)`. -/
def status (err : ℤ) : Ret := (if err ≠ 0 then -1 else 0, err)

/-- What the local pointers of a call hold before they are assigned; `none` is NULL. -/
structure Uninit where
  pno : Option Pno
  fil : Option FilId
  deriving DecidableEq, Repr

/-- `path + mnt->mnt_fs->name_len + 1`, which must not lie behind the terminating NUL. -/
def afterPrefix (m : MntId) (path : Bytes) : Sysio D Bytes := do
  let r ← mountAt m
  let f ← fsAt r.fs
  Exec.check .wild fun _ => decide (f.name.length < path.length)
  return path.drop (f.name.length + 1)

def mountRootOf (m : MntId) : Sysio D (Option Pno) := do
  let r ← mountAt m
  return r.root

/-- The inode of the parent of a path node, whose operations serve changes to the directory. -/
def parentIno (p : Pno) : Sysio D InoId := do
  let n ← pnodeAt p
  nonNull (← inoOf n.parent)

/-- `_sysio_open`. -/
def sysioOpen (e : Env D) (p : Pno) (flags mode : ℕ) : Sysio D ℤ := do
  let ro ← isRdonly p
  let w := flags &&& (O_WRONLY ||| O_RDWR)
  if w = O_WRONLY ||| O_RDWR then
    return -EINVAL
  if w ≠ 0 ∧ ro then
    return -EROFS
  match ← inoOf p with
  | none =>
    if flags &&& O_CREAT ≠ 0 then
      if ro then
        return -EROFS
      let n ← pnodeAt p
      let err ← sysioPValidate e n.parent none none
      if err ≠ 0 then
        return err
      let ino ← inoOf n.parent
      assert ino.isSome
      let i ← nonNull ino
      e.ops.open_ i p flags mode
    else
      sysioPValidate e p none none
  | some i =>
    if flags &&& (O_CREAT ||| O_EXCL) = O_CREAT ||| O_EXCL then
      return -EEXIST
    else do
      let r ← inodeAt i
      if flags &&& O_NOFOLLOW ≠ 0 ∧ r.stbuf.isLnk then
        return -ELOOP
      else
        e.ops.open_ i p flags mode

/-- The error exit of `open`; both pointers may still be unassigned there. -/
def openError (e : Env D) (fil : Option FilId) (pno : Option Pno) (rtn : ℤ) : Sysio D Ret := do
  ifSome fil (fRele e)
  ifSome pno pRele
  return (-1, rtn)

/-- `open`. -/
def interfaceOpen (e : Env D) (u : Uninit) (path : Bytes) (flags mode : ℕ) : Sysio D Ret := do
  let umask ← Exec.read fun s => s.umask
  let mode := if flags &&& O_CREAT ≠ 0 then mode - (mode &&& (umask &&& 0o777)) else 0
  let ndflags := (if flags &&& O_CREAT ≠ 0 then ND_NEGOK else 0)
    + if flags &&& O_NOFOLLOW ≠ 0 then ND_NOFOLLOW else 0
  let opmask := if flags &&& O_CREAT ≠ 0 then INT_OPEN ||| INT_CREAT else INT_OPEN
  match ← sysioFindMount path with
  | none => openError e u.fil u.pno (-1)
  | some m => do
    let path ← afterPrefix m path
    let cwd ← nonNull (← Exec.read fun s => s.mt.cwd)
    let nc ← pnodeAt cwd
    let _ ← sysioPbPath e nc.base PATH_SEPARATOR
    let root ← mountRootOf m
    let (rtn, found) ← sysioNamei e root (some path) ndflags (some ⟨opmask⟩)
    if rtn ≠ 0 then
      openError e none none rtn
    else do
      let p ← nonNull found
      let rtn ← sysioOpen e p flags mode
      if rtn < 0 then
        openError e none (some p) rtn
      else
        match ← sysioFuseFnew e p flags with
        | none => openError e none (some p) (-ENOMEM)
        | some f => do
          let rtn ← sysioFdSet e f (-1) false
          if rtn < 0 then
            openError e (some f) (some p) rtn
          else do
            pRele p
            return (rtn, 0)

/-- `close`. -/
def interfaceClose (e : Env D) (fd : ℤ) : Sysio D Ret := do
  let err ← sysioFdClose e fd
  return status err

/-- The inode leaves its name. -/
def detach (e : Env D) (p : Pno) : Sysio D Unit := do
  let n ← pnodeAt p
  let i ← nonNull (← inoOf p)
  modBase n.base fun r => { r with ino := none }
  iGone e i

/-- `unlink` behind the look-up. -/
def unlinkNode (e : Env D) (p : Pno) : Sysio D ℤ := do
  let n ← pnodeAt p
  let err ← sysioPermitted e n.parent W_OK
  if err ≠ 0 then
    return err
  let d ← parentIno p
  let err ← e.ops.unlink d p
  if err ≠ 0 then
    return err
  let ino ← inoOf p
  assert ino.isSome
  detach e p
  return 0

/-- `unlink`. The label `error` releases a pointer that is unassigned when no mount matches. -/
def interfaceUnlink (e : Env D) (u : Uninit) (path : Bytes) : Sysio D Ret := do
  match ← sysioFindMount path with
  | none => do
    let p ← nonNull u.pno
    pRele p
    return status (-1)
  | some m => do
    let path ← afterPrefix m path
    let root ← mountRootOf m
    let (err, found) ← sysioNamei e root (some path) ND_NEGOK (some ⟨INT_UPDPARENT⟩)
    if err ≠ 0 then
      return status err
    let p ← nonNull found
    let err ← unlinkNode e p
    pRele p
    return status err

/-- `rmdir` behind the look-up. -/
def rmdirNode (e : Env D) (p : Pno) : Sysio D ℤ := do
  let i ← nonNull (← inoOf p)
  let r ← inodeAt i
  if !r.stbuf.isDir then
    return -ENOTDIR
  let n ← pnodeAt p
  let err ← sysioPermitted e n.parent W_OK
  if err ≠ 0 then
    return err
  if 1 < n.ref then
    return -EBUSY
  let d ← parentIno p
  let err ← e.ops.rmdir d p
  if err ≠ 0 then
    return err
  detach e p
  return 0

/-- `rmdir`. -/
def interfaceRmdir (e : Env D) (u : Uninit) (path : Bytes) : Sysio D Ret := do
  match ← sysioFindMount path with
  | none => do
    let p ← nonNull u.pno
    pRele p
    return status (-1)
  | some m => do
    let path ← afterPrefix m path
    let root ← mountRootOf m
    let (err, found) ← sysioNamei e root (some path) 0 (some ⟨INT_UPDPARENT⟩)
    if err ≠ 0 then
      return status err
    let p ← nonNull found
    let err ← rmdirNode e p
    pRele p
    return status err

/-- `_sysio_mkdir`. -/
def sysioMkdir (e : Env D) (p : Pno) (mode : ℕ) : Sysio D ℤ := do
  if (← inoOf p).isSome then
    return -EEXIST
  let n ← pnodeAt p
  let err ← sysioPermitted e n.parent W_OK
  if err ≠ 0 then
    return err
  let d ← inoOf n.parent
  assert d.isSome
  let d ← nonNull d
  e.ops.mkdir d p mode

/-- `mkdir`. -/
def interfaceMkdir (e : Env D) (path : Bytes) (mode : ℕ) : Sysio D Ret := do
  match ← sysioFindMount path with
  | none => return status (-1)
  | some m => do
    let path ← afterPrefix m path
    let root ← mountRootOf m
    let (err, found) ← sysioNamei e root (some path) ND_NEGOK (some ⟨INT_CREAT⟩)
    if err ≠ 0 then
      return status err
    let p ← nonNull found
    let umask ← Exec.read fun s => s.umask
    let err ← sysioMkdir e p (mode - (mode &&& (umask &&& 0o777)))
    pRele p
    return status err

/-- `stat`. The node that namei hands out is never released. -/
def interfaceStat (e : Env D) (path : Bytes) : Sysio D Ret := do
  match ← sysioFindMount path with
  | none => return status (-1)
  | some m => do
    let path ← afterPrefix m path
    let root ← mountRootOf m
    let (err, found) ← sysioNamei e root (some path) ND_NEGOK (some ⟨INT_UPDPARENT⟩)
    if err ≠ 0 then
      return status err
    let p ← nonNull found
    let ino ← inoOf p
    let d ← parentIno p
    let err ← e.ops.getattr d (some p) ino
    return status err

/-- A call that resolves `path` from the working directory, does `act` on the node found and
releases it; `access`, `lstat`, `readlink`, `chmod`, `chown`, `utime`, `symlink` and `mknod` are
all of this form. -/
def onPath (e : Env D) (path : Bytes) (flags : ℕ) (intnt : Option Intent) (act : Pno → Sysio D ℤ) :
    Sysio D ℤ := do
  let cwd ← Exec.read fun s => s.mt.cwd
  let (err, found) ← sysioNamei e cwd (some path) flags intnt
  if err ≠ 0 then
    return err
  let p ← nonNull found
  let err ← act p
  pRele p
  return err

/-- `lstat`. -/
def interfaceLstat (e : Env D) (path : Bytes) : Sysio D Ret := do
  let err ← onPath e path ND_NOFOLLOW (some ⟨INT_GETATTR⟩) fun p => do
    let i ← nonNull (← inoOf p)
    let _ ← inodeAt i
    pure 0
  return status err

/-- `access`. -/
def interfaceAccess (e : Env D) (path : Bytes) (amode : ℕ) : Sysio D Ret := do
  let err ← onPath e path 0 (some ⟨INT_GETATTR⟩) fun p => do
    let (err, cr) ← sysioLdcreds e
    if err < 0 then
      pure err
    else
      sysioCheckPermission p cr amode
  return status err

/-- `readlink`. -/
def interfaceReadlink (e : Env D) (path : Bytes) (bufsiz : ℕ) : Sysio D Ret := do
  let err ← onPath e path ND_NOFOLLOW (some ⟨INT_GETATTR⟩) fun p => do
    let i ← nonNull (← inoOf p)
    let r ← inodeAt i
    if !r.stbuf.isLnk then
      pure (-EINVAL)
    else do
      let (cc, _) ← e.ops.readlink i p bufsiz
      pure cc
  return (if err < 0 then -1 else err, if 0 ≤ err then 0 else err)

/-- `chmod`, `chown` and `utime` differ in the attributes they set. -/
def interfaceSetattr (e : Env D) (path : Bytes) (mask : ℕ) : Sysio D Ret := do
  let err ← onPath e path 0 none fun p => do
    let ino ← inoOf p
    sysioSetattr e (some p) ino mask
  return status err

def SETATTR_MODE : ℕ := 0x01
def SETATTR_MTIME : ℕ := 0x02
def SETATTR_ATIME : ℕ := 0x04
def SETATTR_UID : ℕ := 0x08
def SETATTR_GID : ℕ := 0x10

/-- `chmod`. -/
def interfaceChmod (e : Env D) (path : Bytes) : Sysio D Ret := interfaceSetattr e path SETATTR_MODE

/-- An id of -1 leaves the owner or the group as it is. -/
def ownerMask (owner group : ℤ) : ℕ :=
  (if owner ≠ -1 then SETATTR_UID else 0) + if group ≠ -1 then SETATTR_GID else 0

/-- `chown`. -/
def interfaceChown (e : Env D) (path : Bytes) (owner group : ℤ) : Sysio D Ret :=
  interfaceSetattr e path (ownerMask owner group)

/-- `utime`. -/
def interfaceUtime (e : Env D) (path : Bytes) : Sysio D Ret :=
  interfaceSetattr e path (SETATTR_ATIME ||| SETATTR_MTIME)

/-- `symlink`. -/
def interfaceSymlink (e : Env D) (oldpath newpath : Bytes) : Sysio D Ret := do
  let err ← onPath e newpath (ND_NOFOLLOW ||| ND_NEGOK) (some ⟨INT_CREAT⟩) fun p => do
    if (← inoOf p).isSome then
      pure (-EEXIST)
    else do
      let n ← pnodeAt p
      let err ← sysioPermitted e n.parent W_OK
      if err ≠ 0 then
        pure err
      else do
        let d ← parentIno p
        e.ops.symlink d p oldpath
  return status err

/-- `_sysio_mknod`. -/
def sysioMknod (e : Env D) (p : Pno) (mode dev : ℕ) : Sysio D ℤ := do
  if (← inoOf p).isSome then
    return -EEXIST
  if mode &&& S_IFMT ≠ S_IFREG ∧ mode &&& S_IFMT ≠ S_IFCHR ∧ mode &&& S_IFMT ≠ S_IFIFO then
    return -EINVAL
  if ← isRdonly p then
    return -EROFS
  let d ← parentIno p
  e.ops.mknod d p mode dev

/-- `mknod`. -/
def interfaceMknod (e : Env D) (path : Bytes) (mode dev : ℕ) : Sysio D Ret := do
  let umask ← Exec.read fun s => s.umask
  let mode := mode - (mode &&& (umask &&& 0o777))
  let err ← onPath e path ND_NEGOK (some ⟨INT_CREAT⟩) fun p => do
    let n ← pnodeAt p
    let err ← sysioPermitted e n.parent W_OK
    if err ≠ 0 then
      pure err
    else
      sysioMknod e p mode dev
  return status err

/-- `link`. -/
def interfaceLink (e : Env D) (oldpath newpath : Bytes) : Sysio D Ret := do
  let err ← onPath e oldpath 0 (some ⟨0⟩) fun old => do
    let i ← nonNull (← inoOf old)
    let r ← inodeAt i
    if r.stbuf.isDir then
      pure (-EPERM)
    else
      onPath e newpath ND_NEGOK (some ⟨INT_UPDPARENT⟩) fun new => do
        if (← inoOf new).isSome then
          pure (-EEXIST)
        else do
          let no ← pnodeAt old
          let nn ← pnodeAt new
          let mo ← mountAt no.mount
          let mn ← mountAt nn.mount
          if mo.root ≠ mn.root then
            pure (-EXDEV)
          else do
            let d ← parentIno old
            let err ← e.ops.link d old new
            if err ≠ 0 then
              pure err
            else do
              let io ← inoOf old
              let inn ← inoOf new
              assert (inn.isNone && io.isSome)
              let i ← nonNull io
              modBase nn.base fun r => { r with ino := some i }
              iRef i
              pure 0
  return status err

/-- The checks of `rename` on an existing target. -/
def renameReplaces (old new : Option InoId) : Sysio D ℤ :=
  match new with
  | none => pure 0
  | some j => do
    let ro ← inodeAt (← nonNull old)
    let rn ← inodeAt j
    return if rn.stbuf.isDir then
        if !ro.stbuf.isDir then -EISDIR else if 2 < rn.stbuf.nlink then -ENOTEMPTY else 0
      else if ro.stbuf.isDir then -ENOTDIR else 0

/-- `rename` behind the two look-ups. -/
def renameNodes (e : Env D) (old new : Pno) : Sysio D ℤ := do
  let no ← pnodeAt old
  let nn ← pnodeAt new
  let mo ← mountAt no.mount
  let mn ← mountAt nn.mount
  if mo.root = some old ∨ no.cover.isSome ∨ mn.root = some new then
    return -EBUSY
  if mo.fs ≠ mn.fs then
    return -EXDEV
  let depth ← Exec.read fun s => s.nc.nextBase
  if ← hasAncestor no.base depth nn.base then
    return -EINVAL
  let io ← inoOf old
  let inn ← inoOf new
  if io = inn then
    return 0
  let err ← renameReplaces io inn
  if err ≠ 0 then
    return err
  let left ← sysioPPrune e new
  if left ≠ 1 then
    return -EBUSY
  let d ← parentIno old
  let err ← e.ops.rename d old new
  if err ≠ 0 then
    return err
  ifSome (← inoOf new) (iGone e)
  let io ← inoOf old
  modBase nn.base fun r => { r with ino := io }
  modBase no.base fun r => { r with ino := none }
  return 0

/-- `rename`. -/
def interfaceRename (e : Env D) (oldpath newpath : Bytes) : Sysio D Ret := do
  if oldpath = [] ∨ newpath = [] then
    return (-1, -ENOENT)
  let err ← onPath e oldpath ND_NOFOLLOW (some ⟨INT_UPDPARENT⟩) fun old =>
    onPath e newpath (ND_NOFOLLOW ||| ND_NEGOK) (some ⟨INT_UPDPARENT⟩) fun new =>
      renameNodes e old new
  return status err

/-- `_sysio_p_chdir`. -/
def sysioPChdir (e : Env D) (p : Pno) : Sysio D ℤ := do
  let err ← sysioPValidate e p none none
  if err ≠ 0 then
    return err
  match ← inoOf p with
  | none => return -ENOTDIR
  | some i => do
    let r ← inodeAt i
    if !r.stbuf.isDir then
      return -ENOTDIR
    let err ← sysioPermitted e p X_OK
    if err ≠ 0 then
      return err
    let cwd ← Exec.read fun s => s.mt.cwd
    ifSome cwd pRele
    Exec.write fun s => { s with mt.cwd := some p }
    return 0

/-- `chdir`. -/
def interfaceChdir (e : Env D) (path : Bytes) : Sysio D Ret := do
  let cwd ← Exec.read fun s => s.mt.cwd
  let (err, found) ← sysioNamei e cwd (some path) 0 none
  if err ≠ 0 then
    return status err
  let p ← nonNull found
  let err ← sysioPChdir e p
  Exec.when (err ≠ 0) (pRele p)
  return status err

/-- `mount`; `fssw` is what the file system switch finds for `fstype`. -/
def interfaceMount (e : Env D) (fssw : Option (FsswopMount D)) (source target fstype : Bytes)
    (mountflags : ℕ) : Sysio D Ret := do
  let root ← Exec.read fun s => s.mt.root
  let err ← sysioMount e fssw root source target fstype mountflags
  return status err

/-- `umount`. -/
def interfaceUmount (e : Env D) (target : Bytes) : Sysio D Ret := do
  match ← sysioFindMount target with
  | none => return status (-1)
  | some m => do
    let target ← afterPrefix m target
    let root ← mountRootOf m
    let (err, found) ← sysioNamei e root (some target) 0 none
    if err ≠ 0 then
      return status err
    let p ← nonNull found
    pRele p
    let n ← pnodeAt p
    let err ← sysioDoUnmount e n.mount
    return status err

/-- `dup` and `dup2`. -/
def interfaceDup (e : Env D) (oldfd : ℤ) : Sysio D Ret := do
  let fd ← sysioFdDup e oldfd (-1) false
  return (if fd < 0 then -1 else fd, if fd < 0 then fd else 0)

def interfaceDup2 (e : Env D) (oldfd newfd : ℤ) : Sysio D Ret := do
  if newfd < 0 then
    return (-1, -EBADF)
  let fd ← sysioFdDup e oldfd newfd true
  return (if fd < 0 then -1 else fd, if fd < 0 then fd else 0)

/-- `read`, `write`, `pread` and `pwrite` on an open file: positional calls give the offset, the
others take and advance the file position. -/
def transfer (e : Env D) (wr : Bool) (fd : ℤ) (count : ℕ) (offset : Option ℤ) : Sysio D Ret := do
  match ← sysioFdFind fd with
  | none => return (-EBADF, 0)
  | some f => do
    let r ← fileAt f
    if !fChkrw r.flags wr then
      return (-EBADF, 0)
    let off := offset.getD r.pos
    let cc ← (if wr then e.ops.write r.ino count off r.pno else e.ops.read r.ino count off r.pno)
    Exec.when (offset = none ∧ 0 ≤ cc) do
      let r ← fileAt f
      setFile f { r with pos := r.pos + cc }
    return (cc, 0)

def interfaceRead (e : Env D) (fd : ℤ) (count : ℕ) : Sysio D Ret := transfer e false fd count none

def interfaceWrite (e : Env D) (fd : ℤ) (count : ℕ) : Sysio D Ret := transfer e true fd count none

def interfacePread (e : Env D) (fd : ℤ) (count : ℕ) (offset : ℤ) : Sysio D Ret :=
  transfer e false fd count (some offset)

def interfacePwrite (e : Env D) (fd : ℤ) (count : ℕ) (offset : ℤ) : Sysio D Ret :=
  transfer e true fd count (some offset)

/-- `do_truncate` for an open file. -/
def doTruncate (e : Env D) (p : Pno) (i : InoId) (length : ℤ) : Sysio D ℤ := do
  if length < 0 then
    return -EINVAL
  let r ← inodeAt i
  if r.stbuf.isDir then
    return -EISDIR
  if !r.stbuf.isReg then
    return -EINVAL
  e.ops.ftruncate i p length

/-- `ftruncate`. -/
def interfaceFtruncate (e : Env D) (fd : ℤ) (length : ℤ) : Sysio D Ret := do
  match ← sysioFdFind fd with
  | none => return status (-EBADF)
  | some f => do
    let r ← fileAt f
    if !fChkrw r.flags true then
      return status (-EBADF)
    let err ← doTruncate e r.pno r.ino length
    return status err

/-- `fsync`. -/
def interfaceFsync (e : Env D) (fd : ℤ) : Sysio D Ret := do
  match ← sysioFdFind fd with
  | none => return status (-EBADF)
  | some f => do
    let r ← fileAt f
    let err ← e.ops.sync r.ino r.pno
    return status err

/-- `fdatasync` hands the inode to an operation that takes a path node. -/
def interfaceFdatasync (e : Env D) (fd : ℤ) : Sysio D Ret := do
  match ← sysioFdFind fd with
  | none => return status (-EBADF)
  | some f => do
    let r ← fileAt f
    let err ← e.ops.datasync r.ino none
    return status err

/-- `fstat`. -/
def interfaceFstat (e : Env D) (fd : ℤ) : Sysio D Ret := do
  match ← sysioFdFind fd with
  | none => return status (-EBADF)
  | some f => do
    let r ← fileAt f
    let err ← e.ops.getattr r.ino none (some r.ino)
    return status err

/-- `fchmod` and `fchown`. -/
def interfaceFsetattr (e : Env D) (fd : ℤ) (mask : ℕ) : Sysio D Ret := do
  match ← sysioFdFind fd with
  | none => return status (-EBADF)
  | some f => do
    let r ← fileAt f
    let err ← sysioSetattr e none (some r.ino) mask
    return status err

/-- `fchmod`. -/
def interfaceFchmod (e : Env D) (fd : ℤ) : Sysio D Ret := interfaceFsetattr e fd SETATTR_MODE

/-- `fchown`. -/
def interfaceFchown (e : Env D) (fd : ℤ) (owner group : ℤ) : Sysio D Ret :=
  interfaceFsetattr e fd (ownerMask owner group)

inductive Whence where
  | set
  | cur
  | end_
  | other
  deriving DecidableEq, Repr

/-- `_sysio_lseek_prepare`. `size` is what the driver puts into the attributes. -/
def sysioLseekPrepare (e : Env D) (r : File) (offset : ℤ) (whence : Whence) (max size : ℤ) :
    Sysio D ℤ := do
  let (err, off) ← (match whence with
    | .set => pure (0, 0)
    | .cur => pure (0, r.pos)
    | .end_ => do
      let err ← e.ops.getattr r.ino none (some r.ino)
      pure (err, size)
    | .other => pure (-EINVAL, 0))
  if err ≠ 0 then
    return err
  let pos := wrap64 (off + offset)
  if (offset < 0 ∧ off < wrap64 (-offset)) ∨ (0 < offset ∧ pos ≤ off) then
    return -EINVAL
  if max ≤ pos then
    return -EOVERFLOW
  return pos

/-- `_sysio_lseek`. -/
def sysioLseek (e : Env D) (f : FilId) (offset : ℤ) (whence : Whence) (max size : ℤ) :
    Sysio D ℤ := do
  let r ← fileAt f
  let pos ← sysioLseekPrepare e r offset whence max size
  if pos < 0 then
    return pos
  let r ← fileAt f
  setFile f { r with pos := pos }
  return pos

/-- `lseek`. -/
def interfaceLseek (e : Env D) (fd offset : ℤ) (whence : Whence) (size : ℤ) : Sysio D Ret := do
  match ← sysioFdFind fd with
  | none => return (-1, -EBADF)
  | some f => do
    let off ← sysioLseek e f offset whence SSIZE_MAX size
    return (if off < 0 then -1 else off, if off < 0 then toInt off else 0)

/-- The tail of an asynchronous call: the vectors of a failed post are the caller's to free. The
identifier returned is `u`, what the local variable held, when there is no context. -/
def posted (u : IocId) (vecs : List VecId) (post : Sysio D (ℤ × Option IocId)) :
    Sysio D (Option IocId × ℤ) := do
  let (err, c) ← post
  if err ≠ 0 then
    freeVecs vecs
    return (none, err)
  else
    return (some (c.getD u), 0)

/-- `iread` and `iwrite`, which allocate both vectors and complete at the file position. -/
def interfaceIread (e : Env D) (u : IocId) (wr : Bool) (fd : ℤ) (count : ℕ) (cc : ℤ) :
    Sysio D (Option IocId × ℤ) := do
  match ← sysioFdFind fd with
  | none => return (none, -EBADF)
  | some f => do
    match ← mallocVec e with
    | none => return (none, -ENOMEM)
    | some iov => do
      match ← mallocVec e with
      | none => do
        freeVec iov
        return (none, -ENOMEM)
      | some xtv =>
        posted u [xtv, iov]
          (sysioIiov e wr f [count] cc (some iov) (some xtv) [.freeIov, .freeXtv])

/-- `ireadv` and `iwritev`; the buffers are the caller's. -/
def interfaceIreadv (e : Env D) (u : IocId) (wr : Bool) (fd : ℤ) (lens : List ℕ) (cc : ℤ) :
    Sysio D (Option IocId × ℤ) := do
  match ← sysioFdFind fd with
  | none => return (none, -EBADF)
  | some f => do
    match ← mallocVec e with
    | none => return (none, -ENOMEM)
    | some xtv => posted u [xtv] (sysioIiov e wr f lens cc none (some xtv) [.freeXtv])

/-- `ipread` and `ipwrite`, which try both allocations before they look at the first. -/
def interfaceIpread (e : Env D) (u : IocId) (wr : Bool) (fd : ℤ) (count : ℕ) (cc : ℤ) :
    Sysio D (Option IocId × ℤ) := do
  match ← sysioFdFind fd with
  | none => return (none, -EBADF)
  | some f => do
    let xtv ← mallocVec e
    let iov ← mallocVec e
    match xtv, iov with
    | some xtv, some iov =>
      posted u [iov, xtv]
        (sysioIpiov e wr f [count] cc (some iov) (some xtv) [.freeIov, .freeXtv])
    | xtv, iov => do
      freeVecs (iov.toList ++ xtv.toList)
      return (none, -ENOMEM)

/-- `ipreadv` and `ipwritev`. -/
def interfaceIpreadv (e : Env D) (u : IocId) (wr : Bool) (fd : ℤ) (lens : List ℕ) (cc : ℤ) :
    Sysio D (Option IocId × ℤ) := do
  match ← sysioFdFind fd with
  | none => return (none, -EBADF)
  | some f => do
    match ← mallocVec e with
    | none => return (none, -ENOMEM)
    | some xtv => posted u [xtv] (sysioIpiov e wr f lens cc none (some xtv) [.freeXtv])

/-- `ireadx` and `iwritex`, which convert the extents and need some of both kinds. -/
def interfaceIreadx (e : Env D) (u : IocId) (wr : Bool) (fd : ℤ) (iovs xtvs : ℕ) (cc : ℤ) :
    Sysio D (Option IocId × ℤ) := do
  match ← sysioFdFind fd with
  | none => return (none, -EBADF)
  | some f => do
    if iovs = 0 ∨ xtvs = 0 then
      return (none, -EINVAL)
    match ← mallocVec e with
    | none => return (none, -ENOMEM)
    | some xtv => posted u [xtv] (sysioIiox e wr f cc none (some xtv) [.freeXtv])

/-- `iread64x`, whose vectors belong to the caller. -/
def interfaceIread64x (e : Env D) (u : IocId) (fd : ℤ) (iovs xtvs : ℕ) (cc : ℤ) :
    Sysio D (Option IocId × ℤ) := do
  match ← sysioFdFind fd with
  | none => return (none, -EBADF)
  | some f => do
    if iovs = 0 ∨ xtvs = 0 then
      return (none, -EINVAL)
    posted u [] (sysioIiox e false f cc none none [])

/-- `iwrite64x`, which only looks at the number of extents. -/
def interfaceIwrite64x (e : Env D) (u : IocId) (fd : ℤ) (xtvs : ℕ) (cc : ℤ) :
    Sysio D (Option IocId × ℤ) := do
  match ← sysioFdFind fd with
  | none => return (none, -EBADF)
  | some f => do
    if xtvs = 0 then
      return (none, -EBADF)
    posted u [] (sysioIiox e true f cc none none [])

/-- `iodone`. -/
def interfaceIodone (e : Env D) (ioid : IocId) : Sysio D Ret := do
  match ← sysioIoctxFind ioid with
  | none => return (-1, -EINVAL)
  | some c => do
    let done ← sysioIoctxDone e c
    return (if done then 1 else 0, 0)

/-- `iowait`, polling at most `polls` times. -/
def interfaceIowait (e : Env D) (ioid : IocId) (polls : ℕ) : Sysio D Ret := do
  match ← sysioIoctxFind ioid with
  | none => return (-1, -EINVAL)
  | some c => do
    let cc ← sysioIoctxWait e c polls
    return (if cc < 0 then -1 else cc, if cc < 0 then cc else 0)

end SysioInterface
