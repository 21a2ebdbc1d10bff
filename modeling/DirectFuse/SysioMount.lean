import DirectFuse.SysioNamei

/-! File system records (fs.c) and mounts (mount.c). -/
namespace SysioMount

open ExecLogic SysioState SysioInode SysioNamei

variable {D : Type}

/-- `_sysio_fs_new`. `FS_INIT` leaves `fs_dev` as the allocator left it and copies the name to
memory it does not check. -/
def sysioFsNew (e : Env D) (flags : ℕ) (name : Bytes) (priv : ℕ) : Sysio D (Option FsId) := do
  let dev ← Exec.read fun s => e.junk s.mallocs
  if !(← malloc e) then
    return none
  let named ← malloc e
  Exec.check .wild fun _ => named
  let f ← Exec.read fun s => s.ic.nextFs
  Exec.write fun s =>
    { s with
      ic.filesys := Function.update s.ic.filesys f
        (some { ref := 1, flags := flags, name := name, itbl := fun _ => [], dev := dev,
                priv := priv })
      ic.nextFs := f + 1 }
  return some f

/-- Empties one hash chain of a file system's inode table. -/
def drainChain (e : Env D) (f : FsId) (slot : ℕ) : ℕ → Sysio D Unit
  | 0 => Exec.fault .diverge
  | fuel + 1 => do
    let r ← fsAt f
    match r.itbl slot with
    | [] => pure ()
    | i :: _ => do
      sysioIGone e i
      drainChain e f slot fuel

/-- Empties the hash chains below `n`, the last one first. -/
def drainTable (e : Env D) (f : FsId) : ℕ → Sysio D Unit
  | 0 => pure ()
  | n + 1 => do
    let r ← fsAt f
    drainChain e f n ((r.itbl n).length + 1)
    drainTable e f n

/-- `_sysio_fs_gone`. -/
def sysioFsGone (e : Env D) (f : FsId) : Sysio D Unit := do
  let r ← fsAt f
  Exec.check .abort fun _ => decide (r.ref = 0)
  drainTable e f FS_ITBLSIZ
  e.ops.fsopGone f
  Exec.write fun s => { s with ic.filesys := Function.update s.ic.filesys f none }

/-- `FS_RELE`. -/
def fsRele (e : Env D) (f : FsId) : Sysio D Unit := do
  let r ← fsAt f
  assert (decide (r.ref ≠ 0))
  setFs f { r with ref := r.ref - 1 }
  if r.ref - 1 = 0 then
    sysioFsGone e f

/-- The loop of `_sysio_find_mount`. -/
def findMountLoop (path : Bytes) : List MntId → Sysio D (Option MntId)
  | [] => pure none
  | m :: l => do
    let r ← mountAt m
    let f ← fsAt r.fs
    if f.name.isPrefixOf path then pure (some m) else findMountLoop path l

/-- `_sysio_find_mount`. -/
def sysioFindMount (path : Bytes) : Sysio D (Option MntId) := do
  let mounts ← Exec.read fun s => s.mt.mounts
  findMountLoop path mounts

/-- Whether `target` is `b` or an ancestor of it. -/
def hasAncestor (target : PbId) : ℕ → PbId → Sysio D Bool
  | 0, _ => Exec.fault .diverge
  | fuel + 1, b =>
    if b = target then
      pure true
    else do
      let r ← baseAt b
      match r.parent with
      | none => pure false
      | some q => hasAncestor target fuel q

/-- `free(mnt)`. -/
def freeMount (m : MntId) : Sysio D Unit := Exec.write fun s =>
  { s with mt.mount := Function.update s.mt.mount m none }

/-- The error exit of `_sysio_do_mount`. -/
def doMountError (e : Env D) (m : MntId) (root : Option Pno) (err : ℤ) :
    Sysio D (ℤ × Option MntId) := do
  ifSome root fun r => do
    pRele r
    let _ ← sysioPPrune e r
  freeMount m
  return (err, none)

/-- The tail of `_sysio_do_mount`: the mount covers `tocover`, or itself when there is none. An
existing cover is overwritten; the two paths computed for it are only leaked. -/
def coverUp (e : Env D) (m : MntId) (root : Pno) (tocover : Option Pno) : Sysio D Unit := do
  let target := tocover.getD root
  let r ← mountAt m
  setMount m { r with covers := some target }
  let n ← pnodeAt target
  ifSome n.cover fun c => do
    let nc ← pnodeAt c
    let _ ← sysioPbPath e nc.base PATH_SEPARATOR
    let nr ← pnodeAt root
    let _ ← sysioPbPath e nr.base PATH_SEPARATOR
  setPnode target { n with cover := some root }
  Exec.write fun s => { s with mt.mounts := m :: s.mt.mounts }

/-- Whether the node to cover is, or lies above, the root of the new mount. -/
def coversAncestor (tocover : Option Pno) (rootpb : PbId) : Sysio D Bool :=
  match tocover with
  | none => pure false
  | some t => do
    let n ← pnodeAt t
    let depth ← Exec.read fun s => s.nc.nextBase
    hasAncestor n.base depth rootpb

/-- The parent the root of a mount gets: that of the node it covers. -/
def parentAbove (tocover : Option Pno) : Sysio D (Option Pno) :=
  match tocover with
  | none => pure none
  | some t => do
    let n ← pnodeAt t
    pure (some n.parent)

/-- `_sysio_do_mount`. -/
def sysioDoMount (e : Env D) (fs : FsId) (rootpb : PbId) (flags : ℕ) (tocover : Option Pno) :
    Sysio D (ℤ × Option MntId) := do
  if ← coversAncestor tocover rootpb then
    return (-EBUSY, none)
  if !(← malloc e) then
    return (-ENOMEM, none)
  let m ← Exec.read fun s => s.mt.nextMount
  let f ← fsAt fs
  let flags := if f.flags &&& FS_F_RO ≠ 0 then flags ||| MOUNT_F_RO else flags
  Exec.write fun s =>
    { s with
      mt.mount := Function.update s.mt.mount m
        (some { fs := fs, flags := flags, root := none, covers := none })
      mt.nextMount := m + 1 }
  let above ← parentAbove tocover
  let made ← sysioPNewAlias e above rootpb m
  let r ← mountAt m
  setMount m { r with root := made }
  match made with
  | none => doMountError e m none (-ENOMEM)
  | some root => do
    let err ← sysioPValidate e root none none
    if err ≠ 0 then
      doMountError e m (some root) err
    else do
      let i ← nonNull (← inoOf root)
      let ri ← inodeAt i
      if !ri.stbuf.isDir then
        doMountError e m (some root) (-ENOTDIR)
      else do
        coverUp e m root tocover
        return (0, some m)

/-- The part of `_sysio_do_unmount` behind "We're committed". -/
def unmountCommit (e : Env D) (m : MntId) (root covers : Pno) : Sysio D ℤ := do
  let r ← mountAt m
  let nr ← pnodeAt root
  Exec.when (nr.cover ≠ some root) (pRele covers)
  let n ← pnodeAt covers
  setPnode covers { n with cover := none }
  Exec.write fun s => { s with mt.mounts := s.mt.mounts.erase m }
  pRele root
  let nr ← pnodeAt root
  setPnode root { nr with cover := none }
  sysioPGone e root
  freeMount m
  fsRele e r.fs
  return 0

/-- `_sysio_do_unmount`. -/
def sysioDoUnmount (e : Env D) (m : MntId) : Sysio D ℤ := do
  let r ← mountAt m
  let root ← nonNull r.root
  let nr ← pnodeAt root
  if nr.cover ≠ none ∧ nr.cover ≠ some root then
    return -EBUSY
  let covers ← nonNull r.covers
  let n ← pnodeAt covers
  assert (decide (n.cover = some root))
  let left ← sysioPPrune e root
  if left ≠ 1 then
    return -EBUSY
  unmountCommit e m root covers

/-- A driver's `fsswop_mount`: source, flags, type name and the node to cover. The mount is absent
where the driver leaves `*mntp` alone. -/
abbrev FsswopMount (D : Type) := Bytes → ℕ → Bytes → Option Pno → Sysio D (ℤ × Option MntId)

/-- `_sysio_mount_root`; `fssw` is what the file system switch finds for the type. -/
def sysioMountRoot (fssw : Option (FsswopMount D)) (source fstype : Bytes) (flags : ℕ) :
    Sysio D ℤ := do
  let root ← Exec.read fun s => s.mt.root
  if root.isSome then
    return -EBUSY
  match fssw with
  | none => return -ENODEV
  | some mount => do
    let (err, mnt) ← mount source flags fstype none
    if err ≠ 0 then
      return err
    let m ← nonNull mnt
    let r ← mountAt m
    Exec.write fun s => { s with mt.root := r.root }
    let cwd ← Exec.read fun s => s.mt.cwd
    Exec.when (cwd = none) do
      let p ← nonNull r.root
      Exec.write fun s => { s with mt.cwd := some p }
      pRef p
    return 0

/-- `_sysio_mount`. -/
def sysioMount (e : Env D) (fssw : Option (FsswopMount D)) (cwd : Option Pno)
    (source target fstype : Bytes) (mountflags : ℕ) : Sysio D ℤ := do
  match fssw with
  | none => return -ENODEV
  | some mount => do
    let (err, found) ← sysioNamei e cwd (some target) mountflags (some ⟨INT_GETATTR⟩)
    if err ≠ 0 then
      return err
    let tgt ← nonNull found
    let (err, _) ← mount source mountflags fstype (some tgt)
    Exec.when (err ≠ 0) (pRele tgt)
    return err

end SysioMount
