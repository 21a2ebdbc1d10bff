import DirectFuse.SysioInode

/-! Permission checks (access.c) and the path walk (namei.c). -/
namespace SysioNamei

open ExecLogic SysioState SysioInode

variable {D : Type}

/-- `struct creds`, with the group list cut to `creds_ngids` entries. -/
structure Creds where
  uid : ℕ
  gids : List ℕ
  deriving DecidableEq, Repr

def bitsOf (amode usr : ℕ) : ℕ :=
  (if amode &&& R_OK ≠ 0 then 4 else 0) * usr + (if amode &&& W_OK ≠ 0 then 2 else 0) * usr
    + (if amode &&& X_OK ≠ 0 then 1 else 0) * usr

/-- The decision of `_sysio_check_permission` before the read-only check. -/
def permissionBits (st : Stat) (crp : Creds) (amode : ℕ) : ℤ :=
  if crp.uid = 0 then 0
  else if st.uid = crp.uid then
    if st.mode &&& bitsOf amode 0o100 = bitsOf amode 0o100 then 0 else -EACCES
  else if st.gid ∈ crp.gids then
    if st.mode &&& bitsOf amode 0o010 = bitsOf amode 0o010 then 0 else -EACCES
  else
    if st.mode &&& bitsOf amode 0o001 = bitsOf amode 0o001 then 0 else -EACCES

/-- `_sysio_check_permission`. -/
def sysioCheckPermission (p : Pno) (crp : Creds) (amode : ℕ) : Sysio D ℤ := do
  if amode &&& (R_OK ||| W_OK ||| X_OK) ≠ amode then
    return -EINVAL
  if amode = 0 then
    return 0
  let ino ← inoOf p
  assert ino.isSome
  let i ← nonNull ino
  let r ← inodeAt i
  let err := permissionBits r.stbuf crp amode
  if err ≠ 0 then
    return err
  if amode &&& W_OK ≠ 0 then
    if ← isRdonly p then
      return -EROFS
  return 0

/-- Grows the buffer for the group list to `n` entries. -/
def growGids (e : Env D) (n : ℕ) : Sysio D Bool := do
  if !(← malloc e) then
    return false
  Exec.write fun s => { s with gidslen := n }
  return true

/-- The retry loop of `_sysio_ldgroups`, the buffer holding `n` entries. `getgroups` fails with
`EINVAL` while the caller's groups do not fit behind the first entry. -/
def ldgroupsLoop (e : Env D) : ℕ → ℕ → Sysio D ℤ
  | 0, _ => Exec.fault .diverge
  | fuel + 1, n => do
    let len ← Exec.read fun s => s.gidslen
    let fits ← (if len < n then growGids e n else pure true)
    if !fits then
      return -ENOMEM
    if n - 1 < e.groups.length then
      if (2 ^ 31 - 1) / 2 < n then
        return -EINVAL
      else
        ldgroupsLoop e fuel (n * 2)
    else
      return e.groups.length

/-- `_sysio_ldgroups`. -/
def sysioLdgroups (e : Env D) : Sysio D ℤ := do
  let len ← Exec.read fun s => s.gidslen
  ldgroupsLoop e 32 (if len < 8 then 8 else len)

/-- `_sysio_ldcreds` for the effective ids. The buffer starts with the group id itself, and only
as many entries as there are supplementary groups are looked at. -/
def sysioLdcreds (e : Env D) : Sysio D (ℤ × Creds) := do
  let n ← sysioLdgroups e
  if n < 0 then
    return (n, ⟨0, []⟩)
  else
    return (0, ⟨e.euid, (e.egid :: e.groups).take n.toNat⟩)

/-- `_sysio_permitted`. -/
def sysioPermitted (e : Env D) (p : Pno) (amode : ℕ) : Sysio D ℤ := do
  let (err, cr) ← sysioLdcreds e
  if err < 0 then
    return err
  sysioCheckPermission p cr amode

/-- A plain char is signed: bytes from 128 on count as negative. -/
def signedChar (c : UInt8) : ℕ := if c.toNat < 128 then c.toNat else c.toNat + (2 ^ 32 - 256)

/-- The hash of a component name. -/
def nameHash (name : Bytes) : ℕ := name.foldl (fun h c => (37 * h + signedChar c) % 2 ^ 32) 0

/-- `_sysio_next_component`: the next component and the path behind it. -/
def sysioNextComponent (path : Bytes) : Qstr × Bytes :=
  let path := path.dropWhile (· == PATH_SEPARATOR)
  let name := path.takeWhile (· != PATH_SEPARATOR)
  (⟨name, nameHash name⟩, path.drop name.length)

/-- A component of a path under walk, with the path from it on and the path behind it. -/
structure Component where
  qstr : Qstr
  from_ : Bytes
  after : Bytes
  deriving DecidableEq, Repr

def componentsAux : ℕ → Bytes → List Component
  | 0, _ => []
  | fuel + 1, path =>
    let (next, after) := sysioNextComponent path
    if next.name = [] then [] else ⟨next, next.name ++ after, after⟩ :: componentsAux fuel after

/-- All components of a path, as successive calls of `_sysio_next_component` deliver them. -/
def components (path : Bytes) : List Component := componentsAux path.length path

def DOT : UInt8 := 46

/-- The cover loop of `lookup`. A chain of covers is no longer than the list of nodes. -/
def toTopCover : ℕ → Pno → Sysio D Pno
  | 0, _ => Exec.fault .diverge
  | fuel + 1, p => do
    let n ← pnodeAt p
    match n.cover with
    | none => pure p
    | some cover =>
      if cover = p then
        pure p
      else do
        pRef cover
        pRele p
        toTopCover fuel cover

/-- The node `lookup` finds for a component, short-circuiting "." and "..". -/
def lookupNode (e : Env D) (parent : Pno) (name : Qstr) : Sysio D (ℤ × Option Pno) := do
  if name.name = [DOT] then
    pRef parent
    return (0, some parent)
  else if name.name = [DOT, DOT] then
    let n ← pnodeAt parent
    pRef n.parent
    return (0, some n.parent)
  else
    sysioPFindAlias e parent name

/-- `lookup`. The second component is what `*pnop` holds on return. -/
def lookup (e : Env D) (parent : Pno) (name : Qstr) (intnt : Option Intent) (path : Option Bytes)
    (checkPermissions : Bool) : Sysio D (ℤ × Option Pno) := do
  if (← inoOf parent) = none then
    return (-ENOTDIR, none)
  let err ← (if checkPermissions then sysioPermitted e parent X_OK else pure 0)
  if err ≠ 0 then
    return (err, none)
  let (err, found) ← lookupNode e parent name
  if err ≠ 0 then
    return (err, none)
  let p ← nonNull found
  let depth ← Exec.read fun s => s.nc.pnodes.length
  let p ← toTopCover (depth + 1) p
  let err ← sysioPValidate e p intnt path
  return (err, some p)

/-- `struct nameidata` on entry; the result pointer is returned instead. -/
structure Nameidata where
  flags : ℕ
  path : Option Bytes
  root : Option Pno
  intent : Option Intent
  deriving DecidableEq, Repr

/-- Behind the loop of `_sysio_path_walk` the parent becomes the result when there is none. -/
def walkResult (err : ℤ) (cur parent : Option Pno) : Sysio D (ℤ × Pno × Option Pno) :=
  match cur with
  | some p => pure (err, p, parent)
  | none => do
    let p ← nonNull parent
    if err ≠ 0 then
      return (err, p, none)
    let i ← nonNull (← inoOf p)
    let r ← inodeAt i
    return (if r.stbuf.isDir then err else -ENOTDIR, p, none)

/-- The code behind the loop of `_sysio_path_walk`: `cur` and `parent` are the path nodes still
held there. -/
def walkExit (err : ℤ) (cur parent : Option Pno) : Sysio D (ℤ × Option Pno) := do
  let (err, p, parent) ← walkResult err cur parent
  ifSome parent pRele
  if err ≠ 0 then
    pRele p
    return (err, none)
  else
    return (err, some p)

/-- What follows a symbolic link: the walk over the link's text. -/
abbrev Follow (D : Type) := Pno → Nameidata → Sysio D (ℤ × Option Pno)

/-- The symbolic link branch of the walk at node `cur`. On success the reference moves from the
link to the node it leads to. `follow` is absent when `MAX_SYMLINK` links were followed. -/
def followLink (e : Env D) (follow : Option (Follow D)) (nd : Nameidata) (last : Bool) (cur : Pno)
    (i : InoId) : Sysio D (ℤ × Pno) := do
  match follow with
  | none => pure (-ELOOP, cur)
  | some walk => do
    if !(← malloc e) then
      return (-ENOMEM, cur)
    let (cc, lpath) ← e.ops.readlink i cur 4096
    if cc < 0 then
      return (cc, cur)
    let text := (lpath.take cc.toNat).takeWhile (· != 0)
    let n ← pnodeAt cur
    let (err, found) ← walk n.parent
      { flags := nd.flags, path := some text, root := nd.root
        intent := if last then nd.intent else none }
    if err ≠ 0 then
      return (err, cur)
    pRele cur
    let p ← nonNull found
    return (0, p)

/-- The loop of `_sysio_path_walk`, standing at `cur` with the components `comps` to go. -/
def walkLoop (e : Env D) (follow : Option (Follow D)) (nd : Nameidata) :
    List Component → Option Bytes → Pno → Sysio D (ℤ × Option Pno)
  | comps, path, cur => do
    let i ← nonNull (← inoOf cur)
    let r ← inodeAt i
    let (err, cur) ← (if r.stbuf.isLnk ∧ (comps ≠ [] ∨ nd.flags &&& ND_NOFOLLOW = 0) then
      followLink e follow nd comps.isEmpty cur i else pure (0, cur))
    if err ≠ 0 then
      walkExit err (some cur) none
    else
      match comps with
      | [] => walkExit 0 (some cur) none
      | this :: rest => do
        match ← inoOf cur with
        | none => walkExit (-ENOENT) (some cur) none
        | some i => do
          let r ← inodeAt i
          if !r.stbuf.isDir then
            walkExit (-ENOTDIR) none (some cur)
          else do
            -- The hint goes along with the first lookup in each file system.
            let path := path.map fun _ => this.from_
            let (err, found) ← lookup e cur this.qstr
              (if path.isSome ∨ rest = [] then nd.intent else none)
              (if rest ≠ [] then path else none) (nd.flags &&& ND_NOPERMCHECK = 0)
            if err ≠ 0 then
              if err = -ENOENT ∧ rest = [] ∧ nd.flags &&& ND_NEGOK ≠ 0 then
                walkExit 0 found (some cur)
              else
                walkExit err found (some cur)
            else do
              let p ← nonNull found
              let nc ← pnodeAt cur
              let np ← pnodeAt p
              let mc ← mountAt nc.mount
              let mp ← mountAt np.mount
              pRele cur
              walkLoop e follow nd rest (if mc.fs ≠ mp.fs then some this.after else none) p

/-- The head of `_sysio_path_walk`, up to the loop. -/
def walkFrom (e : Env D) (follow : Option (Follow D)) (parent : Option Pno) (nd : Nameidata) :
    Sysio D (ℤ × Option Pno) := do
  match nd.path with
  | none => pure (-EFAULT, none)
  | some [] => pure (-ENOENT, none)
  | some (c :: l) => do
    let parent ← nonNull (if c = PATH_SEPARATOR then nd.root else parent)
    let err ← sysioPValidate e parent none none
    if err ≠ 0 then
      return (err, none)
    pRef parent
    walkLoop e follow nd (components (c :: l)) (some (c :: l)) parent

/-- `_sysio_path_walk` with `budget` symbolic links left to follow. -/
def walkBudget (e : Env D) : ℕ → Option Pno → Nameidata → Sysio D (ℤ × Option Pno)
  | 0, parent, nd => walkFrom e none parent nd
  | budget + 1, parent, nd =>
    walkFrom e (some fun p nd => walkBudget e budget (some p) nd) parent nd

/-- `_sysio_path_walk`. -/
def sysioPathWalk (e : Env D) (parent : Option Pno) (nd : Nameidata) : Sysio D (ℤ × Option Pno) :=
  walkBudget e MAX_SYMLINK parent nd

/-- `_sysio_namei`. -/
def sysioNamei (e : Env D) (parent : Option Pno) (path : Option Bytes) (flags : ℕ)
    (intnt : Option Intent) : Sysio D (ℤ × Option Pno) := do
  let root ← Exec.read fun s => s.mt.root
  sysioPathWalk e parent { flags := flags, path := path, root := root, intent := intnt }

end SysioNamei
