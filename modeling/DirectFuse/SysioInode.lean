import DirectFuse.SysioState

/-! Path and index nodes (inode.c). The counters are unbounded, so the overflow assertions
behind `P_REF`, `I_REF` and the two size counters never fire and are left out. -/
namespace SysioInode

open ExecLogic SysioState

variable {D : Type}

/-- The successor of `x` on a queue(3) list. -/
def nextOf (x : ℕ) : List ℕ → Option ℕ
  | [] => none
  | a :: l => if a = x then l.head? else nextOf x l

/-- `P_REF`. Requeueing a node that is on no queue writes through stale links. -/
def pRef (p : Pno) : Sysio D Unit := do
  Exec.check .wild fun s => decide (p ∈ s.nc.pnodes)
  Exec.write fun s =>
    { s with
      nc.pnodes := s.nc.pnodes.erase p ++ [p]
      nc.pnode := Function.update s.nc.pnode p
        { s.nc.pnode p with ref := (s.nc.pnode p).ref + 1 } }

/-- `P_RELE`. -/
def pRele (p : Pno) : Sysio D Unit := do
  Exec.check .assertion fun s => decide ((s.nc.pnode p).ref ≠ 0)
  Exec.write fun s =>
    { s with
      nc.pnode := Function.update s.nc.pnode p
        { s.nc.pnode p with ref := (s.nc.pnode p).ref - 1 } }

/-- `I_REF`. -/
def iRef (i : InoId) : Sysio D Unit := do
  let r ← inodeAt i
  Exec.write fun s =>
    { s with
      ic.inodes := s.ic.inodes.erase i ++ [i]
      ic.inode := Function.update s.ic.inode i (some { r with ref := r.ref + 1 }) }

/-- The identifier hash; drivers identify files by the eight bytes of an inode number. -/
def fidHash (fid : ℕ) : ℕ :=
  (List.range 8).foldl (fun hkey k => (hkey * 2 + fid / 256 ^ k % 256) % 2 ^ 32) 0

def itblSlot (fid : ℕ) : ℕ := fidHash fid % FS_ITBLSIZ

/-- `LIST_REMOVE` of an inode from the table of its file system. -/
def itblRemove (i : InoId) (r : Inode) : Sysio D Unit := do
  let f ← fsAt r.fs
  setFs r.fs { f with
    itbl := Function.update f.itbl (itblSlot r.fid) ((f.itbl (itblSlot r.fid)).erase i) }

/-- `_sysio_i_gone`. -/
def sysioIGone (e : Env D) (i : InoId) : Sysio D Unit := do
  let r ← inodeAt i
  Exec.check .abort fun _ => decide (r.ref = 0)
  Exec.when (r.zombie = false) (itblRemove i r)
  Exec.write fun s => { s with ic.inodes := s.ic.inodes.erase i }
  e.ops.gone i
  Exec.write fun s => { s with ic.inode := Function.update s.ic.inode i none }
  Exec.check .assertion fun s => decide (s.ic.nInodes ≠ 0)
  Exec.write fun s => { s with ic.nInodes := s.ic.nInodes - 1 }

/-- `I_RELE`. -/
def iRele (e : Env D) (i : InoId) : Sysio D Unit := do
  let r ← inodeAt i
  assert (decide (r.ref ≠ 0))
  setInode i { r with ref := r.ref - 1 }
  if r.ref - 1 = 0 ∧ r.zombie then
    sysioIGone e i

/-- `_sysio_i_undead`. -/
def sysioIUndead (i : InoId) : Sysio D Unit := do
  let r ← inodeAt i
  if r.zombie then
    pure ()
  else do
    itblRemove i r
    setInode i { r with zombie := true }

/-- `I_GONE`. -/
def iGone (e : Env D) (i : InoId) : Sysio D Unit := do
  sysioIUndead i
  iRele e i

/-- The loop of `i_reclaim`, standing at `i`. -/
def iReclaimLoop (e : Env D) (t : ℕ) : ℕ → InoId → Sysio D Unit
  | 0, _ => Exec.fault .diverge
  | fuel + 1, i => do
    let next ← Exec.read fun s => nextOf i s.ic.inodes
    let r ← inodeAt i
    Exec.when (r.ref = 0 ∧ r.immune = false) (sysioIGone e i)
    let n ← Exec.read fun s => s.ic.nInodes
    match next with
    | none => pure ()
    | some j => if t < n then iReclaimLoop e t fuel j else pure ()

/-- `i_reclaim`. -/
def iReclaim (e : Env D) : Sysio D Unit := do
  let ic ← Exec.read fun s => s.ic
  let want ← Exec.read fun s => MAX_INODES_MULTIPLIER * s.nc.maxNames
  if ic.maxInodes < want then
    Exec.write fun s => { s with ic.maxInodes := want }
  else
    match ic.inodes.head? with
    | none => pure ()
    | some i => do
      let t := ic.maxInodes / 2
      iReclaimLoop e t ic.inodes.length i
      let n ← Exec.read fun s => s.ic.nInodes
      if t < n then
        Exec.write fun s => { s with ic.maxInodes := s.ic.maxInodes + t }

/-- `_sysio_i_new`. Device nodes get operations of their own there; here the operations table
is told which inode it serves, so nothing has to be replaced. -/
def sysioINew (e : Env D) (fs : FsId) (fid : ℕ) (stat : Stat) (immunity : Bool) (priv : ℕ) :
    Sysio D (Option InoId) := do
  let ic ← Exec.read fun s => s.ic
  Exec.when (ic.maxInodes < ic.nInodes) (iReclaim e)
  if !(← malloc e) then
    return none
  let i ← Exec.read fun s => s.ic.nextInode
  let f ← fsAt fs
  Exec.write fun s =>
    { s with
      ic.inode := Function.update s.ic.inode i
        (some { immune := immunity, zombie := false, ref := 1, stbuf := stat, fs := fs,
                fid := fid, priv := priv })
      ic.inodes := s.ic.inodes ++ [i]
      ic.nInodes := s.ic.nInodes + 1
      ic.nextInode := i + 1 }
  setFs fs { f with
    itbl := Function.update f.itbl (itblSlot fid) (i :: f.itbl (itblSlot fid)) }
  return some i

/-- The search of one hash chain for an identifier. -/
def itblSearch (fid : ℕ) : List InoId → Sysio D (Option InoId)
  | [] => pure none
  | i :: l => do
    let r ← inodeAt i
    if r.fid = fid then pure (some i) else itblSearch fid l

/-- `_sysio_i_find`. -/
def sysioIFind (fs : FsId) (fid : ℕ) : Sysio D (Option InoId) := do
  let f ← fsAt fs
  let found ← itblSearch fid (f.itbl (itblSlot fid))
  match found with
  | none => pure none
  | some i => do
    iRef i
    pure (some i)

/-- `pb_destroy`. -/
def pbDestroy (b : PbId) : Sysio D Unit := do
  Exec.check .assertion fun s => decide (s.nc.nNames ≠ 0)
  Exec.write fun s => { s with nc.nNames := s.nc.nNames - 1 }
  let r ← baseAt b
  assert r.aliases.isEmpty
  assert r.children.isEmpty
  assert r.ino.isNone
  Exec.when (r.name.name ≠ []) <| Exec.write fun s =>
    { s with
      nc.names := Function.update s.nc.names (r.name.hashval % NAMES_TABLE_LEN)
        ((s.nc.names (r.name.hashval % NAMES_TABLE_LEN)).erase b) }
  ifSome r.parent fun q => modBase q fun rq => { rq with children := rq.children.erase b }
  Exec.write fun s => { s with nc.base := Function.update s.nc.base b none }

/-- `_sysio_pb_gone`. -/
def sysioPbGone (e : Env D) (b : PbId) : Sysio D Unit := do
  let r ← baseAt b
  ifSome r.ino (iRele e)
  modBase b fun r => { r with ino := none }
  pbDestroy b

/-- `_sysio_p_gone`. -/
def sysioPGone (e : Env D) (p : Pno) : Sysio D Unit := do
  let n ← pnodeAt p
  assert (decide (n.ref = 0))
  assert n.cover.isNone
  Exec.check .wild fun s => decide (p ∈ s.nc.pnodes)
  Exec.write fun s => { s with nc.pnodes := s.nc.pnodes.erase p }
  modBase n.base fun r => { r with aliases := r.aliases.erase p }
  let r ← baseAt n.base
  Exec.when (r.aliases = [] ∧ r.children = []) (sysioPbGone e n.base)
  Exec.write fun s => { s with nc.freePnodes := p :: s.nc.freePnodes }

/-- The loop of `_sysio_prune` over the children of a base node. -/
def pruneBases (e : Env D) (rec : PbId → Sysio D Unit) : List PbId → Sysio D Unit
  | [] => pure ()
  | b :: l => do
    let r ← baseAt b
    Exec.when (r.aliases = []) (if r.children ≠ [] then rec b else sysioPbGone e b)
    pruneBases e rec l

/-- `_sysio_prune`, with the recursion depth bounded by `fuel`. -/
def sysioPrune (e : Env D) : ℕ → PbId → Sysio D Unit
  | 0, _ => Exec.fault .diverge
  | fuel + 1, b => do
    let r ← baseAt b
    pruneBases e (sysioPrune e fuel) r.children
    let r ← baseAt b
    if r.children ≠ [] then
      pure ()
    else
      sysioPbGone e b

/-- One alias of a child in the inner loop of `_sysio_p_prune`. -/
def pruneAlias (e : Env D) (rec : Pno → Sysio D ℕ) (p : Pno) (n : Pnode) : Sysio D ℕ := do
  let r ← baseAt n.base
  if r.children ≠ [] then
    rec p
  else if n.ref ≠ 0 then
    pure 1
  else do
    assert n.cover.isNone
    assert (r.name.name.isEmpty || decide (r.name.hashval ≠ 0))
    let m ← mountAt n.mount
    if m.root = some p then
      pure 1
    else do
      sysioPGone e p
      pure 0

/-- The inner loop of `_sysio_p_prune` over the aliases of one child; returns the number of
aliases that stay. The list is read ahead, and no iteration frees a later alias. -/
def pruneAliases (e : Env D) (rec : Pno → Sysio D ℕ) (mnt : MntId) : List Pno → Sysio D ℕ
  | [] => pure 0
  | p :: l => do
    let n ← pnodeAt p
    let k ← (if n.mount ≠ mnt then pure 0 else pruneAlias e rec p n)
    let k' ← pruneAliases e rec mnt l
    pure (k + k')

/-- The outer loop of `_sysio_p_prune` over the children of the root's base node. -/
def pruneChildren (e : Env D) (recBase : PbId → Sysio D Unit) (rec : Pno → Sysio D ℕ)
    (mnt : MntId) : List PbId → Sysio D ℕ
  | [] => pure 0
  | b :: l => do
    let r ← baseAt b
    let k ← (if r.aliases = [] then (do recBase b; pure 0) else pruneAliases e rec mnt r.aliases)
    let k' ← pruneChildren e recBase rec mnt l
    pure (k + k')

/-- `_sysio_p_prune`, with the recursion depth bounded by `fuel`. -/
def pPrune (e : Env D) : ℕ → Pno → Sysio D ℕ
  | 0, _ => Exec.fault .diverge
  | fuel + 1, root => do
    let n ← pnodeAt root
    let r ← baseAt n.base
    let count ← pruneChildren e (sysioPrune e fuel) (pPrune e fuel) n.mount r.children
    let n ← pnodeAt root
    if count ≠ 0 then
      pure (count + if n.ref ≠ 0 then 1 else 0)
    else if n.ref ≠ 0 then
      pure 1
    else do
      let m ← mountAt n.mount
      if m.root = some root then
        pure 1
      else do
        sysioPGone e root
        pure 0

/-- `_sysio_p_prune`. A child is created after its parent, so the tree is no deeper than the
number of base nodes ever made. -/
def sysioPPrune (e : Env D) (root : Pno) : Sysio D ℕ := do
  let depth ← Exec.read fun s => s.nc.nextBase
  pPrune e depth root

/-- One node in the loop of `p_reclaim`; returns the next one on the queue. An idle node is held
while its subtree is pruned, so that its successor can be read, and then pruned itself. -/
def pReclaimNode (e : Env D) (p : Pno) : Sysio D (Option Pno) := do
  let n ← pnodeAt p
  if n.ref ≠ 0 then
    Exec.read fun s => nextOf p s.nc.pnodes
  else do
    setPnode p { n with ref := n.ref + 1 }
    let _ ← sysioPPrune e p
    let next ← Exec.read fun s => nextOf p s.nc.pnodes
    pRele p
    let n ← pnodeAt p
    if n.ref ≠ 0 then
      pure next
    else do
      let _ ← sysioPPrune e p
      pure next

/-- The loop of `p_reclaim`, standing at `p`. -/
def pReclaimLoop (e : Env D) (t : ℕ) : ℕ → Pno → Sysio D Unit
  | 0, _ => Exec.fault .diverge
  | fuel + 1, p => do
    let next ← pReclaimNode e p
    let k ← Exec.read fun s => s.nc.nNames
    match next with
    | none => pure ()
    | some q => if t < k then pReclaimLoop e t fuel q else pure ()

/-- `p_reclaim`. -/
def pReclaim (e : Env D) : Sysio D Unit := do
  let nc ← Exec.read fun s => s.nc
  match nc.pnodes.head? with
  | none => pure ()
  | some p => do
    let t := nc.maxNames / 2
    pReclaimLoop e t nc.pnodes.length p
    let k ← Exec.read fun s => s.nc.nNames
    if t < k then
      Exec.write fun s => { s with nc.maxNames := s.nc.maxNames + t }

/-- `_sysio_pb_new`. -/
def sysioPbNew (e : Env D) (name : Qstr) (parent : Option PbId) (ino : Option InoId) :
    Sysio D (Option PbId) := do
  let nc ← Exec.read fun s => s.nc
  Exec.when (nc.maxNames < nc.nNames) (pReclaim e)
  if !(← malloc e) then
    return none
  let b ← Exec.read fun s => s.nc.nextBase
  Exec.when (name.name ≠ []) do
    assert (decide (name.hashval ≠ 0))
    Exec.write fun s =>
      { s with
        nc.names := Function.update s.nc.names (name.hashval % NAMES_TABLE_LEN)
          (b :: s.nc.names (name.hashval % NAMES_TABLE_LEN)) }
  ifSome parent fun q => modBase q fun rq => { rq with children := b :: rq.children }
  Exec.write fun s =>
    { s with
      nc.base := Function.update s.nc.base b
        (some { name := name, ino := ino, children := [], aliases := [], parent := parent })
      nc.nextBase := b + 1
      nc.nNames := s.nc.nNames + 1 }
  return some b

/-- `more_pnodes`. -/
def morePnodes (e : Env D) : Sysio D Unit := do
  if ← malloc e then
    Exec.write fun s =>
      { s with
        nc.freePnodes :=
          ((List.range PNODES_PER_CHUNK).map (s.nc.nextPnode + ·)).reverse ++ s.nc.freePnodes
        nc.nextPnode := s.nc.nextPnode + PNODES_PER_CHUNK }

/-- `_sysio_p_new_alias`. -/
def sysioPNewAlias (e : Env D) (parent : Option Pno) (b : PbId) (mnt : MntId) :
    Sysio D (Option Pno) := do
  let r ← baseAt b
  assert (r.name.name.isEmpty || decide (r.name.hashval ≠ 0))
  let free ← Exec.read fun s => s.nc.freePnodes
  Exec.when (free = []) (morePnodes e)
  let free ← Exec.read fun s => s.nc.freePnodes
  match free with
  | [] => pure none
  | p :: rest => do
    Exec.write fun s =>
      { s with
        nc.freePnodes := rest
        nc.pnode := Function.update s.nc.pnode p
          { ref := 1, parent := parent.getD p, base := b, mount := mnt, cover := none }
        nc.pnodes := s.nc.pnodes ++ [p] }
    modBase b fun r => { r with aliases := p :: r.aliases }
    pure (some p)

/-- `_sysio_p_validate`. -/
def sysioPValidate (e : Env D) (p : Pno) (intnt : Option Intent) (path : Option Bytes) :
    Sysio D ℤ := do
  let n ← pnodeAt p
  let r ← baseAt n.base
  let m ← mountAt n.mount
  let root ← nonNull m.root
  let rn ← pnodeAt root
  let rootpb ← baseAt rn.base
  assert rootpb.ino.isSome
  let rooti ← nonNull rootpb.ino
  let (err, ino) ← e.ops.lookup rooti p r.ino intnt path
  let r ← baseAt n.base
  Exec.when (err ≠ 0 ∨ r.ino ≠ ino) do
    ifSome r.ino (iRele e)
    modBase n.base fun r => { r with ino := ino }
  return err

/-- The child of `parent` called `name`, on a list of base nodes. -/
def findNamed (parent : PbId) (name : Qstr) : List PbId → Sysio D (Option PbId)
  | [] => pure none
  | b :: l => do
    let r ← baseAt b
    if r.parent = some parent ∧ r.name.name = name.name then
      pure (some b)
    else
      findNamed parent name l

/-- The first alias on a list whose parent is `parent`. -/
def findAliasOf (parent : Pno) : List Pno → Sysio D (Option Pno)
  | [] => pure none
  | p :: l => do
    let n ← pnodeAt p
    if n.parent = parent then pure (some p) else findAliasOf parent l

/-- The list `_sysio_p_find_alias` searches: a hash chain, or all children for the empty name. -/
def nameChain (parent : PbId) (name : Qstr) : Sysio D (List PbId) :=
  if name.name ≠ [] then
    Exec.read fun s => s.nc.names (name.hashval % NAMES_TABLE_LEN)
  else do
    let r ← baseAt parent
    pure r.children

/-- The first half of `_sysio_p_find_alias`: the child of `parent` called `name`, made if there is
none. -/
def findBase (e : Env D) (parent : PbId) (name : Qstr) : Sysio D (Option PbId) := do
  let chain ← nameChain parent name
  let found ← findNamed parent name chain
  match found with
  | some b => pure (some b)
  | none => sysioPbNew e name (some parent) none

/-- `_sysio_p_find_alias`. -/
def sysioPFindAlias (e : Env D) (parent : Pno) (name : Qstr) : Sysio D (ℤ × Option Pno) := do
  let n ← pnodeAt parent
  let found ← findBase e n.base name
  match found with
  | none => pure (-ENOMEM, none)
  | some b => do
    let r ← baseAt b
    let known ← findAliasOf parent r.aliases
    match known with
    | some p => do
      pRef p
      pure (0, some p)
    | none => do
      let n ← pnodeAt parent
      let made ← sysioPNewAlias e (some parent) b n.mount
      match made with
      | none => pure (-ENOMEM, none)
      | some p => pure (0, some p)

/-- The names on the ancestor chain of a base node, itself first. -/
def pbNames : ℕ → PbId → Sysio D (List Bytes)
  | 0, _ => Exec.fault .diverge
  | fuel + 1, b => do
    let r ← baseAt b
    match r.parent with
    | none => pure [r.name.name]
    | some q => do
      let l ← pbNames fuel q
      pure (r.name.name :: l)

def writeAt (buf : Bytes) (at_ : ℕ) (bs : Bytes) : Bytes :=
  buf.take at_ ++ bs ++ buf.drop (at_ + bs.length)

/-- The second pass of `_sysio_pb_path`: the names, last first, in front of `cp`. -/
def pbPathFill (separator : UInt8) : List Bytes → Bytes → ℕ → Bytes
  | [], buf, _ => buf
  | name :: l, buf, cp =>
    if name = [] then
      pbPathFill separator l buf cp
    else
      pbPathFill separator l
        ((writeAt buf (cp - name.length) name).set (cp - name.length - 1) separator)
        (cp - name.length - 1)

/-- The first pass of `_sysio_pb_path`. -/
def pbPathLen (names : List Bytes) : ℕ :=
  let len := (names.map fun name => if name = [] then 0 else name.length + 1).sum
  if len = 0 then 1 else len

/-- `_sysio_pb_path`. The fresh buffer reads as zeros; every byte of it is written. -/
def sysioPbPath (e : Env D) (b : PbId) (separator : UInt8) : Sysio D (Option Bytes) := do
  let depth ← Exec.read fun s => s.nc.nextBase
  let names ← pbNames depth b
  if ← malloc e then
    let len := pbPathLen names
    let buf := (List.replicate (len + 1) 0).set 0 separator
    return some ((pbPathFill separator names buf len).take len)
  else
    return none

/-- `IS_RDONLY`. -/
def isRdonly (p : Pno) : Sysio D Bool := do
  let n ← pnodeAt p
  let m ← mountAt n.mount
  return m.flags &&& MOUNT_F_RO != 0

/-- The inode behind a path node, `pno->p_base->pb_ino`. -/
def inoOf (p : Pno) : Sysio D (Option InoId) := do
  let n ← pnodeAt p
  let r ← baseAt n.base
  return r.ino

/-- `_sysio_setattr`; the new attribute values go to the driver only. -/
def sysioSetattr (e : Env D) (p : Option Pno) (ino : Option InoId) (mask : ℕ) : Sysio D ℤ := do
  let held ← (match p, ino with
    | some p, _ => inoOf p
    | none, some i => pure (some i)
    | none, none => Exec.fault .wild)
  ifSome ino fun i => assert (held == some i)
  assert held.isSome
  let i ← nonNull held
  let ro ← (match p with | some p => isRdonly p | none => pure false)
  if ro then
    return -EROFS
  e.ops.setattr i p i mask

end SysioInode
