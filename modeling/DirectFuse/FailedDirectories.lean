import DirectFuse.Dispatch
import DirectFuse.DeviceIdentity

/-! Making and removing a directory that the backend refuses. The driver changes its own records
before it asks: `fuse_inop_mkdir` means to undo this through an entry that it never sets, and
`fuse_inop_rmdir` does not undo it at all. -/
namespace FailedDirectories

open ExecLogic SysioState SysioInode SysioNamei SysioMount SysioFile SysioInterface SysioSystem
open FuseDriver FuseSystem CoreMoves FuseMoves CallMoves
open OtherOps (resolve inoOf_ok onMount_run)
open PathRefs (NodeLists)
open ListedNodes (reached_lists)
open Dispatch (resolve_held pRele_run)
open DeviceIdentity (secondMount secondMkdir)

variable {B : Type} {h : Host B} {p : Pno} {s t u : Sys (FuseData B)}

/-- The driver's record of the directory of `p`. -/
def dirOf (p : Pno) (s : Sys (FuseData B)) : Option FuseInode := do
  let r ← s.nc.base (s.nc.pnode (s.nc.pnode p).parent).base
  let d ← r.ino
  let i ← s.ic.inode d
  s.drv.finode i.priv

def nameOf (p : Pno) (s : Sys (FuseData B)) : Option Bytes :=
  (s.nc.base (s.nc.pnode p).base).map fun r => r.name.name

/-- The directory of `p` has a record of its name. -/
def Entered (p : Pno) (s : Sys (FuseData B)) : Prop :=
  ∃ r data name, dirOf p s = some r ∧ r.data = some data ∧ nameOf p s = some name ∧
    (fuseDirectoryProbe data name).isSome

instance : Decidable (Entered p s) :=
  decidable_of_iff (((dirOf p s).bind FuseInode.data).any fun data =>
      (nameOf p s).any fun name => (fuseDirectoryProbe data name).isSome) (by
    unfold Entered
    cases dirOf p s with
    | none => simp
    | some r => cases hd : r.data <;> cases nameOf p s <;> simp [hd])

/-- The directory of `p` has the records and the number of links it had. -/
def SameDirectory (p : Pno) (s t : Sys (FuseData B)) : Prop :=
  (dirOf p t).map (fun r => (r.data, r.st.nlink)) = (dirOf p s).map fun r => (r.data, r.st.nlink)

/-! ## mkdir -/

/-- What `fuse_inop_mkdir` has when it asks the backend. -/
structure MkdirAsk where
  base : PbId
  ino : InoId
  ops : Option ℕ
  path : Bytes
  deriving DecidableEq, Repr

/-- `fuse_inop_mkdir` as far as the question to the backend. -/
def mkdirAsks (h : Host B) (p : Pno) (mode : ℕ) : Fuse B (ℤ ⊕ MkdirAsk) := do
  let n ← pnodeAt p
  let d ← nonNull (← inoOf n.parent)
  let rd ← inodeAt d
  let rp ← finodeAt rd.priv
  if !rp.st.isDir then
    return .inl (-ENOTDIR)
  let f ← fsAt rd.fs
  let inum ← fuseInumAlloc
  let st := newStat h f.dev inum (S_IFDIR ||| (mode &&& 0o7777)) 2
  match ← fuseDirectoryNew h f.priv (some rd.priv) st with
  | none => return .inl (-ENOSPC)
  | some k => do
    match ← sysioINew (coreEnv h) rd.fs inum st true k with
    | none => do
      fuseIDestory k
      return .inl (-ENOMEM)
    | some i => do
      let r ← baseAt n.base
      let err ← fuseDirectoryInsert h rd.priv r.name.name inum
      Exec.check .wild fun _ => decide (err = 0)
      match ← sysioPbPath (coreEnv h) n.base PATH_SEPARATOR with
      | none => return .inl (-ENOMEM)
      | some path => do
        let fino ← finodeAt k
        return .inr ⟨n.base, i, fino.ops, path⟩

/-- The rest of `fuse_inop_mkdir`. -/
def mkdirAnswered (h : Host B) (mode : ℕ) (a : MkdirAsk) : Fuse B ℤ := do
  let err ← backendCall h a.ops (.mkdir a.path mode)
  Exec.check .wild fun _ => decide (err = 0)
  modBase a.base fun r => { r with ino := some a.ino }
  return err

theorem fuseInopMkdir_asks (mode : ℕ) : fuseInopMkdir h p mode = (do
    match ← mkdirAsks h p mode with
    | .inl err => return err
    | .inr a => mkdirAnswered h mode a) := by
  unfold fuseInopMkdir mkdirAsks mkdirAnswered
  simp only [bind_assoc]
  refine bind_congr fun n => bind_congr fun ino => bind_congr fun d => bind_congr fun rd =>
    bind_congr fun rp => ?_
  rw [ite_bind]
  refine ite_congr rfl (fun _ => by rw [pure_bind]) fun _ => ?_
  simp only [bind_assoc]
  refine bind_congr fun f => bind_congr fun inum => bind_congr fun made => ?_
  cases made with
  | none => rfl
  | some k =>
    simp only [bind_assoc]
    refine bind_congr fun ino => ?_
    cases ino with
    | none => simp only [bind_assoc, pure_bind]
    | some i =>
      simp only [bind_assoc]
      refine bind_congr fun r => bind_congr fun err => bind_congr fun _ => bind_congr fun path => ?_
      cases path with
      | none => rfl
      | some path => simp only [bind_assoc, pure_bind]

/-- Before the backend is asked, the call gives up on its own account with one of three errors. -/
theorem mkdirAsks_gives_up {mode : ℕ} {err : ℤ} (run : mkdirAsks h p mode s = .ok (.inl err, t)) :
    err = -ENOTDIR ∨ err = -ENOSPC ∨ err = -ENOMEM := by
  obtain ⟨n, _, -, run⟩ := bind_ok.mp run
  obtain ⟨ino, _, -, run⟩ := bind_ok.mp run
  obtain ⟨d, _, -, run⟩ := bind_ok.mp run
  obtain ⟨rd, _, -, run⟩ := bind_ok.mp run
  obtain ⟨rp, _, -, run⟩ := bind_ok.mp run
  split at run
  · exact Or.inl (Sum.inl.inj (pure_ok.mp run).1).symm
  obtain ⟨f, _, -, run⟩ := bind_ok.mp run
  obtain ⟨inum, _, -, run⟩ := bind_ok.mp run
  obtain ⟨made, _, -, run⟩ := bind_ok.mp run
  cases made with
  | none => exact Or.inr (Or.inl (Sum.inl.inj (pure_ok.mp run).1).symm)
  | some k =>
    obtain ⟨ino, _, -, run⟩ := bind_ok.mp run
    cases ino with
    | none =>
      obtain ⟨_, _, -, run⟩ := bind_ok.mp run
      exact Or.inr (Or.inr (Sum.inl.inj (pure_ok.mp run).1).symm)
    | some i =>
      obtain ⟨r, _, -, run⟩ := bind_ok.mp run
      obtain ⟨_, _, -, run⟩ := bind_ok.mp run
      obtain ⟨_, _, -, run⟩ := bind_ok.mp run
      obtain ⟨path, _, -, run⟩ := bind_ok.mp run
      cases path with
      | none => exact Or.inr (Or.inr (Sum.inl.inj (pure_ok.mp run).1).symm)
      | some path =>
        obtain ⟨_, _, -, run⟩ := bind_ok.mp run
        exact nomatch (pure_ok.mp run).1

/-- Where the backend was asked, the call returns only if it agreed. -/
theorem mkdirAnswered_agreed {mode : ℕ} {a : MkdirAsk} {err : ℤ}
    (run : mkdirAnswered h mode a s = .ok (err, t)) : err = 0 := by
  obtain ⟨_, _, -, run⟩ := bind_ok.mp run
  obtain ⟨_, _, agreed, run⟩ := bind_ok.mp run
  obtain ⟨_, _, -, run⟩ := bind_ok.mp run
  obtain ⟨rfl, -⟩ := pure_ok.mp run
  exact of_decide_eq_true (check_ok.mp agreed).1

theorem fuseInopMkdir_returns {mode : ℕ} {err : ℤ} (run : fuseInopMkdir h p mode s = .ok (err, t)) :
    err = 0 ∨ err = -ENOTDIR ∨ err = -ENOSPC ∨ err = -ENOMEM := by
  rw [fuseInopMkdir_asks] at run
  obtain ⟨asked, u, asks, run⟩ := bind_ok.mp run
  cases asked with
  | inl e =>
    obtain ⟨rfl, -⟩ := pure_ok.mp run
    exact Or.inr (mkdirAsks_gives_up asks)
  | inr a => exact Or.inl (mkdirAnswered_agreed run)

/-- A refusal of the backend makes the call write through NULL. -/
theorem fuseInopMkdir_refused {mode : ℕ} {a : MkdirAsk} {err : ℤ}
    (asks : mkdirAsks h p mode s = .ok (.inr a, u))
    (answer : (backendCall h a.ops (.mkdir a.path mode)).value u = some err) (refused : err ≠ 0) :
    fuseInopMkdir h p mode s = .error .wild := by
  rw [fuseInopMkdir_asks, bind_run asks]
  refine (bind_run (ok_of_value answer)).trans (bind_error ?_)
  exact if_neg (by simpa using refused)

/-- `fuse_inop_mkdir` has a reason to fail with `err`: the name is there already, or the backend
refuses. -/
def MkdirFails (h : Host B) (p : Pno) (mode : ℕ) (s : Sys (FuseData B)) (err : ℤ) : Prop :=
  (Entered p s ∧ err = -EEXIST) ∨ ∃ a u, mkdirAsks h p mode s = .ok (.inr a, u) ∧
    (backendCall h a.ops (.mkdir a.path mode)).value u = some err ∧ err ≠ 0

/-- What a call that failed to make `p` has to leave: the directory as it was, no inode for the name
that it did not have, and no inode in a table or on the list that was not there. -/
structure Undone (p : Pno) (s t : Sys (FuseData B)) : Prop where
  directory : SameDirectory p s t
  ino : (t.nc.base (t.nc.pnode p).base).map PnodeBase.ino =
    (s.nc.base (s.nc.pnode p).base).map PnodeBase.ino
  list : ∀ i ∈ t.ic.inodes, i ∈ s.ic.inodes
  table : ∀ f r', t.ic.filesys f = some r' → ∃ r, s.ic.filesys f = some r ∧
    ∀ slot, ∀ i ∈ r'.itbl slot, i ∈ r.itbl slot

/-- No mkdir that has a reason to fail returns the error and undoes what it did. -/
theorem failed_mkdir {mode : ℕ} {err : ℤ} (fails : MkdirFails h p mode s err) :
    ¬ ∃ t, fuseInopMkdir h p mode s = .ok (err, t) ∧ Undone p s t := by
  rintro ⟨t, run, -⟩
  rcases fails with ⟨-, rfl⟩ | ⟨a, u, asks, answer, refused⟩
  · rcases fuseInopMkdir_returns run with h | h | h | h <;> cases h
  · rw [fuseInopMkdir_refused asks answer refused] at run
    cases run

/-- The calm host, except that its backend answers what it is told to. -/
def answering (answer : BackendCall → ℤ) : Host Unit :=
  { calmHost with backend := fun _ call b => (answer call, b) }

/-- The state after start-up and the calls of a list, the last one first in the list. -/
def answeredRun (answer : BackendCall → ℤ) (l : List Call) : Sys (FuseData Unit) :=
  (runCalls (fuseLibrary (answering answer)) fuseTypeName l).final (initState (initData ()))

/-- The backend may make no directories. -/
def noMkdir : BackendCall → ℤ
  | .mkdir .. => -13
  | _ => 0

/-- The look-up of "bb:/b/d" that mkdir makes. -/
def lookForNew : Fuse Unit (Option Pno) :=
  resolve (fuseEnv (answering noMkdir)) [98, 98, 58, 47, 98, 47, 100] ND_NEGOK (some ⟨INT_CREAT⟩)

section Refused

theorem noMkdir_asks : mkdirAsks (answering noMkdir) 107 0o755
    (lookForNew.final (answeredRun noMkdir [secondMount])) =
    .ok (.inr ⟨3, 2, some 0, [47, 100]⟩, (mkdirAsks (answering noMkdir) 107 0o755).final
      (lookForNew.final (answeredRun noMkdir [secondMount]))) := ok_of_value (by decide +kernel)

theorem noMkdir_answer : (backendCall (answering noMkdir) (some 0) (.mkdir [47, 100] 0o755)).value
    ((mkdirAsks (answering noMkdir) 107 0o755).final
      (lookForNew.final (answeredRun noMkdir [secondMount]))) = some (-13) := by decide +kernel

theorem noMkdir_fails : MkdirFails (answering noMkdir) 107 0o755
    (lookForNew.final (answeredRun noMkdir [secondMount])) (-13) :=
  Or.inr ⟨_, _, noMkdir_asks, noMkdir_answer, by decide⟩

end Refused

theorem failed_mkdir_permission : ¬ ∃ t, fuseInopMkdir (answering noMkdir) 107 0o755
      (lookForNew.final (answeredRun noMkdir [secondMount])) = .ok (-13, t) ∧
    Undone 107 (lookForNew.final (answeredRun noMkdir [secondMount])) t :=
  failed_mkdir noMkdir_fails

/-- mkdir of "bb:/b/d" crashes where the backend refuses it. -/
theorem refused_mkdir_crashes : ¬ ∀ (p : Pno) mode s err, MkdirFails (answering noMkdir) p mode s err →
    ∃ t, fuseInopMkdir (answering noMkdir) p mode s = .ok (err, t) ∧ Undone p s t := by
  intro undone
  obtain ⟨t, run, -⟩ := undone 107 0o755 _ (-13) noMkdir_fails
  rw [fuseInopMkdir_refused noMkdir_asks noMkdir_answer (by decide)] at run
  cases run

/-! ## rmdir -/

/-- `rmdir` behind the look-up as far as the question to the backend: the operations and the path it
asks with. -/
def rmdirAsks (h : Host B) (p : Pno) : Fuse B (ℤ ⊕ (Option ℕ × Bytes)) := do
  let i ← nonNull (← inoOf p)
  let r ← inodeAt i
  if !r.stbuf.isDir then
    return .inl (-ENOTDIR)
  let n ← pnodeAt p
  let err ← sysioPermitted (fuseEnv h) n.parent W_OK
  if err ≠ 0 then
    return .inl err
  if 1 < n.ref then
    return .inl (-EBUSY)
  let _ ← parentIno p
  let n ← pnodeAt p
  match ← sysioPbPath (coreEnv h) n.base PATH_SEPARATOR with
  | none => return .inl (-ENOMEM)
  | some path => do
    let parent ← p2fi n.parent
    let r ← baseAt n.base
    let _ ← fuseUnlinkEntry parent r.name.name
    let fino ← finodeAt (← p2fi p)
    return .inr (fino.ops, path)

theorem rmdirNode_asks : rmdirNode (fuseEnv h) p = (do
    match ← rmdirAsks h p with
    | .inl err => return err
    | .inr (ops, path) => do
      let err ← backendCall h ops (.rmdir path)
      if err ≠ 0 then
        return err
      detach (fuseEnv h) p
      return 0) := by
  unfold rmdirNode rmdirAsks
  simp only [bind_assoc]
  refine bind_congr fun ino => bind_congr fun i => bind_congr fun r => ?_
  rw [ite_bind]
  refine ite_congr rfl (fun _ => by rw [pure_bind]) fun _ => ?_
  simp only [bind_assoc]
  refine bind_congr fun n => bind_congr fun err => ?_
  rw [ite_bind]
  refine ite_congr rfl (fun _ => by rw [pure_bind]) fun _ => ?_
  rw [ite_bind]
  refine ite_congr rfl (fun _ => by rw [pure_bind]) fun _ => ?_
  simp only [bind_assoc]
  refine bind_congr fun d => ?_
  change (fuseInopRmdir h p >>= _) = _
  simp only [fuseInopRmdir, bind_assoc]
  refine bind_congr fun n => bind_congr fun path => ?_
  cases path with
  | none => rfl
  | some path => simp only [bind_assoc, pure_bind]

/-- The driver's record that a function gets at through the parent of `p`. -/
theorem dirOf_parent {k : FinoId} {v w : Sys (FuseData B)}
    (run : (p2fi (v.nc.pnode p).parent : Fuse B FinoId) v = .ok (k, w)) :
    v = w ∧ ∀ u : Sys (FuseData B), u.nc = v.nc → u.ic = v.ic → dirOf p u = u.drv.finode k := by
  obtain ⟨ino, _, bound, run⟩ := bind_ok.mp run
  obtain ⟨r, hr, hino, rfl⟩ := inoOf_ok.mp bound
  obtain ⟨d, _, some_, run⟩ := bind_ok.mp run
  obtain ⟨hd, rfl⟩ := deref_ok.mp some_
  obtain ⟨i, _, inode, run⟩ := bind_ok.mp run
  obtain ⟨hi, rfl⟩ := deref_ok.mp inode
  obtain ⟨rfl, rfl⟩ := pure_ok.mp run
  refine ⟨rfl, fun u nc ic => ?_⟩
  simp only [dirOf, nc, ic, hr, hino, hd, hi, Option.bind_eq_bind, Option.bind_some]

/-- What `fuse_unlink_entry` does to a record. -/
def unlinked (name : Bytes) (data : List Dirent) (r : FuseInode) : FuseInode :=
  { r with data := some (blankEntry name data), st := { r.st with nlink := r.st.nlink - 1 } }

theorem fuseUnlinkEntry_ok {k : FinoId} {name : Bytes} {err : ℤ} {v w : Sys (FuseData B)}
    (run : fuseUnlinkEntry k name v = .ok (err, w)) : ∃ r data, v.drv.finode k = some r ∧
      r.data = some data ∧ ((fuseDirectoryProbe data name = none ∧ w = v) ∨
        ((fuseDirectoryProbe data name).isSome ∧ 2 < r.st.nlink ∧
          w.drv.finode = Function.update v.drv.finode k (some (unlinked name data r)))) := by
  obtain ⟨data, _, dirents, run⟩ := bind_ok.mp run
  obtain ⟨r, _, record, dirents⟩ := bind_ok.mp dirents
  obtain ⟨hr, rfl⟩ := deref_ok.mp record
  obtain ⟨hdata, rfl⟩ := deref_ok.mp dirents
  refine ⟨r, data, hr, hdata, ?_⟩
  split at run
  · rename_i absent
    obtain ⟨-, rfl⟩ := pure_ok.mp run
    exact Or.inl ⟨Option.isNone_iff_eq_none.mp absent, rfl⟩
  · rename_i present
    obtain ⟨r', _, record, run⟩ := bind_ok.mp run
    obtain ⟨hr', rfl⟩ := deref_ok.mp record
    obtain rfl : r = r' := Option.some.inj (hr.symm.trans hr')
    obtain ⟨_, _, links, run⟩ := bind_ok.mp run
    obtain ⟨many, rfl⟩ := check_ok.mp links
    obtain ⟨_, _, set, run⟩ := bind_ok.mp run
    obtain rfl := write_ok.mp set
    obtain ⟨-, rfl⟩ := pure_ok.mp run
    refine Or.inr ⟨?_, of_decide_eq_true many, rfl⟩
    rw [Option.isSome_iff_ne_none]
    exact fun absent => present (Option.isNone_iff_eq_none.mpr absent)

/-- Before the backend is asked, only the driver's records have changed, and of the directory exactly
the record of the name. -/
theorem rmdirAsks_directory {asked : Option ℕ × Bytes} {v w : Sys (FuseData B)}
    (asks : rmdirAsks h p v = .ok (.inr asked, w)) : DriverOnly v w ∧
      ((¬ Entered p v ∧ dirOf p w = dirOf p v) ∨ (Entered p v ∧ ∃ r data name, dirOf p v = some r ∧
        2 < r.st.nlink ∧ dirOf p w = some (unlinked name data r))) := by
  obtain ⟨ino, _, bound, run⟩ := bind_ok.mp asks
  obtain ⟨r, hr, hino, rfl⟩ := inoOf_ok.mp bound
  obtain ⟨d, _, some_, run⟩ := bind_ok.mp run
  obtain ⟨hd, rfl⟩ := deref_ok.mp some_
  obtain ⟨i, _, inode, run⟩ := bind_ok.mp run
  obtain ⟨hi, rfl⟩ := deref_ok.mp inode
  split at run
  · exact nomatch (pure_ok.mp run).1
  obtain ⟨n, _, node, run⟩ := bind_ok.mp run
  obtain ⟨rfl, rfl⟩ := read_ok.mp node
  obtain ⟨err, v₁, permitted, run⟩ := bind_ok.mp run
  have scratch : Scratch v v₁ := sysioPermitted_moves (fun _ _ k => k) _ _ _ _ _ permitted
  split at run
  · exact nomatch (pure_ok.mp run).1
  split at run
  · exact nomatch (pure_ok.mp run).1
  obtain ⟨_, v₂, above, run⟩ := bind_ok.mp run
  obtain rfl : v₁ = v₂ := parentIno_moves (R := Eq) p _ _ _ above
  obtain ⟨n, _, node, run⟩ := bind_ok.mp run
  obtain ⟨rfl, rfl⟩ := read_ok.mp node
  obtain ⟨path, v₂, named, run⟩ := bind_ok.mp run
  have scratch₂ : Scratch v₁ v₂ := sysioPbPath_moves (fun _ _ k => k) _ _ _ _ _ named
  cases path with
  | none => exact nomatch (pure_ok.mp run).1
  | some path =>
    have scratched : Scratch v v₂ := IsTrans.trans _ _ _ scratch scratch₂
    rw [← scratch₂.nc] at run
    obtain ⟨k, _, parent, run⟩ := bind_ok.mp run
    obtain ⟨rfl, directory⟩ := dirOf_parent parent
    obtain ⟨b, _, base, run⟩ := bind_ok.mp run
    obtain ⟨hb, rfl⟩ := deref_ok.mp base
    obtain ⟨_, v₃, unlink, run⟩ := bind_ok.mp run
    have driver : DriverOnly v₂ v₃ := fuseUnlinkEntry_driver _ _ _ _ _ unlink
    obtain ⟨j, v₄, own, run⟩ := bind_ok.mp run
    obtain rfl : v₃ = v₄ := DeviceIdentity.p2fi_moves (R := Eq) p _ _ _ own
    obtain ⟨fino, _, record, run⟩ := bind_ok.mp run
    obtain ⟨-, rfl⟩ := deref_ok.mp record
    obtain ⟨-, rfl⟩ := pure_ok.mp run
    have name : nameOf p v = some b.name.name := by
      rw [nameOf, ← scratched.nc, hb]
      rfl
    have before : dirOf p v = v.drv.finode k := directory v scratched.nc.symm scratched.ic.symm
    obtain ⟨r, data, hr, hdata, change⟩ := fuseUnlinkEntry_ok unlink
    rw [scratched.drv, ← before] at hr
    refine ⟨IsTrans.trans _ _ _ scratched.driver driver, ?_⟩
    rcases change with ⟨absent, rfl⟩ | ⟨present, links, finode⟩
    · refine Or.inl ⟨?_, ?_⟩
      · rintro ⟨r', data', name', hr', hdata', hname', present⟩
        obtain rfl : r = r' := Option.some.inj (hr.symm.trans hr')
        obtain rfl : data = data' := Option.some.inj (hdata.symm.trans hdata')
        obtain rfl : b.name.name = name' := Option.some.inj (name.symm.trans hname')
        rw [absent] at present
        cases present
      · rw [before, directory _ rfl rfl, scratched.drv]
    · refine Or.inr ⟨⟨r, data, _, hr, hdata, name, present⟩, r, data, b.name.name, hr, links, ?_⟩
      rw [directory v₃ driver.nc driver.ic, finode, Function.update_self]

theorem dirOf_backendCall {ops : Option ℕ} {call : BackendCall} {err : ℤ} {v w : Sys (FuseData B)}
    (run : backendCall h ops call v = .ok (err, w)) : dirOf p w = dirOf p v := by
  obtain ⟨_, _, tag, run⟩ := bind_ok.mp run
  obtain ⟨-, rfl⟩ := deref_ok.mp tag
  obtain ⟨_, _, state, run⟩ := bind_ok.mp run
  obtain ⟨-, rfl⟩ := read_ok.mp state
  obtain ⟨_, _, write, run⟩ := bind_ok.mp run
  obtain rfl := write_ok.mp write
  obtain ⟨-, rfl⟩ := pure_ok.mp run
  rfl

theorem dirOf_pRele {v w : Sys (FuseData B)} {a : Unit} (run : pRele p v = .ok (a, w)) :
    dirOf p w = dirOf p v := by
  obtain ⟨_, _, held, run⟩ := bind_ok.mp run
  obtain ⟨-, rfl⟩ := check_ok.mp held
  obtain rfl := write_ok.mp run
  have parent : ∀ q, (Function.update v.nc.pnode p
      { v.nc.pnode p with ref := (v.nc.pnode p).ref - 1 } q).parent = (v.nc.pnode q).parent := by
    intro q
    by_cases hq : q = p
    · rw [hq, Function.update_self]
    · rw [Function.update_of_ne hq]
  have base : ∀ q, (Function.update v.nc.pnode p
      { v.nc.pnode p with ref := (v.nc.pnode p).ref - 1 } q).base = (v.nc.pnode q).base := by
    intro q
    by_cases hq : q = p
    · rw [hq, Function.update_self]
    · rw [Function.update_of_ne hq]
  simp only [dirOf, parent, base]

/-- A refused rmdir passes the answer on; all that is done to the directory was done before. -/
theorem interfaceRmdir_refused (un : Uninit) {path cpath : Bytes} {ops : Option ℕ} {err : ℤ}
    {v w : Sys (FuseData B)} (lists : NodeLists s)
    (found : resolve (fuseEnv h) path 0 (some ⟨INT_UPDPARENT⟩) s = .ok (some p, v))
    (asks : rmdirAsks h p v = .ok (.inr (ops, cpath), w))
    (answer : (backendCall h ops (.rmdir cpath)).value w = some err) (refused : err ≠ 0) :
    ∃ t, interfaceRmdir (fuseEnv h) un path s = .ok ((-1, err), t) ∧ dirOf p t = dirOf p w := by
  have told := ok_of_value answer
  have node : rmdirNode (fuseEnv h) p v = .ok (err, (backendCall h ops (.rmdir cpath)).final w) := by
    rw [rmdirNode_asks, bind_run asks]
    refine (bind_run told).trans ?_
    rw [if_pos refused]
    rfl
  have held : (((backendCall h ops (.rmdir cpath)).final w).nc.pnode p).ref ≠ 0 := by
    rw [(backendCall_driver _ _ _ _ _ told).nc, (rmdirAsks_directory asks).1.nc]
    exact resolve_held lists found
  obtain ⟨t, release⟩ := pRele_run held
  refine ⟨t, ?_, (dirOf_pRele release).trans (dirOf_backendCall told)⟩
  refine (onMount_run found).trans ((bind_run node).trans ((bind_run release).trans ?_))
  rw [status, if_pos refused]
  rfl

/-- A refused rmdir leaves the directory above as it was if and only if it has no record of the
directory that was to go. -/
theorem failed_rmdir {b : B} (reached : FuseReached h b (fun _ _ => True) s) {un : Uninit}
    {path cpath : Bytes} {ops : Option ℕ} {err : ℤ} {v w : Sys (FuseData B)}
    (found : resolve (fuseEnv h) path 0 (some ⟨INT_UPDPARENT⟩) s = .ok (some p, v))
    (asks : rmdirAsks h p v = .ok (.inr (ops, cpath), w))
    (answer : (backendCall h ops (.rmdir cpath)).value w = some err) (refused : err ≠ 0) :
    (∃ t, interfaceRmdir (fuseEnv h) un path s = .ok ((-1, err), t) ∧ SameDirectory p v t) ↔
      ¬ Entered p v := by
  obtain ⟨t, run, same⟩ := interfaceRmdir_refused un (reached_lists reached) found asks answer refused
  constructor
  · rintro ⟨t', run', kept⟩ entered
    obtain rfl : t = t' := (Prod.mk.inj (Except.ok.inj (run.symm.trans run'))).2
    rcases (rmdirAsks_directory asks).2 with ⟨absent, -⟩ | ⟨-, r, data, name, before, links, after⟩
    · exact absent entered
    · rw [SameDirectory, same, before, after] at kept
      have fewer : r.st.nlink - 1 = r.st.nlink := (Prod.mk.inj (Option.some.inj kept)).2
      omega
  · intro absent
    refine ⟨t, run, ?_⟩
    rcases (rmdirAsks_directory asks).2 with ⟨-, kept⟩ | ⟨entered, -⟩
    · rw [SameDirectory, same, kept]
    · exact absurd entered absent

/-- The backend finds every directory full. -/
def noRmdir : BackendCall → ℤ
  | .rmdir _ => -39
  | _ => 0

/-- The look-up of "bb:/b/d" that rmdir makes. -/
def lookForOld : Fuse Unit (Option Pno) :=
  resolve (fuseEnv (answering noRmdir)) [98, 98, 58, 47, 98, 47, 100] 0 (some ⟨INT_UPDPARENT⟩)

section Full

theorem noRmdir_reached : FuseReached (answering noRmdir) () (fun _ _ => True)
    (answeredRun noRmdir [secondMkdir, secondMount]) := by
  have run : runCalls (fuseLibrary (answering noRmdir)) fuseTypeName [secondMkdir, secondMount]
      (initState (initData ())) = .ok ((), answeredRun noRmdir [secondMkdir, secondMount]) :=
    ok_of_value (by decide +kernel)
  exact runCalls_reached run

theorem noRmdir_found : lookForOld (answeredRun noRmdir [secondMkdir, secondMount]) =
    .ok (some 107, lookForOld.final (answeredRun noRmdir [secondMkdir, secondMount])) :=
  ok_of_value (by decide +kernel)

theorem noRmdir_asks : rmdirAsks (answering noRmdir) 107
    (lookForOld.final (answeredRun noRmdir [secondMkdir, secondMount])) =
    .ok (.inr (some 0, [47, 100]), (rmdirAsks (answering noRmdir) 107).final
      (lookForOld.final (answeredRun noRmdir [secondMkdir, secondMount]))) :=
  ok_of_value (by decide +kernel)

end Full

theorem failed_rmdir_full : ¬ ∃ t, interfaceRmdir (fuseEnv (answering noRmdir)) ⟨none, none⟩
      [98, 98, 58, 47, 98, 47, 100] (answeredRun noRmdir [secondMkdir, secondMount]) =
        .ok ((-1, -39), t) ∧
    SameDirectory 107 (lookForOld.final (answeredRun noRmdir [secondMkdir, secondMount])) t := by
  have iff := @failed_rmdir _ _ _ _ _ noRmdir_reached ⟨none, none⟩ _ _ _ (-39) _ _ noRmdir_found
    noRmdir_asks (by decide +kernel) (by decide)
  exact fun kept => iff.mp kept (by decide +kernel)

/-- rmdir of "bb:/b/d" fails because the directory is not empty, and "/b" has one link less. -/
theorem refused_rmdir_unlinks : ¬ ∀ s, FuseReached (answering noRmdir) () (fun _ _ => True) s →
    ∀ path (p : Pno) v err t, resolve (fuseEnv (answering noRmdir)) path 0 (some ⟨INT_UPDPARENT⟩) s =
      .ok (some p, v) → Entered p v →
    interfaceRmdir (fuseEnv (answering noRmdir)) ⟨none, none⟩ path s = .ok ((-1, err), t) →
    (∃ cpath, t.drv.calls = (.rmdir cpath, err) :: s.drv.calls) → SameDirectory p v t := by
  intro undone
  have run : interfaceRmdir (fuseEnv (answering noRmdir)) ⟨none, none⟩ [98, 98, 58, 47, 98, 47, 100]
      (answeredRun noRmdir [secondMkdir, secondMount]) = .ok ((-1, -39), _) :=
    ok_of_value (by decide +kernel)
  have kept := undone _ noRmdir_reached _ 107 _ _ _ noRmdir_found (by decide +kernel) run
    ⟨[47, 100], by decide +kernel⟩
  exact absurd kept (by unfold SameDirectory; decide +kernel)

end FailedDirectories
