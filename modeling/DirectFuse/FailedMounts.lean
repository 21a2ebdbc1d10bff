import DirectFuse.MountForest
import DirectFuse.PruneCount
import DirectFuse.RenameChecks

/-! Mounts that fail. Before the root of the mount has its alias a failure leaves nothing behind.
After that the alias is released and pruned; but pruning spares the root of a mount, and the alias
still is one, so it stays with a mount that is freed. -/
namespace FailedMounts

open ExecLogic Returning SysioState SysioInode SysioMount SysioSystem FuseDriver FuseSystem
open CoreMoves FuseMoves
open InodeRefs NameForest GrowForest WalkForest MountForest SoundRuns Lineage PruneRuns PruneCount
open RenameChecks (hasAncestor_run)

variable {D : Type} {e : Env D} {s t : Sys D} {rootpb : PbId} {tocover : Option Pno}

/-- The node to cover is the root of the new mount, or above it. -/
def Encloses (nc : NameCache) (tocover : Option Pno) (rootpb : PbId) : Prop :=
  ∃ q, tocover = some q ∧ AtOrBelow nc rootpb (nc.pnode q).base

/-- No alias can be made for the root: the node to cover encloses it, or there is no memory for the
mount or, with no path node free, for path nodes. -/
def Barred (e : Env D) (s : Sys D) (rootpb : PbId) (tocover : Option Pno) : Prop :=
  Encloses s.nc tocover rootpb ∨ e.malloc s.mallocs = false ∨
    (s.nc.freePnodes = [] ∧ e.malloc (s.mallocs + 1) = false)

theorem coversAncestor_iff (sound : Sound s) {r : PnodeBase} (hr : s.nc.base rootpb = some r) :
    (coversAncestor tocover rootpb : Sysio D Bool) s = .ok (true, s) ↔
      Encloses s.nc tocover rootpb := by
  cases tocover with
  | none =>
    constructor
    · intro run
      cases (pure_ok.mp run).1
    · rintro ⟨q, hq, -⟩
      cases hq
  | some q =>
    have node : (pnodeAt q : Sysio D Pnode) s = .ok (s.nc.pnode q, s) := rfl
    have depth : (Exec.read fun s => s.nc.nextBase : Sysio D ℕ) s = .ok (s.nc.nextBase, s) := rfl
    obtain ⟨found, run, right⟩ := hasAncestor_run sound.forest (s.nc.pnode q).base s.nc.nextBase
      rootpb hr (sound.forest.lt_nextBase hr)
    have covers : (coversAncestor (some q) rootpb : Sysio D Bool) s = .ok (found, s) :=
      (bind_run node).trans ((bind_run depth).trans run)
    rw [covers]
    constructor
    · intro same
      obtain ⟨rfl, -⟩ := Prod.mk.inj (Except.ok.inj same)
      exact ⟨q, rfl, right.mp rfl⟩
    · rintro ⟨q', hq', way⟩
      obtain rfl := Option.some.inj hq'
      rw [right.mpr way]

theorem refused_iff (sound : Sound s) {r : PnodeBase} (hr : s.nc.base rootpb = some r) :
    Refused e s rootpb tocover ↔ Barred e s rootpb tocover := by
  unfold Refused Barred
  rw [coversAncestor_iff sound hr]

/-- A root base node as a driver makes it for the mount. -/
def NewRootBase (s : Sys D) (b : PbId) : Prop :=
  ∃ r, s.nc.base b = some r ∧ r.aliases = [] ∧ r.children = []

/-- Nothing of the failed mount is left: the live nodes have their mounts, the root its aliases, the
nodes their covers and references, and the mounts are listed as before. A root that was made for
the mount can be given up. -/
structure Undone (e : Env D) (s t : Sys D) (rootpb : PbId) : Prop where
  recorded : ∀ p ∈ t.nc.pnodes, ∃ r, t.mt.mount (t.nc.pnode p).mount = some r
  aliases : (t.nc.base rootpb).map PnodeBase.aliases = (s.nc.base rootpb).map PnodeBase.aliases
  nodes : ∀ p ∈ s.nc.pnodes, (t.nc.pnode p).cover = (s.nc.pnode p).cover ∧
    (t.nc.pnode p).ref = (s.nc.pnode p).ref
  mounts : t.mt.mounts = s.mt.mounts
  cleanup : NewRootBase s rootpb → ∃ u, sysioPbGone e rootpb t = .ok ((), u)

variable {J : Sys D → Prop}

/-- A state stays well formed when a mount leaves nothing behind in it. -/
theorem formed_of_notMounted (h : NotMounted s t) (ic : t.ic = s.ic) (driver : J t)
    (formed : WellFormed J s) : WellFormed J t := by
  obtain ⟨node, base, nodes, next⟩ := h.lists
  have roots : ∀ p, isRoot t.mt p ↔ isRoot s.mt p := by
    intro p
    unfold isRoot
    rw [h.mount]
  constructor
  case sound =>
    constructor
    · have forest : Forest (isRoot s.mt) t.nc := by
        rcases h.nc with same | same <;> rw [same]
        · exact formed.sound.forest
        · exact formed.sound.forest.grow PNODES_PER_CHUNK
      exact forest.mono fun p _ hp => (roots p).mpr hp
    · rw [h.mount, node, nodes]
      exact formed.sound.root
    · rw [h.mount, node, nodes]
      exact formed.sound.mounted
  case covered =>
    rw [node, nodes]
    exact formed.covered
  case books =>
    refine formed.books.aside ⟨base, next, ?_, ?_, ?_, ?_, ?_, ?_, ?_, ?_, ?_, ?_⟩
    all_goals first | rw [ic] | rw [h.ft] | rw [h.aio]
  case driver => exact driver

/-- A failed mount leaves nothing behind if and only if its root got no alias. -/
theorem failed_undone (ops : OpsMove OffInodes e) (d : Releases J e)
    (formed : WellFormed J s) (bound : ∀ m : ℕ, s.mt.nextMount ≤ m → s.mt.mount m = none)
    {r : PnodeBase} (hr : s.nc.base rootpb = some r) {fs : FsId} {flags : ℕ} {err : ℤ}
    {mnt : Option MntId} (failed : err ≠ 0)
    (run : sysioDoMount e fs rootpb flags tocover s = .ok ((err, mnt), t)) :
    Undone e s t rootpb ↔ Barred e s rootpb tocover := by
  rw [← refused_iff formed.sound hr]
  rcases sysioDoMount_cases ops formed.sound bound hr run with
    ⟨-, refused, left, ic, drv⟩ | ⟨-, made, p, leftover⟩ | ⟨done, -⟩
  · refine ⟨fun _ => refused, fun _ => ?_⟩
    obtain ⟨node, base, nodes, -⟩ := left.lists
    constructor
    case recorded =>
      rw [nodes, node, left.mount]
      exact formed.sound.mounted
    case aliases => rw [base]
    case nodes =>
      intro q _
      rw [node]
      exact ⟨rfl, rfl⟩
    case mounts => exact left.mounts
    case cleanup =>
      rintro ⟨r', hr', bare, leaf⟩
      rw [← base] at hr'
      have formed' := formed_of_notMounted left ic (d.outside s t ic drv formed.driver) formed
      obtain ⟨x, u, gone, -⟩ := sysioPbGone_returns (m := s.mt.nextMount) d formed' hr' bare leaf
      exact ⟨u, gone⟩
  · refine ⟨fun undone => ?_, fun refused => absurd refused made⟩
    obtain ⟨r', hr'⟩ := undone.recorded p leftover.live
    rw [leftover.freed] at hr'
    cases hr'
  · exact absurd done failed

section Fuse

variable {B : Type} {h : Host B} {s t : Sys (FuseData B)}

/-- For every file system, root and target: a mount that fails has changed nothing, and its root can
be given up, if and only if it failed before the root had its alias. -/
theorem failed_mount (formed : WellFormed Served s)
    (bound : ∀ m : ℕ, s.mt.nextMount ≤ m → s.mt.mount m = none) {r : PnodeBase}
    (hr : s.nc.base rootpb = some r) {fs : FsId} {flags : ℕ} {err : ℤ} {mnt : Option MntId}
    (failed : err ≠ 0)
    (run : sysioDoMount (fuseEnv h) fs rootpb flags tocover s = .ok ((err, mnt), t)) :
    Undone (fuseEnv h) s t rootpb ↔ Barred (fuseEnv h) s rootpb tocover :=
  failed_undone fuseEnv_off fuse_releases formed bound hr failed run

theorem mountFile_values :
    (sysioDoMount (fuseEnv calmHost) 1 3 0 none).value fileState = some (-20, none) ∧
    (sysioDoMount (fuseEnv calmHost) 1 3 0 (some 108)).value fileState = some (-16, none) ∧
    (fileState.nc.base 3).map PnodeBase.parent = some (some 2) ∧
    (fileState.nc.pnode 108).base = 2 := by
  decide +kernel

theorem fileState_bound : ∀ m : ℕ, fileState.mt.nextMount ≤ m → fileState.mt.mount m = none :=
  (reached_fitted fileState_reached).2.bound

/-- The base node of "/b/f" is below that of "/b". -/
theorem fileState_below : AtOrBelow fileState.nc 3 (fileState.nc.pnode 108).base := by
  obtain ⟨-, -, parent, base⟩ := mountFile_values
  obtain ⟨r, hr, hp⟩ := Option.map_eq_some_iff.mp parent
  rw [base]
  exact Relation.ReflTransGen.single ⟨r, hr, hp⟩

/-- A mount on a directory the root lies below. -/
theorem failed_mount_above : ∃ t, Undone (fuseEnv calmHost) fileState t 3 := by
  obtain ⟨-, answer, parent, -⟩ := mountFile_values
  obtain ⟨r, hr, -⟩ := Option.map_eq_some_iff.mp parent
  exact ⟨_, (failed_mount fileState_formed fileState_bound hr (by decide) (ok_of_value answer)).mpr
    (Or.inl ⟨108, rfl, fileState_below⟩)⟩

/-- "/b/f" is no directory: its mount fails and leaves an alias on a mount that is freed. -/
theorem file_mount_left : ¬ ∀ (s t : Sys (FuseData Unit)) (fs : FsId) (rootpb : PbId) (flags : ℕ)
    (tocover : Option Pno) (err : ℤ) (mnt : Option MntId), WellFormed Served s →
    (∀ m : ℕ, s.mt.nextMount ≤ m → s.mt.mount m = none) → s.nc.base rootpb ≠ none → err ≠ 0 →
    sysioDoMount (fuseEnv calmHost) fs rootpb flags tocover s = .ok ((err, mnt), t) →
    Undone (fuseEnv calmHost) s t rootpb := by
  intro right
  obtain ⟨answer, -, parent, -⟩ := mountFile_values
  obtain ⟨r, hr, -⟩ := Option.map_eq_some_iff.mp parent
  have there : fileState.nc.base 3 ≠ none := by
    rw [hr]
    exact Option.some_ne_none r
  have run := ok_of_value answer
  have undone := right fileState _ 1 3 0 none (-20) none fileState_formed fileState_bound there
    (by decide) run
  have barred := (failed_undone fuseEnv_off fuse_releases fileState_formed fileState_bound hr
    (by decide) run).mp undone
  rcases barred with ⟨q, hq, -⟩ | denied | ⟨-, denied⟩
  · cases hq
  · cases denied
  · cases denied

end Fuse

end FailedMounts
