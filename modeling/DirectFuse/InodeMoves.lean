import DirectFuse.CallRules
import DirectFuse.FuseMoves

/-! Relations between states that see the inodes, the file systems and the driver's data only, and of
the names how many there may be.
Walking, pruning, mounting and unmounting touch these by releasing inodes and file systems and by
asking the driver, so a relation over these few steps is one over every call. -/
namespace InodeMoves

open ExecLogic SysioState SysioInode SysioNamei SysioMount SysioFile SysioInterface SysioSystem
open CoreMoves CallMoves CallRules

variable {D : Type} {R : Sys D → Sys D → Prop} [IsPreorder (Sys D) R]
  (outside : ∀ s t : Sys D, t.ic = s.ic → t.ft = s.ft → t.drv = s.drv →
    s.nc.maxNames ≤ t.nc.maxNames → R s t) {e : Env D}

omit [IsPreorder (Sys D) R] in
/-- A relation that does not see the open files table is one to which that may be the same. -/
theorem outside_files (h : ∀ s t : Sys D, t.ic = s.ic → t.drv = s.drv → R s t) (s t : Sys D)
    (ic : t.ic = s.ic) (_ : t.ft = s.ft) (drv : t.drv = s.drv)
    (_ : s.nc.maxNames ≤ t.nc.maxNames) : R s t := h s t ic drv

section Outside

include outside

omit [IsPreorder (Sys D) R] in
theorem outside_write {f : Sys D → Sys D} (ic : ∀ s, (f s).ic = s.ic) (ft : ∀ s, (f s).ft = s.ft)
    (drv : ∀ s, (f s).drv = s.drv)
    (names : ∀ s, (f s).nc.maxNames = s.nc.maxNames) :
    Moves R (Exec.write f : Sysio D Unit) :=
  moves_write fun s => outside s (f s) (ic s) (ft s) (drv s) (Nat.le_of_eq (names s).symm)

omit [IsPreorder (Sys D) R] in
theorem outside_names (f : Sys D → NameCache) (names : ∀ s, (f s).maxNames = s.nc.maxNames) :
    Moves R (Exec.write fun s => { s with nc := f s } : Sysio D Unit) :=
  outside_write outside (fun _ => rfl) (fun _ => rfl) (fun _ => rfl) names

omit [IsPreorder (Sys D) R] in
theorem outside_mounts (f : Sys D → MountTable) :
    Moves R (Exec.write fun s => { s with mt := f s } : Sysio D Unit) :=
  outside_write outside (fun _ => rfl) (fun _ => rfl) (fun _ => rfl) fun _ => rfl

omit [IsPreorder (Sys D) R] in
theorem outside_scratch (s t : Sys D) (k : Scratch s t) : R s t :=
  outside s t k.ic k.ft k.drv (Nat.le_of_eq (by rw [k.nc]))

theorem outside_modBase (b : PbId) (f : PnodeBase → PnodeBase) :
    Moves R (modBase b f : Sysio D Unit) :=
  moves_bind (baseAt_moves b) fun _ => outside_names outside _ fun _ => rfl

theorem outside_pRef (p : Pno) : Moves R (pRef p : Sysio D Unit) :=
  moves_bind (moves_check _ _) fun _ => outside_names outside _ fun _ => rfl

theorem outside_pRele (p : Pno) : Moves R (pRele p : Sysio D Unit) :=
  moves_bind (moves_check _ _) fun _ => outside_names outside _ fun _ => rfl

theorem outside_pbDestroy (b : PbId) : Moves R (pbDestroy b : Sysio D Unit) := by
  have quiet := fun f => outside_names outside f
  exact moves_bind (moves_check _ _) fun _ => moves_bind (quiet _ fun _ => rfl) fun _ =>
    moves_bind (baseAt_moves b) fun _ => moves_bind (assert_moves _) fun _ =>
    moves_bind (assert_moves _) fun _ => moves_bind (assert_moves _) fun _ =>
    moves_bind (moves_when fun _ => quiet _ fun _ => rfl) fun _ =>
    moves_bind (ifSome_moves fun q _ => outside_modBase outside q _) fun _ =>
    quiet _ fun _ => rfl

theorem outside_morePnodes : Moves R (morePnodes e) :=
  moves_bind (malloc_moves (outside_scratch outside)) fun _ => moves_ite
    (fun _ => outside_names outside _ fun _ => rfl) fun _ => moves_pure _

theorem outside_newAlias (parent : Option Pno) (b : PbId) (mnt : MntId) :
    Moves R (sysioPNewAlias e parent b mnt) := by
  refine moves_bind (baseAt_moves b) fun r => moves_bind (assert_moves _) fun _ =>
    moves_bind (moves_read _) fun free =>
    moves_bind (moves_when fun _ => outside_morePnodes outside) fun _ =>
    moves_bind (moves_read _) fun free => ?_
  cases free with
  | nil => exact moves_pure _
  | cons p rest =>
    exact moves_bind (outside_names outside _ fun _ => rfl) fun _ =>
      moves_bind (outside_modBase outside b _) fun _ => moves_pure _

end Outside

section Release

variable (iRele : ∀ i, Moves R (iRele e i))

include outside iRele

theorem pbGone_moves (b : PbId) : Moves R (sysioPbGone e b) :=
  moves_bind (baseAt_moves b) fun _ => moves_bind (ifSome_moves fun i _ => iRele i) fun _ =>
    moves_bind (outside_modBase outside b _) fun _ => outside_pbDestroy outside b

theorem pGone_moves (p : Pno) : Moves R (sysioPGone e p) :=
  moves_bind (pnodeAt_moves p) fun _ => moves_bind (assert_moves _) fun _ =>
    moves_bind (assert_moves _) fun _ => moves_bind (moves_check _ _) fun _ =>
    moves_bind (outside_names outside _ fun _ => rfl) fun _ =>
    moves_bind (outside_modBase outside _ _) fun _ => moves_bind (baseAt_moves _) fun _ =>
    moves_bind (moves_when fun _ => pbGone_moves outside iRele _) fun _ =>
    outside_names outside _ fun _ => rfl

theorem prune_moves (p : Pno) : Moves R (sysioPPrune e p) :=
  sysioPPrune_moves (pbGone_moves outside iRele) (pGone_moves outside iRele) p

theorem reclaim_moves : Moves R (pReclaim e) := by
  refine pReclaim_moves (fun p => ?_) fun s k => outside _ _ rfl rfl rfl (Nat.le_add_right _ _)
  exact moves_bind (pnodeAt_moves p) fun n => moves_ite (fun _ => moves_read _) fun _ =>
    moves_bind (outside_names outside _ fun _ => rfl) fun _ =>
    moves_bind (prune_moves outside iRele p) fun _ => moves_bind (moves_read _) fun next =>
    moves_bind (outside_pRele outside p) fun _ => moves_bind (pnodeAt_moves p) fun n' =>
    moves_ite (fun _ => moves_pure _) fun _ => moves_bind (prune_moves outside iRele p) fun _ =>
    moves_pure _

theorem pbNew_moves (name : Qstr) (parent : Option PbId) (ino : Option InoId) :
    Moves R (sysioPbNew e name parent ino) :=
  moves_bind (moves_read _) fun nc =>
    moves_bind (moves_when fun _ => reclaim_moves outside iRele) fun _ =>
    moves_bind (malloc_moves (outside_scratch outside)) fun ok =>
    moves_ite (fun _ => moves_pure _) fun _ => moves_bind (moves_read _) fun b =>
    moves_bind (moves_when fun _ => moves_bind (assert_moves _) fun _ =>
      outside_names outside _ fun _ => rfl) fun _ =>
    moves_bind (ifSome_moves fun q _ => outside_modBase outside q _) fun _ =>
    moves_bind (outside_names outside _ fun _ => rfl) fun _ => moves_pure _

theorem findAlias_moves (parent : Pno) (name : Qstr) : Moves R (sysioPFindAlias e parent name) := by
  have base : ∀ b, Moves R (findBase e b name) := by
    intro b
    refine moves_bind (nameChain_moves b name) fun chain =>
      moves_bind (findNamed_moves b name chain) fun found => ?_
    cases found with
    | none => exact pbNew_moves outside iRele name (some b) none
    | some c => exact moves_pure _
  refine moves_bind (pnodeAt_moves parent) fun n => moves_bind (base _) fun found => ?_
  cases found with
  | none => exact moves_pure _
  | some b =>
    refine moves_bind (baseAt_moves b) fun r => moves_bind (findAliasOf_moves parent _) fun known => ?_
    cases known with
    | some p => exact moves_bind (outside_pRef outside p) fun _ => moves_pure _
    | none =>
      refine moves_bind (pnodeAt_moves parent) fun n =>
        moves_bind (outside_newAlias outside _ _ _) fun made => ?_
      cases made <;> exact moves_pure _

section Asking

variable (lookup : ∀ i p o intnt path, Moves R (e.ops.lookup i p o intnt path))

include lookup

theorem validate_moves (p : Pno) (intnt : Option Intent) (path : Option Bytes) :
    Moves R (sysioPValidate e p intnt path) :=
  moves_bind (pnodeAt_moves p) fun n => moves_bind (baseAt_moves _) fun r =>
    moves_bind (mountAt_moves _) fun m => moves_bind (nonNull_moves _) fun root =>
    moves_bind (pnodeAt_moves _) fun rn => moves_bind (baseAt_moves _) fun rootpb =>
    moves_bind (assert_moves _) fun _ => moves_bind (nonNull_moves _) fun rooti =>
    moves_bind (lookup _ _ _ _ _) fun res => moves_bind (baseAt_moves _) fun r' =>
    moves_bind (moves_when fun _ => moves_bind (ifSome_moves fun i _ => iRele i) fun _ =>
      outside_modBase outside _ _) fun _ => moves_pure _

theorem walk_moves (readlink : ∀ i p n, Moves R (e.ops.readlink i p n)) : WalkMoves R e where
  pRef := outside_pRef outside
  pRele := outside_pRele outside
  malloc := malloc_moves (outside_scratch outside)
  validate := validate_moves outside iRele lookup
  permitted := sysioPermitted_moves (outside_scratch outside)
  findAlias := findAlias_moves outside iRele
  readlink := readlink

theorem path_moves (readlink : ∀ i p n, Moves R (e.ops.readlink i p n)) : PathMoves R e where
  scratch := outside_scratch outside
  namei := sysioNamei_moves (walk_moves outside iRele lookup readlink)
  pRele := outside_pRele outside

theorem doMount_moves (fs : FsId) (rootpb : PbId) (flags : ℕ) (tocover : Option Pno) :
    Moves R (sysioDoMount e fs rootpb flags tocover) := by
  have ancestor : Moves R (coversAncestor tocover rootpb : Sysio D Bool) := by
    cases tocover with
    | none => exact moves_pure _
    | some t =>
      exact moves_bind (pnodeAt_moves t) fun _ => moves_bind (moves_read _) fun _ =>
        hasAncestor_moves _ _ _
  have above : Moves R (parentAbove tocover : Sysio D (Option Pno)) := by
    cases tocover with
    | none => exact moves_pure _
    | some t => exact moves_bind (pnodeAt_moves t) fun _ => moves_pure _
  have quiet := outside_mounts outside
  have failed : ∀ m root err, Moves R (doMountError e m root err) := fun m root err =>
    moves_bind (ifSome_moves fun r _ => moves_bind (outside_pRele outside r) fun _ =>
      moves_bind (prune_moves outside iRele r) fun _ => moves_pure _) fun _ =>
      moves_bind (quiet _) fun _ => moves_pure _
  have path : ∀ b c, Moves R (sysioPbPath e b c) := sysioPbPath_moves (outside_scratch outside)
  have cover : ∀ m root, Moves R (coverUp e m root tocover) := fun m root =>
    moves_bind (mountAt_moves m) fun r => moves_bind (quiet _) fun _ =>
      moves_bind (pnodeAt_moves _) fun n => moves_bind (ifSome_moves fun q _ =>
      moves_bind (pnodeAt_moves q) fun _ => moves_bind (path _ _) fun _ =>
      moves_bind (pnodeAt_moves _) fun _ => moves_bind (path _ _) fun _ => moves_pure _)
      fun _ => moves_bind (outside_names outside _ fun _ => rfl) fun _ => quiet _
  refine moves_bind ancestor fun busy => moves_ite (fun _ => moves_pure _) fun _ =>
    moves_bind (malloc_moves (outside_scratch outside)) fun ok => moves_ite (fun _ => moves_pure _)
    fun _ => moves_bind (moves_read _) fun m => moves_bind (fsAt_moves fs) fun f =>
    moves_bind (quiet _) fun _ => moves_bind above fun up =>
    moves_bind (outside_newAlias outside _ _ _) fun made =>
    moves_bind (mountAt_moves m) fun r => moves_bind (quiet _) fun _ => ?_
  cases made with
  | none => exact failed m none _
  | some root =>
    exact moves_bind (validate_moves outside iRele lookup root none none) fun err =>
      moves_ite (fun _ => failed m (some root) err) fun _ => moves_bind (inoOf_moves root) fun ino =>
      moves_bind (nonNull_moves _) fun i => moves_bind (inodeAt_moves i) fun ri =>
      moves_ite (fun _ => failed m (some root) _) fun _ => moves_bind (cover m root) fun _ =>
      moves_pure _

end Asking

variable (fsRele : ∀ f, Moves R (fsRele e f))

include fsRele

theorem doUnmount_moves (m : MntId) : Moves R (sysioDoUnmount e m) := by
  have commit : ∀ root covers, Moves R (unmountCommit e m root covers) := fun root covers =>
    moves_bind (mountAt_moves m) fun r => moves_bind (pnodeAt_moves root) fun nr =>
      moves_bind (moves_when fun _ => outside_pRele outside covers) fun _ =>
      moves_bind (pnodeAt_moves covers) fun n => moves_bind (outside_names outside _ fun _ => rfl)
      fun _ => moves_bind (outside_mounts outside _) fun _ =>
      moves_bind (outside_pRele outside root) fun _ => moves_bind (pnodeAt_moves root) fun nr =>
      moves_bind (outside_names outside _ fun _ => rfl) fun _ =>
      moves_bind (pGone_moves outside iRele root) fun _ =>
      moves_bind (outside_mounts outside _) fun _ => moves_bind (fsRele r.fs) fun _ =>
      moves_pure _
  exact moves_bind (mountAt_moves m) fun r => moves_bind (nonNull_moves _) fun root =>
    moves_bind (pnodeAt_moves root) fun nr => moves_ite (fun _ => moves_pure _) fun _ =>
    moves_bind (nonNull_moves _) fun covers => moves_bind (pnodeAt_moves covers) fun n =>
    moves_bind (assert_moves _) fun _ => moves_bind (prune_moves outside iRele root) fun left =>
    moves_ite (fun _ => moves_pure _) fun _ => commit root covers

end Release

/-- The calls, over a relation that sees the inodes, the file systems and the driver's data only. -/
theorem step_moves (unseen : ∀ s t : Sys D, t.ic = s.ic → t.drv = s.drv →
      s.nc.maxNames ≤ t.nc.maxNames → R s t) {fssw : Bytes → Option (FsswopMount D)}
    (a : ActMoves R e)
    (mount : ∀ fstype mount, fssw fstype = some mount → ∀ source flags tocover,
      Moves R (mount source flags fstype tocover)) (fsRele : ∀ f, Moves R (fsRele e f)) (call : Call) :
    Moves R (step ⟨e, fssw⟩ call) := by
  have fnew : ∀ p flags, Moves R (sysioFuseFnew e p flags) := fun p flags =>
    moves_bind (inoOf_moves p) fun _ => moves_bind (malloc_moves a.scratch) fun _ =>
    moves_ite (fun _ => moves_pure _) fun _ => moves_bind (nonNull_moves _) fun i =>
    moves_bind (moves_read _) fun _ =>
    moves_bind (moves_write fun s => unseen _ _ rfl rfl (Nat.le_refl _)) fun _ =>
    moves_bind (a.iRef i) fun _ => moves_pure _
  have outside : ∀ s t : Sys D, t.ic = s.ic → t.ft = s.ft → t.drv = s.drv →
      s.nc.maxNames ≤ t.nc.maxNames → R s t := fun s t ic _ drv => unseen s t ic drv
  exact CallMoves.step_moves (acts_calls a (path_moves outside a.iRele a.lookup a.readlink)
    (prune_moves outside a.iRele) fnew
    (fun _ => moves_write fun s => unseen _ _ rfl rfl (Nat.le_refl _)) mount
    (doUnmount_moves outside a.iRele fsRele)) call

end InodeMoves
