import DirectFuse.CallRules
import DirectFuse.MountForest

/-! The lists of path nodes in every state a program can bring the library with the fuse driver to:
no node is listed twice, and none is both in use and free. -/
namespace ListedNodes

open ExecLogic SysioState SysioInode SysioNamei SysioMount SysioFile SysioInterface SysioSystem
open FuseDriver FuseSystem CoreMoves FuseMoves WalkRules PathRefs CallMoves CallRules MountForest

variable {D : Type}

/-- The node lists stay in order. -/
def Listed (s t : Sys D) : Prop := NodeLists s → NodeLists t

instance : IsPreorder (Sys D) Listed where
  refl _ h := h
  trans _ _ _ h k hs := k (h hs)

theorem listed_of_same {s t : Sys D} (pnodes : t.nc.pnodes = s.nc.pnodes)
    (freePnodes : t.nc.freePnodes = s.nc.freePnodes) (next : t.nc.nextPnode = s.nc.nextPnode) :
    Listed s t := by
  intro hs
  refine ⟨?_, ?_, ?_, ?_, ?_⟩
  · rw [pnodes]; exact hs.nodup
  · rw [freePnodes]; exact hs.freeNodup
  · rw [pnodes, freePnodes]; exact hs.disjoint
  · rw [pnodes, next]; exact hs.bound
  · rw [freePnodes, next]; exact hs.freeBound

theorem listed_of_nc {s t : Sys D} (nc : t.nc = s.nc) : Listed s t :=
  listed_of_same (by rw [nc]) (by rw [nc]) (by rw [nc])

theorem still_listed (s t : Sys D) (h : Still s t) : Listed s t :=
  listed_of_same h.pnodes h.freePnodes h.nextPnode

theorem inos_listed {s t : Sys D} (h : InosOnly s t) : Listed s t :=
  listed_of_same h.pnodes h.freePnodes h.nextPnode

theorem scratch_listed (s t : Sys D) (h : Scratch s t) : Listed s t := listed_of_nc h.nc

theorem off_listed (s t : Sys D) (h : OffInodes s t) : Listed s t := listed_of_nc h.nc

theorem neutral_listed {α : Type} {m : Sysio D α} (h : Moves Neutral m) : Moves Listed m :=
  h.mono fun _ _ k hs => (k hs).1

theorem setPnode_listed (p : Pno) (n : Pnode) : Moves Listed (setPnode p n : Sysio D Unit) :=
  moves_write fun _ => listed_of_same rfl rfl rfl

theorem pRele_listed (p : Pno) : Moves Listed (pRele p : Sysio D Unit) :=
  moves_bind (moves_check _ _) fun _ => moves_write fun _ => listed_of_same rfl rfl rfl

theorem held_self {s : Sys D} (hs : NodeLists s) : Held (refs s) [] s := ⟨hs, fun q => by simp⟩

theorem pRef_listed (p : Pno) : Moves Listed (pRef p : Sysio D Unit) :=
  fun s u t run hs => (pRef_held p s (held_self hs) u t run).lists

theorem mount_write {f : Sys D → MountTable} :
    Moves Listed (Exec.write fun s => { s with mt := f s } : Sysio D Unit) :=
  moves_write fun _ => listed_of_nc rfl

section Mounts

variable {e : Env D} (ops : OpsMove OffInodes e)

include ops

theorem quiet_ops : OpsMove Quiet e where
  lookup i p o intnt path := (ops.lookup i p o intnt path).mono fun s t k => Still.quiet s t k.still
  readlink i p n := (ops.readlink i p n).mono fun s t k => Still.quiet s t k.still
  gone i := (ops.gone i).mono fun s t k => Still.quiet s t k.still

theorem sysioNamei_listed (parent : Option Pno) (path : Option Bytes) (flags : ℕ)
    (intnt : Option Intent) : Moves Listed (sysioNamei e parent path flags intnt) :=
  fun s a t run hs => (sysioNamei_rule (n := 0) (held_rules (quiet_ops ops) (refs_nonneg s)) parent
    path flags intnt s (held_self hs) a t run).1.lists

theorem sysioPPrune_listed (p : Pno) : Moves Listed (sysioPPrune e p) :=
  neutral_listed (sysioPPrune_neutral (quiet_ops ops) p)

omit ops in
theorem sysioPNewAlias_listed (parent : Option Pno) (b : PbId) (mnt : MntId) :
    Moves Listed (sysioPNewAlias e parent b mnt) :=
  fun s a t run hs => (sysioPNewAlias_held parent b mnt s (held_self hs) a t run).lists

theorem sysioDoMount_listed (fs : FsId) (rootpb : PbId) (flags : ℕ) (tocover : Option Pno) :
    Moves Listed (sysioDoMount e fs rootpb flags tocover) := by
  have ancestor : Moves Listed (coversAncestor tocover rootpb : Sysio D Bool) := by
    cases tocover with
    | none => exact moves_pure _
    | some t => exact moves_bind (pnodeAt_moves t) fun _ => moves_bind (moves_read _) fun _ =>
        hasAncestor_moves _ _ _
  have above : Moves Listed (parentAbove tocover : Sysio D (Option Pno)) := by
    cases tocover with
    | none => exact moves_pure _
    | some t => exact moves_bind (pnodeAt_moves t) fun _ => moves_pure _
  have failed : ∀ m root err, Moves Listed (doMountError e m root err) := fun m root err =>
    moves_bind (ifSome_moves fun r _ => moves_bind (pRele_listed r) fun _ =>
      moves_bind (sysioPPrune_listed ops r) fun _ => moves_pure _) fun _ =>
      moves_bind mount_write fun _ => moves_pure _
  have path : ∀ b c, Moves Listed (sysioPbPath e b c) := sysioPbPath_moves scratch_listed
  have cover : ∀ m root, Moves Listed (coverUp e m root tocover) := fun m root =>
    moves_bind (mountAt_moves m) fun r => moves_bind mount_write fun _ =>
      moves_bind (pnodeAt_moves _) fun n => moves_bind (ifSome_moves fun q _ =>
      moves_bind (pnodeAt_moves q) fun _ => moves_bind (path _ _) fun _ =>
      moves_bind (pnodeAt_moves _) fun _ => moves_bind (path _ _) fun _ => moves_pure _)
      fun _ => moves_bind (setPnode_listed _ _) fun _ => mount_write
  refine moves_bind ancestor fun busy => moves_ite (fun _ => moves_pure _) fun _ =>
    moves_bind (malloc_moves scratch_listed) fun ok => moves_ite (fun _ => moves_pure _) fun _ =>
    moves_bind (moves_read _) fun m => moves_bind (fsAt_moves fs) fun f =>
    moves_bind mount_write fun _ => moves_bind above fun up =>
    moves_bind (sysioPNewAlias_listed _ _ _) fun made =>
    moves_bind (mountAt_moves m) fun r => moves_bind mount_write fun _ => ?_
  cases made with
  | none => exact failed m none _
  | some root =>
    refine moves_bind ((sysioPValidate_inos ops root none none).mono fun _ _ k => inos_listed k)
      fun err => moves_ite (fun _ => failed m (some root) err) fun _ =>
      moves_bind (inoOf_moves root) fun ino => moves_bind (nonNull_moves _) fun i =>
      moves_bind (inodeAt_moves i) fun ri => moves_ite (fun _ => failed m (some root) _) fun _ =>
      moves_bind (cover m root) fun _ => moves_pure _

theorem sysioDoUnmount_listed (fsopGone : ∀ f, Moves OffInodes (e.ops.fsopGone f)) (m : MntId) :
    Moves Listed (sysioDoUnmount e m) := by
  have commit : ∀ root covers, Moves Listed (unmountCommit e m root covers) := fun root covers =>
    moves_bind (mountAt_moves m) fun r => moves_bind (pnodeAt_moves root) fun nr =>
      moves_bind (moves_when fun _ => pRele_listed covers) fun _ =>
      moves_bind (pnodeAt_moves covers) fun n => moves_bind (setPnode_listed _ _) fun _ =>
      moves_bind mount_write fun _ => moves_bind (pRele_listed root) fun _ =>
      moves_bind (pnodeAt_moves root) fun nr => moves_bind (setPnode_listed _ _) fun _ =>
      moves_bind (neutral_listed (sysioPGone_neutral (quiet_ops ops) root)) fun _ =>
      moves_bind mount_write fun _ => moves_bind ((fsRele_off ops.gone fsopGone r.fs).mono off_listed)
      fun _ => moves_pure _
  exact moves_bind (mountAt_moves m) fun r => moves_bind (nonNull_moves _) fun root =>
    moves_bind (pnodeAt_moves root) fun nr => moves_ite (fun _ => moves_pure _) fun _ =>
    moves_bind (nonNull_moves _) fun covers => moves_bind (pnodeAt_moves covers) fun n =>
    moves_bind (assert_moves _) fun _ => moves_bind (sysioPPrune_listed ops root) fun left =>
    moves_ite (fun _ => moves_pure _) fun _ => commit root covers

end Mounts

section Fuse

variable {B : Type} {h : Host B}

/-- What the calls do over the fuse driver besides walking and pruning. -/
theorem fuse_acts {A : Sys (FuseData B) → Sys (FuseData B) → Prop} [IsPreorder (Sys (FuseData B)) A]
    (inos : ∀ s t, InosOnly s t → A s t) (files : ∀ s t, FilesOnly s t → A s t) :
    ActMoves A (fuseEnv h) where
  scratch s t k := inos s t (off_inos k.driver.off)
  files := files
  bind b ino := (modIno_inos b ino).mono inos
  iRef i := iRef_moves (fun s t k => inos s t (off_inos k)) i
  iRele i := (iRele_inos fuseEnv_off i).mono inos
  iGone i := iGone_moves (fun s t k => inos s t (off_inos k))
    (fun j => (fuseEnv_off.gone j).mono fun s t k => inos s t (off_inos k)) i
  lookup i p o intnt path := (fuseEnv_off.lookup i p o intnt path).mono fun s t k => inos s t (off_inos k)
  getattr _ p _ := (fuseInopGetattr_driver p).mono fun s t k => inos s t (off_inos k.off)
  setattr _ _ _ _ := noReturn_driver.mono fun s t k => inos s t (off_inos k.off)
  mkdir _ p mode := (fuseInopMkdir_rebinds p mode).mono fun s t k => inos s t (rebinds_inos k)
  rmdir _ p := (fuseInopRmdir_driver p).mono fun s t k => inos s t (off_inos k.off)
  symlink _ _ _ := noReturn_driver.mono fun s t k => inos s t (off_inos k.off)
  readlink i p n := (fuseEnv_off.readlink i p n).mono fun s t k => inos s t (off_inos k)
  open_ _ p flags mode := (fuseInopOpen_rebinds p flags mode).mono fun s t k => inos s t (rebinds_inos k)
  close _ p := (onFile_driver p _).mono fun s t k => inos s t (off_inos k.off)
  link _ _ _ := noReturn_driver.mono fun s t k => inos s t (off_inos k.off)
  unlink _ p := (fuseInopUnlink_driver p).mono fun s t k => inos s t (off_inos k.off)
  rename _ _ _ := noReturn_driver.mono fun s t k => inos s t (off_inos k.off)
  read _ n off p := (fuseInopRead_driver n off p).mono fun s t k => inos s t (off_inos k.off)
  write _ n off p := (fuseInopWrite_driver n off p).mono fun s t k => inos s t (off_inos k.off)
  post _ _ _ := moves_fault _
  iodone _ _ := (moves_bind noReturn_driver fun _ => moves_pure _).mono fun s t k =>
    inos s t (off_inos k.off)
  sync _ p := (onFile_driver p _).mono fun s t k => inos s t (off_inos k.off)
  datasync _ p := moves_bind (nonNull_moves p) fun q =>
    (onFile_driver q _).mono fun s t k => inos s t (off_inos k.off)
  mknod _ _ _ _ := noReturn_driver.mono fun s t k => inos s t (off_inos k.off)
  ftruncate _ p _ := (onFile_driver p _).mono fun s t k => inos s t (off_inos k.off)

section Mounting

variable {A : Sys (FuseData B) → Sys (FuseData B) → Prop} [IsPreorder (Sys (FuseData B)) A]

/-- The error exit of a mount of the fuse driver. -/
theorem mountInitError_acts (inos : ∀ s t, InosOnly s t → A s t)
    (pbGone : ∀ b, Moves A (sysioPbGone (fuseEnv h) b)) (k : FinoId) (fs : Option FsId)
    (rooti : Option InoId) (rootpb : Option PbId) (err : ℤ) :
    Moves A (mountInitError h k fs rooti rootpb err) := by
  refine moves_bind ?_ fun _ => moves_bind ?_ fun _ => moves_pure _
  · cases rootpb with
    | some b => exact pbGone b
    | none =>
      cases rooti with
      | some i => exact (iRele_inos fuseEnv_off i).mono inos
      | none => exact moves_pure _
  · cases fs with
    | some f => exact (fsRele_off fuseEnv_off.gone (fun f => (fuseFsopGone_driver f).mono
        fun _ _ k => k.off) f).mono fun s t k => inos s t (off_inos k)
    | none => exact (fuseIDestory_driver k).mono fun s t k => inos s t (off_inos k.off)

/-- What a mount of the fuse driver does, given what making and mounting its root does. -/
theorem sysioFuseMountInit_acts (inos : ∀ s t, InosOnly s t → A s t)
    (pbGone : ∀ b, Moves A (sysioPbGone (fuseEnv h) b))
    (root : ∀ k f rooti flags tocover, Moves A (do
      match ← sysioPbNew (fuseEnv h) ⟨[], 0⟩ none (some rooti) with
      | none => mountInitError h k (some f) (some rooti) none (-ENOMEM)
      | some rootpb => do
        let (err, mnt) ← sysioDoMount (fuseEnv h) f rootpb flags tocover
        if err ≠ 0 then
          mountInitError h k (some f) (some rooti) (some rootpb) err
        else
          return (0, mnt) : Fuse B (ℤ × Option MntId)))
    (flags : ℕ) (fstype : Bytes) (tocover : Option Pno) (opers : Option ℕ) :
    Moves A (sysioFuseMountInit h flags fstype tocover opers) := by
  have off : ∀ s t, OffInodes s t → A s t := fun s t k => inos s t (off_inos k)
  have driver : ∀ {α : Type} {m : Fuse B α}, Moves DriverOnly m → Moves A m :=
    fun hm => hm.mono fun s t k => off s t k.off
  have scratch : ∀ s t, Scratch s t → A s t := fun s t k => off s t k.driver.off
  have dev : Moves DriverOnly (sysioDevAlloc : Fuse B ℕ) :=
    moves_bind (moves_read _) fun _ => moves_bind (assert_moves _) fun _ =>
      moves_bind drv_driver fun _ => moves_pure _
  have fsNew : ∀ q, Moves A (sysioFsNew (coreEnv h) 0 fstype q) := fun q =>
    moves_bind (moves_read _) fun _ => moves_bind (malloc_moves scratch) fun _ =>
    moves_ite (fun _ => moves_pure _) fun _ => moves_bind (malloc_moves scratch) fun _ =>
    moves_bind (moves_check _ _) fun _ => moves_bind (moves_read _) fun _ =>
    moves_bind (moves_write fun s => off s _ ⟨rfl, rfl, rfl, rfl, rfl⟩) fun _ => moves_pure _
  have failed := mountInitError_acts (h := h) inos pbGone
  refine moves_bind (moves_read _) fun mode => moves_bind (malloc_moves scratch) fun ok =>
    moves_ite (fun _ => moves_pure _) fun _ => moves_bind (moves_read _) fun q =>
    moves_bind (driver drv_driver) fun _ => moves_bind (driver dev) fun dev =>
    moves_bind (driver fuseInumAlloc_driver) fun inum =>
    moves_bind (driver (fuseDirectoryNew_driver _ _ _)) fun made => ?_
  cases made with
  | none => exact moves_pure _
  | some k =>
    refine moves_bind (driver (finodeAt_driver k)) fun r =>
      moves_bind (driver (setFinode_driver _ _)) fun _ => moves_bind (fsNew _) fun fs => ?_
    cases fs with
    | none => exact failed k none none none _
    | some f =>
      refine moves_bind ((sysioINew_moves off_self gone_off _ _ _ _ _).mono off) fun rooti => ?_
      cases rooti with
      | none => exact failed k (some f) none none _
      | some rooti => exact root k f rooti flags tocover

end Mounting

theorem fsswLookup_listed (fstype : Bytes) (mount : FsswopMount (FuseData B))
    (hmount : fsswLookup h fstype = some mount) (source : Bytes) (flags : ℕ) (tocover : Option Pno) :
    Moves Listed (mount source flags fstype tocover) := by
  have inos : ∀ s t : Sys (FuseData B), InosOnly s t → Listed s t := fun _ _ k => inos_listed k
  have pbGone : ∀ b, Moves Listed (sysioPbGone (fuseEnv h) b) :=
    sysioPbGone_moves still_listed fun i => (fuseEnv_off.gone i).mono off_listed
  refine fsswLookup_moves (sysioFuseMountInit_acts inos pbGone fun k f rooti flags tocover => ?_)
    fstype mount hmount source flags tocover
  refine moves_bind (neutral_listed (sysioPbNew_neutral fuseEnv_quiet _ _ _)) fun rootpb => ?_
  cases rootpb with
  | none => exact mountInitError_acts inos pbGone _ _ _ _ _
  | some rootpb =>
    exact moves_bind (sysioDoMount_listed fuseEnv_off _ _ _ _) fun res => moves_ite
      (fun _ => mountInitError_acts inos pbGone _ _ _ _ _) fun _ => moves_pure _

theorem files_listed (s t : Sys (FuseData B)) (k : FilesOnly s t) : Listed s t := listed_of_nc k.nc

/-- No call puts a path node on two lists. -/
theorem step_listed (call : Call) : Moves Listed (step (fuseLibrary h) call) := by
  have w : PathMoves Listed (fuseEnv h) :=
    ⟨scratch_listed, sysioNamei_listed fuseEnv_off, pRele_listed⟩
  have a : ActMoves Listed (fuseEnv h) := fuse_acts (fun _ _ k => inos_listed k) files_listed
  have fnew : ∀ p flags, Moves Listed (sysioFuseFnew (fuseEnv h) p flags) := fun p flags =>
    moves_bind (inoOf_moves p) fun _ => moves_bind (malloc_moves scratch_listed) fun _ =>
    moves_ite (fun _ => moves_pure _) fun _ => moves_bind (nonNull_moves _) fun i =>
    moves_bind (moves_read _) fun _ => moves_bind (moves_write fun _ => listed_of_nc rfl) fun _ =>
    moves_bind (a.iRef i) fun _ => moves_pure _
  have fsopGone : ∀ f, Moves OffInodes ((fuseEnv h).ops.fsopGone f) := fun f =>
    (fuseFsopGone_driver f).mono fun _ _ k => k.off
  exact step_moves (acts_calls a w (sysioPPrune_listed fuseEnv_off) fnew (fun _ => mount_write)
    fsswLookup_listed (sysioDoUnmount_listed fuseEnv_off fsopGone)) call

theorem initState_lists (d : D) : NodeLists (initState d) where
  nodup := List.nodup_nil
  freeNodup := List.nodup_nil
  disjoint := by simp [initState]
  bound := by simp [initState]
  freeBound := by simp [initState]

theorem reached_lists {b : B} {ok : Sys (FuseData B) → Call → Prop} {s : Sys (FuseData B)}
    (run : FuseReached h b ok s) : NodeLists s := by
  obtain ⟨s₀, boot, run⟩ := run
  refine run.invariant (I := NodeLists) (fun s call a t hs _ last => ?_) ?_
  · exact step_listed call s a t last hs
  · exact sysioMountRoot_moves fsswLookup_listed (fun _ _ => mount_write) pRef_listed [] fuseTypeName 2
      _ _ _ boot (initState_lists _)

end Fuse

end ListedNodes
