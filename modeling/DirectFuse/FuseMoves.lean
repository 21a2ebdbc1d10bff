import DirectFuse.FuseSystem
import DirectFuse.CoreMoves

/-! What the operations of the fuse driver leave alone: most change the driver's own data only, a
look-up the inode cache as well, and creating a file or a directory binds its name to an inode. -/
namespace FuseMoves

open ExecLogic SysioState SysioInode SysioNamei SysioMount SysioFile SysioInterface FuseDriver
open CoreMoves

variable {B : Type} {h : Host B}

theorem scratch_driver (s t : Sys (FuseData B)) (k : Scratch s t) : DriverOnly s t := k.driver

theorem drv_driver {f : Sys (FuseData B) → FuseData B} :
    Moves DriverOnly (Exec.write fun s => { s with drv := f s } : Fuse B Unit) :=
  moves_write fun _ => ⟨rfl, rfl, rfl, rfl, rfl, rfl⟩

theorem finodeAt_driver (k : FinoId) : Moves DriverOnly (finodeAt k : Fuse B FuseInode) :=
  moves_deref _ _

theorem setFinode_driver (k : FinoId) (r : FuseInode) :
    Moves DriverOnly (setFinode k r : Fuse B Unit) := drv_driver

theorem i2fi_driver (i : InoId) : Moves DriverOnly (i2fi i : Fuse B FinoId) :=
  moves_bind (inodeAt_moves i) fun _ => moves_pure _

theorem p2fi_driver (p : Pno) : Moves DriverOnly (p2fi p : Fuse B FinoId) :=
  moves_bind (inoOf_moves p) fun _ => moves_bind (nonNull_moves _) fun i => i2fi_driver i

theorem fs2ffs_driver (f : FsId) : Moves DriverOnly (fs2ffs f : Fuse B FfsId) :=
  moves_bind (fsAt_moves f) fun _ => moves_pure _

theorem noReturn_driver : Moves DriverOnly (noReturn h) := moves_read _

theorem backendCall_driver (ops : Option ℕ) (c : BackendCall) :
    Moves DriverOnly (backendCall h ops c) :=
  moves_bind (nonNull_moves ops) fun _ => moves_bind (moves_read _) fun _ =>
    moves_bind drv_driver fun _ => moves_pure _

theorem fuseIDestory_driver (k : FinoId) : Moves DriverOnly (fuseIDestory k : Fuse B Unit) :=
  moves_bind (finodeAt_driver k) fun _ => moves_bind (moves_deref _ _) fun _ => drv_driver

theorem fuseInopGone_driver (i : InoId) : Moves DriverOnly (fuseInopGone i : Fuse B Unit) :=
  moves_bind (i2fi_driver i) fun k => fuseIDestory_driver k

theorem fuseFsopGone_driver (f : FsId) : Moves DriverOnly (fuseFsopGone f : Fuse B Unit) := by
  have all : ∀ l : List FinoId, Moves DriverOnly (destoryAll l : Fuse B Unit) := by
    intro l
    induction l with
    | nil => exact moves_pure _
    | cons k l ih => exact moves_bind (fuseIDestory_driver k) fun _ => ih
  exact moves_bind (fs2ffs_driver f) fun q => moves_bind (moves_deref _ _) fun l =>
    moves_bind (all l) fun _ => drv_driver

theorem fuseInumAlloc_driver : Moves DriverOnly (fuseInumAlloc : Fuse B ℕ) :=
  moves_bind (moves_read _) fun _ => moves_bind drv_driver fun _ => moves_pure _

theorem fuseIAlloc_driver (q : FfsId) (st : Stat) (ops : Option ℕ) :
    Moves DriverOnly (fuseIAlloc h q st ops) :=
  moves_bind (assert_moves _) fun _ => moves_bind (assert_moves _) fun _ =>
    moves_bind (malloc_moves scratch_driver) fun _ => moves_ite (fun _ => moves_pure _) fun _ =>
    moves_bind (moves_read _) fun _ => moves_bind (moves_deref _ _) fun _ =>
    moves_bind drv_driver fun _ => moves_pure _

theorem fuseDirectoryNew_driver (q : FfsId) (parent : Option FinoId) (st : Stat) :
    Moves DriverOnly (fuseDirectoryNew h q parent st) := by
  have ops : Moves DriverOnly (opsOf parent : Fuse B (Option ℕ)) := by
    cases parent with
    | none => exact moves_pure _
    | some d => exact moves_bind (finodeAt_driver d) fun _ => moves_pure _
  refine moves_bind ops fun o => moves_bind (fuseIAlloc_driver q st o) fun made => ?_
  cases made with
  | none => exact moves_pure _
  | some k =>
    refine moves_bind (malloc_moves scratch_driver) fun ok => moves_ite (fun _ =>
      moves_bind (fuseIDestory_driver k) fun _ => moves_pure _) fun _ => ?_
    exact moves_bind (finodeAt_driver _) fun _ => moves_bind (finodeAt_driver _) fun _ =>
      moves_bind (setFinode_driver _ _) fun _ => moves_pure _

theorem direntsAt_driver (k : FinoId) : Moves DriverOnly (direntsAt k : Fuse B (List Dirent)) :=
  moves_bind (finodeAt_driver k) fun _ => nonNull_moves _

theorem fuseDirectoryInsert_driver (parent : FinoId) (name : Bytes) (inum : ℕ) :
    Moves DriverOnly (fuseDirectoryInsert h parent name inum) :=
  moves_bind (direntsAt_driver parent) fun _ => moves_ite (fun _ => moves_pure _) fun _ =>
    moves_bind (malloc_moves scratch_driver) fun _ => moves_ite (fun _ => moves_pure _) fun _ =>
    moves_bind (moves_check _ _) fun _ => moves_bind (finodeAt_driver _) fun _ =>
    moves_bind (setFinode_driver _ _) fun _ => moves_pure _

theorem fuseUnlinkEntry_driver (parent : FinoId) (name : Bytes) :
    Moves DriverOnly (fuseUnlinkEntry parent name : Fuse B ℤ) :=
  moves_bind (direntsAt_driver parent) fun _ => moves_ite (fun _ => moves_pure _) fun _ =>
    moves_bind (finodeAt_driver _) fun _ => moves_bind (assert_moves _) fun _ =>
    moves_bind (setFinode_driver _ _) fun _ => moves_pure _

theorem fuseInopRmdir_driver (p : Pno) : Moves DriverOnly (fuseInopRmdir h p) := by
  refine moves_bind (pnodeAt_moves p) fun n =>
    moves_bind (sysioPbPath_moves scratch_driver _ _) fun path => ?_
  cases path with
  | none => exact moves_pure _
  | some path =>
    exact moves_bind (p2fi_driver _) fun _ => moves_bind (baseAt_moves _) fun _ =>
      moves_bind (fuseUnlinkEntry_driver _ _) fun _ => moves_bind (p2fi_driver p) fun k =>
      moves_bind (finodeAt_driver k) fun _ => backendCall_driver _ _

theorem openExisting_driver (p : Pno) : Moves DriverOnly (openExisting h p) :=
  moves_bind (p2fi_driver p) fun k => moves_bind (pnodeAt_moves p) fun _ =>
    moves_bind (sysioPbPath_moves scratch_driver _ _) fun _ => moves_bind (finodeAt_driver k) fun _ =>
    moves_bind (setFinode_driver _ _) fun _ => moves_pure _

theorem onFile_driver (p : Pno) (call : Option Bytes → Option FiId → BackendCall) :
    Moves DriverOnly (onFile h p call) :=
  moves_bind (pnodeAt_moves p) fun _ => moves_bind (sysioPbPath_moves scratch_driver _ _) fun _ =>
    moves_bind (p2fi_driver p) fun k => moves_bind (finodeAt_driver k) fun _ =>
    backendCall_driver _ _

theorem fuseInopUnlink_driver (p : Pno) : Moves DriverOnly (fuseInopUnlink h p) :=
  moves_bind (pnodeAt_moves p) fun _ => moves_bind (sysioPbPath_moves scratch_driver _ _) fun _ =>
    moves_bind (p2fi_driver p) fun k => moves_bind (finodeAt_driver k) fun _ =>
    backendCall_driver _ _

theorem fuseInopGetattr_driver (p : Option Pno) : Moves DriverOnly (fuseInopGetattr h p) :=
  moves_bind (nonNull_moves p) fun p => moves_bind (pnodeAt_moves p) fun _ =>
    moves_bind (sysioPbPath_moves scratch_driver _ _) fun _ => moves_bind (p2fi_driver p) fun k =>
    moves_bind (finodeAt_driver k) fun _ => backendCall_driver _ _

theorem fuseInopRead_driver (n : ℕ) (off : ℤ) (p : Pno) :
    Moves DriverOnly (fuseInopRead h n off p) :=
  moves_bind (p2fi_driver p) fun k => moves_bind (finodeAt_driver k) fun _ => backendCall_driver _ _

theorem fuseInopWrite_driver (n : ℕ) (off : ℤ) (p : Pno) :
    Moves DriverOnly (fuseInopWrite h n off p) :=
  moves_bind (p2fi_driver p) fun k => moves_bind (finodeAt_driver k) fun _ => backendCall_driver _ _

section Inodes

theorem off_self (s t : Sys (FuseData B)) (k : OffInodes s t) : OffInodes s t := k

theorem driver_off {α : Type} {m : Fuse B α} (k : Moves DriverOnly m) : Moves OffInodes m :=
  k.mono fun _ _ k => k.off

theorem gone_off (i : InoId) : Moves OffInodes ((coreEnv h).ops.gone i) :=
  driver_off (fuseInopGone_driver i)

theorem fuseInopLookup_off (p : Pno) (inop : Option InoId) :
    Moves OffInodes (fuseInopLookup h p inop) := by
  cases inop with
  | some i =>
    exact moves_bind (driver_off (i2fi_driver i)) fun k => moves_bind (driver_off (finodeAt_driver k))
      fun _ => moves_bind (inodeAt_moves i) fun _ => moves_bind (setInode_moves off_self _ _) fun _ =>
      moves_pure _
  | none =>
    refine moves_bind (pnodeAt_moves p) fun n => moves_bind (inoOf_moves _) fun d =>
      moves_bind (nonNull_moves _) fun d => moves_bind (inodeAt_moves d) fun rd =>
      moves_bind (baseAt_moves _) fun r => moves_bind (driver_off (direntsAt_driver _)) fun data => ?_
    cases fuseDirectoryProbe data r.name.name with
    | none => exact moves_pure _
    | some de =>
      refine moves_bind (sysioIFind_moves off_self _ _) fun found => ?_
      cases found with
      | some i => exact moves_pure _
      | none =>
        refine moves_bind (driver_off (finodeAt_driver _)) fun fino =>
          moves_bind (sysioINew_moves off_self gone_off _ _ _ _ _) fun made => ?_
        cases made <;> exact moves_pure _

theorem fuseEnv_off : OpsMove OffInodes (fuseEnv h) where
  lookup _ p inop _ _ := fuseInopLookup_off p inop
  readlink _ _ _ := driver_off (moves_bind noReturn_driver fun _ => moves_pure _)
  gone := gone_off (h := h)

theorem fuseEnv_still : OpsMove Still (fuseEnv h) where
  lookup i p o intnt path := (fuseEnv_off.lookup i p o intnt path).mono fun _ _ k => k.still
  readlink i p n := (fuseEnv_off.readlink i p n).mono fun _ _ k => k.still
  gone i := (fuseEnv_off.gone i).mono fun _ _ k => k.still

end Inodes

/-- The name cache with the base node `b` bound to an inode. -/
def bindIno (nc : NameCache) (b : PbId) (ino : Option InoId) : NameCache :=
  { nc with base := Function.update nc.base b ((nc.base b).map fun r => { r with ino := ino }) }

theorem bindIno_bound (nc : NameCache) (b : PbId) :
    bindIno nc b ((nc.base b).bind fun r => r.ino) = nc := by
  have : ((nc.base b).map fun r => { r with ino := (nc.base b).bind fun r => r.ino }) = nc.base b := by
    cases hr : nc.base b <;> simp
  simp [bindIno, this]

theorem bindIno_bindIno (nc : NameCache) (b : PbId) (i j : Option InoId) :
    bindIno (bindIno nc b i) b j = bindIno nc b j := by
  simp only [bindIno, Function.update_self, Option.map_map, Function.update_idem]
  rfl

/-- In the name cache at most the inode of the base node `b` has changed. -/
structure Rebinds (b : PbId) (s t : Sys (FuseData B)) : Prop where
  nc : ∃ ino, t.nc = bindIno s.nc b ino
  mt : t.mt = s.mt
  ft : t.ft = s.ft
  aio : t.aio = s.aio
  umask : t.umask = s.umask

theorem rebinds_of_off {b : PbId} (s t : Sys (FuseData B)) (k : OffInodes s t) : Rebinds b s t :=
  ⟨⟨_, k.nc.trans (bindIno_bound s.nc b).symm⟩, k.mt, k.ft, k.aio, k.umask⟩

instance (b : PbId) : IsPreorder (Sys (FuseData B)) (Rebinds b) where
  refl s := rebinds_of_off s s (Std.Refl.refl s)
  trans s t u k l := by
    obtain ⟨i, hi⟩ := k.nc
    obtain ⟨j, hj⟩ := l.nc
    refine ⟨⟨j, ?_⟩, l.mt.trans k.mt, l.ft.trans k.ft, l.aio.trans k.aio, l.umask.trans k.umask⟩
    rw [hj, hi]
    exact bindIno_bindIno s.nc b i j

/-- In the name cache at most the inode of the name `p` has changed. -/
def RebindsAt (p : Pno) (s t : Sys (FuseData B)) : Prop := Rebinds (s.nc.pnode p).base s t

theorem Rebinds.pnode {b : PbId} {s t : Sys (FuseData B)} (k : Rebinds b s t) :
    t.nc.pnode = s.nc.pnode := by
  obtain ⟨_, hi⟩ := k.nc
  rw [hi]
  rfl

instance (p : Pno) : IsPreorder (Sys (FuseData B)) (RebindsAt p) where
  refl s := rebinds_of_off s s (Std.Refl.refl s)
  trans s t u k l := by
    unfold RebindsAt at k l ⊢
    rw [k.pnode] at l
    exact IsTrans.trans s t u k l

section Rebinds

variable {b : PbId}

theorem driver_rebinds {α : Type} {m : Fuse B α} (k : Moves DriverOnly m) : Moves (Rebinds b) m :=
  k.mono fun s t k => rebinds_of_off s t k.off

theorem sysioINew_rebinds (fs : FsId) (fid : ℕ) (stat : Stat) (immunity : Bool) (priv : ℕ) :
    Moves (Rebinds b) (sysioINew (coreEnv h) fs fid stat immunity priv) :=
  (sysioINew_moves off_self gone_off fs fid stat immunity priv).mono rebinds_of_off

theorem modBase_rebinds (ino : Option InoId) :
    Moves (Rebinds b) (modBase b fun r => { r with ino := ino } : Fuse B Unit) := by
  intro s u t run
  obtain ⟨r, _, hread, hwrite⟩ := bind_ok.mp run
  obtain ⟨hr, rfl⟩ := deref_ok.mp hread
  obtain rfl := write_ok.mp hwrite
  exact ⟨⟨ino, by simp [bindIno, hr]⟩, rfl, rfl, rfl, rfl⟩

/-- A computation that starts by reading a node moves as it does for that node. -/
theorem rebinds_at {α : Type} {p : Pno} {m : Pnode → Fuse B α}
    (hm : ∀ n, Moves (Rebinds n.base) (m n)) :
    Moves (RebindsAt p) (pnodeAt p >>= m) := by
  intro s a t run
  obtain ⟨n, _, hread, rest⟩ := bind_ok.mp run
  obtain ⟨rfl, rfl⟩ := read_ok.mp hread
  exact hm _ _ a t rest

theorem fuseInopMkdir_rebinds (p : Pno) (mode : ℕ) :
    Moves (RebindsAt p) (fuseInopMkdir h p mode) := by
  refine rebinds_at fun n => moves_bind (inoOf_moves _) fun d =>
    moves_bind (nonNull_moves _) fun d => moves_bind (inodeAt_moves d) fun rd =>
    moves_bind (driver_rebinds (finodeAt_driver _)) fun rp => moves_ite (fun _ => moves_pure _)
    fun _ => moves_bind (fsAt_moves _) fun f => moves_bind (driver_rebinds fuseInumAlloc_driver)
    fun inum => moves_bind (driver_rebinds (fuseDirectoryNew_driver _ _ _)) fun made => ?_
  cases made with
  | none => exact moves_pure _
  | some k =>
    refine moves_bind (sysioINew_rebinds _ _ _ _ _) fun ino => ?_
    cases ino with
    | none =>
      exact moves_bind (driver_rebinds (fuseIDestory_driver k)) fun _ => moves_pure _
    | some i =>
      refine moves_bind (baseAt_moves _) fun r =>
        moves_bind (driver_rebinds (fuseDirectoryInsert_driver _ _ _)) fun err =>
        moves_bind (moves_check _ _) fun _ =>
        moves_bind (driver_rebinds (sysioPbPath_moves scratch_driver _ _)) fun path => ?_
      cases path with
      | none => exact moves_pure _
      | some path =>
        exact moves_bind (driver_rebinds (finodeAt_driver k)) fun fino =>
          moves_bind (driver_rebinds (backendCall_driver _ _)) fun err =>
          moves_bind (moves_check _ _) fun _ => moves_bind (modBase_rebinds _) fun _ => moves_pure _

theorem fuseCreate_rebinds (p : Pno) (st : Stat) :
    Moves (RebindsAt p) (fuseCreate h p st) := by
  refine rebinds_at fun n => moves_bind (inoOf_moves _) fun d =>
    moves_bind (assert_moves _) fun _ => moves_bind (nonNull_moves _) fun d =>
    moves_bind (inodeAt_moves d) fun rd => moves_bind (driver_rebinds (fs2ffs_driver _)) fun q =>
    moves_bind (driver_rebinds (finodeAt_driver _)) fun rp =>
    moves_bind (driver_rebinds (fuseIAlloc_driver _ _ _)) fun made => ?_
  cases made with
  | none => exact moves_pure _
  | some k =>
    exact moves_bind (sysioINew_rebinds _ _ _ _ _) fun _ => moves_bind (modBase_rebinds _)
      fun _ => moves_pure _

theorem driver_rebindsAt {α : Type} {p : Pno} {m : Fuse B α} (k : Moves DriverOnly m) :
    Moves (RebindsAt p) m := k.mono fun s t k => rebinds_of_off s t k.off

theorem openCreates_rebinds (p : Pno) (flags mode : ℕ) :
    Moves (RebindsAt p) (openCreates h p flags mode) := by
  refine moves_bind (pnodeAt_moves p) fun n => moves_bind (inoOf_moves _) fun d =>
    moves_bind (nonNull_moves _) fun d => moves_bind (inodeAt_moves d) fun rd =>
    moves_bind (fsAt_moves _) fun f => moves_bind (driver_rebindsAt fuseInumAlloc_driver)
    fun inum => moves_bind (fuseCreate_rebinds p _) fun _ =>
    moves_bind (driver_rebindsAt (p2fi_driver p)) fun k =>
    moves_bind (driver_rebindsAt (sysioPbPath_moves scratch_driver _ _)) fun path =>
    moves_bind (driver_rebindsAt (finodeAt_driver k)) fun fino =>
    moves_bind (driver_rebindsAt (setFinode_driver _ _)) fun _ => ?_
  cases path with
  | none => exact moves_pure _
  | some path =>
    refine moves_bind (moves_when fun _ => ?_) fun _ => moves_pure _
    exact moves_bind (nonNull_moves _) fun tag => moves_when fun _ =>
      moves_bind (driver_rebindsAt (backendCall_driver _ _)) fun _ => moves_pure _

theorem fuseInopOpen_rebinds (p : Pno) (flags mode : ℕ) :
    Moves (RebindsAt p) (fuseInopOpen h p flags mode) :=
  moves_bind (driver_rebindsAt (malloc_moves scratch_driver)) fun got =>
    moves_bind (inoOf_moves p) fun ino =>
    moves_bind (moves_ite (fun _ => openCreates_rebinds p flags mode) fun _ =>
      driver_rebindsAt (openExisting_driver p)) fun ready =>
    moves_ite (fun _ => moves_pure _) fun _ => moves_bind (moves_check _ _) fun _ =>
    moves_bind (moves_read _) fun fi => moves_bind (driver_rebindsAt drv_driver) fun _ =>
    moves_bind (driver_rebindsAt (p2fi_driver p)) fun k =>
    moves_bind (driver_rebindsAt (finodeAt_driver k)) fun fino =>
    moves_bind (driver_rebindsAt (backendCall_driver _ _)) fun err =>
    moves_bind (driver_rebindsAt (setFinode_driver _ _)) fun _ => moves_pure _

end Rebinds

section Mounting

variable {R : Sys (FuseData B) → Sys (FuseData B) → Prop} [IsPreorder (Sys (FuseData B)) R]

/-- Every type of file system is mounted by the driver. -/
theorem fsswLookup_moves (init : ∀ flags fstype tocover opers,
      Moves R (sysioFuseMountInit h flags fstype tocover opers))
    (fstype : Bytes) (mount : FsswopMount (FuseData B)) (hmount : fsswLookup h fstype = some mount)
    (source : Bytes) (flags : ℕ) (tocover : Option Pno) :
    Moves R (mount source flags fstype tocover) := by
  unfold fsswLookup at hmount
  split at hmount
  · obtain rfl := Option.some.inj hmount
    exact init _ _ _ _
  · obtain ⟨tag, -, rfl⟩ := Option.map_eq_some_iff.mp hmount
    exact moves_bind (init _ _ _ _) fun _ => moves_pure _

theorem sysioMountRoot_moves (mount : ∀ fstype mount, fsswLookup h fstype = some mount →
      ∀ source flags tocover, Moves R (mount source flags fstype tocover))
    (place : ∀ root cwd : Option Pno, Moves R (Exec.write fun s =>
      { s with mt.root := root, mt.cwd := cwd } : Fuse B Unit))
    (pRef : ∀ p, Moves R (pRef p : Fuse B Unit)) (source fstype : Bytes) (flags : ℕ) :
    Moves R (sysioMountRoot (fsswLookup h fstype) source fstype flags) := by
  have root : ∀ p, Moves R (Exec.write fun s => { s with mt.root := p } : Fuse B Unit) :=
    fun p s u t run => place p s.mt.cwd s u t run
  have cwd : ∀ p, Moves R (Exec.write fun s => { s with mt.cwd := p } : Fuse B Unit) :=
    fun p s u t run => place s.mt.root p s u t run
  refine moves_bind (moves_read _) fun found => moves_ite (fun _ => moves_pure _) fun _ => ?_
  cases hm : fsswLookup h fstype with
  | none => exact moves_pure _
  | some f =>
    exact moves_bind (mount fstype f hm _ _ _) fun res =>
      moves_ite (fun _ => moves_pure _) fun _ => moves_bind (nonNull_moves _) fun mnt =>
      moves_bind (mountAt_moves _) fun r => moves_bind (root _) fun _ =>
      moves_bind (moves_read _) fun dir => moves_bind (moves_when fun _ =>
      moves_bind (nonNull_moves _) fun p => moves_bind (cwd _) fun _ => pRef p)
      fun _ => moves_pure _

end Mounting

end FuseMoves
