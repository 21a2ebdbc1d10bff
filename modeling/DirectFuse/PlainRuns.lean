import DirectFuse.DeviceIdentity
import DirectFuse.FusePlain

/-! The driver's records in every state a program can bring the library with the fuse driver to: the
driver makes regular files and directories only, so no inode is a symbolic link, and it hands out the
file infos one after the other. -/
namespace PlainRuns

open ExecLogic SysioState SysioInode SysioNamei SysioMount SysioFile SysioInterface SysioSystem
open FuseDriver FuseSystem CoreMoves FuseMoves CallRules FusePlain InodeMoves
open DeviceIdentity (update_cases finodeAt_moves p2fi_moves)

variable {B : Type} {h : Host B}

/-- No inode is a symbolic link, and the file infos that are kept were handed out. -/
structure Tidy (s : Sys (FuseData B)) : Prop where
  plain : Plain s
  infos : ∀ k r fi, s.drv.finode k = some r → r.file = some fi → fi < s.drv.nextFi

def Tidies (s t : Sys (FuseData B)) : Prop := Tidy s → Tidy t

instance : IsPreorder (Sys (FuseData B)) Tidies where
  refl _ hs := hs
  trans _ _ _ k l hs := l (k hs)

theorem evolve_tidies (s t : Sys (FuseData B)) (k : Evolve s t) : Tidies s t := by
  intro hs
  constructor
  · exact k.plain hs.plain
  · intro j r fi hr hfi
    rw [k.nextFi]
    exact hs.infos j r fi (k.finode j r hr) hfi

theorem outside_tidies (s t : Sys (FuseData B)) (ic : t.ic = s.ic) (drv : t.drv = s.drv) :
    Tidies s t := evolve_tidies s t (evolve_of_eq s t ic drv)

theorem scratch_tidies (s t : Sys (FuseData B)) (k : Scratch s t) : Tidies s t :=
  outside_tidies s t k.ic k.drv

/-- The permission bits do not reach into the type of a file. -/
theorem mode_type (type mode : ℕ) :
    (type ||| (mode &&& 0o7777)) &&& S_IFMT = type &&& S_IFMT := by
  have apart : mode &&& 0o7777 &&& S_IFMT = 0 := by
    rw [Nat.and_assoc]
    exact Nat.and_zero mode
  rw [Nat.and_or_distrib_right, apart, Nat.or_zero]

theorem newStat_plain {type : ℕ} (file : type &&& S_IFMT ≠ S_IFLNK) (dev ino mode nlink : ℕ) :
    (newStat h dev ino (type ||| (mode &&& 0o7777)) nlink).isLnk = false := by
  change ((type ||| (mode &&& 0o7777)) &&& S_IFMT == S_IFLNK) = false
  rw [mode_type]
  exact beq_eq_false_iff_ne.mpr file

section Driver

/-- The inodes are the same, and the records are of the types they were of. -/
theorem tidies_of_records {s t : Sys (FuseData B)} (inode : t.ic.inode = s.ic.inode)
    (next : s.drv.nextFi ≤ t.drv.nextFi)
    (finode : ∀ k r', t.drv.finode k = some r' →
      (r'.st.isLnk = false ∧ r'.file = none) ∨ ∃ r, s.drv.finode k = some r ∧
        r'.st.mode = r.st.mode ∧ (r'.file = r.file ∨ ∃ fi, r'.file = some fi ∧ fi < t.drv.nextFi)) :
    Tidies s t := by
  intro hs
  refine ⟨⟨?_, ?_, fun k r' hr' => ?_⟩, fun k r' fi hr' hfi => ?_⟩
  · rw [inode]
    exact hs.plain.immune
  · rw [inode]
    exact hs.plain.inode
  · rcases finode k r' hr' with ⟨plain, -⟩ | ⟨r, hr, mode, -⟩
    · exact plain
    · have plain := hs.plain.finode k r hr
      unfold Stat.isLnk at plain ⊢
      rw [mode]
      exact plain
  · rcases finode k r' hr' with ⟨-, bare⟩ | ⟨r, hr, -, same | ⟨fi', new, lt⟩⟩
    · rw [bare] at hfi
      cases hfi
    · exact Nat.lt_of_lt_of_le (hs.infos k r fi hr (same.symm.trans hfi)) next
    · obtain rfl := Option.some.inj (new.symm.trans hfi)
      exact lt

/-- A write to the driver's data that leaves its records alone. -/
theorem drv_tidies {g : Sys (FuseData B) → FuseData B} (finode : ∀ s, (g s).finode = s.drv.finode)
    (next : ∀ s, s.drv.nextFi ≤ (g s).nextFi) :
    Moves Tidies (Exec.write fun s => { s with drv := g s } : Fuse B Unit) := by
  apply moves_write
  intro s
  apply tidies_of_records
  · rfl
  · exact next s
  · intro k r hr
    exact Or.inr ⟨r, (congrFun (finode s) k).symm.trans hr, rfl, Or.inl rfl⟩

theorem setFinode_tidies {k : FinoId} {r r' : FuseInode} {s t : Sys (FuseData B)} {u : Unit}
    (hr : s.drv.finode k = some r) (run : (setFinode k r' : Fuse B Unit) s = .ok (u, t))
    (mode : r'.st.mode = r.st.mode)
    (file : r'.file = r.file ∨ ∃ fi, r'.file = some fi ∧ fi < s.drv.nextFi) : Tidies s t := by
  obtain rfl := write_ok.mp run
  apply tidies_of_records
  · rfl
  · exact Nat.le_refl _
  · intro j x hx
    rcases update_cases hx with ⟨rfl, h⟩ | ⟨-, hx⟩
    · obtain rfl := Option.some.inj h
      exact Or.inr ⟨r, hr, mode, file⟩
    · exact Or.inr ⟨x, hx, rfl, Or.inl rfl⟩

/-- Reading a record and writing it back as one of the same type. -/
theorem modFinode_tidies {α : Type} {k : FinoId} {g : FuseInode → FuseInode}
    {next : FuseInode → Fuse B α} (mode : ∀ r, (g r).st.mode = r.st.mode)
    (file : ∀ r, (g r).file = r.file) (hnext : ∀ r, Moves Tidies (next r)) :
    Moves Tidies (do
      let r ← finodeAt k
      setFinode k (g r)
      next r : Fuse B α) := by
  intro s a t run
  obtain ⟨r, _, hread, h1⟩ := bind_ok.mp run
  obtain ⟨hr, rfl⟩ := deref_ok.mp hread
  obtain ⟨_, v, hset, h2⟩ := bind_ok.mp h1
  exact IsTrans.trans s v t (setFinode_tidies hr hset (mode r) (Or.inl (file r)))
    (hnext r v a t h2)

theorem backendCall_tidies (ops : Option ℕ) (c : BackendCall) : Moves Tidies (backendCall h ops c) :=
  moves_bind (nonNull_moves ops) fun _ => moves_bind (moves_read _) fun _ =>
    moves_bind (drv_tidies (fun _ => rfl) fun _ => Nat.le_refl _) fun _ => moves_pure _

theorem fuseIDestory_tidies (k : FinoId) : Moves Tidies (fuseIDestory k : Fuse B Unit) :=
  (fuseIDestory_evolve k).mono evolve_tidies

theorem fuseFsopGone_tidies (f : FsId) : Moves Tidies (fuseFsopGone f : Fuse B Unit) := by
  have all : ∀ l : List FinoId, Moves Tidies (destoryAll l : Fuse B Unit) := by
    intro l
    induction l with
    | nil => exact moves_pure _
    | cons k l ih => exact moves_bind (fuseIDestory_tidies k) fun _ => ih
  exact moves_bind (moves_bind (fsAt_moves f) fun _ => moves_pure _) fun q =>
    moves_bind (moves_deref _ _) fun l => moves_bind (all l) fun _ => drv_tidies (fun _ => rfl) fun _ => Nat.le_refl _

theorem noReturn_tidies : Moves Tidies (noReturn h) := moves_read _

theorem fuseInumAlloc_tidies : Moves Tidies (fuseInumAlloc : Fuse B ℕ) :=
  moves_bind (moves_read _) fun _ => moves_bind (drv_tidies (fun _ => rfl) fun _ => Nat.le_refl _) fun _ => moves_pure _

theorem sysioDevAlloc_tidies : Moves Tidies (sysioDevAlloc : Fuse B ℕ) :=
  moves_bind (moves_read _) fun _ => moves_bind (assert_moves _) fun _ =>
    moves_bind (drv_tidies (fun _ => rfl) fun _ => Nat.le_refl _) fun _ => moves_pure _

theorem direntsAt_tidies (k : FinoId) : Moves Tidies (direntsAt k : Fuse B (List Dirent)) :=
  moves_bind (finodeAt_moves k) fun _ => nonNull_moves _

theorem fuseDirectoryInsert_tidies (parent : FinoId) (name : Bytes) (inum : ℕ) :
    Moves Tidies (fuseDirectoryInsert h parent name inum) :=
  moves_bind (direntsAt_tidies parent) fun _ => moves_ite (fun _ => moves_pure _) fun _ =>
    moves_bind (malloc_moves scratch_tidies) fun _ => moves_ite (fun _ => moves_pure _) fun _ =>
    moves_bind (moves_check _ _) fun _ => modFinode_tidies (fun _ => rfl) (fun _ => rfl) fun _ => moves_pure _

theorem fuseUnlinkEntry_tidies (parent : FinoId) (name : Bytes) :
    Moves Tidies (fuseUnlinkEntry parent name : Fuse B ℤ) := by
  refine moves_bind (direntsAt_tidies parent) fun data => moves_ite (fun _ => moves_pure _)
    fun _ => ?_
  intro s a t run
  obtain ⟨r, _, hread, h1⟩ := bind_ok.mp run
  obtain ⟨hr, rfl⟩ := deref_ok.mp hread
  obtain ⟨_, v, hcheck, h2⟩ := bind_ok.mp h1
  obtain ⟨-, rfl⟩ := check_ok.mp hcheck
  obtain ⟨_, w, hset, h3⟩ := bind_ok.mp h2
  obtain ⟨-, rfl⟩ := pure_ok.mp h3
  exact setFinode_tidies hr hset rfl (Or.inl rfl)

theorem path_tidies (b : PbId) (c : UInt8) : Moves Tidies (sysioPbPath (coreEnv h) b c) :=
  sysioPbPath_moves scratch_tidies b c

theorem fuseInopRmdir_tidies (p : Pno) : Moves Tidies (fuseInopRmdir h p) := by
  refine moves_bind (pnodeAt_moves p) fun n => moves_bind (path_tidies _ _) fun path => ?_
  cases path with
  | none => exact moves_pure _
  | some path =>
    exact moves_bind (p2fi_moves _) fun _ => moves_bind (baseAt_moves _) fun _ =>
      moves_bind (fuseUnlinkEntry_tidies _ _) fun _ => moves_bind (p2fi_moves p) fun k =>
      moves_bind (finodeAt_moves k) fun _ => backendCall_tidies _ _

theorem openExisting_tidies (p : Pno) : Moves Tidies (openExisting h p) :=
  moves_bind (p2fi_moves p) fun k => moves_bind (pnodeAt_moves p) fun _ =>
    moves_bind (path_tidies _ _) fun _ => modFinode_tidies (fun _ => rfl) (fun _ => rfl) fun _ => moves_pure _

theorem onFile_tidies (p : Pno) (call : Option Bytes → Option FiId → BackendCall) :
    Moves Tidies (onFile h p call) :=
  moves_bind (pnodeAt_moves p) fun _ => moves_bind (path_tidies _ _) fun _ =>
    moves_bind (p2fi_moves p) fun k => moves_bind (finodeAt_moves k) fun _ => backendCall_tidies _ _

theorem fuseInopUnlink_tidies (p : Pno) : Moves Tidies (fuseInopUnlink h p) :=
  moves_bind (pnodeAt_moves p) fun _ => moves_bind (path_tidies _ _) fun _ =>
    moves_bind (p2fi_moves p) fun k => moves_bind (finodeAt_moves k) fun _ => backendCall_tidies _ _

theorem fuseInopGetattr_tidies (p : Option Pno) : Moves Tidies (fuseInopGetattr h p) :=
  moves_bind (nonNull_moves p) fun p => moves_bind (pnodeAt_moves p) fun _ =>
    moves_bind (path_tidies _ _) fun _ => moves_bind (p2fi_moves p) fun k =>
    moves_bind (finodeAt_moves k) fun _ => backendCall_tidies _ _

theorem transfer_tidies (p : Pno) (call : Option Bytes → Option FiId → BackendCall) :
    Moves Tidies (do
      let fino ← finodeAt (← p2fi p)
      backendCall h fino.ops (call fino.path fino.file)) :=
  moves_bind (p2fi_moves p) fun k => moves_bind (finodeAt_moves k) fun _ => backendCall_tidies _ _

end Driver

section Release

variable {e : Env (FuseData B)}

theorem setFs_tidies (f : FsId) (r : Filesys) : Moves Tidies (setFs f r : Fuse B Unit) :=
  (setFs_evolve f r).mono evolve_tidies

theorem iRele_tidies (gone : ∀ i, e.ops.gone i = fuseInopGone i) (i : InoId) :
    Moves Tidies (iRele e i) := (iRele_evolve gone i).mono evolve_tidies

theorem iUndead_tidies (i : InoId) : Moves Tidies (sysioIUndead i : Fuse B Unit) := by
  intro s u t run hs
  obtain ⟨r, _, hread, h1⟩ := bind_ok.mp run
  obtain ⟨hr, rfl⟩ := deref_ok.mp hread
  by_cases zombie : r.zombie = true
  · rw [if_pos zombie] at h1
    obtain ⟨-, rfl⟩ := pure_ok.mp h1
    exact hs
  · rw [if_neg zombie] at h1
    obtain ⟨_, v, hremove, hset⟩ := bind_ok.mp h1
    have hv : v.ic.inode = s.ic.inode := by
      obtain ⟨f, _, hread, hset⟩ := bind_ok.mp hremove
      obtain ⟨-, rfl⟩ := deref_ok.mp hread
      obtain rfl := write_ok.mp hset
      rfl
    have tidy : Tidy v := evolve_tidies s v (itblRemove_evolve i r _ _ _ hremove) hs
    obtain rfl := write_ok.mp hset
    have hrv : v.ic.inode i = some r := by
      rw [hv]
      exact hr
    refine evolve_tidies _ _ ?_ tidy
    exact update_evolve hrv rfl rfl rfl rfl fun hs => ⟨hs.immune i r hrv, hs.inode i r hrv⟩

theorem iGone_tidies (gone : ∀ i, e.ops.gone i = fuseInopGone i) (i : InoId) :
    Moves Tidies (iGone e i) :=
  moves_bind (iUndead_tidies i) fun _ => iRele_tidies gone i

theorem fsRele_tidies (f : FsId) : Moves Tidies (fsRele (fuseEnv h) f) := by
  have chain : ∀ slot fuel, Moves Tidies (drainChain (fuseEnv h) f slot fuel) := by
    intro slot fuel
    induction fuel with
    | zero => exact moves_fault _
    | succ fuel ih =>
      refine moves_bind (fsAt_moves f) fun r => ?_
      split
      · exact moves_pure _
      · exact moves_bind ((sysioIGone_evolve (fun _ => rfl) _).mono evolve_tidies) fun _ => ih
  have table : ∀ n, Moves Tidies (drainTable (fuseEnv h) f n) := by
    intro n
    induction n with
    | zero => exact moves_pure _
    | succ n ih => exact moves_bind (fsAt_moves f) fun _ => moves_bind (chain _ _) fun _ => ih
  have freed : Moves Tidies (Exec.write fun s =>
      { s with ic.filesys := Function.update s.ic.filesys f none } : Fuse B Unit) :=
    moves_write fun s => tidies_of_records rfl (Nat.le_refl _) fun k r hr =>
      Or.inr ⟨r, hr, rfl, Or.inl rfl⟩
  have gone : Moves Tidies (sysioFsGone (fuseEnv h) f) :=
    moves_bind (fsAt_moves f) fun r => moves_bind (moves_check _ _) fun _ =>
    moves_bind (table _) fun _ => moves_bind (fuseFsopGone_tidies f) fun _ => freed
  exact moves_bind (fsAt_moves f) fun r => moves_bind (assert_moves _) fun _ =>
    moves_bind (setFs_tidies f _) fun _ => moves_ite (fun _ => gone) fun _ => moves_pure _

end Release

section Making

/-- A new record of a file that is no link. -/
theorem fuseIAlloc_tidies {q : FfsId} {st : Stat} {ops : Option ℕ} (file : st.isLnk = false) :
    Moves Tidies (fuseIAlloc h q st ops) := by
  refine moves_bind (assert_moves _) fun _ => moves_bind (assert_moves _) fun _ =>
    moves_bind (malloc_moves scratch_tidies) fun _ => moves_ite (fun _ => moves_pure _) fun _ =>
    moves_bind (moves_read _) fun k => moves_bind (moves_deref _ _) fun l =>
    moves_bind (moves_write fun s => ?_) fun _ => moves_pure _
  apply tidies_of_records
  · rfl
  · exact Nat.le_refl _
  · intro j x hx
    rcases update_cases hx with ⟨-, h⟩ | ⟨-, hx⟩
    · obtain rfl := Option.some.inj h
      exact Or.inl ⟨file, rfl⟩
    · exact Or.inr ⟨x, hx, rfl, Or.inl rfl⟩

theorem fuseDirectoryNew_tidies {q : FfsId} {parent : Option FinoId} {st : Stat}
    (file : st.isLnk = false) : Moves Tidies (fuseDirectoryNew h q parent st) := by
  have ops : Moves Tidies (opsOf parent : Fuse B (Option ℕ)) := by
    cases parent with
    | none => exact moves_pure _
    | some d => exact moves_bind (finodeAt_moves d) fun _ => moves_pure _
  refine moves_bind ops fun ops => moves_bind (fuseIAlloc_tidies file) fun made => ?_
  cases made with
  | none => exact moves_pure _
  | some k =>
    exact moves_bind (malloc_moves scratch_tidies) fun _ => moves_ite
      (fun _ => moves_bind (fuseIDestory_tidies k) fun _ => moves_pure _) fun _ =>
      moves_bind (finodeAt_moves _) fun _ => modFinode_tidies (fun _ => rfl) (fun _ => rfl) fun _ => moves_pure _

theorem sysioINew_tidies {fs : FsId} {fid : ℕ} {stat : Stat} {priv : ℕ} (file : stat.isLnk = false) :
    Moves Tidies (sysioINew (coreEnv h) fs fid stat true priv) :=
  fun s _ t run => evolve_tidies s t (sysioINew_evolve (fun _ => rfl) (fun _ => file) run)

theorem fuseInopMkdir_tidies (p : Pno) (mode : ℕ) : Moves Tidies (fuseInopMkdir h p mode) := by
  have file : ∀ dev inum, (newStat h dev inum (S_IFDIR ||| (mode &&& 0o7777)) 2).isLnk = false :=
    fun dev inum => newStat_plain (by decide) dev inum mode 2
  refine moves_bind (pnodeAt_moves p) fun n => moves_bind (inoOf_moves _) fun _ =>
    moves_bind (nonNull_moves _) fun d => moves_bind (inodeAt_moves d) fun rd =>
    moves_bind (finodeAt_moves _) fun rp => moves_ite (fun _ => moves_pure _) fun _ =>
    moves_bind (fsAt_moves _) fun f => moves_bind fuseInumAlloc_tidies fun inum =>
    moves_bind (fuseDirectoryNew_tidies (file _ _)) fun made => ?_
  cases made with
  | none => exact moves_pure _
  | some k =>
    refine moves_bind (sysioINew_tidies (file _ _)) fun ino => ?_
    cases ino with
    | none => exact moves_bind (fuseIDestory_tidies k) fun _ => moves_pure _
    | some i =>
      refine moves_bind (baseAt_moves _) fun r => moves_bind (fuseDirectoryInsert_tidies _ _ _)
        fun err => moves_bind (moves_check _ _) fun _ => moves_bind (path_tidies _ _) fun path => ?_
      cases path with
      | none => exact moves_pure _
      | some path =>
        exact moves_bind (finodeAt_moves k) fun fino => moves_bind (backendCall_tidies _ _)
          fun err => moves_bind (moves_check _ _) fun _ =>
          moves_bind (outside_modBase (outside_files outside_tidies) _ _) fun _ => moves_pure _

theorem fuseCreate_tidies (p : Pno) {st : Stat} (file : st.isLnk = false) :
    Moves Tidies (fuseCreate h p st) := by
  refine moves_bind (pnodeAt_moves p) fun n => moves_bind (inoOf_moves _) fun d =>
    moves_bind (assert_moves _) fun _ => moves_bind (nonNull_moves _) fun d =>
    moves_bind (inodeAt_moves d) fun rd => moves_bind (moves_bind (fsAt_moves _) fun _ =>
      moves_pure _) fun q => moves_bind (finodeAt_moves _) fun rp =>
    moves_bind (fuseIAlloc_tidies file) fun made => ?_
  cases made with
  | none => exact moves_pure _
  | some k =>
    exact moves_bind (sysioINew_tidies file) fun ino =>
      moves_bind (outside_modBase (outside_files outside_tidies) _ _) fun _ => moves_pure _

theorem openCreates_tidies (p : Pno) (flags mode : ℕ) : Moves Tidies (openCreates h p flags mode) := by
  refine moves_bind (pnodeAt_moves p) fun n => moves_bind (inoOf_moves _) fun d =>
    moves_bind (nonNull_moves _) fun d => moves_bind (inodeAt_moves d) fun rd =>
    moves_bind (fsAt_moves _) fun f => moves_bind fuseInumAlloc_tidies fun inum =>
    moves_bind (fuseCreate_tidies p (newStat_plain (by decide) _ _ _ _)) fun _ =>
    moves_bind (p2fi_moves p) fun k => moves_bind (path_tidies _ _) fun path =>
    modFinode_tidies (fun _ => rfl) (fun _ => rfl) fun fino => ?_
  cases path with
  | none => exact moves_pure _
  | some path =>
    exact moves_bind (moves_when fun _ => moves_bind (nonNull_moves _) fun tag =>
      moves_when fun _ => moves_bind (backendCall_tidies _ _) fun _ => moves_pure _) fun _ =>
      moves_pure _

/-- The end of `fuse_inop_open`: the record keeps a file info that was just handed out. -/
theorem openEnd_tidies (p : Pno) (flags : ℕ) : Moves Tidies (do
    let fi ← Exec.read fun s => s.drv.nextFi
    Exec.write fun s => { s with drv.nextFi := fi + 1 }
    let k ← p2fi p
    let fino ← finodeAt k
    let err ← backendCall h fino.ops (.open_ fino.path flags fi)
    setFinode k { fino with file := some fi }
    return err : Fuse B ℤ) := by
  intro s err t run
  obtain ⟨fi, _, hread, h1⟩ := bind_ok.mp run
  obtain ⟨rfl, rfl⟩ := read_ok.mp hread
  obtain ⟨_, u, hnext, h2⟩ := bind_ok.mp h1
  obtain rfl := write_ok.mp hnext
  obtain ⟨k, _, hk, h3⟩ := bind_ok.mp h2
  obtain rfl := p2fi_moves (R := Eq) p _ _ _ hk
  obtain ⟨fino, _, hread, h4⟩ := bind_ok.mp h3
  obtain ⟨hf, rfl⟩ := deref_ok.mp hread
  obtain ⟨err', v, hcall, h5⟩ := bind_ok.mp h4
  obtain ⟨_, w, hset, h6⟩ := bind_ok.mp h5
  obtain ⟨-, rfl⟩ := pure_ok.mp h6
  have asked : Tidies s v := by
    refine IsTrans.trans s _ v ?_ (backendCall_tidies _ _ _ _ _ hcall)
    apply tidies_of_records
    · rfl
    · exact Nat.le_succ _
    · exact fun j x hx => Or.inr ⟨x, hx, rfl, Or.inl rfl⟩
  simp only [backendCall, nonNull, bind_ok, deref_ok, read_ok, write_ok, pure_ok] at hcall
  obtain ⟨_, _, ⟨-, rfl⟩, _, _, ⟨-, rfl⟩, _, _, rfl, -, rfl⟩ := hcall
  refine IsTrans.trans s _ w asked (setFinode_tidies hf hset rfl (Or.inr ⟨_, rfl, ?_⟩))
  exact Nat.lt_succ_self _

theorem fuseInopOpen_tidies (p : Pno) (flags mode : ℕ) : Moves Tidies (fuseInopOpen h p flags mode) :=
  moves_bind (malloc_moves scratch_tidies) fun got => moves_bind (inoOf_moves p) fun ino =>
    moves_bind (moves_ite (fun _ => openCreates_tidies p flags mode) fun _ => openExisting_tidies p)
    fun ready => moves_ite (fun _ => moves_pure _) fun _ => moves_bind (moves_check _ _) fun _ =>
    openEnd_tidies p flags

end Making

section Calls

/-- What the calls do besides walking, pruning and mounting. -/
theorem tidy_acts : ActMoves Tidies (fuseEnv h) where
  scratch := scratch_tidies
  files s t k := outside_tidies s t k.ic k.drv
  bind b _ := outside_modBase (outside_files outside_tidies) b _
  iRef i := (iRef_evolve i).mono evolve_tidies
  iRele := iRele_tidies fun _ => rfl
  iGone := iGone_tidies fun _ => rfl
  lookup _ p o _ _ := (fuseInopLookup_evolve p o).mono evolve_tidies
  getattr _ p _ := fuseInopGetattr_tidies p
  setattr _ _ _ _ := noReturn_tidies
  mkdir _ p mode := fuseInopMkdir_tidies p mode
  rmdir _ p := fuseInopRmdir_tidies p
  symlink _ _ _ := noReturn_tidies
  readlink _ _ _ := moves_bind noReturn_tidies fun _ => moves_pure _
  open_ _ p flags mode := fuseInopOpen_tidies p flags mode
  close _ p := onFile_tidies p _
  link _ _ _ := noReturn_tidies
  unlink _ p := fuseInopUnlink_tidies p
  rename _ _ _ := noReturn_tidies
  read _ n off p := transfer_tidies p fun path fi => .read path n off fi
  write _ n off p := transfer_tidies p fun path fi => .write path n off fi
  post _ _ _ := moves_fault _
  iodone _ _ := moves_bind noReturn_tidies fun _ => moves_pure _
  sync _ p := onFile_tidies p _
  datasync _ p := moves_bind (nonNull_moves p) fun q => onFile_tidies q _
  mknod _ _ _ _ := noReturn_tidies
  ftruncate _ p _ := onFile_tidies p _

theorem mountInitError_tidies (k : FinoId) (fs : Option FsId) (rooti : Option InoId)
    (rootpb : Option PbId) (err : ℤ) : Moves Tidies (mountInitError h k fs rooti rootpb err) := by
  refine moves_bind ?_ fun _ => moves_bind ?_ fun _ => moves_pure _
  · cases rootpb with
    | some b => exact (sysioPbGone_evolve b).mono evolve_tidies
    | none =>
      cases rooti with
      | some i => exact tidy_acts.iRele i
      | none => exact moves_pure _
  · cases fs with
    | some f => exact fsRele_tidies f
    | none => exact fuseIDestory_tidies k

theorem sysioFuseMountInit_tidies (flags : ℕ) (fstype : Bytes) (tocover : Option Pno)
    (opers : Option ℕ) : Moves Tidies (sysioFuseMountInit h flags fstype tocover opers) := by
  have file : ∀ (mode dev inum : ℕ),
      (newStat h dev inum (S_IFDIR ||| 0o700 ||| (mode &&& 0o7777)) 2).isLnk = false :=
    fun mode dev inum => newStat_plain (by decide) dev inum mode 2
  have fsNew : ∀ q, Moves Tidies (sysioFsNew (coreEnv h) 0 fstype q) := fun q =>
    moves_bind (moves_read _) fun _ => moves_bind (malloc_moves scratch_tidies) fun _ =>
    moves_ite (fun _ => moves_pure _) fun _ => moves_bind (malloc_moves scratch_tidies) fun _ =>
    moves_bind (moves_check _ _) fun _ => moves_bind (moves_read _) fun _ =>
    moves_bind (moves_write fun _ => tidies_of_records rfl (Nat.le_refl _) fun _ r hr =>
      Or.inr ⟨r, hr, rfl, Or.inl rfl⟩)
    fun _ => moves_pure _
  refine moves_bind (moves_read _) fun mode => moves_bind (malloc_moves scratch_tidies) fun _ =>
    moves_ite (fun _ => moves_pure _) fun _ => moves_bind (moves_read _) fun q =>
    moves_bind (drv_tidies (fun _ => rfl) fun _ => Nat.le_refl _) fun _ => moves_bind sysioDevAlloc_tidies fun dev =>
    moves_bind fuseInumAlloc_tidies fun inum =>
    moves_bind (fuseDirectoryNew_tidies (file _ _ _)) fun made => ?_
  cases made with
  | none => exact moves_pure _
  | some k =>
    intro s res t run hs
    obtain ⟨r, _, hread, h1⟩ := bind_ok.mp run
    obtain ⟨hr, rfl⟩ := deref_ok.mp hread
    have root : r.st.isLnk = false := hs.plain.finode k r hr
    obtain ⟨_, v, hset, h2⟩ := bind_ok.mp h1
    refine moves_bind (fsNew q) (fun fs => ?_) v res t h2 (setFinode_tidies hr hset rfl (Or.inl rfl) hs)
    cases fs with
    | none => exact mountInitError_tidies _ _ _ _ _
    | some f =>
      refine moves_bind (sysioINew_tidies root) fun rooti => ?_
      cases rooti with
      | none => exact mountInitError_tidies _ _ _ _ _
      | some rooti =>
        refine moves_bind (pbNew_moves (outside_files outside_tidies) tidy_acts.iRele _ _ _) fun rootpb => ?_
        cases rootpb with
        | none => exact mountInitError_tidies _ _ _ _ _
        | some rootpb =>
          exact moves_bind (doMount_moves (outside_files outside_tidies) tidy_acts.iRele tidy_acts.lookup _ _ _ _)
            fun res => moves_ite (fun _ => mountInitError_tidies _ _ _ _ _) fun _ => moves_pure _

theorem fsswLookup_tidies (fstype : Bytes) (mount : FsswopMount (FuseData B))
    (hmount : fsswLookup h fstype = some mount) (source : Bytes) (flags : ℕ) (tocover : Option Pno) :
    Moves Tidies (mount source flags fstype tocover) :=
  fsswLookup_moves sysioFuseMountInit_tidies fstype mount hmount source flags tocover

/-- No call makes a symbolic link. -/
theorem step_tidies (call : Call) : Moves Tidies (step (fuseLibrary h) call) :=
  step_moves (fun s t ic drv _ => outside_tidies s t ic drv) tidy_acts fsswLookup_tidies fsRele_tidies call

theorem initState_tidy (b : B) : Tidy (initState (initData b)) where
  plain :=
    { immune := fun _ _ hr => by cases hr
      inode := fun _ _ hr => by cases hr
      finode := fun _ _ hr => by cases hr }
  infos _ _ _ hr := by cases hr

theorem reached_tidy {b : B} {ok : Sys (FuseData B) → Call → Prop} {s : Sys (FuseData B)}
    (run : FuseReached h b ok s) : Tidy s := by
  obtain ⟨s₀, boot, run⟩ := run
  refine run.invariant (I := Tidy) (fun s call a t hs _ last => ?_) ?_
  · exact step_tidies call s a t last hs
  · exact sysioMountRoot_moves fsswLookup_tidies
      (fun _ _ => outside_mounts (outside_files outside_tidies) _)
      (outside_pRef (outside_files outside_tidies)) [] fuseTypeName 2 _ _ _ boot (initState_tidy b)

end Calls

end PlainRuns
