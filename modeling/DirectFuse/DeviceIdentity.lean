import DirectFuse.InodeMoves
import DirectFuse.ReadOnlyMounts

/-! Device numbers. `_sysio_dev_alloc` hands out a number for each mount and never takes one back;
it reaches the root of a file system through its attributes, and the inodes made by mkdir and open
through the file system record, where nothing writes it. -/
namespace DeviceIdentity

open ExecLogic SysioState SysioInode SysioNamei SysioMount SysioFile SysioInterface SysioSystem
open FuseDriver FuseSystem CoreMoves FuseMoves CallMoves CallRules InodeMoves
open OtherOps (SameWalk sysioNamei_same resolve onMount_same inoOf_ok)
open ReadOnlyMounts (Vacant barred barred_out barred_in)

variable {B : Type} {h : Host B}

/-- The directory of `p`: its inode, the driver's record of it, and its file system. -/
def Under (p : Pno) (s : Sys (FuseData B)) (i : Inode) (k : FuseInode) (f : Filesys) : Prop :=
  ∃ r d, s.nc.base (s.nc.pnode (s.nc.pnode p).parent).base = some r ∧ r.ino = some d ∧
    s.ic.inode d = some i ∧ s.drv.finode i.priv = some k ∧ s.ic.filesys i.fs = some f

/-- The record of the file system that `p` lies in does not hold the device number of its
directory. -/
def Foreign (p : Pno) (s : Sys (FuseData B)) : Prop :=
  ∃ i k f, Under p s i k f ∧ f.dev ≠ i.stbuf.dev

/-- The same, where `fuse_inop_mkdir` gets past the check of the directory. -/
def ForeignDir (p : Pno) (s : Sys (FuseData B)) : Prop :=
  ∃ i k f, Under p s i k f ∧ k.st.isDir = true ∧ f.dev ≠ i.stbuf.dev

/-- The operations `o` are the driver's, except that mkdir, and open of a new file, may do anything
where the file system record does not hold the device number of the directory. -/
structure SameAtHome (h : Host B) (o : InodeOps (FuseData B)) : Prop where
  mkdir : ∀ i p mode s, ¬ ForeignDir p s → o.mkdir i p mode s = fuseInopMkdir h p mode s
  open_ : ∀ i p flags mode s, ¬ (Vacant p s ∧ Foreign p s) →
    o.open_ i p flags mode s = fuseInopOpen h p flags mode s
  rest : o = { fuseIOps h with mkdir := o.mkdir, open_ := o.open_ }

/-- In the call, from state `s`, nothing is made where the record of the file system does not hold
the device number of the directory. -/
def MadeAtHome (h : Host B) (s : Sys (FuseData B)) (call : Call) : Prop :=
  ∀ o, SameAtHome h o →
    step { fuseLibrary h with env := { (fuseLibrary h).env with ops := o } } call s =
      step (fuseLibrary h) call s

/-- The number `_sysio_dev_alloc` hands to the mount with the driver's record `q`. -/
def deviceOf (q : FfsId) : ℕ := (128 + q) * 256

/-- Every inode of a file system carries the device number of the file system. -/
structure Marked (s : Sys (FuseData B)) : Prop where
  counter : s.drv.cMajor = (128 + s.drv.nextFfs) % 256 ∧ s.drv.nextFfs ≤ 128
  filesys : ∀ f r, s.ic.filesys f = some r → f < s.ic.nextFs ∧ r.priv < s.drv.nextFfs
  apart : ∀ f g r q, s.ic.filesys f = some r → s.ic.filesys g = some q → r.priv = q.priv → f = g
  inode : ∀ i r, s.ic.inode i = some r → r.fs < s.ic.nextFs ∧ r.priv < s.drv.nextFino
  device : ∀ i r f, s.ic.inode i = some r → s.ic.filesys r.fs = some f →
    r.stbuf.dev = deviceOf f.priv ∧ ∀ k, s.drv.finode r.priv = some k → k.ffs = f.priv
  finode : ∀ k r, s.drv.finode k = some r → k < s.drv.nextFino ∧ r.st.dev = deviceOf r.ffs

/-- What was there of the file systems and the driver's records has not been rewritten, and no
number is used again. -/
structure Carries (s t : Sys (FuseData B)) : Prop where
  nextFs : s.ic.nextFs ≤ t.ic.nextFs
  nextFino : s.drv.nextFino ≤ t.drv.nextFino
  nextFfs : s.drv.nextFfs ≤ t.drv.nextFfs
  filesys : ∀ (f : ℕ) r', t.ic.filesys f = some r' → f < s.ic.nextFs →
    ∃ r, s.ic.filesys f = some r ∧ r'.priv = r.priv ∧ r'.dev = r.dev
  finode : ∀ (k : ℕ) r', t.drv.finode k = some r' → k < s.drv.nextFino →
    ∃ r, s.drv.finode k = some r ∧ r'.ffs = r.ffs

instance : IsPreorder (Sys (FuseData B)) Carries where
  refl _ :=
    ⟨le_refl _, le_refl _, le_refl _, fun _ r h _ => ⟨r, h, rfl, rfl⟩, fun _ r h _ => ⟨r, h, rfl⟩⟩
  trans s t u k l := by
    refine ⟨k.nextFs.trans l.nextFs, k.nextFino.trans l.nextFino, k.nextFfs.trans l.nextFfs,
      fun f r'' hr hf => ?_, fun i r'' hr hi => ?_⟩
    · obtain ⟨r', hr', hp', hd'⟩ := l.filesys f r'' hr (lt_of_lt_of_le hf k.nextFs)
      obtain ⟨r, hr, hp, hd⟩ := k.filesys f r' hr' hf
      exact ⟨r, hr, hp'.trans hp, hd'.trans hd⟩
    · obtain ⟨r', hr', hp'⟩ := l.finode i r'' hr (lt_of_lt_of_le hi k.nextFino)
      obtain ⟨r, hr, hp⟩ := k.finode i r' hr' hi
      exact ⟨r, hr, hp'.trans hp⟩

/-- From a state where every inode is marked to another. -/
def Marks (s t : Sys (FuseData B)) : Prop := Marked s → Marked t ∧ Carries s t

instance : IsPreorder (Sys (FuseData B)) Marks where
  refl s hs := ⟨hs, Std.Refl.refl s⟩
  trans s t u k l hs := by
    obtain ⟨ht, kst⟩ := k hs
    obtain ⟨hu, ktu⟩ := l ht
    exact ⟨hu, IsTrans.trans s t u kst ktu⟩

/-- Records have gone or were rewritten and none was made; the attributes of an inode are what they
were or what the driver has. -/
structure Trims (s t : Sys (FuseData B)) : Prop where
  cMajor : t.drv.cMajor = s.drv.cMajor
  nextFfs : t.drv.nextFfs = s.drv.nextFfs
  nextFino : t.drv.nextFino = s.drv.nextFino
  nextFs : t.ic.nextFs = s.ic.nextFs
  filesys : ∀ f r', t.ic.filesys f = some r' →
    ∃ r, s.ic.filesys f = some r ∧ r'.priv = r.priv ∧ r'.dev = r.dev
  finode : ∀ k r', t.drv.finode k = some r' →
    ∃ r, s.drv.finode k = some r ∧ r'.ffs = r.ffs ∧ r'.st.dev = r.st.dev
  inode : ∀ i r', t.ic.inode i = some r' → ∃ r, s.ic.inode i = some r ∧ r'.fs = r.fs ∧
    r'.priv = r.priv ∧
    (r'.stbuf.dev = r.stbuf.dev ∨ ∃ k, s.drv.finode r.priv = some k ∧ r'.stbuf.dev = k.st.dev)

theorem Trims.marks {s t : Sys (FuseData B)} (k : Trims s t) : Marks s t := by
  intro hs
  constructor
  · constructor
    case counter =>
      rw [k.cMajor, k.nextFfs]
      exact hs.counter
    case filesys =>
      intro f r' hr'
      obtain ⟨r, hr, hp, -⟩ := k.filesys f r' hr'
      rw [k.nextFs, k.nextFfs, hp]
      exact hs.filesys f r hr
    case apart =>
      intro f g r' q' hr' hq' hpriv
      obtain ⟨r, hr, hp, -⟩ := k.filesys f r' hr'
      obtain ⟨q, hq, hp', -⟩ := k.filesys g q' hq'
      exact hs.apart f g r q hr hq (hp.symm.trans (hpriv.trans hp'))
    case inode =>
      intro i r' hr'
      obtain ⟨r, hr, hfs, hp, -⟩ := k.inode i r' hr'
      rw [k.nextFs, k.nextFino, hfs, hp]
      exact hs.inode i r hr
    case device =>
      intro i r' f' hr' hf'
      obtain ⟨r, hr, hfs, hp, hdev⟩ := k.inode i r' hr'
      obtain ⟨f, hf, hfp, -⟩ := k.filesys _ f' hf'
      rw [hfs] at hf
      obtain ⟨own, record⟩ := hs.device i r f hr hf
      rw [hfp, hp]
      constructor
      · rcases hdev with hdev | ⟨x, hx, hdev⟩
        · exact hdev.trans own
        · -- the driver's attributes carry the number of the file system as well
          rw [hdev, (hs.finode _ x hx).2, record x hx]
      · intro x' hx'
        obtain ⟨x, hx, hffs, -⟩ := k.finode _ x' hx'
        exact hffs.trans (record x hx)
    case finode =>
      intro j r' hr'
      obtain ⟨r, hr, hffs, hdev⟩ := k.finode j r' hr'
      rw [k.nextFino, hdev, hffs]
      exact hs.finode j r hr
  · refine ⟨le_of_eq k.nextFs.symm, le_of_eq k.nextFino.symm, le_of_eq k.nextFfs.symm,
      fun f r' hr' _ => k.filesys f r' hr', fun j r' hr' _ => ?_⟩
    obtain ⟨r, hr, hffs, -⟩ := k.finode j r' hr'
    exact ⟨r, hr, hffs⟩

theorem outside_marks (s t : Sys (FuseData B)) (ic : t.ic = s.ic) (drv : t.drv = s.drv) :
    Marks s t := by
  refine Trims.marks ⟨by rw [drv], by rw [drv], by rw [drv], by rw [ic], fun f r hr => ?_,
    fun k r hr => ?_, fun i r hr => ?_⟩
  · rw [ic] at hr
    exact ⟨r, hr, rfl, rfl⟩
  · rw [drv] at hr
    exact ⟨r, hr, rfl, rfl⟩
  · rw [ic] at hr
    exact ⟨r, hr, rfl, rfl, Or.inl rfl⟩

theorem scratch_marks (s t : Sys (FuseData B)) (k : Scratch s t) : Marks s t :=
  outside_marks s t k.ic k.drv

theorem update_cases {α : Type} {g : ℕ → Option α} {k : ℕ} {v : Option α} {j : ℕ} {r : α}
    (hr : Function.update g k v j = some r) : j = k ∧ v = some r ∨ j ≠ k ∧ g j = some r := by
  by_cases hj : j = k
  · subst hj
    rw [Function.update_self] at hr
    exact Or.inl ⟨rfl, hr⟩
  · rw [Function.update_of_ne hj] at hr
    exact Or.inr ⟨hj, hr⟩

section Inodes

/-- Rewriting an inode. -/
theorem setInode_marks {i : InoId} {r r' : Inode} {s t : Sys (FuseData B)}
    (hr : s.ic.inode i = some r) (inode : t.ic.inode = Function.update s.ic.inode i (some r'))
    (filesys : t.ic.filesys = s.ic.filesys) (nextFs : t.ic.nextFs = s.ic.nextFs) (drv : t.drv = s.drv)
    (fs : r'.fs = r.fs) (priv : r'.priv = r.priv)
    (dev : r'.stbuf.dev = r.stbuf.dev ∨
      ∃ k, s.drv.finode r.priv = some k ∧ r'.stbuf.dev = k.st.dev) : Marks s t := by
  refine Trims.marks ⟨by rw [drv], by rw [drv], by rw [drv], nextFs, fun f x hx => ?_,
    fun k x hx => ?_, fun j x hx => ?_⟩
  · rw [filesys] at hx
    exact ⟨x, hx, rfl, rfl⟩
  · rw [drv] at hx
    exact ⟨x, hx, rfl, rfl⟩
  · rw [inode] at hx
    rcases update_cases hx with ⟨rfl, h⟩ | ⟨-, hx⟩
    · obtain rfl := Option.some.inj h
      exact ⟨r, hr, fs, priv, dev⟩
    · exact ⟨x, hx, rfl, rfl, Or.inl rfl⟩

/-- Rewriting a file system record. -/
theorem setFs_marks {f : FsId} {r r' : Filesys} {s t : Sys (FuseData B)} {u : Unit}
    (hr : s.ic.filesys f = some r) (run : (setFs f r' : Fuse B Unit) s = .ok (u, t))
    (priv : r'.priv = r.priv) (dev : r'.dev = r.dev) : Marks s t := by
  obtain rfl := write_ok.mp run
  refine Trims.marks ⟨rfl, rfl, rfl, rfl, fun g x hx => ?_, fun k x hx => ⟨x, hx, rfl, rfl⟩,
    fun i x hx => ⟨x, hx, rfl, rfl, Or.inl rfl⟩⟩
  rcases update_cases hx with ⟨rfl, h⟩ | ⟨-, hx⟩
  · obtain rfl := Option.some.inj h
    exact ⟨r, hr, priv, dev⟩
  · exact ⟨x, hx, rfl, rfl⟩

theorem iRef_marks (i : InoId) : Moves Marks (iRef i : Fuse B Unit) := by
  intro s u t run
  obtain ⟨r, _, hread, hwrite⟩ := bind_ok.mp run
  obtain ⟨hr, rfl⟩ := deref_ok.mp hread
  obtain rfl := write_ok.mp hwrite
  exact setInode_marks hr rfl rfl rfl rfl rfl rfl (Or.inl rfl)

theorem itblRemove_marks (i : InoId) (r : Inode) : Moves Marks (itblRemove i r : Fuse B Unit) := by
  intro s u t run
  obtain ⟨f, _, hread, hset⟩ := bind_ok.mp run
  obtain ⟨hf, rfl⟩ := deref_ok.mp hread
  exact setFs_marks hf hset rfl rfl

theorem sysioIUndead_marks (i : InoId) : Moves Marks (sysioIUndead i : Fuse B Unit) := by
  intro s u t run
  obtain ⟨r, _, hread, h1⟩ := bind_ok.mp run
  obtain ⟨hr, rfl⟩ := deref_ok.mp hread
  split at h1
  · obtain ⟨-, rfl⟩ := pure_ok.mp h1
    exact Std.Refl.refl s
  · obtain ⟨_, v, hremove, hset⟩ := bind_ok.mp h1
    have inodes : v.ic.inode = s.ic.inode := by
      obtain ⟨f, _, hread, hset⟩ := bind_ok.mp hremove
      obtain ⟨-, rfl⟩ := deref_ok.mp hread
      obtain rfl := write_ok.mp hset
      rfl
    obtain rfl := write_ok.mp hset
    refine IsTrans.trans s v _ (itblRemove_marks i r _ _ _ hremove) ?_
    exact setInode_marks (r := r) (by rw [inodes]; exact hr) rfl rfl rfl rfl rfl rfl (Or.inl rfl)

theorem sysioIFind_marks (fs : FsId) (fid : ℕ) :
    Moves Marks (sysioIFind fs fid : Fuse B (Option InoId)) := by
  refine moves_bind (fsAt_moves fs) fun f => moves_bind (itblSearch_moves _ _) fun found => ?_
  cases found with
  | none => exact moves_pure _
  | some i => exact moves_bind (iRef_marks i) fun _ => moves_pure _

end Inodes

section Driver

/-- A write to the driver's other data. -/
theorem drv_marks {g : Sys (FuseData B) → FuseData B} (cMajor : ∀ s, (g s).cMajor = s.drv.cMajor)
    (nextFfs : ∀ s, (g s).nextFfs = s.drv.nextFfs) (nextFino : ∀ s, (g s).nextFino = s.drv.nextFino)
    (finode : ∀ s k r', (g s).finode k = some r' →
      ∃ r, s.drv.finode k = some r ∧ r'.ffs = r.ffs ∧ r'.st.dev = r.st.dev) :
    Moves Marks (Exec.write fun s => { s with drv := g s } : Fuse B Unit) :=
  moves_write fun s => Trims.marks ⟨cMajor s, nextFfs s, nextFino s, rfl,
    fun _ r hr => ⟨r, hr, rfl, rfl⟩, finode s, fun _ r hr => ⟨r, hr, rfl, rfl, Or.inl rfl⟩⟩

/-- A write to the driver's data that leaves its records alone. -/
theorem drv_other {g : Sys (FuseData B) → FuseData B} (cMajor : ∀ s, (g s).cMajor = s.drv.cMajor)
    (nextFfs : ∀ s, (g s).nextFfs = s.drv.nextFfs) (nextFino : ∀ s, (g s).nextFino = s.drv.nextFino)
    (finode : ∀ s, (g s).finode = s.drv.finode) :
    Moves Marks (Exec.write fun s => { s with drv := g s } : Fuse B Unit) :=
  drv_marks cMajor nextFfs nextFino fun s k r hr => ⟨r, by rw [finode] at hr; exact hr, rfl, rfl⟩

theorem finodeAt_moves {R : Sys (FuseData B) → Sys (FuseData B) → Prop}
    [IsPreorder (Sys (FuseData B)) R] (k : FinoId) : Moves R (finodeAt k : Fuse B FuseInode) :=
  moves_deref _ _

theorem p2fi_moves {R : Sys (FuseData B) → Sys (FuseData B) → Prop}
    [IsPreorder (Sys (FuseData B)) R] (p : Pno) : Moves R (p2fi p : Fuse B FinoId) :=
  moves_bind (inoOf_moves p) fun _ => moves_bind (nonNull_moves _) fun i =>
    moves_bind (inodeAt_moves i) fun _ => moves_pure _

theorem setFinode_marks {k : FinoId} {r r' : FuseInode} {s t : Sys (FuseData B)} {u : Unit}
    (hr : s.drv.finode k = some r) (run : (setFinode k r' : Fuse B Unit) s = .ok (u, t))
    (ffs : r'.ffs = r.ffs) (dev : r'.st.dev = r.st.dev) : Marks s t := by
  obtain rfl := write_ok.mp run
  refine Trims.marks ⟨rfl, rfl, rfl, rfl, fun _ x hx => ⟨x, hx, rfl, rfl⟩, fun j x hx => ?_,
    fun _ x hx => ⟨x, hx, rfl, rfl, Or.inl rfl⟩⟩
  rcases update_cases hx with ⟨rfl, h⟩ | ⟨-, hx⟩
  · obtain rfl := Option.some.inj h
    exact ⟨r, hr, ffs, dev⟩
  · exact ⟨x, hx, rfl, rfl⟩

/-- Reading a record and writing it back with the same device number. -/
theorem modFinode_marks {α : Type} {k : FinoId} {g : FuseInode → FuseInode}
    {next : FuseInode → Fuse B α} (ffs : ∀ r, (g r).ffs = r.ffs) (dev : ∀ r, (g r).st.dev = r.st.dev)
    (hnext : ∀ r, Moves Marks (next r)) :
    Moves Marks (do
      let r ← finodeAt k
      setFinode k (g r)
      next r : Fuse B α) := by
  intro s a t run
  obtain ⟨r, _, hread, h1⟩ := bind_ok.mp run
  obtain ⟨hr, rfl⟩ := deref_ok.mp hread
  obtain ⟨_, v, hset, h2⟩ := bind_ok.mp h1
  exact IsTrans.trans s v t (setFinode_marks hr hset (ffs r) (dev r)) (hnext r v a t h2)

theorem backendCall_marks (ops : Option ℕ) (c : BackendCall) : Moves Marks (backendCall h ops c) :=
  moves_bind (nonNull_moves ops) fun _ => moves_bind (moves_read _) fun _ =>
    moves_bind (drv_other (fun _ => rfl) (fun _ => rfl) (fun _ => rfl) fun _ => rfl) fun _ =>
    moves_pure _

theorem fuseIDestory_marks (k : FinoId) : Moves Marks (fuseIDestory k : Fuse B Unit) := by
  refine moves_bind (finodeAt_moves k) fun r => moves_bind (moves_deref _ _) fun l =>
    drv_marks (fun _ => rfl) (fun _ => rfl) (fun _ => rfl) fun s j x hx => ?_
  rcases update_cases hx with ⟨-, h⟩ | ⟨-, hx⟩
  · cases h
  · exact ⟨x, hx, rfl, rfl⟩

theorem fuseInopGone_marks (i : InoId) : Moves Marks (fuseInopGone i : Fuse B Unit) :=
  moves_bind (moves_bind (inodeAt_moves i) fun _ => moves_pure _) fun k => fuseIDestory_marks k

theorem fuseFsopGone_marks (f : FsId) : Moves Marks (fuseFsopGone f : Fuse B Unit) := by
  have all : ∀ l : List FinoId, Moves Marks (destoryAll l : Fuse B Unit) := by
    intro l
    induction l with
    | nil => exact moves_pure _
    | cons k l ih => exact moves_bind (fuseIDestory_marks k) fun _ => ih
  exact moves_bind (moves_bind (fsAt_moves f) fun _ => moves_pure _) fun q =>
    moves_bind (moves_deref _ _) fun l => moves_bind (all l) fun _ =>
    drv_other (fun _ => rfl) (fun _ => rfl) (fun _ => rfl) fun _ => rfl

theorem noReturn_marks : Moves Marks (noReturn h) := moves_read _

theorem fuseInumAlloc_marks : Moves Marks (fuseInumAlloc : Fuse B ℕ) :=
  moves_bind (moves_read _) fun _ =>
    moves_bind (drv_other (fun _ => rfl) (fun _ => rfl) (fun _ => rfl) fun _ => rfl) fun _ =>
    moves_pure _

theorem direntsAt_marks (k : FinoId) : Moves Marks (direntsAt k : Fuse B (List Dirent)) :=
  moves_bind (finodeAt_moves k) fun _ => nonNull_moves _

theorem fuseDirectoryInsert_marks (parent : FinoId) (name : Bytes) (inum : ℕ) :
    Moves Marks (fuseDirectoryInsert h parent name inum) :=
  moves_bind (direntsAt_marks parent) fun _ => moves_ite (fun _ => moves_pure _) fun _ =>
    moves_bind (malloc_moves scratch_marks) fun _ => moves_ite (fun _ => moves_pure _) fun _ =>
    moves_bind (moves_check _ _) fun _ => modFinode_marks (fun _ => rfl) (fun _ => rfl) fun _ =>
    moves_pure _

theorem fuseUnlinkEntry_marks (parent : FinoId) (name : Bytes) :
    Moves Marks (fuseUnlinkEntry parent name : Fuse B ℤ) := by
  refine moves_bind (direntsAt_marks parent) fun data => moves_ite (fun _ => moves_pure _)
    fun _ => ?_
  intro s a t run
  obtain ⟨r, _, hread, h1⟩ := bind_ok.mp run
  obtain ⟨hr, rfl⟩ := deref_ok.mp hread
  obtain ⟨_, v, hcheck, h2⟩ := bind_ok.mp h1
  obtain ⟨-, rfl⟩ := check_ok.mp hcheck
  obtain ⟨_, w, hset, h3⟩ := bind_ok.mp h2
  obtain ⟨-, rfl⟩ := pure_ok.mp h3
  exact setFinode_marks hr hset rfl rfl

theorem path_marks (b : PbId) (c : UInt8) : Moves Marks (sysioPbPath (coreEnv h) b c) :=
  sysioPbPath_moves scratch_marks b c

theorem fuseInopRmdir_marks (p : Pno) : Moves Marks (fuseInopRmdir h p) := by
  refine moves_bind (pnodeAt_moves p) fun n => moves_bind (path_marks _ _) fun path => ?_
  cases path with
  | none => exact moves_pure _
  | some path =>
    exact moves_bind (p2fi_moves _) fun _ => moves_bind (baseAt_moves _) fun _ =>
      moves_bind (fuseUnlinkEntry_marks _ _) fun _ => moves_bind (p2fi_moves p) fun k =>
      moves_bind (finodeAt_moves k) fun _ => backendCall_marks _ _

theorem openExisting_marks (p : Pno) : Moves Marks (openExisting h p) :=
  moves_bind (p2fi_moves p) fun k => moves_bind (pnodeAt_moves p) fun _ =>
    moves_bind (path_marks _ _) fun _ => modFinode_marks (fun _ => rfl) (fun _ => rfl) fun _ =>
    moves_pure _

theorem onFile_marks (p : Pno) (call : Option Bytes → Option FiId → BackendCall) :
    Moves Marks (onFile h p call) :=
  moves_bind (pnodeAt_moves p) fun _ => moves_bind (path_marks _ _) fun _ =>
    moves_bind (p2fi_moves p) fun k => moves_bind (finodeAt_moves k) fun _ => backendCall_marks _ _

theorem fuseInopUnlink_marks (p : Pno) : Moves Marks (fuseInopUnlink h p) :=
  moves_bind (pnodeAt_moves p) fun _ => moves_bind (path_marks _ _) fun _ =>
    moves_bind (p2fi_moves p) fun k => moves_bind (finodeAt_moves k) fun _ => backendCall_marks _ _

theorem fuseInopGetattr_marks (p : Option Pno) : Moves Marks (fuseInopGetattr h p) :=
  moves_bind (nonNull_moves p) fun p => moves_bind (pnodeAt_moves p) fun _ =>
    moves_bind (path_marks _ _) fun _ => moves_bind (p2fi_moves p) fun k =>
    moves_bind (finodeAt_moves k) fun _ => backendCall_marks _ _

theorem transfer_marks (p : Pno) (call : Option Bytes → Option FiId → BackendCall) :
    Moves Marks (do
      let fino ← finodeAt (← p2fi p)
      backendCall h fino.ops (call fino.path fino.file)) :=
  moves_bind (p2fi_moves p) fun k => moves_bind (finodeAt_moves k) fun _ => backendCall_marks _ _

end Driver

section Release

variable {e : Env (FuseData B)} (gone : ∀ i, Moves Marks (e.ops.gone i))

include gone

theorem sysioIGone_marks (i : InoId) : Moves Marks (sysioIGone e i) := by
  have fewer : ∀ f : Sys (FuseData B) → InodeCache,
      (∀ s j r, (f s).inode j = some r → s.ic.inode j = some r) →
      (∀ s, (f s).filesys = s.ic.filesys) → (∀ s, (f s).nextFs = s.ic.nextFs) →
      Moves Marks (Exec.write fun s => { s with ic := f s } : Fuse B Unit) := by
    intro f inode filesys nextFs
    refine moves_write fun s => Trims.marks ⟨rfl, rfl, rfl, nextFs s, fun g x hx => ?_,
      fun k x hx => ⟨x, hx, rfl, rfl⟩, fun j x hx => ⟨x, inode s j x hx, rfl, rfl, Or.inl rfl⟩⟩
    have hx : (f s).filesys g = some x := hx
    rw [filesys] at hx
    exact ⟨x, hx, rfl, rfl⟩
  refine moves_bind (inodeAt_moves i) fun r => moves_bind (moves_check _ _) fun _ =>
    moves_bind (moves_when fun _ => itblRemove_marks i r) fun _ =>
    moves_bind (fewer _ (fun _ _ _ hr => hr) (fun _ => rfl) fun _ => rfl) fun _ =>
    moves_bind (gone i) fun _ => moves_bind (fewer _ (fun s j x hx => ?_) (fun _ => rfl) fun _ => rfl)
    fun _ => moves_bind (moves_check _ _) fun _ =>
    fewer _ (fun _ _ _ hr => hr) (fun _ => rfl) fun _ => rfl
  rcases update_cases hx with ⟨-, h⟩ | ⟨-, hx⟩
  · cases h
  · exact hx

theorem iRele_marks (i : InoId) : Moves Marks (iRele e i) := by
  intro s u t run
  obtain ⟨r, _, hread, h1⟩ := bind_ok.mp run
  obtain ⟨hr, rfl⟩ := deref_ok.mp hread
  obtain ⟨_, _, hc, h2⟩ := bind_ok.mp h1
  obtain ⟨-, rfl⟩ := check_ok.mp hc
  obtain ⟨_, v, hw, h3⟩ := bind_ok.mp h2
  have first : Marks s v := by
    obtain rfl := write_ok.mp hw
    exact setInode_marks hr rfl rfl rfl rfl rfl rfl (Or.inl rfl)
  exact IsTrans.trans s v t first
    (moves_ite (fun _ => sysioIGone_marks gone i) (fun _ => moves_pure _) _ _ _ h3)

theorem iGone_marks (i : InoId) : Moves Marks (iGone e i) :=
  moves_bind (sysioIUndead_marks i) fun _ => iRele_marks gone i

theorem iReclaim_marks : Moves Marks (iReclaim e) :=
  iReclaim_moves (sysioIGone_marks gone) fun _ _ => Trims.marks ⟨rfl, rfl, rfl, rfl,
    fun _ r hr => ⟨r, hr, rfl, rfl⟩, fun _ r hr => ⟨r, hr, rfl, rfl⟩,
    fun _ r hr => ⟨r, hr, rfl, rfl, Or.inl rfl⟩⟩

/-- A new inode with the device number of its file system. -/
theorem sysioINew_marks {fs : FsId} {fid : ℕ} {stat : Stat} {immunity : Bool} {priv : ℕ}
    {s t : Sys (FuseData B)} {o : Option InoId} (hs : Marked s) (hfs : fs < s.ic.nextFs)
    (hpriv : priv < s.drv.nextFino)
    (own : ∀ f, s.ic.filesys fs = some f →
      stat.dev = deviceOf f.priv ∧ ∀ k, s.drv.finode priv = some k → k.ffs = f.priv)
    (run : sysioINew e fs fid stat immunity priv s = .ok (o, t)) : Marked t ∧ Carries s t := by
  obtain ⟨ic, _, hread, h1⟩ := bind_ok.mp run
  obtain ⟨-, rfl⟩ := read_ok.mp hread
  obtain ⟨_, v, hv, h2⟩ := bind_ok.mp h1
  have kv : Marks s v := moves_when (fun _ => iReclaim_marks gone) _ _ _ hv
  obtain ⟨ok, w, hw, h3⟩ := bind_ok.mp h2
  have k : Marks s w := IsTrans.trans _ _ _ kv (malloc_moves scratch_marks _ _ _ hw)
  obtain ⟨marked, carries⟩ := k hs
  split at h3
  · obtain ⟨-, rfl⟩ := pure_ok.mp h3
    exact ⟨marked, carries⟩
  · simp only [bind_ok, read_ok, fsAt, deref_ok, write_ok, setFs, pure_ok] at h3
    obtain ⟨i, _, ⟨rfl, rfl⟩, f, _, ⟨hf, rfl⟩, _, _, rfl, _, _, rfl, -, rfl⟩ := h3
    -- the record that gets the inode on its table is otherwise the one that was there
    have table : ∀ (g : ℕ) x, Function.update w.ic.filesys fs (some { f with
        itbl := Function.update f.itbl (itblSlot fid) (w.ic.nextInode :: f.itbl (itblSlot fid)) }) g =
          some x → ∃ y, w.ic.filesys g = some y ∧ x.priv = y.priv ∧ x.dev = y.dev := by
      intro g x hx
      rcases update_cases hx with ⟨rfl, h⟩ | ⟨-, hx⟩
      · obtain rfl := Option.some.inj h
        exact ⟨f, hf, rfl, rfl⟩
      · exact ⟨x, hx, rfl, rfl⟩
    constructor
    · constructor
      case counter => exact marked.counter
      case filesys =>
        intro g x hx
        obtain ⟨y, hy, hp, -⟩ := table g x hx
        rw [hp]
        exact marked.filesys g y hy
      case apart =>
        intro g g' x x' hx hx' hpriv
        obtain ⟨y, hy, hp, -⟩ := table g x hx
        obtain ⟨y', hy', hp', -⟩ := table g' x' hx'
        exact marked.apart g g' y y' hy hy' (hp.symm.trans (hpriv.trans hp'))
      case inode =>
        intro j x hx
        rcases update_cases hx with ⟨-, h⟩ | ⟨-, hx⟩
        · obtain rfl := Option.some.inj h
          exact ⟨lt_of_lt_of_le hfs carries.nextFs, lt_of_lt_of_le hpriv carries.nextFino⟩
        · exact marked.inode j x hx
      case device =>
        intro j x g hx hg
        obtain ⟨y, hy, hp, -⟩ := table _ g hg
        rw [hp]
        rcases update_cases hx with ⟨-, h⟩ | ⟨-, hx⟩
        · obtain rfl := Option.some.inj h
          obtain ⟨y₀, hy₀, hp₀, -⟩ := carries.filesys fs y hy hfs
          obtain ⟨dev, record⟩ := own y₀ hy₀
          rw [hp₀]
          refine ⟨dev, fun r hr => ?_⟩
          obtain ⟨r₀, hr₀, hffs⟩ := carries.finode priv r hr hpriv
          exact hffs.trans (record r₀ hr₀)
        · exact marked.device j x y hx hy
      case finode => exact marked.finode
    · refine ⟨carries.nextFs, carries.nextFino, carries.nextFfs, fun g x hx hg => ?_, carries.finode⟩
      obtain ⟨y, hy, hp, hd⟩ := table g x hx
      obtain ⟨z, hz, hp', hd'⟩ := carries.filesys g y hy hg
      exact ⟨z, hz, hp.trans hp', hd.trans hd'⟩

variable (fsopGone : ∀ f, Moves Marks (e.ops.fsopGone f))

include fsopGone

theorem sysioFsGone_marks (f : FsId) : Moves Marks (sysioFsGone e f) := by
  have chain : ∀ slot fuel, Moves Marks (drainChain e f slot fuel) := by
    intro slot fuel
    induction fuel with
    | zero => exact moves_fault _
    | succ fuel ih =>
      refine moves_bind (fsAt_moves f) fun r => ?_
      split
      · exact moves_pure _
      · exact moves_bind (sysioIGone_marks gone _) fun _ => ih
  have table : ∀ n, Moves Marks (drainTable e f n) := by
    intro n
    induction n with
    | zero => exact moves_pure _
    | succ n ih => exact moves_bind (fsAt_moves f) fun _ => moves_bind (chain _ _) fun _ => ih
  refine moves_bind (fsAt_moves f) fun r => moves_bind (moves_check _ _) fun _ =>
    moves_bind (table _) fun _ => moves_bind (fsopGone f) fun _ => moves_write fun s => ?_
  refine Trims.marks ⟨rfl, rfl, rfl, rfl, fun g x hx => ?_, fun _ x hx => ⟨x, hx, rfl, rfl⟩,
    fun _ x hx => ⟨x, hx, rfl, rfl, Or.inl rfl⟩⟩
  rcases update_cases hx with ⟨-, h⟩ | ⟨-, hx⟩
  · cases h
  · exact ⟨x, hx, rfl, rfl⟩

theorem fsRele_marks (f : FsId) : Moves Marks (fsRele e f) := by
  intro s u t run
  obtain ⟨r, _, hread, h1⟩ := bind_ok.mp run
  obtain ⟨hr, rfl⟩ := deref_ok.mp hread
  obtain ⟨_, _, hc, h2⟩ := bind_ok.mp h1
  obtain ⟨-, rfl⟩ := check_ok.mp hc
  obtain ⟨_, v, hset, h3⟩ := bind_ok.mp h2
  exact IsTrans.trans s v t (setFs_marks hr hset rfl rfl)
    (moves_ite (fun _ => sysioFsGone_marks gone fsopGone f) (fun _ => moves_pure _) _ _ _ h3)

end Release

section Making

/-- A new record with the device number of its file system. -/
theorem fuseIAlloc_marks {q : FfsId} {st : Stat} {ops : Option ℕ} {s t : Sys (FuseData B)}
    {o : Option FinoId} (hs : Marked s) (dev : st.dev = deviceOf q)
    (run : fuseIAlloc h q st ops s = .ok (o, t)) : Marked t ∧ Carries s t ∧ t.ic = s.ic ∧
      ∀ k, o = some k → k < t.drv.nextFino ∧ ∃ r, t.drv.finode k = some r ∧ r.ffs = q ∧ r.st = st := by
  simp only [fuseIAlloc, assert, bind_ok, check_ok] at run
  obtain ⟨_, _, ⟨-, rfl⟩, _, _, ⟨-, rfl⟩, ok, v, hv, h1⟩ := run
  have ic : v.ic = s.ic := by
    cases hv
    rfl
  obtain ⟨marked, carries⟩ := malloc_moves scratch_marks _ _ _ hv hs
  split at h1
  · obtain ⟨rfl, rfl⟩ := pure_ok.mp h1
    exact ⟨marked, carries, ic, fun k hk => by cases hk⟩
  · simp only [bind_ok, read_ok, deref_ok, write_ok, pure_ok] at h1
    obtain ⟨k, _, ⟨rfl, rfl⟩, l, _, ⟨-, rfl⟩, _, _, rfl, rfl, rfl⟩ := h1
    refine ⟨?_, ⟨carries.nextFs, carries.nextFino.trans (Nat.le_succ _), carries.nextFfs,
      carries.filesys, fun k x hx hk => ?_⟩, ic, fun k hk => ?_⟩
    · constructor
      case counter => exact marked.counter
      case filesys => exact marked.filesys
      case apart => exact marked.apart
      case inode =>
        intro i r hr
        obtain ⟨hfs, hp⟩ := marked.inode i r hr
        exact ⟨hfs, Nat.lt_succ_of_lt hp⟩
      case device =>
        intro i r f hr hf
        obtain ⟨dev, record⟩ := marked.device i r f hr hf
        refine ⟨dev, fun x hx => ?_⟩
        rcases update_cases hx with ⟨hk, -⟩ | ⟨-, hx⟩
        · exact absurd hk (Nat.ne_of_lt (marked.inode i r hr).2)
        · exact record x hx
      case finode =>
        intro j x hx
        rcases update_cases hx with ⟨rfl, h⟩ | ⟨-, hx⟩
        · obtain rfl := Option.some.inj h
          exact ⟨Nat.lt_succ_self _, dev⟩
        · obtain ⟨hlt, hdev⟩ := marked.finode j x hx
          exact ⟨Nat.lt_succ_of_lt hlt, hdev⟩
    · rcases update_cases hx with ⟨rfl, -⟩ | ⟨-, hx⟩
      · exact absurd hk (not_lt_of_ge carries.nextFino)
      · exact carries.finode k x hx hk
    · obtain rfl := Option.some.inj hk
      exact ⟨Nat.lt_succ_self _, _, Function.update_self .., rfl, rfl⟩

theorem fuseDirectoryNew_marks {q : FfsId} {parent : Option FinoId} {st : Stat}
    {s t : Sys (FuseData B)} {o : Option FinoId} (hs : Marked s) (dev : st.dev = deviceOf q)
    (run : fuseDirectoryNew h q parent st s = .ok (o, t)) : Marked t ∧ Carries s t ∧ t.ic = s.ic ∧
      ∀ k, o = some k → k < t.drv.nextFino ∧
        ∃ r, t.drv.finode k = some r ∧ r.ffs = q ∧ r.st.dev = st.dev := by
  obtain ⟨ops, _, hops, h1⟩ := bind_ok.mp run
  have same : Moves Eq (opsOf parent : Fuse B (Option ℕ)) := by
    cases parent with
    | none => exact moves_pure _
    | some d => exact moves_bind (moves_deref _ _) fun _ => moves_pure _
  obtain rfl := same _ _ _ hops
  obtain ⟨made, v, halloc, h2⟩ := bind_ok.mp h1
  obtain ⟨marked, carries, ic, record⟩ := fuseIAlloc_marks hs dev halloc
  cases made with
  | none =>
    obtain ⟨rfl, rfl⟩ := pure_ok.mp h2
    exact ⟨marked, carries, ic, fun k hk => by cases hk⟩
  | some k =>
    obtain ⟨bound, r, hr, ffs, hst⟩ := record k rfl
    obtain ⟨ok, w, hw, h3⟩ := bind_ok.mp h2
    have drv : w.drv = v.drv := by
      cases hw
      rfl
    have wic : w.ic = v.ic := by
      cases hw
      rfl
    have kw : Marks v w := malloc_moves scratch_marks _ _ _ hw
    split at h3
    · obtain ⟨_, x, hdestroy, h4⟩ := bind_ok.mp h3
      obtain ⟨rfl, rfl⟩ := pure_ok.mp h4
      obtain ⟨marked', carries'⟩ := (IsTrans.trans v w x kw (fuseIDestory_marks k _ _ _ hdestroy)) marked
      have xic : x.ic = w.ic := (fuseIDestory_driver k _ _ _ hdestroy).ic
      exact ⟨marked', IsTrans.trans _ _ _ carries carries', xic.trans (wic.trans ic),
        fun k hk => by cases hk⟩
    · simp only [finodeAt, bind_ok, deref_ok, pure_ok] at h3
      obtain ⟨rd, _, ⟨-, rfl⟩, r', _, ⟨hr', rfl⟩, _, x, hset, rfl, rfl⟩ := h3
      have hr' : v.drv.finode k = some r' := drv ▸ hr'
      obtain rfl := Option.some.inj (hr.symm.trans hr')
      have set : Marks w x := setFinode_marks (r := r) (by rw [drv]; exact hr) hset rfl rfl
      obtain ⟨marked', carries'⟩ := (IsTrans.trans v w x kw set) marked
      obtain rfl := write_ok.mp hset
      refine ⟨marked', IsTrans.trans _ _ _ carries carries', wic.trans ic, fun j hj => ?_⟩
      obtain rfl := Option.some.inj hj
      exact ⟨lt_of_lt_of_le bound carries'.nextFino, _, Function.update_self .., ffs, by rw [hst]⟩

/-- A new file system record for a driver's record that no other has. -/
theorem sysioFsNew_marks {flags : ℕ} {name : Bytes} {q : FfsId} {s t : Sys (FuseData B)}
    {o : Option FsId} (hs : Marked s) (hq : q < s.drv.nextFfs)
    (fresh : ∀ f r, s.ic.filesys f = some r → r.priv ≠ q)
    (run : sysioFsNew (coreEnv h) flags name q s = .ok (o, t)) : Marked t ∧ Carries s t ∧
      t.drv = s.drv ∧ ∀ f, o = some f → f < t.ic.nextFs ∧
        ∃ r, t.ic.filesys f = some r ∧ r.priv = q := by
  obtain ⟨dev, _, hread, h1⟩ := bind_ok.mp run
  obtain ⟨-, rfl⟩ := read_ok.mp hread
  obtain ⟨ok, v, hv, h2⟩ := bind_ok.mp h1
  have kv := malloc_moves scratch_marks _ _ _ hv
  have vdrv : v.drv = s.drv := by
    cases hv
    rfl
  have vic : v.ic = s.ic := by
    cases hv
    rfl
  obtain ⟨marked, carries⟩ := kv hs
  split at h2
  · obtain ⟨rfl, rfl⟩ := pure_ok.mp h2
    exact ⟨marked, carries, vdrv, fun f hf => by cases hf⟩
  · obtain ⟨named, w, hw, h3⟩ := bind_ok.mp h2
    have wdrv : w.drv = s.drv := by
      cases hw
      exact vdrv
    have wic : w.ic = s.ic := by
      cases hw
      exact vic
    obtain ⟨marked, carries'⟩ := malloc_moves scratch_marks _ _ _ hw marked
    have carries := IsTrans.trans _ _ _ carries carries'
    simp only [bind_ok, check_ok, read_ok, write_ok, pure_ok] at h3
    obtain ⟨_, _, ⟨-, rfl⟩, f, _, ⟨rfl, rfl⟩, _, _, rfl, rfl, rfl⟩ := h3
    refine ⟨?_, ⟨carries.nextFs.trans (Nat.le_succ _), carries.nextFino, carries.nextFfs,
      fun f x hx hf => ?_, carries.finode⟩, wdrv, fun f hf => ?_⟩
    · constructor
      case counter => exact marked.counter
      case filesys =>
        intro f x hx
        rcases update_cases hx with ⟨rfl, h⟩ | ⟨-, hx⟩
        · obtain rfl := Option.some.inj h
          refine ⟨Nat.lt_succ_self _, ?_⟩
          change q < w.drv.nextFfs
          rw [wdrv]
          exact hq
        · obtain ⟨hf, hp⟩ := marked.filesys f x hx
          exact ⟨Nat.lt_succ_of_lt hf, hp⟩
      case apart =>
        intro f g x y hx hy hpriv
        rcases update_cases hx with ⟨rfl, hnew⟩ | ⟨-, hx⟩
        · rcases update_cases hy with ⟨rfl, -⟩ | ⟨-, hy⟩
          · rfl
          · obtain rfl := Option.some.inj hnew
            exact absurd hpriv.symm (fresh g y (by rw [← wic]; exact hy))
        · rcases update_cases hy with ⟨rfl, hnew⟩ | ⟨-, hy⟩
          · obtain rfl := Option.some.inj hnew
            exact absurd hpriv (fresh f x (by rw [← wic]; exact hx))
          · exact marked.apart f g x y hx hy hpriv
      case inode =>
        intro i r hr
        obtain ⟨hfs, hp⟩ := marked.inode i r hr
        exact ⟨Nat.lt_succ_of_lt hfs, hp⟩
      case device =>
        intro i r f hr hf
        -- the new record has no inodes yet
        rcases update_cases hf with ⟨hfs, -⟩ | ⟨-, hf⟩
        · exact absurd hfs (Nat.ne_of_lt (marked.inode i r hr).1)
        · exact marked.device i r f hr hf
      case finode => exact marked.finode
    · rcases update_cases hx with ⟨rfl, -⟩ | ⟨-, hx⟩
      · exact absurd hf (not_lt_of_ge carries.nextFs)
      · exact carries.filesys f x hx hf
    · obtain rfl := Option.some.inj hf
      exact ⟨Nat.lt_succ_self _, _, Function.update_self .., rfl⟩

theorem gone_marks (i : InoId) : Moves Marks ((coreEnv h).ops.gone i) := fuseInopGone_marks i

theorem fuseInopLookup_marks (p : Pno) (o : Option InoId) : Moves Marks (fuseInopLookup h p o) := by
  cases o with
  | some i =>
    intro s res t run
    simp only [fuseInopLookup, i2fi, finodeAt, inodeAt, setInode, bind_ok, deref_ok, pure_ok,
      write_ok] at run
    obtain ⟨k, _, ⟨r, _, ⟨hr, rfl⟩, rfl, rfl⟩, fino, _, ⟨hf, rfl⟩, r', _, ⟨hr', rfl⟩, _, _, rfl,
      -, rfl⟩ := run
    obtain rfl := Option.some.inj (hr.symm.trans hr')
    exact setInode_marks hr rfl rfl rfl rfl rfl rfl (Or.inr ⟨fino, hf, rfl⟩)
  | none =>
    intro s res t run
    obtain ⟨n, _, hread, h1⟩ := bind_ok.mp run
    obtain ⟨-, rfl⟩ := read_ok.mp hread
    obtain ⟨d, _, hino, h2⟩ := bind_ok.mp h1
    obtain rfl := inoOf_moves (R := Eq) _ _ _ _ hino
    obtain ⟨d, _, hread, h3⟩ := bind_ok.mp h2
    obtain ⟨-, rfl⟩ := deref_ok.mp hread
    obtain ⟨rd, _, hread, h4⟩ := bind_ok.mp h3
    obtain ⟨hrd, rfl⟩ := deref_ok.mp hread
    obtain ⟨r, _, hread, h5⟩ := bind_ok.mp h4
    obtain ⟨-, rfl⟩ := deref_ok.mp hread
    obtain ⟨data, v, hdata, h6⟩ := bind_ok.mp h5
    have same : Moves Eq (direntsAt rd.priv : Fuse B (List Dirent)) :=
      moves_bind (moves_deref _ _) fun _ => moves_deref _ _
    obtain rfl := same _ _ _ hdata
    cases hprobe : fuseDirectoryProbe data r.name.name with
    | none =>
      rw [hprobe] at h6
      obtain ⟨-, rfl⟩ := pure_ok.mp h6
      exact Std.Refl.refl s
    | some de =>
      rw [hprobe] at h6
      obtain ⟨found, v, hfind, h7⟩ := bind_ok.mp h6
      cases found with
      | some i =>
        obtain ⟨-, rfl⟩ := pure_ok.mp h7
        exact sysioIFind_marks _ _ _ _ _ hfind
      | none =>
        obtain ⟨fino, _, hread, h8⟩ := bind_ok.mp h7
        obtain ⟨hf, rfl⟩ := deref_ok.mp hread
        obtain ⟨made, w, hnew, h9⟩ := bind_ok.mp h8
        obtain rfl : t = w := by
          cases made <;> exact (pure_ok.mp h9).2.symm
        -- nothing is found, so the search has changed nothing
        have same : v = s := by
          obtain ⟨f, _, hread, h1⟩ := bind_ok.mp hfind
          obtain ⟨-, rfl⟩ := deref_ok.mp hread
          obtain ⟨found, _, hsearch, h2⟩ := bind_ok.mp h1
          obtain rfl := itblSearch_moves (R := Eq) _ _ _ _ _ hsearch
          cases found with
          | none => exact (pure_ok.mp h2).2.symm
          | some i =>
            obtain ⟨_, _, -, h3⟩ := bind_ok.mp h2
            cases (pure_ok.mp h3).1
        subst same
        intro hs
        obtain ⟨hfs, hpriv⟩ := hs.inode d rd hrd
        refine sysioINew_marks gone_marks hs hfs hpriv (fun f hfs => ?_) hnew
        obtain ⟨-, record⟩ := hs.device d rd f hrd hfs
        exact ⟨((hs.finode _ fino hf).2).trans (by rw [record fino hf]), record⟩

theorem moves_use {R : Sys (FuseData B) → Sys (FuseData B) → Prop} {α : Type} {m : Fuse B α}
    {s t : Sys (FuseData B)} {a : α} (run : m s = .ok (a, t)) (hm : Moves R m) : R s t := hm s a t run

/-- A run that starts with a step that keeps everything marked. -/
theorem marks_then {s t u : Sys (FuseData B)} (hs : Marked s) (k : Marked t ∧ Carries s t)
    (l : Marks t u) : Marked u ∧ Carries s u := by
  obtain ⟨marked, carries⟩ := l k.1
  exact ⟨marked, IsTrans.trans _ _ _ k.2 carries⟩

/-- An inode and its record made together. -/
theorem made_marks {fs : FsId} {f : Filesys} {inum : ℕ} {st : Stat} {k : FinoId} {o : Option InoId}
    {s t : Sys (FuseData B)} (hs : Marked s) (hf : s.ic.filesys fs = some f)
    (dev : st.dev = deviceOf f.priv) (bound : k < s.drv.nextFino)
    (record : ∃ r, s.drv.finode k = some r ∧ r.ffs = f.priv)
    (run : sysioINew (coreEnv h) fs inum st true k s = .ok (o, t)) : Marked t ∧ Carries s t := by
  refine sysioINew_marks gone_marks hs (hs.filesys fs f hf).1 bound (fun g hg => ?_) run
  obtain rfl := Option.some.inj (hf.symm.trans hg)
  refine ⟨dev, fun r hr => ?_⟩
  obtain ⟨r', hr', ffs⟩ := record
  obtain rfl := Option.some.inj (hr.symm.trans hr')
  exact ffs

/-- mkdir in a file system whose record holds the device number. -/
theorem fuseInopMkdir_marks {p : Pno} {mode : ℕ} {s t : Sys (FuseData B)} {err : ℤ}
    (home : ¬ ForeignDir p s) (run : fuseInopMkdir h p mode s = .ok (err, t)) : Marks s t := by
  intro hs
  obtain ⟨n, _, hread, h1⟩ := bind_ok.mp run
  obtain ⟨rfl, rfl⟩ := read_ok.mp hread
  obtain ⟨o, _, hino, h2⟩ := bind_ok.mp h1
  obtain ⟨r, hr, hd, rfl⟩ := inoOf_ok.mp hino
  obtain ⟨d, _, hread, h3⟩ := bind_ok.mp h2
  obtain ⟨rfl, rfl⟩ := deref_ok.mp hread
  obtain ⟨rd, _, hread, h4⟩ := bind_ok.mp h3
  obtain ⟨hrd, rfl⟩ := deref_ok.mp hread
  obtain ⟨rp, _, hread, h5⟩ := bind_ok.mp h4
  obtain ⟨hrp, rfl⟩ := deref_ok.mp hread
  split at h5
  · obtain ⟨-, rfl⟩ := pure_ok.mp h5
    exact ⟨hs, Std.Refl.refl _⟩
  rename_i hdir
  obtain ⟨f, _, hread, h6⟩ := bind_ok.mp h5
  obtain ⟨hf, rfl⟩ := deref_ok.mp hread
  have dev : f.dev = deviceOf f.priv := by
    by_contra hne
    refine home ⟨rd, rp, f, ⟨r, d, hr, hd, hrd, hrp, hf⟩, by simpa using hdir, fun heq => hne ?_⟩
    exact heq.trans (hs.device d rd f hrd hf).1
  obtain ⟨inum, v, hinum, h7⟩ := bind_ok.mp h6
  have alloc := fuseInumAlloc_marks _ _ _ hinum hs
  have vic := (fuseInumAlloc_driver _ _ _ hinum).ic
  obtain ⟨made, w, hmade, h8⟩ := bind_ok.mp h7
  obtain ⟨marked, carries, wic, record⟩ := fuseDirectoryNew_marks alloc.1 dev hmade
  have kw := marks_then hs alloc fun _ => ⟨marked, carries⟩
  cases made with
  | none =>
    obtain ⟨-, rfl⟩ := pure_ok.mp h8
    exact kw
  | some k =>
    obtain ⟨bound, x, hx, ffs, -⟩ := record k rfl
    obtain ⟨ino, y, hnew, h9⟩ := bind_ok.mp h8
    have ky := marks_then hs kw fun hw =>
      made_marks hw (by rw [wic, vic]; exact hf) dev bound ⟨x, hx, ffs⟩ hnew
    refine marks_then hs ky ?_
    cases ino with
    | none => exact moves_use h9 (moves_bind (fuseIDestory_marks k) fun _ => moves_pure _)
    | some i =>
      refine moves_use h9 (moves_bind (baseAt_moves _) fun r =>
        moves_bind (fuseDirectoryInsert_marks _ _ _) fun err => moves_bind (moves_check _ _) fun _ =>
        moves_bind (path_marks _ _) fun path => ?_)
      cases path with
      | none => exact moves_pure _
      | some path =>
        exact moves_bind (finodeAt_moves k) fun fino => moves_bind (backendCall_marks _ _) fun err =>
          moves_bind (moves_check _ _) fun _ =>
          moves_bind (outside_modBase (outside_files outside_marks) _ _) fun _ => moves_pure _

theorem fuseCreate_marks {p : Pno} {st : Stat} {s t : Sys (FuseData B)} {err : ℤ} (hs : Marked s)
    (dev : ∀ r d i f, s.nc.base (s.nc.pnode (s.nc.pnode p).parent).base = some r → r.ino = some d →
      s.ic.inode d = some i → s.ic.filesys i.fs = some f → (∃ k, s.drv.finode i.priv = some k) →
      st.dev = deviceOf f.priv)
    (run : fuseCreate h p st s = .ok (err, t)) : Marked t ∧ Carries s t := by
  obtain ⟨n, _, hread, h1⟩ := bind_ok.mp run
  obtain ⟨rfl, rfl⟩ := read_ok.mp hread
  obtain ⟨o, _, hino, h2⟩ := bind_ok.mp h1
  obtain ⟨r, hr, hd, rfl⟩ := inoOf_ok.mp hino
  obtain ⟨_, _, hcheck, h3⟩ := bind_ok.mp h2
  obtain ⟨-, rfl⟩ := check_ok.mp hcheck
  obtain ⟨d, _, hread, h4⟩ := bind_ok.mp h3
  obtain ⟨rfl, rfl⟩ := deref_ok.mp hread
  obtain ⟨rd, _, hread, h5⟩ := bind_ok.mp h4
  obtain ⟨hrd, rfl⟩ := deref_ok.mp hread
  obtain ⟨q, _, hq, h6⟩ := bind_ok.mp h5
  obtain ⟨f, _, hread, hpure⟩ := bind_ok.mp hq
  obtain ⟨hf, rfl⟩ := deref_ok.mp hread
  obtain ⟨rfl, rfl⟩ := pure_ok.mp hpure
  obtain ⟨rp, _, hread, h7⟩ := bind_ok.mp h6
  obtain ⟨hrp, rfl⟩ := deref_ok.mp hread
  have dev := dev r d rd f hr hd hrd hf ⟨rp, hrp⟩
  obtain ⟨made, v, hmade, h8⟩ := bind_ok.mp h7
  obtain ⟨marked, carries, vic, record⟩ := fuseIAlloc_marks hs dev hmade
  cases made with
  | none =>
    obtain ⟨-, rfl⟩ := pure_ok.mp h8
    exact ⟨marked, carries⟩
  | some k =>
    obtain ⟨bound, x, hx, ffs, -⟩ := record k rfl
    obtain ⟨ino, y, hnew, h9⟩ := bind_ok.mp h8
    refine marks_then hs (marks_then hs ⟨marked, carries⟩ fun hv =>
      made_marks hv (by rw [vic]; exact hf) dev bound ⟨x, hx, ffs⟩ hnew) ?_
    exact moves_use h9 (moves_bind (outside_modBase (outside_files outside_marks) _ _) fun _ => moves_pure _)

theorem openCreates_marks {p : Pno} {flags mode : ℕ} {s t : Sys (FuseData B)} {ready : Bool}
    (home : ¬ Foreign p s) (run : openCreates h p flags mode s = .ok (ready, t)) : Marks s t := by
  intro hs
  obtain ⟨n, _, hread, h1⟩ := bind_ok.mp run
  obtain ⟨rfl, rfl⟩ := read_ok.mp hread
  obtain ⟨o, _, hino, h2⟩ := bind_ok.mp h1
  obtain ⟨r, hr, hd, rfl⟩ := inoOf_ok.mp hino
  obtain ⟨d, _, hread, h3⟩ := bind_ok.mp h2
  obtain ⟨rfl, rfl⟩ := deref_ok.mp hread
  obtain ⟨rd, _, hread, h4⟩ := bind_ok.mp h3
  obtain ⟨hrd, rfl⟩ := deref_ok.mp hread
  obtain ⟨f, _, hread, h5⟩ := bind_ok.mp h4
  obtain ⟨hf, rfl⟩ := deref_ok.mp hread
  obtain ⟨inum, v, hinum, h6⟩ := bind_ok.mp h5
  have alloc := fuseInumAlloc_marks _ _ _ hinum hs
  have off := fuseInumAlloc_driver _ _ _ hinum
  have finode : v.drv.finode = s.drv.finode := by
    simp only [fuseInumAlloc, bind_ok, read_ok, write_ok, pure_ok] at hinum
    obtain ⟨_, _, ⟨-, rfl⟩, _, _, rfl, -, rfl⟩ := hinum
    rfl
  obtain ⟨_, w, hcreate, h7⟩ := bind_ok.mp h6
  have create : Marked w ∧ Carries v w := by
    refine fuseCreate_marks alloc.1 (fun r' d' i g hr' hd' hi hg hk => ?_) hcreate
    rw [off.nc] at hr'
    obtain rfl := Option.some.inj (hr.symm.trans hr')
    obtain rfl := Option.some.inj (hd.symm.trans hd')
    rw [off.ic] at hi hg
    obtain rfl := Option.some.inj (hrd.symm.trans hi)
    obtain rfl := Option.some.inj (hf.symm.trans hg)
    obtain ⟨k, hk⟩ := hk
    rw [finode] at hk
    change f.dev = deviceOf f.priv
    by_contra hne
    exact home ⟨rd, k, f, ⟨r, d, hr, hd, hrd, hk, hf⟩, fun heq =>
      hne (heq.trans (hs.device d rd f hrd hf).1)⟩
  refine marks_then hs (marks_then hs alloc fun _ => create) (moves_use h7 ?_)
  refine moves_bind (p2fi_moves p) fun k => moves_bind (path_marks _ _) fun path =>
    modFinode_marks (fun _ => rfl) (fun _ => rfl) fun fino => ?_
  cases path with
  | none => exact moves_pure _
  | some path =>
    refine moves_bind (moves_when fun _ => ?_) fun _ => moves_pure _
    exact moves_bind (nonNull_moves _) fun tag => moves_when fun _ =>
      moves_bind (backendCall_marks _ _) fun _ => moves_pure _

/-- The end of `fuse_inop_open`: the file info goes to the record after the backend was asked. -/
theorem openEnd_marks (k : FinoId) (flags : ℕ) (fi : FiId) : Moves Marks (do
    let fino ← finodeAt k
    let err ← backendCall h fino.ops (.open_ fino.path flags fi)
    setFinode k { fino with file := some fi }
    return err : Fuse B ℤ) := by
  intro s err t run
  obtain ⟨fino, _, hread, h1⟩ := bind_ok.mp run
  obtain ⟨hf, rfl⟩ := deref_ok.mp hread
  obtain ⟨err', v, hcall, h2⟩ := bind_ok.mp h1
  obtain ⟨_, w, hset, h3⟩ := bind_ok.mp h2
  obtain ⟨-, rfl⟩ := pure_ok.mp h3
  refine IsTrans.trans s v w (backendCall_marks _ _ _ _ _ hcall)
    (setFinode_marks (r := fino) ?_ hset rfl rfl)
  simp only [backendCall, nonNull, bind_ok, deref_ok, read_ok, write_ok, pure_ok] at hcall
  obtain ⟨_, _, ⟨-, rfl⟩, _, _, ⟨-, rfl⟩, _, _, rfl, -, rfl⟩ := hcall
  exact hf

/-- open, where it makes no file, or makes it in a file system whose record holds the device
number. -/
theorem fuseInopOpen_marks {p : Pno} {flags mode : ℕ} {s t : Sys (FuseData B)} {err : ℤ}
    (home : ¬ (Vacant p s ∧ Foreign p s)) (run : fuseInopOpen h p flags mode s = .ok (err, t)) :
    Marks s t := by
  obtain ⟨got, v, hv, h1⟩ := bind_ok.mp run
  have kv := malloc_moves scratch_marks _ _ _ hv
  obtain ⟨ino, _, hino, h2⟩ := bind_ok.mp h1
  obtain ⟨r, hr, hd, rfl⟩ := inoOf_ok.mp hino
  obtain ⟨ready, w, hready, h3⟩ := bind_ok.mp h2
  have kw : Marks v w := by
    split at hready
    · rename_i hnone
      refine openCreates_marks (fun foreign => home ⟨⟨r, ?_, hd.trans hnone⟩, ?_⟩) hready
      · cases hv
        exact hr
      · cases hv
        exact foreign
    · exact openExisting_marks p _ _ _ hready
  refine IsTrans.trans s w t (IsTrans.trans s v w kv kw) (moves_use h3 ?_)
  exact moves_ite (fun _ => moves_pure _) fun _ => moves_bind (moves_check _ _) fun _ =>
    moves_bind (moves_read _) fun fi =>
    moves_bind (drv_other (fun _ => rfl) (fun _ => rfl) (fun _ => rfl) fun _ => rfl) fun _ =>
    moves_bind (p2fi_moves p) fun k => openEnd_marks k flags fi

end Making

section Mounting

theorem lookup_marks (i : InoId) (p : Pno) (o : Option InoId) (intnt : Option Intent)
    (path : Option Bytes) : Moves Marks ((fuseEnv h).ops.lookup i p o intnt path) :=
  fuseInopLookup_marks p o

theorem mountInitError_marks (k : FinoId) (fs : Option FsId) (rooti : Option InoId)
    (rootpb : Option PbId) (err : ℤ) : Moves Marks (mountInitError h k fs rooti rootpb err) := by
  refine moves_bind ?_ fun _ => moves_bind ?_ fun _ => moves_pure _
  · cases rootpb with
    | some b => exact pbGone_moves (outside_files outside_marks) (iRele_marks fuseInopGone_marks) b
    | none =>
      cases rooti with
      | some i => exact iRele_marks fuseInopGone_marks i
      | none => exact moves_pure _
  · cases fs with
    | some f => exact fsRele_marks fuseInopGone_marks fuseFsopGone_marks f
    | none => exact fuseIDestory_marks k

/-- What is left of a mount once it has its inode. -/
theorem mountRoot_marks (k : FinoId) (f : FsId) (rooti : InoId) (flags : ℕ) (tocover : Option Pno) :
    Moves Marks (do
      match ← sysioPbNew (fuseEnv h) ⟨[], 0⟩ none (some rooti) with
      | none => mountInitError h k (some f) (some rooti) none (-ENOMEM)
      | some rootpb => do
        let (err, mnt) ← sysioDoMount (fuseEnv h) f rootpb flags tocover
        if err ≠ 0 then
          mountInitError h k (some f) (some rooti) (some rootpb) err
        else
          return (0, mnt) : Fuse B (ℤ × Option MntId)) := by
  have iRele := iRele_marks (e := fuseEnv h) fuseInopGone_marks
  refine moves_bind (pbNew_moves (outside_files outside_marks) iRele _ _ _) fun rootpb => ?_
  cases rootpb with
  | none => exact mountInitError_marks _ _ _ _ _
  | some rootpb =>
    exact moves_bind (doMount_moves (outside_files outside_marks) iRele lookup_marks _ _ _ _) fun res => moves_ite
      (fun _ => mountInitError_marks _ _ _ _ _) fun _ => moves_pure _

/-- The device number of a mount, and the state it leaves behind. -/
theorem sysioDevAlloc_marks {s t : Sys (FuseData B)} {l : FfsId → Option (List FinoId)} {dev : ℕ}
    (hs : Marked s)
    (run : sysioDevAlloc { s with drv.ffs := l, drv.nextFfs := s.drv.nextFfs + 1 } = .ok (dev, t)) :
    Marked t ∧ Carries s t ∧ t.ic = s.ic ∧ t.drv.nextFfs = s.drv.nextFfs + 1 ∧
      dev = deviceOf s.drv.nextFfs := by
  obtain ⟨c, _, hread, h1⟩ := bind_ok.mp run
  obtain ⟨rfl, rfl⟩ := read_ok.mp hread
  obtain ⟨_, _, hcheck, h2⟩ := bind_ok.mp h1
  obtain ⟨hne, rfl⟩ := check_ok.mp hcheck
  obtain ⟨_, _, hwrite, h3⟩ := bind_ok.mp h2
  obtain rfl := write_ok.mp hwrite
  obtain ⟨rfl, rfl⟩ := pure_ok.mp h3
  obtain ⟨hc, hle⟩ := hs.counter
  have hne : s.drv.cMajor ≠ 0 := of_decide_eq_true hne
  -- the counter is back at zero behind number 255
  have hlt : s.drv.nextFfs < 128 := by omega
  refine ⟨?_, ⟨le_refl _, le_refl _, Nat.le_succ _, fun f r hr _ => ⟨r, hr, rfl, rfl⟩,
    fun k r hr _ => ⟨r, hr, rfl⟩⟩, rfl, rfl, ?_⟩
  · constructor
    case counter =>
      constructor
      · change (s.drv.cMajor + 1) % 256 = (128 + (s.drv.nextFfs + 1)) % 256
        omega
      · change s.drv.nextFfs + 1 ≤ 128
        omega
    case filesys =>
      intro f r hr
      obtain ⟨hf, hp⟩ := hs.filesys f r hr
      exact ⟨hf, Nat.lt_succ_of_lt hp⟩
    case apart => exact hs.apart
    case inode => exact hs.inode
    case device => exact hs.device
    case finode => exact hs.finode
  · change s.drv.cMajor * 256 = (128 + s.drv.nextFfs) * 256
    omega

theorem sysioFuseMountInit_marks (flags : ℕ) (fstype : Bytes) (tocover : Option Pno)
    (opers : Option ℕ) : Moves Marks (sysioFuseMountInit h flags fstype tocover opers) := by
  intro s res t run hs
  obtain ⟨mode, _, hread, h1⟩ := bind_ok.mp run
  obtain ⟨-, rfl⟩ := read_ok.mp hread
  obtain ⟨ok, v, hv, h2⟩ := bind_ok.mp h1
  have kv := malloc_moves scratch_marks _ _ _ hv hs
  split at h2
  · obtain ⟨-, rfl⟩ := pure_ok.mp h2
    exact kv
  obtain ⟨q, _, hread, h3⟩ := bind_ok.mp h2
  obtain ⟨rfl, rfl⟩ := read_ok.mp hread
  obtain ⟨_, _, hwrite, h4⟩ := bind_ok.mp h3
  obtain rfl := write_ok.mp hwrite
  obtain ⟨dev, w, hdev, h5⟩ := bind_ok.mp h4
  obtain ⟨marked, carries, wic, next, rfl⟩ := sysioDevAlloc_marks kv.1 hdev
  have kw := marks_then hs kv fun _ => ⟨marked, carries⟩
  obtain ⟨inum, x, hinum, h6⟩ := bind_ok.mp h5
  have kx := marks_then hs kw (fuseInumAlloc_marks _ _ _ hinum)
  have xic := (fuseInumAlloc_driver _ _ _ hinum).ic
  obtain ⟨made, y, hmade, h7⟩ := bind_ok.mp h6
  obtain ⟨marked, carries, yic, record⟩ := fuseDirectoryNew_marks kx.1 rfl hmade
  have ky := marks_then hs kx fun _ => ⟨marked, carries⟩
  cases made with
  | none =>
    obtain ⟨-, rfl⟩ := pure_ok.mp h7
    exact ky
  | some k =>
    obtain ⟨bound, r, hr, ffs, dev⟩ := record k rfl
    obtain ⟨r', _, hread, h8⟩ := bind_ok.mp h7
    obtain ⟨hr', rfl⟩ := deref_ok.mp hread
    obtain rfl := Option.some.inj (hr.symm.trans hr')
    obtain ⟨_, z, hset, h9⟩ := bind_ok.mp h8
    have set := setFinode_marks hr hset rfl rfl ky.1
    have kz := marks_then hs ky fun _ => set
    have zic : z.ic = v.ic := by
      obtain rfl := write_ok.mp hset
      exact yic.trans (xic.trans wic)
    have zrecord : ∃ r', z.drv.finode k = some r' ∧ r'.ffs = v.drv.nextFfs := by
      obtain rfl := write_ok.mp hset
      exact ⟨_, Function.update_self .., ffs⟩
    have znext : v.drv.nextFfs < z.drv.nextFfs := by
      have kwx := (fuseInumAlloc_marks _ _ _ hinum kw.1).2.nextFfs
      have kxz := carries.nextFfs.trans set.2.nextFfs
      omega
    have zbound := lt_of_lt_of_le bound set.2.nextFino
    obtain ⟨fs, u, hfs, h10⟩ := bind_ok.mp h9
    obtain ⟨marked, carries, udrv, made⟩ := sysioFsNew_marks kz.1 znext (fun f r hf => by
      rw [zic] at hf
      exact Nat.ne_of_lt (kv.1.filesys f r hf).2) hfs
    have ku := marks_then hs kz fun _ => ⟨marked, carries⟩
    cases fs with
    | none => exact marks_then hs ku (moves_use h10 (mountInitError_marks _ _ _ _ _))
    | some f =>
      obtain ⟨-, g, hg, hpriv⟩ := made f rfl
      obtain ⟨rooti, i, hnew, h11⟩ := bind_ok.mp h10
      have ki := marks_then hs ku fun _ => made_marks marked hg (by rw [dev, hpriv]; rfl)
        (by rw [udrv]; exact zbound) (by rw [udrv, hpriv]; exact zrecord) hnew
      refine marks_then hs ki (moves_use h11 ?_)
      cases rooti with
      | none => exact mountInitError_marks _ _ _ _ _
      | some rooti => exact mountRoot_marks _ _ _ _ _

theorem fsswLookup_marks (fstype : Bytes) (mount : FsswopMount (FuseData B))
    (hmount : fsswLookup h fstype = some mount) (source : Bytes) (flags : ℕ) (tocover : Option Pno) :
    Moves Marks (mount source flags fstype tocover) :=
  fsswLookup_moves sysioFuseMountInit_marks fstype mount hmount source flags tocover

theorem sysioMountRoot_marks (source fstype : Bytes) (flags : ℕ) :
    Moves Marks (sysioMountRoot (fsswLookup h fstype) source fstype flags) :=
  sysioMountRoot_moves fsswLookup_marks
    (fun _ _ => outside_mounts (outside_files outside_marks) _)
    (outside_pRef (outside_files outside_marks)) source fstype flags

end Mounting

section Calls

/-- Operations that stop where something would be made away from home. -/
noncomputable def homeOps (h : Host B) : InodeOps (FuseData B) :=
  { fuseIOps h with
    mkdir := fun _ p mode => barred .abort (ForeignDir p) (fuseInopMkdir h p mode)
    open_ := fun _ p flags mode =>
      barred .abort (fun s => Vacant p s ∧ Foreign p s) (fuseInopOpen h p flags mode) }

theorem homeOps_same : SameAtHome h (homeOps h) where
  mkdir _ _ _ _ := barred_out
  open_ _ _ _ _ _ home := if_neg home
  rest := rfl

theorem barred_marks {α : Type} {x : Fault} {c : Sys (FuseData B) → Prop} {m : Fuse B α}
    (hm : ∀ s a t, ¬ c s → m s = .ok (a, t) → Marks s t) : Moves Marks (barred x c m) := by
  intro s a t run
  by_cases hc : c s
  · rw [barred_in hc] at run
    cases run
  · rw [barred_out hc] at run
    exact hm s a t hc run

theorem home_acts : ActMoves Marks { fuseEnv h with ops := homeOps h } where
  scratch := scratch_marks
  files s t k := outside_marks s t k.ic k.drv
  bind b _ := outside_modBase (outside_files outside_marks) b _
  iRef := iRef_marks
  iRele := iRele_marks fuseInopGone_marks
  iGone := iGone_marks fuseInopGone_marks
  lookup _ p o _ _ := fuseInopLookup_marks p o
  getattr _ p _ := fuseInopGetattr_marks p
  setattr _ _ _ _ := noReturn_marks
  mkdir _ _ _ := barred_marks fun _ _ _ home run => fuseInopMkdir_marks home run
  rmdir _ p := fuseInopRmdir_marks p
  symlink _ _ _ := noReturn_marks
  readlink _ _ _ := moves_bind noReturn_marks fun _ => moves_pure _
  open_ _ _ _ _ := barred_marks fun _ _ _ home run => fuseInopOpen_marks home run
  close _ p := onFile_marks p _
  link _ _ _ := noReturn_marks
  unlink _ p := fuseInopUnlink_marks p
  rename _ _ _ := noReturn_marks
  read _ n off p := transfer_marks p fun path fi => .read path n off fi
  write _ n off p := transfer_marks p fun path fi => .write path n off fi
  post _ _ _ := moves_fault _
  iodone _ _ := moves_bind noReturn_marks fun _ => moves_pure _
  sync _ p := onFile_marks p _
  datasync _ p := moves_bind (nonNull_moves p) fun q => onFile_marks q _
  mknod _ _ _ _ := noReturn_marks
  ftruncate _ p _ := onFile_marks p _

/-- A call that makes nothing away from home keeps everything marked. -/
theorem step_marks {s t : Sys (FuseData B)} {call : Call} {res : Ret} (home : MadeAtHome h s call)
    (run : step (fuseLibrary h) call s = .ok (res, t)) : Marks s t := by
  rw [← home _ homeOps_same] at run
  exact step_moves (fun s t ic drv _ => outside_marks s t ic drv) home_acts fsswLookup_marks
    (fsRele_marks fuseInopGone_marks fuseFsopGone_marks) call _ _ _ run

theorem marked_start (b : B) : Marked (initState (initData b)) where
  counter := by
    constructor
    · rfl
    · exact Nat.zero_le _
  filesys _ _ hr := by cases hr
  apart _ _ _ _ hr := by cases hr
  inode _ _ hr := by cases hr
  device _ _ _ hr := by cases hr
  finode _ _ hr := by cases hr

theorem reached_marked {b : B} {t : Sys (FuseData B)} (run : FuseReached h b (MadeAtHome h) t) :
    Marked t := by
  obtain ⟨s₀, boot, run⟩ := run
  refine run.invariant (I := Marked) (fun s call res u hs home last => ?_) ?_
  · exact (step_marks home last hs).1
  · exact (sysioMountRoot_marks [] fuseTypeName 2 _ _ _ boot (marked_start b)).1

end Calls

/-- In `u` a mount that was begun in `s` asks for a device number. -/
def Asking (h : Host B) (s u : Sys (FuseData B)) : Prop :=
  ∃ parent path flags intnt res v w,
    sysioNamei (fuseEnv h) parent path flags intnt s = .ok (res, v) ∧
    malloc (coreEnv h) v = .ok (true, w) ∧
    u = { w with
      drv.ffs := Function.update w.drv.ffs w.drv.nextFfs (some [])
      drv.nextFfs := w.drv.nextFfs + 1 }

/-- In every run that makes files and directories only where the file system record happens to hold
the device number of the directory: a mount gets its number unless 128 were tried before it, and
inodes of mounted file systems have the same device number if and only if they are in the same file
system. -/
theorem device_identity {b : B} {t : Sys (FuseData B)} (run : FuseReached h b (MadeAtHome h) t) :
    (∀ u, Asking h t u → ((sysioDevAlloc.value u).isSome = true ↔ u.drv.nextFfs ≤ 128)) ∧
    ∀ i j ri rj fi fj, t.ic.inode i = some ri → t.ic.inode j = some rj →
      t.ic.filesys ri.fs = some fi → t.ic.filesys rj.fs = some fj →
      (ri.stbuf.dev = rj.stbuf.dev ↔ ri.fs = rj.fs) := by
  have marked := reached_marked run
  constructor
  · rintro u ⟨parent, path, flags, intnt, res, v, w, walk, alloc, rfl⟩
    have namei := sysioNamei_moves (walk_moves (outside_files outside_marks)
      (iRele_marks (e := fuseEnv h) fuseInopGone_marks) lookup_marks
      fun _ _ _ => moves_bind noReturn_marks fun _ => moves_pure _) parent path flags intnt
    obtain ⟨hv, -⟩ := namei _ _ _ walk marked
    obtain ⟨hw, -⟩ := malloc_moves scratch_marks _ _ _ alloc hv
    obtain ⟨hc, hle⟩ := hw.counter
    have value : (sysioDevAlloc.value { w with
        drv.ffs := Function.update w.drv.ffs w.drv.nextFfs (some [])
        drv.nextFfs := w.drv.nextFfs + 1 }).isSome = decide (w.drv.cMajor ≠ 0) := by
      by_cases hz : w.drv.cMajor = 0
      · simp [sysioDevAlloc, Exec.value, Exec.read, assert, Exec.check, hz, bind, Exec.andThen]
      · simp [sysioDevAlloc, Exec.value, Exec.read, assert, Exec.check, hz, bind, Exec.andThen,
          Exec.write, pure, Exec.ret]
    rw [value, decide_eq_true_iff]
    change _ ↔ w.drv.nextFfs + 1 ≤ 128
    omega
  · intro i j ri rj fi fj hi hj hfi hfj
    rw [(marked.device i ri fi hi hfi).1, (marked.device j rj fj hj hfj).1]
    constructor
    · intro heq
      refine marked.apart _ _ _ _ hfi hfj ?_
      unfold deviceOf at heq
      omega
    · intro hfs
      rw [hfs] at hfi
      rw [Option.some.inj (hfi.symm.trans hfj)]

section Runs

variable {s : Sys (FuseData B)}

theorem SameAtHome.walk {o : InodeOps (FuseData B)} (same : SameAtHome h o) :
    SameWalk (fuseEnv h) o :=
  ⟨by rw [same.rest]; rfl, by rw [same.rest]; rfl, fun _ _ _ _ _ => by rw [same.rest]; rfl⟩

theorem mount_home (source target fstype : Bytes) (flags : ℕ) :
    MadeAtHome h s (.mount source target fstype flags) := by
  intro o same
  refine bind_same rfl fun root _ _ => bind_same ?_ fun _ _ _ => rfl
  unfold sysioMount
  cases (fuseLibrary h).fssw fstype with
  | none => rfl
  | some mount => exact bind_same (congrFun (sysioNamei_same same.walk _ _ _ _) _) fun _ _ _ => rfl

theorem mkdir_home {path : Bytes} {mode : ℕ}
    (home : ∀ p t, resolve (fuseEnv h) path ND_NEGOK (some ⟨INT_CREAT⟩) s = .ok (some p, t) →
      ¬ ForeignDir p t) : MadeAtHome h s (.mkdir path mode) := by
  intro o same
  refine onMount_same same.walk fun p t found => bind_same rfl fun umask t₀ humask =>
    bind_same (bind_same rfl fun ino t₁ hino => ite_same (fun _ => rfl) fun hnone =>
    bind_same rfl fun n t₂ hn => bind_same rfl fun err v hperm => ite_same (fun _ => rfl) fun herr =>
    bind_same rfl fun d v₁ hd => bind_same rfl fun _ v₂ has => bind_same rfl fun d v₃ hsome => ?_)
    fun _ _ _ => rfl
  obtain ⟨-, rfl⟩ := read_ok.mp humask
  obtain rfl := inoOf_moves (R := Eq) p _ _ _ hino
  obtain ⟨rfl, rfl⟩ := read_ok.mp hn
  obtain rfl := inoOf_moves (R := Eq) _ _ _ _ hd
  obtain ⟨-, rfl⟩ := check_ok.mp has
  obtain ⟨-, rfl⟩ := deref_ok.mp hsome
  have scratch : Scratch t v := sysioPermitted_moves (fun _ _ k => k) _ _ _ _ _ hperm
  refine same.mkdir _ _ _ _ fun foreign => home p t found ?_
  unfold ForeignDir Under at foreign ⊢
  rw [scratch.nc, scratch.ic, scratch.drv] at foreign
  exact foreign

/-- Whether something would be made away from home in the directory of `p`. -/
def foreignDir (p : Pno) (s : Sys (FuseData B)) : Bool :=
  (((s.nc.base (s.nc.pnode (s.nc.pnode p).parent).base).bind (·.ino)).bind s.ic.inode).any fun i =>
    (s.drv.finode i.priv).any fun k => (s.ic.filesys i.fs).any fun f =>
      k.st.isDir && f.dev != i.stbuf.dev

theorem ForeignDir.decided {p : Pno} (foreign : ForeignDir p s) : foreignDir p s = true := by
  obtain ⟨i, k, f, ⟨r, d, hr, hd, hi, hk, hf⟩, hdir, hne⟩ := foreign
  simp [foreignDir, hr, hd, hi, hk, hf, hdir, hne]

/-- Memory holds the number of the second device before it is used. -/
def secondHost : Host Unit := { calmHost with junk := fun _ => 129 * 256 }

/-- A file system of type "bb" goes on "/b". -/
def secondMount : Call := .mount [] [47, 98] [98, 98] 2

/-- mkdir of "bb:/b/d". -/
def secondMkdir : Call := .mkdir [98, 98, 58, 47, 98, 47, 100] 0o755

def booted : Sys (FuseData Unit) := (sysioAllStartup secondHost).final (initState (initData ()))

def secondMounted : Sys (FuseData Unit) :=
  (step (fuseLibrary secondHost) secondMount).final booted

def secondMade : Sys (FuseData Unit) :=
  (step (fuseLibrary secondHost) secondMkdir).final secondMounted

theorem secondMade_reached : FuseReached secondHost () (MadeAtHome secondHost) secondMade := by
  have boot : sysioAllStartup secondHost (initState (initData ())) = .ok (0, booted) :=
    ok_of_value (by decide +kernel)
  have mounted : step (fuseLibrary secondHost) secondMount booted = .ok ((0, 0), secondMounted) :=
    ok_of_value (by decide +kernel)
  have made : step (fuseLibrary secondHost) secondMkdir secondMounted = .ok ((0, 0), secondMade) :=
    ok_of_value (by decide +kernel)
  have mount : Steps (step (fuseLibrary secondHost)) (MadeAtHome secondHost) booted secondMounted :=
    Steps.snoc (.refl booted) (mount_home _ _ _ _) mounted
  refine ⟨booted, boot, mount.snoc (mkdir_home fun p t found foreign => ?_) made⟩
  have atHome : (((resolve (fuseEnv secondHost) [98, 98, 58, 47, 98, 47, 100] ND_NEGOK
      (some ⟨INT_CREAT⟩)).value secondMounted).join.any fun p => !foreignDir p
        ((resolve (fuseEnv secondHost) [98, 98, 58, 47, 98, 47, 100] ND_NEGOK
          (some ⟨INT_CREAT⟩)).final secondMounted)) = true := by decide +kernel
  simp [Exec.value, Exec.final, found, foreign.decided] at atHome

/-- The new directory has the number of the root of its file system, not that of the system root. -/
theorem device_identity_second :
    ∃ r r₁ r₂, secondMade.ic.inode 0 = some r ∧ secondMade.ic.inode 1 = some r₁ ∧
      secondMade.ic.inode 2 = some r₂ ∧ r₁.stbuf.dev = r₂.stbuf.dev ∧ r.stbuf.dev ≠ r₂.stbuf.dev := by
  have inode : ∀ i f, (secondMade.ic.inode i).map (·.fs) = some f →
      ∃ r, secondMade.ic.inode i = some r ∧ r.fs = f := fun _ _ => Option.map_eq_some_iff.mp
  obtain ⟨r, hr, rfs⟩ := inode 0 0 (by decide +kernel)
  obtain ⟨r₁, hr₁, rfs₁⟩ := inode 1 1 (by decide +kernel)
  obtain ⟨r₂, hr₂, rfs₂⟩ := inode 2 1 (by decide +kernel)
  obtain ⟨f, hf⟩ : ∃ f, secondMade.ic.filesys 0 = some f :=
    Option.isSome_iff_exists.mp (by decide +kernel)
  obtain ⟨f₁, hf₁⟩ : ∃ f, secondMade.ic.filesys 1 = some f :=
    Option.isSome_iff_exists.mp (by decide +kernel)
  have identity := (device_identity secondMade_reached).2
  refine ⟨r, r₁, r₂, hr, hr₁, hr₂, ?_, fun same => ?_⟩
  · exact (identity 1 2 r₁ r₂ f₁ f₁ hr₁ hr₂ (rfs₁ ▸ hf₁) (rfs₂ ▸ hf₁)).mpr (rfs₁.trans rfs₂.symm)
  · have := (identity 0 2 r r₂ f f₁ hr hr₂ (rfs ▸ hf) (rfs₂ ▸ hf₁)).mp same
    rw [rfs, rfs₂] at this
    cases this

/-- Memory is zero before it is used: the new directory has no device number at all. -/
theorem directory_without_device : ¬ ∀ t, FuseReached calmHost () (fun _ _ => True) t →
    ∀ i j ri rj fi fj, t.ic.inode i = some ri → t.ic.inode j = some rj →
      t.ic.filesys ri.fs = some fi → t.ic.filesys rj.fs = some fj → ri.fs = rj.fs →
      ri.stbuf.dev = rj.stbuf.dev := by
  intro identity
  have run : runCalls (fuseLibrary calmHost) fuseTypeName [secondMkdir, secondMount]
      (initState (initData ())) = .ok ((), calmRun [secondMkdir, secondMount]) :=
    ok_of_value (by decide +kernel)
  have inode : ∀ i d, ((calmRun [secondMkdir, secondMount]).ic.inode i).map
      (fun r => (r.fs, r.stbuf.dev)) = some d →
      ∃ r, (calmRun [secondMkdir, secondMount]).ic.inode i = some r ∧ (r.fs, r.stbuf.dev) = d :=
    fun _ _ => Option.map_eq_some_iff.mp
  obtain ⟨r₁, hr₁, attrs₁⟩ := inode 1 (1, 129 * 256) (by decide +kernel)
  obtain ⟨r₂, hr₂, attrs₂⟩ := inode 2 (1, 0) (by decide +kernel)
  obtain ⟨f, hf⟩ : ∃ f, (calmRun [secondMkdir, secondMount]).ic.filesys 1 = some f :=
    Option.isSome_iff_exists.mp (by decide +kernel)
  obtain ⟨fs₁, dev₁⟩ := Prod.mk.inj attrs₁
  obtain ⟨fs₂, dev₂⟩ := Prod.mk.inj attrs₂
  have same := identity _ (runCalls_reached run) 1 2 r₁ r₂ f f hr₁ hr₂ (fs₁ ▸ hf) (fs₂ ▸ hf)
    (fs₁.trans fs₂.symm)
  rw [dev₁, dev₂] at same
  cases same

end Runs

end DeviceIdentity
