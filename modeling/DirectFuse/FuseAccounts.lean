import DirectFuse.FuseMoves
import DirectFuse.InodeAccounts

/-! The fuse driver keeps the books of the inodes. The one exception is a `mkdir` that runs out of
memory behind the directory entry: it leaves its new inode with a reference nobody holds. -/
namespace FuseAccounts

open ExecLogic SysioState SysioInode SysioNamei SysioMount SysioFile SysioInterface SysioSystem
open FuseDriver FuseSystem CoreMoves FuseMoves Tally InodeRefs InodeAccounts

variable {B : Type} {h : Host B} {lk : Prop} {due : InoId → ℤ}

theorem driver_keep {α : Type} {m : Fuse B α} (k : Moves DriverOnly m) : Moves (Keep lk) m :=
  k.mono fun _ _ k => Aside.keep ⟨by rw [k.nc], by rw [k.nc], by rw [k.ic], by rw [k.ic],
    by rw [k.ic], by rw [k.ic], by rw [k.ic], by rw [k.ic], by rw [k.ft], by rw [k.ft],
    by rw [k.aio], by rw [k.aio]⟩

theorem driver_books {α : Type} {m : Fuse B α} (k : Moves DriverOnly m) :
    Triple (Books lk due) m fun _ => Books lk due := Keep.triple (driver_keep k)

theorem Books.leak {i : InoId} {s : Sys (FuseData B)} (allowed : lk)
    (hs : Books lk (fun j => due j + one (some i) j) s) : Books lk due s := by
  obtain ⟨tables, leak, -, balance⟩ := hs
  refine ⟨tables, fun j => leak j + if some i = some j then 1 else 0, fun _ => allowed,
    fun j => ?_⟩
  have := balance j
  by_cases hj : i = j <;> simp only [one, hj, Option.some.injEq, if_true, if_false] at this ⊢ <;>
    push_cast <;> omega

theorem gone_driver (i : InoId) : Moves DriverOnly ((coreEnv h).ops.gone i) := fuseInopGone_driver i

/-- A fresh look at the attributes changes no reference. -/
theorem setStbuf_keep {i : InoId} {r : Inode} {st : Stat} {s t : Sys (FuseData B)} {u : Unit}
    (hr : s.ic.inode i = some r)
    (run : (setInode i { r with stbuf := st } : Fuse B Unit) s = .ok (u, t)) : Keep lk s t := by
  intro due hs
  obtain rfl := write_ok.mp run
  refine hs.recount rfl rfl rfl (hs.tables.setInode hr rfl rfl rfl rfl (fun hz => ?_) rfl rfl rfl
    (List.Perm.refl _) rfl rfl rfl rfl) fun j => ?_
  · exact hs.tables.zombie i r hr hz
  · rw [refOf_update (s := s) (i := i) rfl]
    by_cases hj : j = i
    · subst hj
      simp [refOf, hr]
    · simp [hj]

theorem fuseInopLookup_books (p : Pno) (o : Option InoId) :
    Triple (Books lk due) (fuseInopLookup h p o) fun res t =>
      Books lk (fun j => due j + one (if res.2 = o then none else res.2) j) t ∧
        (res.1 ≠ 0 → res.2 = none) := by
  cases o with
  | some i =>
    refine triple_bind (driver_books (i2fi_driver i)) fun k =>
      triple_bind (driver_books (finodeAt_driver k)) fun fino => ?_
    intro s hs res t run
    obtain ⟨r, _, hread, run⟩ := bind_ok.mp run
    obtain ⟨hr, rfl⟩ := deref_ok.mp hread
    obtain ⟨_, v, hset, run⟩ := bind_ok.mp run
    obtain ⟨rfl, rfl⟩ := pure_ok.mp run
    exact ⟨by simpa [one] using setStbuf_keep hr hset due hs, fun hne => absurd rfl hne⟩
  | none =>
    refine triple_bind (Keep.triple (pnodeAt_moves p)) fun n =>
      triple_bind (Keep.triple (inoOf_moves _)) fun d =>
      triple_bind (Keep.triple (nonNull_moves _)) fun d =>
      triple_bind (Keep.triple (inodeAt_moves d)) fun rd =>
      triple_bind (Keep.triple (baseAt_moves _)) fun r =>
      triple_bind (driver_books (direntsAt_driver _)) fun data => ?_
    cases fuseDirectoryProbe data r.name.name with
    | none => exact triple_pure fun s hs => ⟨by simpa [one] using hs, fun _ => rfl⟩
    | some de =>
      refine triple_bind (sysioIFind_books rd.fs de.ino) fun found => ?_
      cases found with
      | some i => exact triple_pure fun s hs => ⟨by simpa using hs.1, fun hne => absurd rfl hne⟩
      | none =>
        refine triple_weaken (triple_bind (driver_books (finodeAt_driver _)) fun fino =>
          triple_bind (sysioINew_books gone_driver _ _ _ _ _) fun made => ?_)
          (fun s hs => by simpa [one] using hs.1) fun _ _ hq => hq
        cases made with
        | none => exact triple_pure fun s hs => ⟨by simpa [one] using hs, fun _ => rfl⟩
        | some i => exact triple_pure fun s hs => ⟨by simpa using hs, fun hne => absurd rfl hne⟩

section Create

/-- The books are straight and the name cache is `nc`. -/
def At (lk : Prop) (nc : NameCache) (due : InoId → ℤ) (s : Sys (FuseData B)) : Prop :=
  Books lk due s ∧ s.nc = nc

theorem driver_at {α : Type} {nc : NameCache} {m : Fuse B α} (k : Moves DriverOnly m) :
    Triple (At lk nc due) m fun _ => At lk nc due :=
  fun s hs a t run => ⟨driver_keep k s a t run due hs.1, (k s a t run).nc.trans hs.2⟩

theorem read_at {α : Type} {nc : NameCache} {m : Fuse B α} (k : Moves Eq m) :
    Triple (At lk nc due) m fun _ => At lk nc due := by
  intro s hs a t run
  rw [← k s a t run]
  exact hs

theorem sysioINew_at {nc : NameCache} (fs : FsId) (fid : ℕ) (stat : Stat) (immunity : Bool)
    (priv : ℕ) : Triple (At lk nc due) (sysioINew (coreEnv h) fs fid stat immunity priv)
      fun o => At lk nc fun j => due j + one o j := by
  intro s hs o t run
  have hnc := (sysioINew_moves off_self gone_off fs fid stat immunity priv s o t run).nc
  exact ⟨sysioINew_books gone_driver _ _ _ _ _ s hs.1 o t run, hnc.trans hs.2⟩

/-- Giving the one reference on an inode to a name that had none. -/
theorem bindName_books {nc : NameCache} {b : PbId} {ino : Option InoId}
    (unbound : ∀ r, nc.base b = some r → r.ino = none) :
    Triple (At lk nc fun j => due j + one ino j)
      (modBase b fun r => { r with ino := ino } : Fuse B Unit) fun _ => Books lk due := by
  intro s hs u t run
  obtain ⟨hs, rfl⟩ := hs
  obtain ⟨r, hr, ht⟩ := modBase_books hs run
  rw [unbound r hr] at ht
  have : (fun j => due j + one ino j + one none j - one ino j) = due := by
    funext j
    simp [one]
  simpa only [this] using ht

theorem pnodeAt_at {α : Type} {nc : NameCache} {p : Pno} {m : Pnode → Fuse B α}
    {Q : α → Sys (FuseData B) → Prop} (hm : Triple (At lk nc due) (m (nc.pnode p)) Q) :
    Triple (At lk nc due) (pnodeAt p >>= m) Q := by
  intro s hs a t run
  obtain ⟨n, _, hread, rest⟩ := bind_ok.mp run
  obtain ⟨rfl, rfl⟩ := read_ok.mp hread
  obtain ⟨hs, rfl⟩ := hs
  exact hm _ ⟨hs, rfl⟩ a t rest

theorem books_pure {α : Type} (a : α) :
    Triple (Books lk due) (pure a : Fuse B α) fun _ => Books lk due := triple_pure fun _ hs => hs

theorem at_pure {α : Type} {nc : NameCache} (a : α) :
    Triple (At lk nc due) (pure a : Fuse B α) fun _ => Books lk due := triple_pure fun _ hs => hs.1

theorem fuseCreate_books {nc : NameCache} (p : Pno) (st : Stat)
    (unbound : ∀ r, nc.base (nc.pnode p).base = some r → r.ino = none) :
    Triple (At lk nc due) (fuseCreate h p st) fun _ => Books lk due := by
  refine pnodeAt_at (triple_bind (read_at (inoOf_moves _)) fun d => triple_bind
    (read_at (assert_moves _)) fun _ => triple_bind (read_at (nonNull_moves _)) fun d =>
    triple_bind (read_at (inodeAt_moves d)) fun rd => triple_bind (driver_at (fs2ffs_driver _))
    fun q => triple_bind (driver_at (finodeAt_driver _)) fun rp =>
    triple_bind (driver_at (fuseIAlloc_driver _ _ _)) fun made => ?_)
  cases made with
  | none => exact at_pure _
  | some k =>
    exact triple_bind (sysioINew_at _ _ _ _ _) fun ino => triple_bind (bindName_books unbound)
      fun _ => books_pure _

theorem openCreates_books {nc : NameCache} (p : Pno) (flags mode : ℕ)
    (unbound : ∀ r, nc.base (nc.pnode p).base = some r → r.ino = none) :
    Triple (At lk nc due) (openCreates h p flags mode) fun _ => Books lk due := by
  refine pnodeAt_at (triple_bind (read_at (inoOf_moves _)) fun d => triple_bind
    (read_at (nonNull_moves _)) fun d => triple_bind (read_at (inodeAt_moves d)) fun rd =>
    triple_bind (read_at (fsAt_moves _)) fun f => triple_bind (driver_at fuseInumAlloc_driver)
    fun inum => triple_bind (fuseCreate_books p _ unbound) fun _ =>
    triple_bind (driver_books (p2fi_driver p)) fun k =>
    triple_bind (driver_books (sysioPbPath_moves scratch_driver _ _)) fun path =>
    triple_bind (driver_books (finodeAt_driver k)) fun fino =>
    triple_bind (driver_books (setFinode_driver _ _)) fun _ => ?_)
  cases path with
  | none => exact books_pure _
  | some path =>
    refine triple_bind (driver_books (moves_when fun _ => ?_)) fun _ => books_pure _
    exact moves_bind (nonNull_moves _) fun tag => moves_when fun _ =>
      moves_bind (backendCall_driver _ _) fun _ => moves_pure _

theorem fuseInopOpen_keep (p : Pno) (flags mode : ℕ) :
    Moves (Keep lk) (fuseInopOpen h p flags mode) := by
  intro s res t run due hs
  obtain ⟨got, s₁, hgot, h1⟩ := bind_ok.mp run
  have hs₁ := driver_keep (malloc_moves scratch_driver) _ _ _ hgot due hs
  obtain ⟨ino, _, hino, h2⟩ := bind_ok.mp h1
  obtain rfl : s₁ = _ := inoOf_moves (R := Eq) p _ _ _ hino
  obtain ⟨ready, v, hv, h3⟩ := bind_ok.mp h2
  have hs₂ : Books lk due v := by
    by_cases hnone : ino = none
    · subst hnone
      exact openCreates_books p flags mode (unbound_of_inoOf hino) s₁ ⟨hs₁, rfl⟩ _ _ hv
    · rw [if_neg hnone] at hv
      exact driver_keep (openExisting_driver p) _ _ _ hv due hs₁
  refine triple_use (P := Books lk due) (Q := fun _ => Books lk due) hs₂ h3 (triple_ite (fun _ => books_pure _) fun _ => triple_bind
    (Keep.triple (moves_check _ _)) fun _ => triple_bind (Keep.triple (moves_read _)) fun fi => ?_)
  exact triple_bind (driver_books drv_driver) fun _ => triple_bind (driver_books (p2fi_driver p))
    fun k => triple_bind (driver_books (finodeAt_driver k)) fun fino =>
    triple_bind (driver_books (backendCall_driver _ _)) fun err =>
    triple_bind (driver_books (setFinode_driver _ _)) fun _ => books_pure _

variable (enough : (∀ n, h.malloc n = true) ∨ lk)

include enough

/-- The path of a name is only missing where leaks are allowed. -/
theorem sysioPbPath_at {nc : NameCache} (b : PbId) (c : UInt8) :
    Triple (At lk nc due) (sysioPbPath (coreEnv h) b c) fun o s =>
      At lk nc due s ∧ (o = none → lk) := by
  intro s hs o t run
  refine ⟨driver_at (sysioPbPath_moves scratch_driver b c) s hs o t run, ?_⟩
  rintro rfl
  rcases enough with all | allowed
  · simp only [sysioPbPath, malloc, bind_ok] at run
    obtain ⟨_, _, -, names, w, -, got, v, hgot, rest⟩ := run
    cases hgot
    simp [coreEnv, all] at rest
  · exact allowed

theorem fuseInopMkdir_books (p : Pno) (mode : ℕ) :
    Moves (fun s t => Unbound p s → Keep lk s t) (fuseInopMkdir h p mode) := by
  intro s res t run unbound due hs
  refine triple_use (P := At lk s.nc due) (Q := fun _ => Books lk due) ⟨hs, rfl⟩ run ?_
  refine pnodeAt_at (triple_bind (read_at (inoOf_moves _)) fun d => triple_bind
    (read_at (nonNull_moves _)) fun d => triple_bind (read_at (inodeAt_moves d)) fun rd =>
    triple_bind (driver_at (finodeAt_driver _)) fun rp => triple_ite (fun _ => at_pure _) fun _ =>
    triple_bind (read_at (fsAt_moves _)) fun f => triple_bind (driver_at fuseInumAlloc_driver)
    fun inum => triple_bind (driver_at (fuseDirectoryNew_driver _ _ _)) fun made => ?_)
  cases made with
  | none => exact at_pure _
  | some k =>
    refine triple_bind (sysioINew_at _ _ _ _ _) fun ino => ?_
    cases ino with
    | none =>
      refine triple_weaken (triple_bind (driver_books (fuseIDestory_driver k)) fun _ =>
        books_pure _) (fun s hs => ?_) fun _ _ hq => hq
      simpa [one] using hs.1
    | some i =>
      refine triple_bind (read_at (baseAt_moves _)) fun r => triple_bind
        (driver_at (fuseDirectoryInsert_driver _ _ _)) fun err => triple_bind
        (read_at (moves_check _ _)) fun _ => triple_bind (sysioPbPath_at enough _ _) fun path => ?_
      cases path with
      | none => exact triple_pure fun s hs => Books.leak (hs.2 rfl) hs.1.1
      | some path =>
        refine triple_weaken (triple_bind (driver_at (finodeAt_driver k)) fun fino => triple_bind
          (driver_at (backendCall_driver _ _)) fun err => triple_bind (read_at (moves_check _ _))
          fun _ => triple_bind (bindName_books unbound) fun _ => books_pure _)
          (fun s hs => hs.1) fun _ _ hq => hq

/-- The fuse driver meets the contract, with leaks if memory may run out. -/
theorem fuseEnv_contract : Contract lk (fuseEnv h) where
  lookup _ p o _ _ _ := fuseInopLookup_books p o
  lookupBases _ p o _ _ := (fuseInopLookup_off p o).mono fun _ _ k => by rw [k.nc]
  gone := gone_driver (h := h)
  fsopGone := fuseFsopGone_driver
  linkNodes _ _ _ := noReturn_driver.mono fun _ _ k => by rw [SamePnode, k.nc]
  renameNodes _ _ _ := noReturn_driver.mono fun _ _ k => by rw [SamePnode, k.nc]
  closeFiles _ p := (onFile_driver p _).mono fun _ _ k => k.ft
  getattr _ p _ := driver_keep (fuseInopGetattr_driver p)
  setattr _ _ _ _ := driver_keep noReturn_driver
  mkdir _ p mode := fuseInopMkdir_books enough p mode
  rmdir _ p := driver_keep (fuseInopRmdir_driver p)
  symlink _ _ _ := driver_keep noReturn_driver
  readlink _ _ _ := driver_keep (moves_bind noReturn_driver fun _ => moves_pure _)
  open_ _ p flags mode := fuseInopOpen_keep p flags mode
  close _ p := driver_keep (onFile_driver p _)
  link _ _ _ := driver_keep noReturn_driver
  unlink _ p := driver_keep (fuseInopUnlink_driver p)
  rename _ _ _ := driver_keep noReturn_driver
  read _ n off p := driver_keep (fuseInopRead_driver n off p)
  write _ n off p := driver_keep (fuseInopWrite_driver n off p)
  post _ _ _ := moves_fault _
  iodone _ _ := driver_keep (moves_bind noReturn_driver fun _ => moves_pure _)
  sync _ p := driver_keep (onFile_driver p _)
  datasync _ p := moves_bind (nonNull_moves p) fun q => driver_keep (onFile_driver q _)
  mknod _ _ _ _ := driver_keep noReturn_driver
  ftruncate _ p _ := driver_keep (onFile_driver p _)

end Create

section Mount

variable (enough : (∀ n, h.malloc n = true) ∨ lk)

include enough

/-- The error exit gives up the reference on the root inode unless a base node took it. -/
theorem mountInitError_books (fino : FinoId) (fs : Option FsId) (rooti : Option InoId)
    (rootpb : Option PbId) (err : ℤ) :
    Triple (Books lk fun j => due j + one (if rootpb.isSome then none else rooti) j)
      (mountInitError h fino fs rooti rootpb err) fun _ => Books lk due := by
  have c := fuseEnv_contract enough
  refine triple_bind (M := fun _ => Books lk due) ?_ fun _ =>
    triple_bind (M := fun _ => Books lk due) ?_ fun _ => books_pure _
  · cases rootpb with
    | some b =>
      refine triple_weaken (Keep.triple (sysioPbGone_keep c.gone b)) (fun s hs => ?_) fun _ _ hq => hq
      simpa [one] using hs
    | none =>
      cases rooti with
      | none => exact triple_pure fun s hs => by simpa [one] using hs
      | some i =>
        refine triple_weaken (iRele_books c.gone i) (fun s hs => hs) fun _ s hq => ?_
        simpa using hq
  · cases fs with
    | some f => exact Keep.triple (fsRele_keep c.gone c.fsopGone f)
    | none => exact driver_books (fuseIDestory_driver fino)

theorem sysioFuseMountInit_keep (flags : ℕ) (fstype : Bytes) (tocover : Option Pno)
    (opers : Option ℕ) : Moves (Keep lk) (sysioFuseMountInit h flags fstype tocover opers) := by
  have c := fuseEnv_contract enough
  intro s res t run due hs
  have dev : Moves DriverOnly (sysioDevAlloc : Fuse B ℕ) :=
    moves_bind (moves_read _) fun _ => moves_bind (assert_moves _) fun _ =>
      moves_bind drv_driver fun _ => moves_pure _
  have error := fun k f rooti rootpb err =>
    @mountInitError_books B h lk due enough k f rooti rootpb err
  refine triple_use (P := Books lk due) (Q := fun _ => Books lk due) hs run ?_
  refine triple_bind (Keep.triple (moves_read _)) fun mode => triple_bind (Keep.triple malloc_keep)
    fun ok => triple_ite (fun _ => books_pure _) fun _ => triple_bind (Keep.triple (moves_read _))
    fun q => triple_bind (driver_books drv_driver) fun _ => triple_bind (driver_books dev) fun dev =>
    triple_bind (driver_books fuseInumAlloc_driver) fun inum =>
    triple_bind (driver_books (fuseDirectoryNew_driver _ _ _)) fun made => ?_
  cases made with
  | none => exact books_pure _
  | some k =>
    refine triple_bind (driver_books (finodeAt_driver k)) fun r =>
      triple_bind (driver_books (setFinode_driver _ _)) fun _ =>
      triple_bind (Keep.triple (sysioFsNew_keep _ _ _)) fun fs => ?_
    cases fs with
    | none => simpa [one] using error k none none none (-ENOMEM)
    | some f =>
      refine triple_bind (sysioINew_books gone_driver _ _ _ _ _) fun rooti => ?_
      cases rooti with
      | none => exact error k (some f) none none (-ENOMEM)
      | some rooti =>
        refine triple_bind (sysioPbNew_books c.gone _ _ _) fun rootpb => ?_
        cases rootpb with
        | none => exact error k (some f) (some rooti) none (-ENOMEM)
        | some rootpb =>
          refine triple_bind (Keep.triple (sysioDoMount_keep c _ _ _ _)) fun res => triple_ite
            (fun _ => error k (some f) (some rooti) (some rootpb) res.1) fun _ => triple_pure
            fun s hs => ?_
          simpa [one] using hs

theorem fsswLookup_contract : MountContract lk (fsswLookup h) := by
  intro fstype mount hmount source flags tocover
  unfold fsswLookup at hmount
  split at hmount
  · obtain rfl := Option.some.inj hmount
    exact sysioFuseMountInit_keep enough _ _ _ _
  · obtain ⟨tag, -, rfl⟩ := Option.map_eq_some_iff.mp hmount
    exact moves_bind (sysioFuseMountInit_keep enough _ _ _ _) fun _ => moves_pure _

end Mount

/-- For any driver that keeps its part of the contract, in every reachable state: the count of a
live inode is the number of its holders, a zombie still has one, the search of a table finds no
zombie, and the counter of inodes is the length of their list. -/
theorem inode_references {D : Type} {lib : Library D} (driver : Contract False lib.env)
    (mount : MountContract False lib.fssw) {fstype : Bytes} {d : D} {ok : Sys D → Call → Prop}
    {s : Sys D} (run : Reached lib fstype d ok s) :
    (∀ i r, s.ic.inode i = some r →
      r.ref = baseHolders s i + fileHolders s i + ioctxHolders s i ∧
      (r.zombie = true → 0 < baseHolders s i + fileHolders s i + ioctxHolders s i)) ∧
    (∀ fs fid i t, (sysioIFind fs fid : Sysio D (Option InoId)) s = .ok (some i, t) →
      ∃ r, s.ic.inode i = some r ∧ r.zombie = false) ∧
    (∀ i, i ∈ s.ic.inodes ↔ s.ic.inode i ≠ none) ∧ s.ic.inodes.Nodup ∧
    s.ic.nInodes = s.ic.inodes.length := by
  obtain ⟨tables, leak, noLeak, balance⟩ := reached_books driver mount run
  have count : ∀ i r, s.ic.inode i = some r → r.ref = holders s i := by
    intro i r hr
    have hi := balance i
    have hleak : leak i = 0 := by
      by_contra hne
      exact noLeak ⟨i, hne⟩
    simp only [refOf, hr, Option.elim_some] at hi
    omega
  refine ⟨fun i r hr => ⟨count i r hr, fun hz => ?_⟩, fun fs fid i t found => ?_, tables.inodes,
    tables.inodesNodup, tables.nInodes⟩
  · have := tables.zombie i r hr hz
    have := count i r hr
    unfold holders at this
    omega
  · obtain ⟨f, _, hread, h1⟩ := bind_ok.mp found
    obtain ⟨hf, rfl⟩ := deref_ok.mp hread
    obtain ⟨o, v, hv, h2⟩ := bind_ok.mp h1
    cases o with
    | none => simp at h2
    | some j =>
      obtain ⟨_, _, -, h3⟩ := bind_ok.mp h2
      obtain ⟨hj, -⟩ := pure_ok.mp h3
      obtain rfl := Option.some.inj hj
      obtain ⟨hmem, -, -⟩ := itblSearch_mem hv
      obtain ⟨n, hn, hz, -⟩ := tables.itbl fs f _ j hf hmem
      exact ⟨n, hn, hz⟩

/-- A directory was made, a file opened in it and its name removed: the file keeps its inode. -/
def unlinkedOpen : List Call :=
  [.unlink ⟨none, none⟩ [98, 98, 58, 47, 98, 47, 102],
    .open_ ⟨none, none⟩ [98, 98, 58, 47, 98, 47, 102] 0o102 0o644,
    .mkdir [98, 98, 58, 47, 98, 47, 100] 0o755, .mount [] [47, 98] [98, 98] 2]

theorem inode_references_unlinkedOpen :
    (∃ i r, (calmRun unlinkedOpen).ic.inode i = some r ∧ r.zombie = true ∧
      r.ref = baseHolders (calmRun unlinkedOpen) i + fileHolders (calmRun unlinkedOpen) i +
        ioctxHolders (calmRun unlinkedOpen) i) := by
  have run : runCalls (fuseLibrary calmHost) fuseTypeName unlinkedOpen (initState (initData ())) =
      .ok ((), calmRun unlinkedOpen) := ok_of_value (by decide +kernel)
  have enough : (∀ n, calmHost.malloc n = true) ∨ False := Or.inl fun _ => rfl
  have accounts := (inode_references (fuseEnv_contract enough)
    (fsswLookup_contract enough) (runCalls_reached run)).1
  have zombie : ((calmRun unlinkedOpen).ic.inode 3).map (fun r => r.zombie) = some true := by
    decide +kernel
  obtain ⟨r, hr, hz⟩ := Option.map_eq_some_iff.mp zombie
  exact ⟨3, r, hr, hz, (accounts 3 r hr).1⟩

end FuseAccounts
