import DirectFuse.CallMoves
import DirectFuse.WalkRules

/-! A rule for the calls of the interface. A call walks to its nodes, acts on them and gives them
back; what a relation and two families of states do over these pieces decides what they do over the
whole call. -/
namespace CallRules

open ExecLogic SysioState SysioInode SysioNamei SysioMount SysioFile SysioInterface SysioSystem
open CoreMoves WalkRules PostMoves CallMoves

variable {D : Type}

/-- Open files may have gone or moved on in their files; the caches and the mounts are the same. -/
structure FilesOnly (s t : Sys D) : Prop where
  nc : t.nc = s.nc
  ic : t.ic = s.ic
  mt : t.mt = s.mt
  file : ∀ f x', t.ft.file f = some x' → ∃ x, s.ft.file f = some x ∧ x'.pno = x.pno ∧ x'.ino = x.ino
  nextFile : t.ft.nextFile = s.ft.nextFile
  umask : t.umask = s.umask
  drv : t.drv = s.drv

theorem filesOnly_of_same {s t : Sys D} (nc : t.nc = s.nc) (ic : t.ic = s.ic) (mt : t.mt = s.mt)
    (file : t.ft.file = s.ft.file) (next : t.ft.nextFile = s.ft.nextFile) (umask : t.umask = s.umask)
    (drv : t.drv = s.drv) : FilesOnly s t :=
  ⟨nc, ic, mt, fun f x hx => ⟨x, by rw [file] at hx; exact hx, rfl, rfl⟩, next, umask, drv⟩

/-- What the calls do besides walking and pruning. -/
structure ActMoves (A : Sys D → Sys D → Prop) (e : Env D) : Prop where
  scratch : ∀ s t, Scratch s t → A s t
  files : ∀ s t, FilesOnly s t → A s t
  bind : ∀ b ino, Moves A (modBase b fun r => { r with ino := ino } : Sysio D Unit)
  iRef : ∀ i, Moves A (iRef i : Sysio D Unit)
  iRele : ∀ i, Moves A (iRele e i)
  iGone : ∀ i, Moves A (iGone e i)
  lookup : ∀ i p o intnt path, Moves A (e.ops.lookup i p o intnt path)
  getattr : ∀ i p o, Moves A (e.ops.getattr i p o)
  setattr : ∀ i p j k, Moves A (e.ops.setattr i p j k)
  mkdir : ∀ i p mode, Moves A (e.ops.mkdir i p mode)
  rmdir : ∀ i p, Moves A (e.ops.rmdir i p)
  symlink : ∀ i p path, Moves A (e.ops.symlink i p path)
  readlink : ∀ i p n, Moves A (e.ops.readlink i p n)
  open_ : ∀ i p flags mode, Moves A (e.ops.open_ i p flags mode)
  close : ∀ i p, Moves A (e.ops.close i p)
  link : ∀ i p q, Moves A (e.ops.link i p q)
  unlink : ∀ i p, Moves A (e.ops.unlink i p)
  rename : ∀ i p q, Moves A (e.ops.rename i p q)
  read : ∀ i n off p, Moves A (e.ops.read i n off p)
  write : ∀ i n off p, Moves A (e.ops.write i n off p)
  post : ∀ i p c, Moves A (e.ops.post i p c)
  iodone : ∀ i c, Moves A (e.ops.iodone i c)
  sync : ∀ i p, Moves A (e.ops.sync i p)
  datasync : ∀ i p, Moves A (e.ops.datasync i p)
  mknod : ∀ i p mode dev, Moves A (e.ops.mknod i p mode dev)
  ftruncate : ∀ i p size, Moves A (e.ops.ftruncate i p size)

/-- Two relations over the same pieces. -/
theorem ActMoves.both {A C R : Sys D → Sys D → Prop} {e : Env D} (a : ActMoves A e)
    (both : ∀ s t, A s t → C s t → R s t) (c : ActMoves C e) : ActMoves R e := by
  have meet : ∀ {α : Type} {m : Sysio D α}, Moves A m → Moves C m → Moves R m :=
    fun ha hc s x t run => both s t (ha s x t run) (hc s x t run)
  constructor
  case scratch => exact fun s t k => both s t (a.scratch s t k) (c.scratch s t k)
  case files => exact fun s t k => both s t (a.files s t k) (c.files s t k)
  case bind => exact fun b ino => meet (a.bind b ino) (c.bind b ino)
  case iRef => exact fun i => meet (a.iRef i) (c.iRef i)
  case iRele => exact fun i => meet (a.iRele i) (c.iRele i)
  case iGone => exact fun i => meet (a.iGone i) (c.iGone i)
  case lookup =>
    exact fun i p o intnt path => meet (a.lookup i p o intnt path) (c.lookup i p o intnt path)
  case getattr => exact fun i p o => meet (a.getattr i p o) (c.getattr i p o)
  case setattr => exact fun i p j k => meet (a.setattr i p j k) (c.setattr i p j k)
  case mkdir => exact fun i p mode => meet (a.mkdir i p mode) (c.mkdir i p mode)
  case rmdir => exact fun i p => meet (a.rmdir i p) (c.rmdir i p)
  case symlink => exact fun i p path => meet (a.symlink i p path) (c.symlink i p path)
  case readlink => exact fun i p n => meet (a.readlink i p n) (c.readlink i p n)
  case open_ => exact fun i p flags mode => meet (a.open_ i p flags mode) (c.open_ i p flags mode)
  case close => exact fun i p => meet (a.close i p) (c.close i p)
  case link => exact fun i p q => meet (a.link i p q) (c.link i p q)
  case unlink => exact fun i p => meet (a.unlink i p) (c.unlink i p)
  case rename => exact fun i p q => meet (a.rename i p q) (c.rename i p q)
  case read => exact fun i n off p => meet (a.read i n off p) (c.read i n off p)
  case write => exact fun i n off p => meet (a.write i n off p) (c.write i n off p)
  case post => exact fun i p cb => meet (a.post i p cb) (c.post i p cb)
  case iodone => exact fun i ctx => meet (a.iodone i ctx) (c.iodone i ctx)
  case sync => exact fun i p => meet (a.sync i p) (c.sync i p)
  case datasync => exact fun i p => meet (a.datasync i p) (c.datasync i p)
  case mknod => exact fun i p mode dev => meet (a.mknod i p mode dev) (c.mknod i p mode dev)
  case ftruncate => exact fun i p size => meet (a.ftruncate i p size) (c.ftruncate i p size)

section Acts

variable {A : Sys D → Sys D → Prop} [IsPreorder (Sys D) A] {e : Env D} (a : ActMoves A e)

include a

theorem sysioPValidate_acts (p : Pno) (intnt : Option Intent) (path : Option Bytes) :
    Moves A (sysioPValidate e p intnt path) := by
  refine moves_bind (pnodeAt_moves p) fun n => moves_bind (baseAt_moves _) fun r =>
    moves_bind (mountAt_moves _) fun m => moves_bind (nonNull_moves _) fun root =>
    moves_bind (pnodeAt_moves _) fun rn => moves_bind (baseAt_moves _) fun rootpb =>
    moves_bind (assert_moves _) fun _ => moves_bind (nonNull_moves _) fun rooti =>
    moves_bind (a.lookup _ _ _ _ _) fun res => moves_bind (baseAt_moves _) fun r' =>
    moves_bind (moves_when fun _ => ?_) fun _ => moves_pure _
  exact moves_bind (ifSome_moves fun i _ => a.iRele i) fun _ => a.bind _ _

omit [IsPreorder (Sys D) A] in
theorem malloc_acts : Moves A (malloc e) := malloc_moves a.scratch

theorem sysioPermitted_acts (p : Pno) (amode : ℕ) : Moves A (sysioPermitted e p amode) :=
  sysioPermitted_moves a.scratch p amode

omit [IsPreorder (Sys D) A] in
theorem setFile_acts {f : FilId} {r r' : File} {s t : Sys D} {u : Unit}
    (hr : s.ft.file f = some r) (run : (setFile f r' : Sysio D Unit) s = .ok (u, t))
    (pno : r'.pno = r.pno) (ino : r'.ino = r.ino) : A s t := by
  obtain rfl := write_ok.mp run
  refine a.files _ _ ⟨rfl, rfl, rfl, fun g x hx => ?_, rfl, rfl, rfl⟩
  have hx : Function.update s.ft.file f (some r') g = some x := hx
  by_cases hg : g = f
  · subst hg
    rw [Function.update_self] at hx
    obtain rfl := Option.some.inj hx
    exact ⟨r, hr, pno, ino⟩
  · rw [Function.update_of_ne hg] at hx
    exact ⟨x, hx, rfl, rfl⟩

theorem sysioFgone_acts (f : FilId) : Moves A (sysioFgone e f) := by
  refine moves_bind (moves_deref _ _) fun r => moves_bind (assert_moves _) fun _ =>
    moves_bind (a.close _ _) fun err => moves_bind (assert_moves _) fun _ =>
    moves_bind (a.iRele _) fun _ => moves_write fun s => a.files _ _ ?_
  refine ⟨rfl, rfl, rfl, fun g x hx => ?_, rfl, rfl, rfl⟩
  have hx : Function.update s.ft.file f none g = some x := hx
  by_cases hg : g = f
  · rw [hg, Function.update_self] at hx
    cases hx
  · rw [Function.update_of_ne hg] at hx
    exact ⟨x, hx, rfl, rfl⟩

theorem fRele_acts (f : FilId) : Moves A (fRele e f) := by
  intro s u t run
  obtain ⟨r, _, hread, h1⟩ := bind_ok.mp run
  obtain ⟨hr, rfl⟩ := deref_ok.mp hread
  obtain ⟨_, _, hc, h2⟩ := bind_ok.mp h1
  obtain ⟨-, rfl⟩ := check_ok.mp hc
  obtain ⟨_, v, hset, h3⟩ := bind_ok.mp h2
  refine IsTrans.trans _ _ _ (setFile_acts a hr hset rfl rfl) ?_
  exact moves_ite (fun _ => sysioFgone_acts a f) (fun _ => moves_pure _) _ _ _ h3

omit [IsPreorder (Sys D) A] in
theorem fRef_acts (f : FilId) : Moves A (fRef f : Sysio D Unit) := by
  intro s u t run
  obtain ⟨r, _, hread, h1⟩ := bind_ok.mp run
  obtain ⟨hr, rfl⟩ := deref_ok.mp hread
  exact setFile_acts a hr h1 rfl rfl

omit [IsPreorder (Sys D) A] in
theorem oftab_acts {g : Sys D → List (Option FilId)} :
    Moves A (Exec.write fun s => { s with ft.oftab := g s } : Sysio D Unit) :=
  moves_write fun _ => a.files _ _ (filesOnly_of_same rfl rfl rfl rfl rfl rfl rfl)

theorem fdGrow_acts (n : ℕ) : Moves A (fdGrow e n) :=
  moves_ite (fun _ => moves_pure _) fun _ => moves_bind (moves_read _) fun _ =>
    moves_ite (fun _ => moves_pure _) fun _ => moves_bind (malloc_acts a) fun _ =>
    moves_ite (fun _ => moves_pure _) fun _ => moves_bind (oftab_acts a) fun _ => moves_pure _

theorem sysioFdClose_acts (fd : ℤ) : Moves A (sysioFdClose e fd) := by
  refine moves_bind (moves_read _) fun found => ?_
  cases found with
  | none => exact moves_pure _
  | some f =>
    exact moves_bind (oftab_acts a) fun _ => moves_bind (fRele_acts a f) fun _ => moves_pure _

theorem sysioFdSet_acts (f : FilId) (fd : ℤ) (force : Bool) :
    Moves A (sysioFdSet e f fd force) :=
  moves_bind (moves_ite (fun _ => moves_bind (moves_read _) fun _ => moves_bind (moves_ite
    (fun _ => fdGrow_acts a _) fun _ => moves_pure _) fun _ => moves_pure _) fun _ => moves_pure _)
    fun _ => moves_ite (fun _ => moves_pure _) fun _ => moves_bind (fdGrow_acts a _) fun _ =>
    moves_ite (fun _ => moves_pure _) fun _ => moves_bind (moves_read _) fun _ =>
    moves_bind (oftab_acts a) fun _ => moves_bind (ifSome_moves fun g _ => fRele_acts a g)
    fun _ => moves_pure _

theorem sysioFdDup_acts (oldfd newfd : ℤ) (force : Bool) :
    Moves A (sysioFdDup e oldfd newfd force) := by
  refine moves_ite (fun _ => moves_pure _) fun _ => moves_bind (moves_read _) fun found => ?_
  cases found with
  | none => exact moves_pure _
  | some f =>
    exact moves_bind (sysioFdSet_acts a f _ _) fun fd =>
      moves_bind (moves_when fun _ => fRef_acts a f) fun _ => moves_pure _

omit [IsPreorder (Sys D) A] in
theorem aio_acts {g : Sys D → AioTable} :
    Moves A (Exec.write fun s => { s with aio := g s } : Sysio D Unit) :=
  moves_write fun _ => a.files _ _ (filesOnly_of_same rfl rfl rfl rfl rfl rfl rfl)

theorem sysioIoctxNew_acts (i : InoId) (wr : Bool) (iov xtv : Option VecId) :
    Moves A (sysioIoctxNew e i wr iov xtv) :=
  moves_bind (malloc_acts a) fun _ => moves_ite (fun _ => moves_pure _) fun _ =>
    moves_bind (a.iRef i) fun _ => moves_bind (moves_read _) fun _ => moves_bind (aio_acts a)
    fun _ => moves_pure _

theorem registerAll_acts (c : IocId) (l : List Callback) : Moves A (registerAll e c l) := by
  induction l with
  | nil => exact moves_pure _
  | cons cb l ih =>
    exact moves_bind (moves_bind (malloc_acts a) fun _ => moves_ite (fun _ => moves_pure _) fun _ =>
      moves_bind (moves_deref _ _) fun _ => moves_bind (aio_acts a) fun _ => moves_pure _) fun _ =>
      moves_ite (fun _ => moves_pure _) fun _ => ih

theorem sysioFcompletio_acts (c : IocId) (f : FilId) : Moves A (sysioFcompletio c f : Sysio D Unit) := by
  refine moves_bind (moves_deref _ _) fun r => moves_ite (fun _ => moves_pure _) fun _ => ?_
  intro s u t run
  obtain ⟨fr, _, hread, h1⟩ := bind_ok.mp run
  obtain ⟨hfr, rfl⟩ := deref_ok.mp hread
  obtain ⟨_, _, hc, h2⟩ := bind_ok.mp h1
  obtain ⟨-, rfl⟩ := check_ok.mp hc
  obtain ⟨_, _, hc, h3⟩ := bind_ok.mp h2
  obtain ⟨-, rfl⟩ := check_ok.mp hc
  exact setFile_acts a hfr h3 rfl rfl

theorem sysioIoctxComplete_acts (c : IocId) : Moves A (sysioIoctxComplete e c) := by
  have callbacks : ∀ l, Moves A (runCallbacks c l : Sysio D Unit) := by
    intro l
    induction l with
    | nil => exact moves_pure _
    | cons cb l ih =>
      refine moves_bind ?_ fun _ => moves_bind (aio_acts a) fun _ => ih
      cases cb with
      | freeIov =>
        exact moves_bind (moves_deref _ _) fun r =>
          moves_bind (ifSome_moves fun _ _ => aio_acts a) fun _ => aio_acts a
      | freeXtv =>
        exact moves_bind (moves_deref _ _) fun r =>
          moves_bind (ifSome_moves fun _ _ => aio_acts a) fun _ => aio_acts a
      | fcompletio f => exact sysioFcompletio_acts a c f
  exact moves_bind (moves_deref _ _) fun r => moves_bind (aio_acts a) fun _ =>
    moves_bind (callbacks _) fun _ => moves_bind (aio_acts a) fun _ =>
    moves_ite (fun _ => moves_pure _) fun _ => moves_bind (a.iRele _) fun _ => aio_acts a

theorem sysioIoctxDone_acts (c : IocId) : Moves A (sysioIoctxDone e c) :=
  moves_bind (moves_deref _ _) fun _ => moves_ite (fun _ => moves_pure _) fun _ =>
    moves_bind (a.iodone _ _) fun _ => moves_ite (fun _ => moves_bind (moves_deref _ _) fun _ =>
    moves_bind (aio_acts a) fun _ => moves_pure _) fun _ => moves_pure _

theorem sysioIoctxWait_acts (c : IocId) (polls : ℕ) : Moves A (sysioIoctxWait e c polls) := by
  induction polls with
  | zero => exact moves_fault _
  | succ polls ih =>
    exact moves_bind (sysioIoctxDone_acts a c) fun _ => moves_ite (fun _ =>
      moves_bind (moves_deref _ _) fun _ => moves_bind (sysioIoctxComplete_acts a c) fun _ =>
      moves_pure _) fun _ => ih

theorem sysioIiox_acts (wr : Bool) (f : FilId) (cc : ℤ) (iov xtv : Option VecId)
    (cbs : List Callback) : Moves A (sysioIiox e wr f cc iov xtv cbs) := by
  refine moves_bind (moves_deref _ _) fun r => moves_ite (fun _ => moves_pure _) fun _ =>
    moves_ite (fun _ => moves_pure _) fun _ => moves_bind (sysioIoctxNew_acts a _ _ _ _) fun made =>
    ?_
  cases made with
  | none => exact moves_pure _
  | some c =>
    exact moves_bind (registerAll_acts a c _) fun _ => moves_bind (moves_ite (fun _ => moves_pure _)
      fun _ => a.post _ _ _) fun _ => moves_ite (fun _ => moves_bind (moves_deref _ _) fun _ =>
      moves_bind (aio_acts a) fun _ => moves_bind (sysioIoctxComplete_acts a c) fun _ =>
      moves_pure _) fun _ => moves_pure _

theorem posts_acts : Posts A e where
  malloc := malloc_acts a
  nextVec _ := moves_write fun _ => a.files _ _ (filesOnly_of_same rfl rfl rfl rfl rfl rfl rfl)
  frees _ := moves_write fun _ => a.files _ _ (filesOnly_of_same rfl rfl rfl rfl rfl rfl rfl)
  iiox := sysioIiox_acts a

theorem detach_acts (p : Pno) : Moves A (detach e p) :=
  moves_bind (pnodeAt_moves p) fun n => moves_bind (inoOf_moves p) fun ino =>
    moves_bind (nonNull_moves _) fun i => moves_bind (a.bind _ _) fun _ => a.iGone i

theorem sysioMkdir_acts (p : Pno) (mode : ℕ) : Moves A (sysioMkdir e p mode) :=
  moves_bind (inoOf_moves p) fun _ => moves_ite (fun _ => moves_pure _) fun _ =>
    moves_bind (pnodeAt_moves p) fun n => moves_bind (sysioPermitted_acts a _ _) fun _ =>
    moves_ite (fun _ => moves_pure _) fun _ => moves_bind (inoOf_moves _) fun _ =>
    moves_bind (assert_moves _) fun _ => moves_bind (nonNull_moves _) fun d => a.mkdir _ _ _

theorem interfaceLink_acts (w : PathMoves A e) (oldpath newpath : Bytes) :
    Moves A (interfaceLink e oldpath newpath) := by
  refine moves_bind (onPath_moves w (fun old => ?_) _ _ _) fun err => moves_pure _
  refine moves_bind (inoOf_moves old) fun ino => moves_bind (nonNull_moves _) fun i =>
    moves_bind (inodeAt_moves i) fun r => moves_ite (fun _ => moves_pure _) fun _ =>
    onPath_moves w (fun new => ?_) _ _ _
  exact moves_bind (inoOf_moves new) fun inn => moves_ite (fun _ => moves_pure _) fun _ =>
    moves_bind (pnodeAt_moves old) fun no => moves_bind (pnodeAt_moves new) fun nn =>
    moves_bind (mountAt_moves _) fun mo => moves_bind (mountAt_moves _) fun mn =>
    moves_ite (fun _ => moves_pure _) fun _ => moves_bind (parentIno_moves old) fun d =>
    moves_bind (a.link _ _ _) fun _ => moves_ite (fun _ => moves_pure _) fun _ =>
    moves_bind (inoOf_moves old) fun io => moves_bind (inoOf_moves new) fun inn =>
    moves_bind (assert_moves _) fun _ => moves_bind (nonNull_moves _) fun i =>
    moves_bind (a.bind _ _) fun _ => moves_bind (a.iRef i) fun _ => moves_pure _

theorem renameNodes_acts (prune : ∀ p, Moves A (sysioPPrune e p)) (old new : Pno) :
    Moves A (renameNodes e old new) := by
  have replaces : ∀ io inn, Moves A (renameReplaces io inn : Sysio D ℤ) := by
    intro io inn
    cases inn with
    | none => exact moves_pure _
    | some j =>
      exact moves_bind (nonNull_moves _) fun i => moves_bind (inodeAt_moves i) fun _ =>
        moves_bind (inodeAt_moves j) fun _ => moves_pure _
  exact moves_bind (pnodeAt_moves old) fun no => moves_bind (pnodeAt_moves new) fun nn =>
    moves_bind (mountAt_moves _) fun mo => moves_bind (mountAt_moves _) fun mn =>
    moves_ite (fun _ => moves_pure _) fun _ => moves_ite (fun _ => moves_pure _) fun _ =>
    moves_bind (moves_read _) fun depth => moves_bind (hasAncestor_moves _ _ _) fun _ =>
    moves_ite (fun _ => moves_pure _) fun _ => moves_bind (inoOf_moves old) fun io =>
    moves_bind (inoOf_moves new) fun inn => moves_ite (fun _ => moves_pure _) fun _ =>
    moves_bind (replaces _ _) fun _ => moves_ite (fun _ => moves_pure _) fun _ =>
    moves_bind (prune new) fun left => moves_ite (fun _ => moves_pure _) fun _ =>
    moves_bind (parentIno_moves old) fun d => moves_bind (a.rename _ _ _) fun _ =>
    moves_ite (fun _ => moves_pure _) fun _ => moves_bind (inoOf_moves new) fun inn =>
    moves_bind (ifSome_moves fun i _ => a.iGone i) fun _ => moves_bind (inoOf_moves old) fun io =>
    moves_bind (a.bind _ _) fun _ => moves_bind (a.bind _ _) fun _ => moves_pure _

theorem sysioPChdir_acts (w : PathMoves A e)
    (cwd : ∀ o : Option Pno, Moves A (Exec.write fun s => { s with mt.cwd := o } : Sysio D Unit))
    (p : Pno) : Moves A (sysioPChdir e p) := by
  refine moves_bind (sysioPValidate_acts a p none none) fun err =>
    moves_ite (fun _ => moves_pure _) fun _ => moves_bind (inoOf_moves p) fun ino => ?_
  cases ino with
  | none => exact moves_pure _
  | some i =>
    exact moves_bind (inodeAt_moves i) fun r => moves_ite (fun _ => moves_pure _) fun _ =>
      moves_bind (sysioPermitted_acts a _ _) fun err => moves_ite (fun _ => moves_pure _) fun _ =>
      moves_bind (moves_read _) fun _ => moves_bind (ifSome_moves fun q _ => w.pRele q)
      fun _ => moves_bind (cwd _) fun _ => moves_pure _

/-- The calls, from what they do besides walking, pruning, mounting and opening. -/
theorem acts_calls {fssw : Bytes → Option (FsswopMount D)} (w : PathMoves A e)
    (prune : ∀ p, Moves A (sysioPPrune e p)) (fnew : ∀ p flags, Moves A (sysioFuseFnew e p flags))
    (cwd : ∀ o : Option Pno, Moves A (Exec.write fun s => { s with mt.cwd := o } : Sysio D Unit))
    (mount : ∀ fstype mount, fssw fstype = some mount → ∀ source flags tocover,
      Moves A (mount source flags fstype tocover))
    (umount : ∀ m, Moves A (sysioDoUnmount e m)) : CallMoves A e fssw where
  toPathMoves := w
  validate := sysioPValidate_acts a
  open_ := a.open_
  fnew := fnew
  fRele := fRele_acts a
  fdSet := sysioFdSet_acts a
  fdClose := sysioFdClose_acts a
  fdDup := sysioFdDup_acts a
  unlink := a.unlink
  rmdir := a.rmdir
  detach := detach_acts a
  mkdir := sysioMkdir_acts a
  getattr := a.getattr
  setattr := a.setattr
  symlink := a.symlink
  readlink := a.readlink
  mknod := a.mknod
  link := interfaceLink_acts a w
  rename := renameNodes_acts a prune
  chdir := sysioPChdir_acts a w cwd
  mount := mount
  umount := umount
  read := a.read
  write := a.write
  position _ _ _ _ hr := setFile_acts a (u := ()) hr (write_ok.mpr rfl) rfl rfl
  ftruncate := a.ftruncate
  sync := a.sync
  datasync := a.datasync
  posts := posts_acts a
  done := sysioIoctxDone_acts a
  wait := sysioIoctxWait_acts a

end Acts

end CallRules
