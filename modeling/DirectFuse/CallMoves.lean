import DirectFuse.PostMoves

/-! What a call does to the state. A call walks to its nodes, acts on them and gives them back, or
acts on an open file; a relation over the pieces is one over the call. -/
namespace CallMoves

open ExecLogic SysioState SysioInode SysioNamei SysioMount SysioFile SysioInterface SysioSystem
open CoreMoves PostMoves
open SysioReconcile (SSIZE_MAX)

variable {D : Type}

section Finding

variable {R : Sys D → Sys D → Prop} [IsPreorder (Sys D) R]

theorem sysioFindMount_moves (path : Bytes) :
    Moves R (sysioFindMount path : Sysio D (Option MntId)) := by
  refine moves_bind (moves_read _) fun mounts => ?_
  induction mounts with
  | nil => exact moves_pure _
  | cons m l ih =>
    exact moves_bind (mountAt_moves m) fun r => moves_bind (fsAt_moves _) fun f =>
      moves_ite (fun _ => moves_pure _) fun _ => ih

theorem afterPrefix_moves (m : MntId) (path : Bytes) :
    Moves R (afterPrefix m path : Sysio D Bytes) :=
  moves_bind (mountAt_moves m) fun _ => moves_bind (fsAt_moves _) fun _ =>
    moves_bind (moves_check _ _) fun _ => moves_pure _

theorem mountRootOf_moves (m : MntId) : Moves R (mountRootOf m : Sysio D (Option Pno)) :=
  moves_bind (mountAt_moves m) fun _ => moves_pure _

theorem parentIno_moves (p : Pno) : Moves R (parentIno p : Sysio D InoId) :=
  moves_bind (pnodeAt_moves p) fun _ => moves_bind (inoOf_moves _) fun _ => nonNull_moves _

end Finding

/-- What it takes to find a node by its path and to give it back. -/
structure PathMoves (R : Sys D → Sys D → Prop) (e : Env D) : Prop where
  scratch : ∀ s t, Scratch s t → R s t
  namei : ∀ parent path flags intnt, Moves R (sysioNamei e parent path flags intnt)
  pRele : ∀ p, Moves R (pRele p : Sysio D Unit)

/-- The pieces of the calls. -/
structure CallMoves (R : Sys D → Sys D → Prop) (e : Env D)
    (fssw : Bytes → Option (FsswopMount D)) : Prop extends PathMoves R e where
  validate : ∀ p intnt path, Moves R (sysioPValidate e p intnt path)
  open_ : ∀ i p flags mode, Moves R (e.ops.open_ i p flags mode)
  fnew : ∀ p flags, Moves R (sysioFuseFnew e p flags)
  fRele : ∀ f, Moves R (fRele e f)
  fdSet : ∀ f fd force, Moves R (sysioFdSet e f fd force)
  fdClose : ∀ fd, Moves R (sysioFdClose e fd)
  fdDup : ∀ oldfd newfd force, Moves R (sysioFdDup e oldfd newfd force)
  unlink : ∀ i p, Moves R (e.ops.unlink i p)
  rmdir : ∀ i p, Moves R (e.ops.rmdir i p)
  detach : ∀ p, Moves R (detach e p)
  mkdir : ∀ p mode, Moves R (sysioMkdir e p mode)
  getattr : ∀ i p o, Moves R (e.ops.getattr i p o)
  setattr : ∀ i p j k, Moves R (e.ops.setattr i p j k)
  symlink : ∀ i p path, Moves R (e.ops.symlink i p path)
  readlink : ∀ i p n, Moves R (e.ops.readlink i p n)
  mknod : ∀ i p mode dev, Moves R (e.ops.mknod i p mode dev)
  link : ∀ oldpath newpath, Moves R (interfaceLink e oldpath newpath)
  rename : ∀ old new, Moves R (renameNodes e old new)
  chdir : ∀ p, Moves R (sysioPChdir e p)
  mount : ∀ fstype mount, fssw fstype = some mount → ∀ source flags tocover,
    Moves R (mount source flags fstype tocover)
  umount : ∀ m, Moves R (sysioDoUnmount e m)
  read : ∀ i n off p, Moves R (e.ops.read i n off p)
  write : ∀ i n off p, Moves R (e.ops.write i n off p)
  position : ∀ (f : FilId) (r : File) (pos : ℤ) (s : Sys D), s.ft.file f = some r →
    R s { s with ft.file := Function.update s.ft.file f (some { r with pos := pos }) }
  ftruncate : ∀ i p size, Moves R (e.ops.ftruncate i p size)
  sync : ∀ i p, Moves R (e.ops.sync i p)
  datasync : ∀ i p, Moves R (e.ops.datasync i p)
  posts : Posts R e
  done : ∀ c, Moves R (sysioIoctxDone e c)
  wait : ∀ c polls, Moves R (sysioIoctxWait e c polls)

section Paths

variable {R : Sys D → Sys D → Prop} [IsPreorder (Sys D) R] {e : Env D} (w : PathMoves R e)

include w

theorem permitted_moves (p : Pno) (amode : ℕ) : Moves R (sysioPermitted e p amode) :=
  sysioPermitted_moves w.scratch p amode

/-- A call that resolves its path from the working directory. -/
theorem onPath_moves {act : Pno → Sysio D ℤ} (hact : ∀ p, Moves R (act p)) (path : Bytes)
    (flags : ℕ) (intnt : Option Intent) : Moves R (onPath e path flags intnt act) :=
  moves_bind (moves_read _) fun cwd => moves_bind (w.namei cwd _ flags intnt) fun res =>
    moves_ite (fun _ => moves_pure _) fun _ => moves_bind (nonNull_moves _) fun p =>
    moves_bind (hact p) fun err => moves_bind (w.pRele p) fun _ => moves_pure _

/-- A call that resolves its path from the root of the mount its prefix names. -/
theorem onMount_moves {α : Type} {z : Sysio D α} (hz : Moves R z) (path : Bytes) (flags : ℕ)
    (intnt : Option Intent) (fails : ℤ → α) {act : Pno → Sysio D α} (hact : ∀ p, Moves R (act p)) :
    Moves R (do
      match ← sysioFindMount path with
      | none => z
      | some m => do
        let path ← afterPrefix m path
        let root ← mountRootOf m
        let (err, found) ← sysioNamei e root (some path) flags intnt
        if err ≠ 0 then
          return fails err
        let p ← nonNull found
        act p : Sysio D α) := by
  refine moves_bind (sysioFindMount_moves _) fun m => ?_
  cases m with
  | none => exact hz
  | some m =>
    exact moves_bind (afterPrefix_moves m path) fun path => moves_bind (mountRootOf_moves m)
      fun root => moves_bind (w.namei _ _ _ _) fun res => moves_ite (fun _ => moves_pure _)
      fun _ => moves_bind (nonNull_moves _) hact

end Paths

section Calls

variable {R : Sys D → Sys D → Prop} [IsPreorder (Sys D) R] {e : Env D}
  {fssw : Bytes → Option (FsswopMount D)} (c : CallMoves R e fssw)

include c

theorem sysioOpen_moves (p : Pno) (flags mode : ℕ) : Moves R (sysioOpen e p flags mode) := by
  refine moves_bind (isRdonly_moves p) fun ro => moves_ite (fun _ => moves_pure _) fun _ =>
    moves_ite (fun _ => moves_pure _) fun _ => moves_bind (inoOf_moves p) fun ino => ?_
  cases ino with
  | none =>
    exact moves_ite (fun _ => moves_ite (fun _ => moves_pure _) fun _ =>
      moves_bind (pnodeAt_moves p) fun n => moves_bind (c.validate _ _ _) fun err =>
      moves_ite (fun _ => moves_pure _) fun _ => moves_bind (inoOf_moves _) fun ino =>
      moves_bind (assert_moves _) fun _ => moves_bind (nonNull_moves _) fun i => c.open_ _ _ _ _)
      fun _ => c.validate _ _ _
  | some i =>
    exact moves_ite (fun _ => moves_pure _) fun _ => moves_bind (inodeAt_moves i) fun r =>
      moves_ite (fun _ => moves_pure _) fun _ => c.open_ _ _ _ _

theorem openError_moves (fil : Option FilId) (pno : Option Pno) (rtn : ℤ) :
    Moves R (openError e fil pno rtn) :=
  moves_bind (ifSome_moves fun f _ => c.fRele f) fun _ =>
    moves_bind (ifSome_moves fun p _ => c.pRele p) fun _ => moves_pure _

theorem interfaceOpen_moves (u : Uninit) (path : Bytes) (flags mode : ℕ) :
    Moves R (interfaceOpen e u path flags mode) := by
  refine moves_bind (moves_read _) fun umask => moves_bind (sysioFindMount_moves _) fun m => ?_
  cases m with
  | none => exact openError_moves c _ _ _
  | some m =>
    refine moves_bind (afterPrefix_moves m path) fun path => moves_bind (moves_read _) fun cwd =>
      moves_bind (nonNull_moves _) fun cwd => moves_bind (pnodeAt_moves _) fun nc =>
      moves_bind (sysioPbPath_moves c.scratch _ _) fun _ => moves_bind (mountRootOf_moves m)
      fun root => moves_bind (c.namei _ _ _ _) fun res => moves_ite
      (fun _ => openError_moves c _ _ _) fun _ => moves_bind (nonNull_moves _) fun p =>
      moves_bind (sysioOpen_moves c p flags _) fun rtn => moves_ite
      (fun _ => openError_moves c _ _ _) fun _ => moves_bind (c.fnew p flags) fun fil => ?_
    cases fil with
    | none => exact openError_moves c _ _ _
    | some f =>
      exact moves_bind (c.fdSet f _ _) fun rtn => moves_ite
        (fun _ => openError_moves c _ _ _) fun _ => moves_bind (c.pRele p) fun _ => moves_pure _

theorem unlinkNode_moves (p : Pno) : Moves R (unlinkNode e p) :=
  moves_bind (pnodeAt_moves p) fun n => moves_bind (permitted_moves c.toPathMoves _ _) fun err =>
    moves_ite (fun _ => moves_pure _) fun _ => moves_bind (parentIno_moves p) fun d =>
    moves_bind (c.unlink _ _) fun err => moves_ite (fun _ => moves_pure _) fun _ =>
    moves_bind (inoOf_moves p) fun ino => moves_bind (assert_moves _) fun _ =>
    moves_bind (c.detach p) fun _ => moves_pure _

theorem rmdirNode_moves (p : Pno) : Moves R (rmdirNode e p) :=
  moves_bind (inoOf_moves p) fun ino => moves_bind (nonNull_moves _) fun i =>
    moves_bind (inodeAt_moves i) fun r => moves_ite (fun _ => moves_pure _) fun _ =>
    moves_bind (pnodeAt_moves p) fun n => moves_bind (permitted_moves c.toPathMoves _ _) fun err =>
    moves_ite (fun _ => moves_pure _) fun _ => moves_ite (fun _ => moves_pure _) fun _ =>
    moves_bind (parentIno_moves p) fun d => moves_bind (c.rmdir _ _) fun err =>
    moves_ite (fun _ => moves_pure _) fun _ => moves_bind (c.detach p) fun _ => moves_pure _

theorem sysioSetattr_moves (p : Option Pno) (ino : Option InoId) (mask : ℕ) :
    Moves R (sysioSetattr e p ino mask) := by
  refine moves_bind ?_ fun held => moves_bind (ifSome_moves fun i _ => assert_moves _)
    fun _ => moves_bind (assert_moves _) fun _ => moves_bind (nonNull_moves _) fun i =>
    moves_bind ?_ fun ro => moves_ite (fun _ => moves_pure _) fun _ => c.setattr _ _ _ _
  · cases p with
    | some p => exact inoOf_moves p
    | none =>
      cases ino with
      | some i => exact moves_pure _
      | none => exact moves_fault _
  · cases p with
    | some p => exact isRdonly_moves p
    | none => exact moves_pure _

theorem interfaceSetattr_moves (path : Bytes) (mask : ℕ) : Moves R (interfaceSetattr e path mask) :=
  moves_bind (onPath_moves c.toPathMoves (fun p => moves_bind (inoOf_moves p) fun _ =>
    sysioSetattr_moves c _ _ _) _ _ _) fun _ => moves_pure _

theorem interfaceFsetattr_moves (fd : ℤ) (mask : ℕ) : Moves R (interfaceFsetattr e fd mask) :=
  onFile_moves fd _ fun _ => moves_bind (moves_deref _ _) fun _ =>
    moves_bind (sysioSetattr_moves c _ _ _) fun _ => moves_pure _

omit [IsPreorder (Sys D) R] in
theorem setPosition_moves {f : FilId} {r : File} {pos : ℤ} {s t : Sys D} {u : Unit}
    (hr : s.ft.file f = some r)
    (run : (setFile f { r with pos := pos } : Sysio D Unit) s = .ok (u, t)) : R s t := by
  obtain rfl := write_ok.mp run
  exact c.position f r pos s hr

theorem transfer_moves (wr : Bool) (fd : ℤ) (count : ℕ) (offset : Option ℤ) :
    Moves R (transfer e wr fd count offset) := by
  refine onFile_moves fd _ fun f => moves_bind (moves_deref _ _) fun r =>
    moves_ite (fun _ => moves_pure _) fun _ =>
    moves_bind (moves_ite (fun _ => c.write _ _ _ _) fun _ => c.read _ _ _ _) fun cc =>
    moves_bind (moves_when fun _ => ?_) fun _ => moves_pure _
  intro s u t run
  obtain ⟨r', _, hread, hset⟩ := bind_ok.mp run
  obtain ⟨hr, rfl⟩ := deref_ok.mp hread
  exact setPosition_moves c hr hset

theorem interfaceLseek_moves (fd offset : ℤ) (whence : Whence) (size : ℤ) :
    Moves R (interfaceLseek e fd offset whence size) := by
  have prepare : ∀ r, Moves R (sysioLseekPrepare e r offset whence SSIZE_MAX size) := by
    intro r
    refine moves_bind ?_ fun res => moves_ite (fun _ => moves_pure _) fun _ =>
      moves_ite (fun _ => moves_pure _) fun _ => moves_ite (fun _ => moves_pure _) fun _ =>
      moves_pure _
    cases whence with
    | set => exact moves_pure _
    | cur => exact moves_pure _
    | end_ => exact moves_bind (c.getattr _ _ _) fun _ => moves_pure _
    | other => exact moves_pure _
  refine onFile_moves fd _ fun f => moves_bind (moves_bind (moves_deref _ _) fun r =>
    moves_bind (prepare r) fun pos => moves_ite (fun _ => moves_pure _) fun _ => ?_)
    fun off => moves_pure _
  intro s off t run
  obtain ⟨r', _, hread, h1⟩ := bind_ok.mp run
  obtain ⟨hr, rfl⟩ := deref_ok.mp hread
  obtain ⟨_, v, hset, h2⟩ := bind_ok.mp h1
  obtain ⟨-, rfl⟩ := pure_ok.mp h2
  exact setPosition_moves c hr hset

theorem interfaceMount_moves (source target fstype : Bytes) (flags : ℕ) :
    Moves R (interfaceMount e (fssw fstype) source target fstype flags) := by
  refine moves_bind (moves_read _) fun root => moves_bind ?_ fun err => moves_pure _
  cases hm : fssw fstype with
  | none => exact moves_pure _
  | some mount =>
    exact moves_bind (c.namei _ _ _ _) fun res => moves_ite (fun _ => moves_pure _)
      fun _ => moves_bind (nonNull_moves _) fun tgt => moves_bind (c.mount fstype mount hm _ _ _)
      fun res => moves_bind (moves_when fun _ => c.pRele tgt) fun _ => moves_pure _

/-- What holds of the pieces of the calls holds of every call. -/
theorem step_moves (call : Call) : Moves R (step ⟨e, fssw⟩ call) := by
  have link : ∀ {α β : Type} {m : Sysio D α} (f : α → β), Moves R m →
      Moves R (do return f (← m)) := fun f hm => moves_bind hm fun _ => moves_pure _
  have w := c.toPathMoves
  cases call with
  | open_ u path flags mode => exact interfaceOpen_moves c u path flags mode
  | close fd => exact link _ (c.fdClose fd)
  | unlink u path =>
    exact onMount_moves w (moves_bind (nonNull_moves _) fun p => moves_bind (c.pRele p) fun _ =>
      moves_pure _) _ _ _ _ fun p => moves_bind (unlinkNode_moves c p) fun _ =>
      moves_bind (c.pRele p) fun _ => moves_pure _
  | rmdir u path =>
    exact onMount_moves w (moves_bind (nonNull_moves _) fun p => moves_bind (c.pRele p) fun _ =>
      moves_pure _) _ _ _ _ fun p => moves_bind (rmdirNode_moves c p) fun _ =>
      moves_bind (c.pRele p) fun _ => moves_pure _
  | mkdir path mode =>
    exact onMount_moves w (moves_pure _) _ _ _ _ fun p => moves_bind (moves_read _) fun _ =>
      moves_bind (c.mkdir p _) fun _ => moves_bind (c.pRele p) fun _ => moves_pure _
  | stat path =>
    exact onMount_moves w (moves_pure _) _ _ _ _ fun p => moves_bind (inoOf_moves p) fun _ =>
      moves_bind (parentIno_moves p) fun _ => moves_bind (c.getattr _ _ _) fun _ => moves_pure _
  | lstat path =>
    exact link _ (onPath_moves w (fun p => moves_bind (inoOf_moves p) fun _ =>
      moves_bind (nonNull_moves _) fun i => moves_bind (inodeAt_moves i) fun _ => moves_pure _) _ _ _)
  | access path amode =>
    exact link _ (onPath_moves w (fun p => moves_bind (sysioLdcreds_moves c.scratch) fun _ =>
      moves_ite (fun _ => moves_pure _) fun _ => sysioCheckPermission_moves _ _ _) _ _ _)
  | readlink path bufsiz =>
    exact link _ (onPath_moves w (fun p => moves_bind (inoOf_moves p) fun _ =>
      moves_bind (nonNull_moves _) fun i => moves_bind (inodeAt_moves i) fun _ =>
      moves_ite (fun _ => moves_pure _) fun _ => moves_bind (c.readlink _ _ _) fun _ =>
      moves_pure _) _ _ _)
  | chmod path => exact interfaceSetattr_moves c path _
  | chown path owner group => exact interfaceSetattr_moves c path _
  | utime path => exact interfaceSetattr_moves c path _
  | symlink oldpath newpath =>
    exact link _ (onPath_moves w (fun p => moves_bind (inoOf_moves p) fun _ =>
      moves_ite (fun _ => moves_pure _) fun _ => moves_bind (pnodeAt_moves p) fun _ =>
      moves_bind (permitted_moves w _ _) fun _ => moves_ite (fun _ => moves_pure _) fun _ =>
      moves_bind (parentIno_moves p) fun _ => c.symlink _ _ _) _ _ _)
  | mknod path mode dev =>
    refine moves_bind (moves_read _) fun umask => link _ (onPath_moves w (fun p =>
      moves_bind (pnodeAt_moves p) fun _ => moves_bind (permitted_moves w _ _) fun _ =>
      moves_ite (fun _ => moves_pure _) fun _ => ?_) _ _ _)
    exact moves_bind (inoOf_moves p) fun _ => moves_ite (fun _ => moves_pure _) fun _ =>
      moves_ite (fun _ => moves_pure _) fun _ => moves_bind (isRdonly_moves p) fun _ =>
      moves_ite (fun _ => moves_pure _) fun _ => moves_bind (parentIno_moves p) fun _ =>
      c.mknod _ _ _ _
  | link oldpath newpath => exact c.link oldpath newpath
  | rename oldpath newpath =>
    exact moves_ite (fun _ => moves_pure _) fun _ => link _ (onPath_moves w (fun old =>
      onPath_moves w (fun new => c.rename old new) _ _ _) _ _ _)
  | chdir path =>
    exact moves_bind (moves_read _) fun _ => moves_bind (c.namei _ _ _ _) fun _ =>
      moves_ite (fun _ => moves_pure _) fun _ => moves_bind (nonNull_moves _) fun p =>
      moves_bind (c.chdir p) fun _ => moves_bind (moves_when fun _ => c.pRele p)
      fun _ => moves_pure _
  | mount source target fstype flags => exact interfaceMount_moves c source target fstype flags
  | umount target =>
    exact onMount_moves w (moves_pure _) _ _ _ _ fun p => moves_bind (c.pRele p) fun _ =>
      moves_bind (pnodeAt_moves p) fun n => moves_bind (c.umount n.mount) fun _ => moves_pure _
  | dup oldfd => exact link _ (c.fdDup _ _ _)
  | dup2 oldfd newfd => exact moves_ite (fun _ => moves_pure _) fun _ => link _ (c.fdDup _ _ _)
  | read fd count => exact transfer_moves c _ _ _ _
  | write fd count => exact transfer_moves c _ _ _ _
  | pread fd count offset => exact transfer_moves c _ _ _ _
  | pwrite fd count offset => exact transfer_moves c _ _ _ _
  | ftruncate fd length =>
    exact onFile_moves fd _ fun f => moves_bind (moves_deref _ _) fun r =>
      moves_ite (fun _ => moves_pure _) fun _ => link _ (moves_ite (fun _ => moves_pure _) fun _ =>
      moves_bind (inodeAt_moves _) fun _ => moves_ite (fun _ => moves_pure _) fun _ =>
      moves_ite (fun _ => moves_pure _) fun _ => c.ftruncate _ _ _)
  | fsync fd =>
    exact onFile_moves fd _ fun f => moves_bind (moves_deref _ _) fun r => link _ (c.sync _ _)
  | fdatasync fd =>
    exact onFile_moves fd _ fun f => moves_bind (moves_deref _ _) fun r => link _ (c.datasync _ _)
  | fstat fd =>
    exact onFile_moves fd _ fun f => moves_bind (moves_deref _ _) fun r => link _ (c.getattr _ _ _)
  | fchmod fd => exact interfaceFsetattr_moves c fd _
  | fchown fd owner group => exact interfaceFsetattr_moves c fd _
  | lseek fd offset whence size => exact interfaceLseek_moves c fd offset whence size
  | iread u wr fd count cc => exact post_moves c.posts (.iread u wr fd count cc) rfl
  | ireadv u wr fd lens cc => exact post_moves c.posts (.ireadv u wr fd lens cc) rfl
  | ipread u wr fd count cc => exact post_moves c.posts (.ipread u wr fd count cc) rfl
  | ipreadv u wr fd lens cc => exact post_moves c.posts (.ipreadv u wr fd lens cc) rfl
  | ireadx u wr fd iovs xtvs cc => exact post_moves c.posts (.ireadx u wr fd iovs xtvs cc) rfl
  | iread64x u fd iovs xtvs cc => exact post_moves c.posts (.iread64x u fd iovs xtvs cc) rfl
  | iwrite64x u fd xtvs cc => exact post_moves c.posts (.iwrite64x u fd xtvs cc) rfl
  | iodone q =>
    refine moves_bind (moves_read _) fun found => ?_
    cases found with
    | none => exact moves_pure _
    | some q => exact link _ (c.done q)
  | iowait q polls =>
    refine moves_bind (moves_read _) fun found => ?_
    cases found with
    | none => exact moves_pure _
    | some q => exact link _ (c.wait q polls)

end Calls

end CallMoves
