import DirectFuse.FuseSystem
import DirectFuse.CallMoves
import DirectFuse.MountForest
import DirectFuse.OtherOps
import DirectFuse.IoContexts

/-! Mounts that are read-only. A call spares them when it does not matter what the operations that
change a file system do with their nodes. -/
namespace ReadOnlyMounts

open ExecLogic SysioState SysioInode SysioNamei SysioMount SysioFile SysioInterface SysioSystem
open FuseDriver FuseSystem CoreMoves FuseMoves CallMoves MountForest OtherOps
open IoContexts (Fed fed_succ malloc_ok)

variable {D : Type}

/-- The path node lies in a read-only mount. -/
def ReadOnly (p : Pno) (s : Sys D) : Prop :=
  ∃ m, s.mt.mount (s.nc.pnode p).mount = some m ∧ m.flags &&& MOUNT_F_RO ≠ 0

/-- The path node stands for an inode with these attributes. -/
def Stands (p : Pno) (s : Sys D) (i : Inode) : Prop :=
  ∃ r j, s.nc.base (s.nc.pnode p).base = some r ∧ r.ino = some j ∧ s.ic.inode j = some i

/-- The path node is a name without an inode. -/
def Vacant (p : Pno) (s : Sys D) : Prop :=
  ∃ r, s.nc.base (s.nc.pnode p).base = some r ∧ r.ino = none

/-- The open file that a call names by its descriptor and changes the attributes of. -/
def Named (s : Sys D) : Call → File → Prop
  | .fchmod fd, r | .fchown fd _ _, r => Opened s fd r
  | _, _ => False

/-- The operations `o` do what those of `e` do except where they change a file system: mkdir, rmdir,
symlink, link, unlink, rename, mknod, setattr, ftruncate, write and post of a write, and open where it
creates or truncates, may differ on nodes of read-only mounts. -/
structure SameOnWritable (e : Env D) (s₀ : Sys D) (call : Call) (o : InodeOps D) : Prop where
  lookup : o.lookup = e.ops.lookup
  getattr : o.getattr = e.ops.getattr
  readlink : o.readlink = e.ops.readlink
  close : o.close = e.ops.close
  read : o.read = e.ops.read
  iodone : o.iodone = e.ops.iodone
  sync : o.sync = e.ops.sync
  datasync : o.datasync = e.ops.datasync
  gone : o.gone = e.ops.gone
  fsopGone : o.fsopGone = e.ops.fsopGone
  setattr : ∀ i p j mask s, ¬ ReadOnly p s →
    o.setattr i (some p) j mask s = e.ops.setattr i (some p) j mask s
  fsetattr : (∀ r, Named s₀ call r → ¬ ReadOnly r.pno s₀) → ∀ i j mask s,
    o.setattr i none j mask s = e.ops.setattr i none j mask s
  mkdir : ∀ i p mode s, ¬ ReadOnly p s → o.mkdir i p mode s = e.ops.mkdir i p mode s
  rmdir : ∀ i p s, ¬ ReadOnly p s → o.rmdir i p s = e.ops.rmdir i p s
  symlink : ∀ i p path s, ¬ ReadOnly p s → o.symlink i p path s = e.ops.symlink i p path s
  open_ : ∀ i p flags mode s,
    ¬ (ReadOnly p s ∧ (flags &&& O_CREAT ≠ 0 ∧ Vacant p s ∨ flags &&& O_TRUNC ≠ 0)) →
    o.open_ i p flags mode s = e.ops.open_ i p flags mode s
  link : ∀ i p q s, ¬ ReadOnly p s → ¬ ReadOnly q s → o.link i p q s = e.ops.link i p q s
  unlink : ∀ i p s, ¬ ReadOnly p s → o.unlink i p s = e.ops.unlink i p s
  rename : ∀ i p q s, ¬ ReadOnly p s → ¬ ReadOnly q s → o.rename i p q s = e.ops.rename i p q s
  write : ∀ i n off p s, ¬ ReadOnly p s → o.write i n off p s = e.ops.write i n off p s
  post : ∀ i p c s, ¬ (ReadOnly p s ∧ (s.aio.ioctx c).any (·.write) = true) →
    o.post i p c s = e.ops.post i p c s
  mknod : ∀ i p mode dev s, ¬ ReadOnly p s → o.mknod i p mode dev s = e.ops.mknod i p mode dev s
  ftruncate : ∀ i p n s, ¬ ReadOnly p s → o.ftruncate i p n s = e.ops.ftruncate i p n s

theorem SameOnWritable.walk {e : Env D} {s₀ : Sys D} {call : Call} {o : InodeOps D}
    (h : SameOnWritable e s₀ call o) : SameWalk e o :=
  ⟨h.lookup, h.gone, fun _ _ _ _ _ => by rw [h.readlink]⟩

/-- In the call, from state `s`, no operation changes a file system through a node of a read-only
mount. -/
def Unmutated (lib : Library D) (s : Sys D) (call : Call) : Prop :=
  ∀ o, SameOnWritable lib.env s call o →
    step { lib with env := { lib.env with ops := o } } call s = step lib call s

/-- The path node that `open` looks up. -/
def openTarget (e : Env D) (path : Bytes) (flags : ℕ) : Sysio D (Option Pno) := do
  match ← sysioFindMount path with
  | none => return none
  | some m => do
    let path ← afterPrefix m path
    let cwd ← nonNull (← Exec.read fun s => s.mt.cwd)
    let nc ← pnodeAt cwd
    let _ ← sysioPbPath e nc.base PATH_SEPARATOR
    let root ← mountRootOf m
    let (err, found) ← sysioNamei e root (some path)
      ((if flags &&& O_CREAT ≠ 0 then ND_NEGOK else 0)
        + if flags &&& O_NOFOLLOW ≠ 0 then ND_NOFOLLOW else 0)
      (some ⟨if flags &&& O_CREAT ≠ 0 then INT_OPEN ||| INT_CREAT else INT_OPEN⟩)
    return if err ≠ 0 then none else found

/-- The caller may write the directory of the path node. -/
def MayWrite (e : Env D) (p : Pno) (s : Sys D) : Prop :=
  ∃ t, sysioPermitted e (s.nc.pnode p).parent W_OK s = .ok (0, t)

/-- What `rename` checks before it asks the driver: the result it stops with, if it does. -/
def renameStops (e : Env D) (old new : Pno) : Sysio D (Option ℤ) := do
  let no ← pnodeAt old
  let nn ← pnodeAt new
  let mo ← mountAt no.mount
  let mn ← mountAt nn.mount
  if mo.root = some old ∨ no.cover.isSome ∨ mn.root = some new then
    return some (-EBUSY)
  if mo.fs ≠ mn.fs then
    return some (-EXDEV)
  let depth ← Exec.read fun s => s.nc.nextBase
  if ← hasAncestor no.base depth nn.base then
    return some (-EINVAL)
  let io ← inoOf old
  let inn ← inoOf new
  if io = inn then
    return some 0
  let err ← renameReplaces io inn
  if err ≠ 0 then
    return some err
  let left ← sysioPPrune e new
  if left ≠ 1 then
    return some (-EBUSY)
  return none

/-- What `rename` does behind its checks. -/
def renameTail (e : Env D) (old new : Pno) (oldBase newBase : PbId) : Sysio D ℤ := do
  let d ← parentIno old
  let err ← e.ops.rename d old new
  if err ≠ 0 then
    return err
  ifSome (← inoOf new) (iGone e)
  let io ← inoOf old
  modBase newBase fun r => { r with ino := io }
  modBase oldBase fun r => { r with ino := none }
  return 0

/-- The descriptor an asynchronous write is for, and the allocations it takes to hand it to the
driver, where its arguments are in order. -/
def writes : Call → Option (ℤ × ℕ)
  | .iread _ true fd count cc => if 0 ≤ sysioSumIovec [count] ∧ 0 ≤ cc then some (fd, 6) else none
  | .ireadv _ true fd lens cc => if 0 ≤ sysioSumIovec lens ∧ 0 ≤ cc then some (fd, 4) else none
  | .ipread _ true fd count cc => if 0 ≤ sysioSumIovec [count] ∧ 0 ≤ cc then some (fd, 5) else none
  | .ipreadv _ true fd lens cc => if 0 ≤ sysioSumIovec lens ∧ 0 ≤ cc then some (fd, 3) else none
  | .ireadx _ true fd iovs xtvs cc => if iovs ≠ 0 ∧ xtvs ≠ 0 ∧ 0 ≤ cc then some (fd, 3) else none
  | .iwrite64x _ fd xtvs cc => if xtvs ≠ 0 ∧ 0 ≤ cc then some (fd, 1) else none
  | _ => none

/-- When a call spares the read-only mounts: where it would ask the driver for a change, the node is
not in one. -/
def Spares (e : Env D) (s : Sys D) : Call → Prop
  | .open_ _ path flags _ => ∀ p t r, openTarget e path flags s = .ok (some p, t) → ReadOnly p t →
      Stands p t r → flags &&& O_TRUNC = 0 ∨ flags &&& (O_WRONLY ||| O_RDWR) ≠ 0 ∨
      flags &&& (O_CREAT ||| O_EXCL) = O_CREAT ||| O_EXCL ∨
      flags &&& O_NOFOLLOW ≠ 0 ∧ r.stbuf.isLnk = true
  | .unlink _ path => ∀ p t, resolve e path ND_NEGOK (some ⟨INT_UPDPARENT⟩) s = .ok (some p, t) →
      ReadOnly p t → ¬ MayWrite e p t
  | .rmdir _ path => ∀ p t r, resolve e path 0 (some ⟨INT_UPDPARENT⟩) s = .ok (some p, t) →
      ReadOnly p t → Stands p t r → r.stbuf.isDir = true → (t.nc.pnode p).ref ≤ 1 → ¬ MayWrite e p t
  | .mkdir path _ => ∀ p t, resolve e path ND_NEGOK (some ⟨INT_CREAT⟩) s = .ok (some p, t) →
      ReadOnly p t → Vacant p t → ¬ MayWrite e p t
  | .symlink _ newpath => ∀ p t,
      resolveCwd e newpath (ND_NOFOLLOW ||| ND_NEGOK) (some ⟨INT_CREAT⟩) s = .ok (some p, t) →
      ReadOnly p t → Vacant p t → ¬ MayWrite e p t
  | .link oldpath newpath => ∀ p t r q u mo mn,
      resolveCwd e oldpath 0 (some ⟨0⟩) s = .ok (some p, t) → Stands p t r →
      r.stbuf.isDir = false → resolveCwd e newpath ND_NEGOK (some ⟨INT_UPDPARENT⟩) t = .ok (some q, u) →
      Vacant q u → u.mt.mount (u.nc.pnode p).mount = some mo →
      u.mt.mount (u.nc.pnode q).mount = some mn → mo.root = mn.root →
      Bound (u.nc.pnode p).parent u → ¬ ReadOnly p u ∧ ¬ ReadOnly q u
  | .rename oldpath newpath => ∀ p t q u v, oldpath ≠ [] → newpath ≠ [] →
      resolveCwd e oldpath ND_NOFOLLOW (some ⟨INT_UPDPARENT⟩) s = .ok (some p, t) →
      resolveCwd e newpath (ND_NOFOLLOW ||| ND_NEGOK) (some ⟨INT_UPDPARENT⟩) t = .ok (some q, u) →
      renameStops e p q u = .ok (none, v) → Bound (v.nc.pnode p).parent v →
      ¬ ReadOnly p v ∧ ¬ ReadOnly q v
  | .write fd _ | .pwrite fd _ _ => ∀ r, Opened s fd r → fChkrw r.flags true = true →
      ¬ ReadOnly r.pno s
  | .ftruncate fd length => ∀ r i, Opened s fd r → fChkrw r.flags true = true → 0 ≤ length →
      s.ic.inode r.ino = some i → i.stbuf.isReg = true → ¬ ReadOnly r.pno s
  | .fchmod fd | .fchown fd _ _ => ∀ r, Opened s fd r → ¬ ReadOnly r.pno s
  | call => ∀ fd n r i, writes call = some (fd, n) → Opened s fd r → fChkrw r.flags true = true →
      s.ic.inode r.ino = some i → Fed e s n → ¬ ReadOnly r.pno s

theorem ReadOnly.keep {p : Pno} {s t : Sys D} (h : ReadOnly p s) (nc : t.nc = s.nc)
    (mt : t.mt = s.mt) : ReadOnly p t := by
  rw [ReadOnly, nc, mt]
  exact h

theorem isRdonly_ok {p : Pno} {s t : Sys D} {ro : Bool}
    (run : (isRdonly p : Sysio D Bool) s = .ok (ro, t)) : (ReadOnly p s ↔ ro = true) ∧ s = t := by
  obtain ⟨n, _, hn, h1⟩ := bind_ok.mp run
  obtain ⟨rfl, rfl⟩ := read_ok.mp hn
  obtain ⟨m, _, hread, h2⟩ := bind_ok.mp h1
  obtain ⟨hm, rfl⟩ := deref_ok.mp hread
  obtain ⟨rfl, rfl⟩ := pure_ok.mp h2
  refine ⟨?_, rfl⟩
  simp only [ReadOnly, hm, Option.some.injEq, exists_eq_left', bne_iff_ne]

section Spared

variable {e : Env D} {o : InodeOps D} {s₀ s : Sys D} {call : Call} (same : SameOnWritable e s₀ call o)

include same

/-- What never changes a file system is left as it is. -/
theorem SameOnWritable.swap : { e with ops := o } =
    { e with ops := { e.ops with
      setattr := o.setattr, mkdir := o.mkdir, rmdir := o.rmdir, symlink := o.symlink, open_ := o.open_
      link := o.link, unlink := o.unlink, rename := o.rename, write := o.write, post := o.post
      mknod := o.mknod, ftruncate := o.ftruncate } } := by
  simp only [← same.lookup, ← same.getattr, ← same.readlink, ← same.close, ← same.read, ← same.iodone,
    ← same.sync, ← same.datasync, ← same.gone, ← same.fsopGone]

theorem detach_same (p : Pno) : detach { e with ops := o } p = detach e p := by
  rw [same.swap]
  rfl

theorem validate_same (p : Pno) (intnt : Option Intent) (path : Option Bytes) :
    sysioPValidate { e with ops := o } p intnt path = sysioPValidate e p intnt path := by
  rw [same.swap]
  rfl

theorem openError_same (fil : Option FilId) (pno : Option Pno) (rtn : ℤ) :
    openError { e with ops := o } fil pno rtn = openError e fil pno rtn := by
  rw [same.swap]
  rfl

theorem fdSet_same (f : FilId) (fd : ℤ) (force : Bool) :
    sysioFdSet { e with ops := o } f fd force = sysioFdSet e f fd force := by
  rw [same.swap]
  rfl

theorem prune_same (p : Pno) : sysioPPrune { e with ops := o } p = sysioPPrune e p := by
  rw [same.walk.mix]
  exact sysioPPrune_mix p

omit same in
/-- An operation on a directory that the caller has to be allowed to write. -/
theorem permitted_same {q : Pno} {k k' : Sysio D ℤ} {t : Sys D}
    (hk : ∀ v, sysioPermitted e q W_OK t = .ok (0, v) → v.nc = t.nc → v.mt = t.mt → k' v = k v) :
    (do
      let err ← sysioPermitted { e with ops := o } q W_OK
      if err ≠ 0 then
        return err
      k' : Sysio D ℤ) t =
    (do
      let err ← sysioPermitted e q W_OK
      if err ≠ 0 then
        return err
      k) t := by
  refine bind_same rfl fun err v hperm => ite_same (fun _ => rfl) fun herr => ?_
  obtain rfl : err = 0 := not_not.mp herr
  have hscratch : Scratch t v := sysioPermitted_moves (fun _ _ k => k) _ _ _ _ _ hperm
  exact hk v hperm hscratch.nc hscratch.mt

omit same in
theorem validate_mounts (ops : OpsMove OffInodes e) {p : Pno} {intnt : Option Intent}
    {path : Option Bytes} {err : ℤ} {t : Sys D}
    (run : sysioPValidate e p intnt path s = .ok (err, t)) :
    t.mt = s.mt ∧ t.nc.pnode = s.nc.pnode := by
  have k := sysioPValidate_inos ops p intnt path _ _ _ run
  exact ⟨k.mt, k.pnode⟩

/-- `_sysio_open` behind the look-up. -/
theorem sysioOpen_same (ops : OpsMove OffInodes e) {p : Pno} {flags mode : ℕ}
    (spares : ∀ r, ReadOnly p s → Stands p s r → flags &&& O_TRUNC = 0 ∨
      flags &&& (O_WRONLY ||| O_RDWR) ≠ 0 ∨ flags &&& (O_CREAT ||| O_EXCL) = O_CREAT ||| O_EXCL ∨
      flags &&& O_NOFOLLOW ≠ 0 ∧ r.stbuf.isLnk = true) :
    sysioOpen { e with ops := o } p flags mode s = sysioOpen e p flags mode s := by
  refine bind_same rfl fun ro t hro => ite_same (fun _ => rfl) fun hboth =>
    ite_same (fun _ => rfl) fun hrofs => bind_same rfl fun ino t hino => ?_
  obtain ⟨hreadonly, rfl⟩ := isRdonly_ok hro
  obtain ⟨b, hb, hbi, rfl⟩ := inoOf_ok.mp hino
  cases ino with
  | none =>
    refine ite_same (fun hcreat => ite_same (fun _ => rfl) fun hrw => bind_same rfl fun n _ hn =>
      bind_same (by rw [validate_same same]) fun err v hval => ite_same (fun _ => rfl) fun _ =>
      bind_same rfl fun ino v₁ hino => bind_same rfl fun _ v₂ has => bind_same rfl
      fun i v₃ hi => ?_) fun _ => by rw [validate_same same]
    obtain ⟨rfl, rfl⟩ := read_ok.mp hn
    obtain ⟨mt, pnode⟩ := validate_mounts ops hval
    obtain ⟨-, -, -, rfl⟩ := inoOf_ok.mp hino
    obtain ⟨-, rfl⟩ := check_ok.mp has
    obtain ⟨-, rfl⟩ := deref_ok.mp hi
    refine same.open_ _ _ _ _ _ fun h => hrw (hreadonly.mp ?_)
    obtain ⟨m, hm, hflags⟩ := h.1
    rw [mt, pnode] at hm
    exact ⟨m, hm, hflags⟩
  | some j =>
    refine ite_same (fun _ => rfl) fun hexcl => bind_same rfl fun r v hread => ite_same
      (fun _ => rfl) fun hlnk => ?_
    obtain ⟨hr, rfl⟩ := deref_ok.mp hread
    refine same.open_ _ _ _ _ _ fun h => ?_
    obtain ⟨hro', hchange⟩ := h
    have trunc : flags &&& O_TRUNC ≠ 0 := by
      rcases hchange with ⟨-, b', hb', hnone⟩ | h
      · rw [hb] at hb'
        obtain rfl := Option.some.inj hb'
        rw [hbi] at hnone
        cases hnone
      · exact h
    rcases spares r hro' ⟨b, j, hb, hbi, hr⟩ with h | h | h | h
    · exact trunc h
    · exact hrofs ⟨h, hreadonly.mp hro'⟩
    · exact hexcl h
    · exact hlnk h

theorem interfaceOpen_same (ops : OpsMove OffInodes e) {u : Uninit} {path : Bytes} {flags mode : ℕ}
    (spares : Spares e s (.open_ u path flags mode)) :
    interfaceOpen { e with ops := o } u path flags mode s = interfaceOpen e u path flags mode s := by
  refine bind_same rfl fun umask t₀ humask => bind_same rfl fun m t₁ hm => ?_
  obtain ⟨-, rfl⟩ := read_ok.mp humask
  cases m with
  | none => rw [openError_same same]
  | some m =>
    refine bind_same rfl fun path' t₂ hpath => bind_same rfl fun cwd t₃ hcwd =>
      bind_same rfl fun cwd t₄ hsome => bind_same rfl fun nc t₅ hnc =>
      bind_same rfl fun full t₆ hfull => bind_same rfl fun root t₇ hroot =>
      bind_same (by rw [sysioNamei_same same.walk]) fun res t hnamei => ite_same
      (fun _ => by rw [openError_same same]) fun herr => bind_same rfl fun p t' hp =>
      bind_same ?_ fun rtn v _ => ite_same (fun _ => by rw [openError_same same]) fun _ =>
      bind_same rfl fun fil w _ => ?_
    · obtain ⟨hfound, rfl⟩ := deref_ok.mp hp
      have found : openTarget e path flags s = .ok (some p, t) := by
        refine bind_ok.mpr ⟨some m, t₁, hm, bind_ok.mpr ⟨path', t₂, hpath, bind_ok.mpr
          ⟨_, t₃, hcwd, bind_ok.mpr ⟨cwd, t₄, hsome, bind_ok.mpr ⟨nc, t₅, hnc, bind_ok.mpr
          ⟨full, t₆, hfull, bind_ok.mpr ⟨root, t₇, hroot, bind_ok.mpr ⟨res, t, hnamei,
          pure_ok.mpr ⟨?_, rfl⟩⟩⟩⟩⟩⟩⟩⟩⟩
        rw [if_neg herr]
        exact hfound
      exact sysioOpen_same same ops fun r => spares p t r found
    · cases fil with
      | none => rw [openError_same same]
      | some f =>
        exact bind_same (by rw [fdSet_same same]) fun rtn x _ => ite_same
          (fun _ => by rw [openError_same same]) fun _ => rfl

theorem unlink_same {u : Uninit} {path : Bytes} (spares : Spares e s (.unlink u path)) :
    interfaceUnlink { e with ops := o } u path s = interfaceUnlink e u path s := by
  refine onMount_same same.walk fun p t found => bind_same (bind_same rfl fun n t' hn =>
    permitted_same fun v hperm nc mt => bind_same rfl fun d v' hd => bind_same ?_
    fun err w _ => ite_same (fun _ => rfl) fun _ => by rw [detach_same same]) fun _ _ _ => rfl
  obtain ⟨rfl, rfl⟩ := read_ok.mp hn
  obtain rfl : v = v' := parentIno_moves (R := Eq) p _ _ _ hd
  exact same.unlink _ _ _ fun h => spares p t found (h.keep nc.symm mt.symm) ⟨v, hperm⟩

theorem rmdir_same {u : Uninit} {path : Bytes} (spares : Spares e s (.rmdir u path)) :
    interfaceRmdir { e with ops := o } u path s = interfaceRmdir e u path s := by
  refine onMount_same same.walk fun p t found => bind_same (bind_same rfl fun ino t₁ hino =>
    bind_same rfl fun i t₂ hi => bind_same rfl fun r t₃ hread => ite_same (fun _ => rfl) fun hdir =>
    bind_same rfl fun n t₄ hn => permitted_same fun v hperm nc mt => ite_same (fun _ => rfl)
    fun href => bind_same rfl fun d v' hd => bind_same ?_ fun err w _ => ite_same (fun _ => rfl)
    fun _ => by rw [detach_same same]) fun _ _ _ => rfl
  obtain ⟨b, hb, hbi, rfl⟩ := inoOf_ok.mp hino
  obtain ⟨rfl, rfl⟩ := deref_ok.mp hi
  obtain ⟨hr, rfl⟩ := deref_ok.mp hread
  obtain ⟨rfl, rfl⟩ := read_ok.mp hn
  obtain rfl : v = v' := parentIno_moves (R := Eq) p _ _ _ hd
  exact same.rmdir _ _ _ fun h => spares p t r found (h.keep nc.symm mt.symm) ⟨b, i, hb, hbi, hr⟩
    (by simpa using hdir) (not_lt.mp href) ⟨v, hperm⟩

omit same in
theorem vacant_of_inoOf {p : Pno} {t u : Sys D} {ino : Option InoId}
    (run : (inoOf p : Sysio D (Option InoId)) t = .ok (ino, u)) (none : ¬ ino.isSome = true) :
    Vacant p t ∧ t = u := by
  obtain ⟨b, hb, hbi, rfl⟩ := inoOf_ok.mp run
  exact ⟨⟨b, hb, by simpa [hbi] using none⟩, rfl⟩

theorem mkdir_same {path : Bytes} {mode : ℕ} (spares : Spares e s (.mkdir path mode)) :
    interfaceMkdir { e with ops := o } path mode s = interfaceMkdir e path mode s := by
  refine onMount_same same.walk fun p t found => bind_same rfl fun umask t₀ humask =>
    bind_same (bind_same rfl fun ino t₁ hino => ite_same (fun _ => rfl) fun hnone =>
    bind_same rfl fun n t₂ hn => permitted_same fun v hperm nc mt => bind_same rfl fun d v₁ hd =>
    bind_same rfl fun _ v₂ has => bind_same rfl fun d v₃ hsome => ?_) fun _ _ _ => rfl
  obtain ⟨-, rfl⟩ := read_ok.mp humask
  obtain ⟨vacant, rfl⟩ := vacant_of_inoOf hino hnone
  obtain ⟨rfl, rfl⟩ := read_ok.mp hn
  obtain ⟨-, -, -, rfl⟩ := inoOf_ok.mp hd
  obtain ⟨-, rfl⟩ := check_ok.mp has
  obtain ⟨-, rfl⟩ := deref_ok.mp hsome
  exact same.mkdir _ _ _ _ fun h => spares p t found (h.keep nc.symm mt.symm) vacant ⟨v, hperm⟩

theorem symlink_same {oldpath newpath : Bytes} (spares : Spares e s (.symlink oldpath newpath)) :
    interfaceSymlink { e with ops := o } oldpath newpath s = interfaceSymlink e oldpath newpath s := by
  refine bind_same (onPath_same same.walk fun p t found => bind_same rfl fun ino t₁ hino =>
    ite_same (fun _ => rfl) fun hnone => bind_same rfl fun n t₂ hn => permitted_same
    fun v hperm nc mt => bind_same rfl fun d v' hd => ?_) fun _ _ _ => rfl
  obtain ⟨vacant, rfl⟩ := vacant_of_inoOf hino hnone
  obtain ⟨rfl, rfl⟩ := read_ok.mp hn
  obtain rfl : v = v' := parentIno_moves (R := Eq) p _ _ _ hd
  exact same.symlink _ _ _ _ fun h => spares p t found (h.keep nc.symm mt.symm) vacant ⟨v, hperm⟩

/-- `mknod` looks at the mount of the node itself. -/
theorem mknod_same {path : Bytes} {mode dev : ℕ} :
    interfaceMknod { e with ops := o } path mode dev s = interfaceMknod e path mode dev s := by
  refine bind_same rfl fun umask _ _ => bind_same (onPath_same same.walk fun p t found =>
    bind_same rfl fun n t₂ hn => permitted_same fun v hperm nc mt => bind_same rfl
    fun ino _ _ => ite_same (fun _ => rfl) fun _ => ite_same (fun _ => rfl) fun _ => bind_same rfl
    fun ro w hro => ite_same (fun _ => rfl) fun hrw => bind_same rfl fun d w' hd => ?_)
    fun _ _ _ => rfl
  obtain ⟨hreadonly, rfl⟩ := isRdonly_ok hro
  obtain rfl := parentIno_moves (R := Eq) p _ _ _ hd
  exact same.mknod _ _ _ _ _ fun h => hrw (hreadonly.mp h)

/-- The calls that change attributes by name look at the mount. -/
theorem setattr_same {path : Bytes} {mask : ℕ} :
    interfaceSetattr { e with ops := o } path mask s = interfaceSetattr e path mask s := by
  refine bind_same (onPath_same same.walk fun p t found => bind_same rfl fun ino _ _ => bind_same rfl
    fun held _ _ => bind_same rfl fun _ _ _ => bind_same rfl fun _ _ _ => bind_same rfl
    fun i _ _ => bind_same rfl fun ro w hro => ite_same (fun _ => rfl) fun hrw => ?_) fun _ _ _ => rfl
  obtain ⟨hreadonly, rfl⟩ := isRdonly_ok hro
  exact same.setattr _ _ _ _ _ fun h => hrw (hreadonly.mp h)

omit same in
/-- `rename` in two parts: its checks, and what it asks the driver for. -/
theorem renameNodes_eq (old new : Pno) : renameNodes e old new = (do
    let no ← pnodeAt old
    let nn ← pnodeAt new
    match ← renameStops e old new with
    | some err => return err
    | none => renameTail e old new no.base nn.base) := by
  funext s
  unfold renameNodes renameStops renameTail
  simp only [bind_assoc, pure_bind, ite_bind]
  rfl

theorem rename_same {oldpath newpath : Bytes} (spares : Spares e s (.rename oldpath newpath)) :
    interfaceRename { e with ops := o } oldpath newpath s = interfaceRename e oldpath newpath s := by
  have stops : ∀ p q, renameStops { e with ops := o } p q = renameStops e p q := by
    intro p q
    unfold renameStops
    rw [prune_same same]
  have gone : ∀ i, iGone { e with ops := o } i = iGone e i := by
    intro i
    rw [same.swap]
    rfl
  refine ite_same (fun _ => rfl) fun hempty => bind_same (onPath_same same.walk fun p t hp =>
    onPath_same same.walk fun q u hq => ?_) fun _ _ _ => rfl
  obtain ⟨hold, hnew⟩ := not_or.mp hempty
  rw [renameNodes_eq, renameNodes_eq]
  refine bind_same rfl fun no u₁ hno => bind_same rfl fun nn u₂ hnn => bind_same (by rw [stops])
    fun stop v hstop => ?_
  obtain ⟨-, rfl⟩ := read_ok.mp hno
  obtain ⟨-, rfl⟩ := read_ok.mp hnn
  cases stop with
  | some err => rfl
  | none =>
    refine bind_same rfl fun d v₁ hd => bind_same ?_ fun err w _ => ite_same (fun _ => rfl) fun _ =>
      bind_same rfl fun inn _ _ => by rw [funext gone]
    obtain ⟨bound, rfl⟩ := parentIno_ok hd
    obtain ⟨hp', hq'⟩ := spares p t q u v hold hnew hp hq hstop bound
    exact same.rename _ _ _ _ hp' hq'

theorem link_same {oldpath newpath : Bytes} (spares : Spares e s (.link oldpath newpath)) :
    interfaceLink { e with ops := o } oldpath newpath s = interfaceLink e oldpath newpath s := by
  refine bind_same (onPath_same same.walk fun p t hp => bind_same rfl fun ino t₁ hino =>
    bind_same rfl fun i t₂ hi => bind_same rfl fun r t₃ hread => ite_same (fun _ => rfl) fun hdir =>
    onPath_same same.walk fun q u hq => bind_same rfl fun inn u₁ hinn => ite_same (fun _ => rfl)
    fun hnone => bind_same rfl fun no u₂ hno => bind_same rfl fun nn u₃ hnn => bind_same rfl
    fun mo u₄ hreado => bind_same rfl fun mn u₅ hreadn => ite_same (fun _ => rfl) fun hroot =>
    bind_same rfl fun d u₆ hd => bind_same ?_ fun _ _ _ => rfl) fun _ _ _ => rfl
  obtain ⟨b, hb, hbi, rfl⟩ := inoOf_ok.mp hino
  obtain ⟨rfl, rfl⟩ := deref_ok.mp hi
  obtain ⟨hr, rfl⟩ := deref_ok.mp hread
  obtain ⟨vacant, rfl⟩ := vacant_of_inoOf hinn hnone
  obtain ⟨rfl, rfl⟩ := read_ok.mp hno
  obtain ⟨rfl, rfl⟩ := read_ok.mp hnn
  obtain ⟨hmo, rfl⟩ := deref_ok.mp hreado
  obtain ⟨hmn, rfl⟩ := deref_ok.mp hreadn
  obtain ⟨bound, rfl⟩ := parentIno_ok hd
  obtain ⟨hp', hq'⟩ := spares p t r q u mo mn hp ⟨b, i, hb, hbi, hr⟩ (by simpa using hdir) hq vacant
    hmo hmn (not_not.mp hroot) bound
  exact same.link _ _ _ _ hp' hq'

theorem transfer_same {wr : Bool} {fd : ℤ} {count : ℕ} {offset : Option ℤ}
    (spares : wr = true → ∀ r, Opened s fd r → fChkrw r.flags true = true → ¬ ReadOnly r.pno s) :
    transfer { e with ops := o } wr fd count offset s = transfer e wr fd count offset s := by
  refine onFile_same fun f r hopen _ => ite_same (fun _ => rfl) fun hchk => bind_same ?_ fun _ _ _ => rfl
  cases wr with
  | true => exact same.write _ _ _ _ _ (spares rfl r hopen (by simpa using hchk))
  | false => exact congrFun (congrFun (congrFun (congrFun (congrFun same.read _) _) _) _) _

theorem ftruncate_same {fd length : ℤ} (spares : Spares e s (.ftruncate fd length)) :
    interfaceFtruncate { e with ops := o } fd length s = interfaceFtruncate e fd length s := by
  refine onFile_same fun f r hopen _ => ite_same (fun _ => rfl) fun hchk => bind_same ?_ fun _ _ _ => rfl
  refine ite_same (fun _ => rfl) fun hlen => bind_same rfl fun i t hread => ite_same (fun _ => rfl)
    fun _ => ite_same (fun _ => rfl) fun hreg => ?_
  obtain ⟨hi, rfl⟩ := deref_ok.mp hread
  exact same.ftruncate _ _ _ _ (spares r i hopen (by simpa using hchk) (not_lt.mp hlen) hi
    (by simpa using hreg))

theorem fsetattr_same {fd : ℤ} {mask : ℕ}
    (spares : ∀ r, Named s₀ call r → ¬ ReadOnly r.pno s₀) :
    interfaceFsetattr { e with ops := o } fd mask s = interfaceFsetattr e fd mask s :=
  onFile_same fun f r hopen _ => bind_same (bind_same rfl fun held _ _ => bind_same rfl fun _ _ _ =>
    bind_same rfl fun _ _ _ => bind_same rfl fun i _ _ => bind_same rfl fun ro _ _ => ite_same
    (fun _ => rfl) fun _ => same.fsetattr spares _ _ _ _) fun _ _ _ => rfl

/-- What is left of the state while a post is under way: the names and mounts are the same, and the
context has been made for a write or a read. -/
structure Under (s t : Sys D) (c : IocId) (wr : Bool) : Prop where
  nc : t.nc = s.nc
  mt : t.mt = s.mt
  write : (t.aio.ioctx c).map (·.write) = some wr

omit same in
theorem sysioIoctxCb_ok {c : IocId} {wr : Bool} {cb : Callback} {err : ℤ} {t u : Sys D}
    (under : Under s t c wr) (run : sysioIoctxCb e c cb t = .ok (err, u)) :
    Under s u c wr ∧ u.mallocs = t.mallocs + 1 ∧ (err = 0 → e.malloc t.mallocs = true) := by
  obtain ⟨ok, w, hm, h1⟩ := bind_ok.mp run
  obtain ⟨hok, rfl⟩ := malloc_ok hm
  cases ok with
  | false =>
    obtain ⟨rfl, rfl⟩ := pure_ok.mp h1
    exact ⟨⟨under.nc, under.mt, under.write⟩, rfl, fun h => by cases h⟩
  | true =>
    obtain ⟨r, _, hread, h2⟩ := bind_ok.mp h1
    obtain ⟨hr, rfl⟩ := deref_ok.mp hread
    obtain ⟨_, _, hset, h3⟩ := bind_ok.mp h2
    obtain rfl := write_ok.mp hset
    obtain ⟨rfl, rfl⟩ := pure_ok.mp h3
    have hwr := under.write
    rw [hr] at hwr
    exact ⟨⟨under.nc, under.mt, by simpa using hwr⟩, rfl, fun _ => hok⟩

omit same in
theorem registerAll_ok {c : IocId} {wr : Bool} {t u : Sys D} (under : Under s t c wr)
    {cbs : List Callback} {err : ℤ} (run : registerAll e c cbs t = .ok (err, u)) :
    Under s u c wr ∧ (err = 0 → Fed e t cbs.length) := by
  induction cbs generalizing t with
  | nil =>
    obtain ⟨rfl, rfl⟩ := pure_ok.mp run
    exact ⟨under, fun _ k hk => by simp at hk⟩
  | cons cb cbs ih =>
    obtain ⟨err₁, v, hcb, h1⟩ := bind_ok.mp run
    obtain ⟨under', mallocs, first⟩ := sysioIoctxCb_ok under hcb
    by_cases herr : err₁ ≠ 0
    · rw [if_pos herr] at h1
      obtain ⟨rfl, rfl⟩ := pure_ok.mp h1
      exact ⟨under', fun h => (herr h).elim⟩
    rw [if_neg herr] at h1
    obtain ⟨under'', fed⟩ := ih under' h1
    exact ⟨under'', fun h => (fed_succ (first (not_not.mp herr)) mallocs).mp (fed h)⟩

omit same in
/-- A context that has been made took an allocation and an inode. -/
theorem sysioIoctxNew_ok {i : InoId} {wr : Bool} {iov xtv : Option VecId} {t : Sys D} {c : IocId}
    (run : sysioIoctxNew e i wr iov xtv s = .ok (some c, t)) :
    Under s t c wr ∧ t.mallocs = s.mallocs + 1 ∧ e.malloc s.mallocs = true ∧
      (s.ic.inode i).isSome = true := by
  obtain ⟨ok, u, hm, h1⟩ := bind_ok.mp run
  obtain ⟨hok, rfl⟩ := malloc_ok hm
  cases ok with
  | false =>
    obtain ⟨hnone, -⟩ := pure_ok.mp h1
    cases hnone
  | true =>
    obtain ⟨_, v, href, h2⟩ := bind_ok.mp h1
    obtain ⟨r, _, hread, h3⟩ := bind_ok.mp href
    obtain ⟨hr, rfl⟩ := deref_ok.mp hread
    obtain rfl := write_ok.mp h3
    obtain ⟨c', _, hc, h4⟩ := bind_ok.mp h2
    obtain ⟨rfl, rfl⟩ := read_ok.mp hc
    obtain ⟨_, _, hw, h5⟩ := bind_ok.mp h4
    obtain rfl := write_ok.mp hw
    obtain ⟨hc, rfl⟩ := pure_ok.mp h5
    obtain rfl := Option.some.inj hc
    exact ⟨⟨rfl, rfl, by simp⟩, rfl, hok, Option.isSome_iff_exists.mpr ⟨r, hr⟩⟩

theorem sysioIiox_same {wr : Bool} {f : FilId} {cc : ℤ} {iov xtv : Option VecId}
    {cbs : List Callback} (spares : wr = true → 0 ≤ cc → ∀ r i, s.ft.file f = some r →
      fChkrw r.flags true = true → s.ic.inode r.ino = some i → Fed e s (cbs.length + 1) →
      ¬ ReadOnly r.pno s) :
    sysioIiox { e with ops := o } wr f cc iov xtv cbs s = sysioIiox e wr f cc iov xtv cbs s := by
  have register : ∀ c l, registerAll { e with ops := o } c l = registerAll e c l := by
    intro c l
    induction l with
    | nil => rfl
    | cons cb l ih =>
      unfold registerAll
      rw [ih]
      rfl
  have complete : ∀ c, sysioIoctxComplete { e with ops := o } c = sysioIoctxComplete e c := by
    intro c
    rw [same.swap]
    rfl
  refine bind_same rfl fun r t₁ hread => ite_same (fun _ => rfl) fun hchk => ite_same (fun _ => rfl)
    fun hcc => bind_same rfl fun made t hnew => ?_
  obtain ⟨hr, rfl⟩ := deref_ok.mp hread
  cases made with
  | none => rfl
  | some c =>
    refine bind_same (by rw [register]) fun err u hreg => bind_same (ite_same (fun _ => rfl)
      fun hzero => ?_) fun err _ _ => by rw [complete]
    obtain ⟨under, mallocs, first, hino⟩ := sysioIoctxNew_ok hnew
    obtain ⟨under', fed⟩ := registerAll_ok under hreg
    refine same.post _ _ _ _ fun h => ?_
    obtain ⟨i, hi⟩ := Option.isSome_iff_exists.mp hino
    obtain ⟨q, hq, hwrite⟩ := (Option.any_eq_true _ _).mp h.2
    have hwr : wr = true := by
      have := under'.write
      rw [hq] at this
      exact (Option.some.inj this).symm.trans hwrite
    exact spares hwr (not_lt.mp hcc) r i hr (by simpa [hwr] using hchk) hi
      ((fed_succ first mallocs).mp (fed (not_not.mp hzero))) (h.1.keep under'.nc.symm under'.mt.symm)

/-- A vector has been allocated. -/
structure Allocated (e : Env D) (s t : Sys D) : Prop where
  nc : t.nc = s.nc
  mt : t.mt = s.mt
  ft : t.ft = s.ft
  ic : t.ic = s.ic
  first : e.malloc s.mallocs = true
  mallocs : t.mallocs = s.mallocs + 1

omit same in
theorem mallocVec_ok {v : VecId} {t : Sys D} (run : mallocVec e s = .ok (some v, t)) :
    Allocated e s t := by
  obtain ⟨ok, u, hm, h1⟩ := bind_ok.mp run
  obtain ⟨hok, rfl⟩ := malloc_ok hm
  cases ok with
  | false =>
    obtain ⟨hnone, -⟩ := pure_ok.mp h1
    cases hnone
  | true =>
    obtain ⟨v', _, hv, h2⟩ := bind_ok.mp h1
    obtain ⟨-, rfl⟩ := read_ok.mp hv
    obtain ⟨_, _, hw, h3⟩ := bind_ok.mp h2
    obtain rfl := write_ok.mp hw
    obtain ⟨-, rfl⟩ := pure_ok.mp h3
    exact ⟨rfl, rfl, rfl, rfl, hok, rfl⟩

omit same in
/-- A descriptor may be written asynchronously with `n` allocations to go. -/
def MayPost (e : Env D) (s : Sys D) (f : FilId) (n : ℕ) : Prop :=
  ∀ r i, s.ft.file f = some r → fChkrw r.flags true = true → s.ic.inode r.ino = some i → Fed e s n →
    ¬ ReadOnly r.pno s

omit same in
theorem MayPost.next {f : FilId} {n : ℕ} {t : Sys D} (h : MayPost e s f (n + 1))
    (a : Allocated e s t) : MayPost e t f n := by
  intro r i hr hchk hi fed hro
  rw [a.ft] at hr
  rw [a.ic] at hi
  exact h r i hr hchk hi ((fed_succ a.first a.mallocs).mp fed) (hro.keep a.nc.symm a.mt.symm)

theorem sysioIiov_same {wr : Bool} {f : FilId} {lens : List ℕ} {cc : ℤ} {iov xtv : Option VecId}
    {cbs : List Callback} (spares : wr = true → 0 ≤ sysioSumIovec lens → 0 ≤ cc →
      MayPost e s f (cbs.length + 2)) :
    sysioIiov { e with ops := o } wr f lens cc iov xtv cbs s = sysioIiov e wr f lens cc iov xtv cbs s := by
  refine ite_same (fun _ => rfl) fun hsum => sysioIiox_same same fun hwr hcc => ?_
  rw [List.length_append]
  exact spares hwr (not_lt.mp hsum) hcc

theorem sysioIpiov_same {wr : Bool} {f : FilId} {lens : List ℕ} {cc : ℤ} {iov xtv : Option VecId}
    {cbs : List Callback} (spares : wr = true → 0 ≤ sysioSumIovec lens → 0 ≤ cc →
      MayPost e s f (cbs.length + 1)) :
    sysioIpiov { e with ops := o } wr f lens cc iov xtv cbs s =
      sysioIpiov e wr f lens cc iov xtv cbs s :=
  ite_same (fun _ => rfl) fun hsum => sysioIiox_same same fun hwr hcc =>
    spares hwr (not_lt.mp hsum) hcc

omit same in
/-- An asynchronous call on a descriptor. -/
theorem onFil_same {α : Type} {fd : ℤ} {z : α} {k k' : FilId → Sysio D α}
    (hk : ∀ f, (∀ r, s.ft.file f = some r → Opened s fd r) → k' f s = k f s) :
    (do
      match ← sysioFdFind fd with
      | none => return z
      | some f => k' f : Sysio D α) s =
    (do
      match ← sysioFdFind fd with
      | none => return z
      | some f => k f) s := by
  refine bind_same rfl fun fil t hfind => ?_
  obtain ⟨hslot, rfl⟩ := read_ok.mp hfind
  cases fil with
  | none => rfl
  | some f => exact hk f fun r hr => ⟨f, hslot, hr⟩

omit same in
theorem onExtents_same {u : IocId} {post post' : VecId → Sysio D (ℤ × Option IocId)}
    (hpost : ∀ xtv t, Allocated e s t → post' xtv t = post xtv t) :
    (do
      match ← mallocVec { e with ops := o } with
      | none => return (none, -ENOMEM)
      | some xtv => posted u [xtv] (post' xtv) : Sysio D (Option IocId × ℤ)) s =
    (do
      match ← mallocVec e with
      | none => return (none, -ENOMEM)
      | some xtv => posted u [xtv] (post xtv)) s := by
  refine bind_same rfl fun made t hmade => ?_
  cases made with
  | none => rfl
  | some xtv => exact bind_same (hpost xtv t (mallocVec_ok hmade)) fun _ _ _ => rfl

theorem iread_same {u : IocId} {wr : Bool} {fd : ℤ} {count : ℕ} {cc : ℤ}
    (spares : wr = true → 0 ≤ sysioSumIovec [count] → 0 ≤ cc → ∀ f,
      (∀ r, s.ft.file f = some r → Opened s fd r) → MayPost e s f 6) :
    interfaceIread { e with ops := o } u wr fd count cc s = interfaceIread e u wr fd count cc s := by
  refine onFil_same fun f hopen => bind_same rfl fun iov t hiov => ?_
  cases iov with
  | none => rfl
  | some iov =>
    refine bind_same rfl fun xtv v hxtv => ?_
    cases xtv with
    | none => rfl
    | some xtv =>
      exact bind_same (sysioIiov_same same fun hwr hsum hcc => ((spares hwr hsum hcc f hopen).next
        (mallocVec_ok hiov)).next (mallocVec_ok hxtv)) fun _ _ _ => rfl

theorem ipread_same {u : IocId} {wr : Bool} {fd : ℤ} {count : ℕ} {cc : ℤ}
    (spares : wr = true → 0 ≤ sysioSumIovec [count] → 0 ≤ cc → ∀ f,
      (∀ r, s.ft.file f = some r → Opened s fd r) → MayPost e s f 5) :
    interfaceIpread { e with ops := o } u wr fd count cc s = interfaceIpread e u wr fd count cc s := by
  refine onFil_same fun f hopen => bind_same rfl fun xtv t hxtv => bind_same rfl
    fun iov v hiov => ?_
  cases xtv with
  | none => rfl
  | some xtv =>
    cases iov with
    | none => rfl
    | some iov =>
      exact bind_same (sysioIpiov_same same fun hwr hsum hcc => ((spares hwr hsum hcc f hopen).next
        (mallocVec_ok hxtv)).next (mallocVec_ok hiov)) fun _ _ _ => rfl

omit same in
theorem post_same {lib : Library D} (same : SameOnWritable lib.env s₀ call o)
    (hcall : PostMoves.isPost call = true)
    (spares : ∀ fd n r i, writes call = some (fd, n) → Opened s fd r → fChkrw r.flags true = true →
      s.ic.inode r.ino = some i → Fed lib.env s n → ¬ ReadOnly r.pno s) :
    step { lib with env := { lib.env with ops := o } } call s = step lib call s := by
  cases call with
  | iread u wr fd count cc =>
    refine bind_same (iread_same same fun hwr hsum hcc f hopen r i hr => ?_) fun _ _ _ => rfl
    subst hwr
    have plan : writes (.iread u true fd count cc) = some (fd, 6) := by
      simp only [writes, hsum, hcc, and_self, if_true]
    exact spares fd 6 r i plan (hopen r hr)
  | ireadv u wr fd lens cc =>
    refine bind_same (onFil_same fun f hopen => onExtents_same fun xtv t a =>
      sysioIiov_same same fun hwr hsum hcc => MayPost.next (fun r i hr => ?_) a) fun _ _ _ => rfl
    subst hwr
    exact spares fd 4 r i (if_pos ⟨hsum, hcc⟩) (hopen r hr)
  | ipread u wr fd count cc =>
    refine bind_same (ipread_same same fun hwr hsum hcc f hopen r i hr => ?_) fun _ _ _ => rfl
    subst hwr
    have plan : writes (.ipread u true fd count cc) = some (fd, 5) := by
      simp only [writes, hsum, hcc, and_self, if_true]
    exact spares fd 5 r i plan (hopen r hr)
  | ipreadv u wr fd lens cc =>
    refine bind_same (onFil_same fun f hopen => onExtents_same fun xtv t a =>
      sysioIpiov_same same fun hwr hsum hcc => MayPost.next (fun r i hr => ?_) a) fun _ _ _ => rfl
    subst hwr
    exact spares fd 3 r i (if_pos ⟨hsum, hcc⟩) (hopen r hr)
  | ireadx u wr fd iovs xtvs cc =>
    refine bind_same (onFil_same fun f hopen => ite_same (fun _ => rfl) fun hargs =>
      onExtents_same fun xtv t a => sysioIiox_same same fun hwr hcc => MayPost.next
      (fun r i hr => ?_) a) fun _ _ _ => rfl
    subst hwr
    obtain ⟨hiovs, hxtvs⟩ := not_or.mp hargs
    exact spares fd 3 r i (if_pos ⟨hiovs, hxtvs, hcc⟩) (hopen r hr)
  | iread64x u fd iovs xtvs cc =>
    exact bind_same (onFil_same fun f hopen => ite_same (fun _ => rfl) fun _ =>
      bind_same (sysioIiox_same same fun hwr => by cases hwr) fun _ _ _ => rfl) fun _ _ _ => rfl
  | iwrite64x u fd xtvs cc =>
    refine bind_same (onFil_same fun f hopen => ite_same (fun _ => rfl) fun hxtvs =>
      bind_same (sysioIiox_same same fun _ hcc r i hr => ?_) fun _ _ _ => rfl) fun _ _ _ => rfl
    exact spares fd 1 r i (if_pos ⟨hxtvs, hcc⟩) (hopen r hr)
  | _ => cases hcall

theorem drainTable_same (f : FsId) (n : ℕ) :
    drainTable { e with ops := o } f n = drainTable e f n := by
  have gone : ∀ i, sysioIGone { e with ops := o } i = sysioIGone e i := by
    intro i
    rw [same.swap]
    rfl
  have chain : ∀ slot fuel, drainChain { e with ops := o } f slot fuel = drainChain e f slot fuel := by
    intro slot fuel
    induction fuel with
    | zero => rfl
    | succ fuel ih =>
      unfold drainChain
      rw [ih, funext gone]
  induction n with
  | zero => rfl
  | succ n ih =>
    unfold drainTable
    simp only [chain, ih]

theorem fsRele_same (f : FsId) : fsRele { e with ops := o } f = fsRele e f := by
  unfold fsRele sysioFsGone
  simp only [drainTable_same same, same.fsopGone]

theorem umount_same {target : Bytes} :
    interfaceUmount { e with ops := o } target s = interfaceUmount e target s := by
  have pgone : ∀ p, sysioPGone { e with ops := o } p = sysioPGone e p := by
    intro p
    rw [same.swap]
    rfl
  have commit : ∀ m root covers,
      unmountCommit { e with ops := o } m root covers = unmountCommit e m root covers := by
    intro m root covers
    unfold unmountCommit
    simp only [pgone, fsRele_same same]
  have unmount : ∀ m, sysioDoUnmount { e with ops := o } m = sysioDoUnmount e m := by
    intro m
    unfold sysioDoUnmount
    simp only [prune_same same, commit]
  exact onMount_same same.walk fun p t found => by simp only [unmount]

theorem iowait_same {ioid : IocId} {polls : ℕ} :
    interfaceIowait { e with ops := o } ioid polls = interfaceIowait e ioid polls := by
  have done : ∀ c, sysioIoctxDone { e with ops := o } c = sysioIoctxDone e c := by
    intro c
    rw [same.swap]
    rfl
  have complete : ∀ c, sysioIoctxComplete { e with ops := o } c = sysioIoctxComplete e c := by
    intro c
    rw [same.swap]
    rfl
  have wait : ∀ c, sysioIoctxWait { e with ops := o } c polls = sysioIoctxWait e c polls := by
    intro c
    induction polls with
    | zero => rfl
    | succ polls ih =>
      unfold sysioIoctxWait
      rw [ih, done, complete]
  unfold interfaceIowait
  simp only [wait]

omit same in
/-- A call that spares the read-only mounts leaves them as they are. -/
theorem step_same {lib : Library D} (ops : OpsMove OffInodes lib.env)
    (same : SameOnWritable lib.env s call o) (spares : Spares lib.env s call) :
    step { lib with env := { lib.env with ops := o } } call s = step lib call s := by
  cases call with
  | open_ u path flags mode => exact interfaceOpen_same same ops spares
  | close fd => exact bind_same (by rw [same.swap]; rfl) fun _ _ _ => rfl
  | unlink u path => exact unlink_same same spares
  | rmdir u path => exact rmdir_same same spares
  | mkdir path mode => exact mkdir_same same spares
  | stat path =>
    exact onMount_same same.walk fun p t found => bind_same rfl fun ino _ _ => bind_same rfl
      fun d _ _ => bind_same (by rw [same.getattr]) fun _ _ _ => rfl
  | lstat path => exact bind_same (onPath_same same.walk fun p t found => rfl) fun _ _ _ => rfl
  | access path amode => exact bind_same (onPath_same same.walk fun p t found => rfl) fun _ _ _ => rfl
  | readlink path bufsiz =>
    exact bind_same (onPath_same same.walk fun p t found => bind_same rfl fun _ _ _ => bind_same rfl
      fun _ _ _ => bind_same rfl fun _ _ _ => ite_same (fun _ => rfl) fun _ =>
      bind_same (by rw [same.readlink]) fun _ _ _ => rfl) fun _ _ _ => rfl
  | chmod path => exact setattr_same same
  | chown path owner group => exact setattr_same same
  | utime path => exact setattr_same same
  | symlink oldpath newpath => exact symlink_same same spares
  | mknod path mode dev => exact mknod_same same
  | link oldpath newpath => exact link_same same spares
  | rename oldpath newpath => exact rename_same same spares
  | chdir path =>
    have node : ∀ p, sysioPChdir { lib.env with ops := o } p = sysioPChdir lib.env p := by
      intro p
      rw [same.swap]
      rfl
    exact bind_same rfl fun cwd _ _ => bind_same (by rw [sysioNamei_same same.walk]) fun res _ _ =>
      ite_same (fun _ => rfl) fun _ => bind_same rfl fun p _ _ => by rw [node]
  | mount source target fstype flags =>
    refine bind_same rfl fun root _ _ => bind_same ?_ fun _ _ _ => rfl
    change sysioMount _ (lib.fssw fstype) _ _ _ _ _ _ = _
    unfold sysioMount
    rw [sysioNamei_same same.walk]
  | umount target => exact umount_same same
  | dup oldfd => exact bind_same (by rw [same.swap]; rfl) fun _ _ _ => rfl
  | dup2 oldfd newfd =>
    exact ite_same (fun _ => rfl) fun _ => bind_same (by rw [same.swap]; rfl) fun _ _ _ => rfl
  | read fd count => exact transfer_same same fun h => by cases h
  | write fd count => exact transfer_same same fun _ => spares
  | pread fd count offset => exact transfer_same same fun h => by cases h
  | pwrite fd count offset => exact transfer_same same fun _ => spares
  | ftruncate fd length => exact ftruncate_same same spares
  | fsync fd => exact onFile_same fun f r _ _ => bind_same (by rw [same.sync]) fun _ _ _ => rfl
  | fdatasync fd => exact onFile_same fun f r _ _ => bind_same (by rw [same.datasync]) fun _ _ _ => rfl
  | fstat fd => exact onFile_same fun f r _ _ => bind_same (by rw [same.getattr]) fun _ _ _ => rfl
  | fchmod fd => exact fsetattr_same same spares
  | fchown fd owner group => exact fsetattr_same same spares
  | lseek fd offset whence size =>
    have prepare : ∀ r, sysioLseekPrepare { lib.env with ops := o } r offset whence
        SysioReconcile.SSIZE_MAX size =
        sysioLseekPrepare lib.env r offset whence SysioReconcile.SSIZE_MAX size := by
      intro r
      rw [same.swap]
      rfl
    refine bind_same rfl fun fil _ _ => ?_
    cases fil with
    | none => rfl
    | some f => exact bind_same (bind_same rfl fun r _ _ => by rw [prepare]) fun _ _ _ => rfl
  | iodone ioid =>
    refine bind_same rfl fun found _ _ => ?_
    cases found with
    | none => rfl
    | some c => exact bind_same (by rw [same.swap]; rfl) fun _ _ _ => rfl
  | iowait ioid polls => exact congrFun (iowait_same same) s
  | iread u wr fd count cc => exact post_same same rfl spares
  | ireadv u wr fd lens cc => exact post_same same rfl spares
  | ipread u wr fd count cc => exact post_same same rfl spares
  | ipreadv u wr fd lens cc => exact post_same same rfl spares
  | ireadx u wr fd iovs xtvs cc => exact post_same same rfl spares
  | iread64x u fd iovs xtvs cc => exact post_same same rfl spares
  | iwrite64x u fd xtvs cc => exact post_same same rfl spares

end Spared

section Trap

open Classical in
/-- The operation `m` with the fault `x` where it may not be used. -/
noncomputable def barred {α : Type} (x : Fault) (c : Sys D → Prop) (m : Sysio D α) : Sysio D α :=
  fun s => if c s then .error x else m s

theorem barred_out {α : Type} {x : Fault} {c : Sys D → Prop} {m : Sysio D α} {s : Sys D}
    (h : ¬ c s) : barred x c m s = m s := if_neg h

theorem barred_in {α : Type} {x : Fault} {c : Sys D → Prop} {m : Sysio D α} {s : Sys D}
    (h : c s) : barred x c m s = .error x := if_pos h

/-- Operations that stop at the fault `x` where they would change a file system through a node of a
read-only mount. -/
noncomputable def trap (e : Env D) (s₀ : Sys D) (call : Call) (x : Fault) : InodeOps D :=
  { e.ops with
    setattr := fun i p j mask => match p with
      | some p => barred x (ReadOnly p) (e.ops.setattr i (some p) j mask)
      | none => barred x (fun _ => ∃ r, Named s₀ call r ∧ ReadOnly r.pno s₀)
          (e.ops.setattr i none j mask)
    mkdir := fun i p mode => barred x (ReadOnly p) (e.ops.mkdir i p mode)
    rmdir := fun i p => barred x (ReadOnly p) (e.ops.rmdir i p)
    symlink := fun i p path => barred x (ReadOnly p) (e.ops.symlink i p path)
    open_ := fun i p flags mode => barred x (fun s => ReadOnly p s ∧
      (flags &&& O_CREAT ≠ 0 ∧ Vacant p s ∨ flags &&& O_TRUNC ≠ 0)) (e.ops.open_ i p flags mode)
    link := fun i p q => barred x (fun s => ReadOnly p s ∨ ReadOnly q s) (e.ops.link i p q)
    unlink := fun i p => barred x (ReadOnly p) (e.ops.unlink i p)
    rename := fun i p q => barred x (fun s => ReadOnly p s ∨ ReadOnly q s) (e.ops.rename i p q)
    write := fun i n off p => barred x (ReadOnly p) (e.ops.write i n off p)
    post := fun i p c => barred x (fun s => ReadOnly p s ∧ (s.aio.ioctx c).any (·.write) = true)
      (e.ops.post i p c)
    mknod := fun i p mode dev => barred x (ReadOnly p) (e.ops.mknod i p mode dev)
    ftruncate := fun i p n => barred x (ReadOnly p) (e.ops.ftruncate i p n) }

theorem trap_same (e : Env D) (s₀ : Sys D) (call : Call) (x : Fault) :
    SameOnWritable e s₀ call (trap e s₀ call x) where
  lookup := rfl
  getattr := rfl
  readlink := rfl
  close := rfl
  read := rfl
  iodone := rfl
  sync := rfl
  datasync := rfl
  gone := rfl
  fsopGone := rfl
  setattr _ _ _ _ _ := barred_out
  fsetattr h _ _ _ _ := if_neg fun ⟨r, hr, hro⟩ => h r hr hro
  mkdir _ _ _ _ := barred_out
  rmdir _ _ _ := barred_out
  symlink _ _ _ _ := barred_out
  open_ _ _ _ _ _ h := if_neg h
  link _ _ _ _ hp hq := if_neg (not_or.mpr ⟨hp, hq⟩)
  unlink _ _ _ := barred_out
  rename _ _ _ _ hp hq := if_neg (not_or.mpr ⟨hp, hq⟩)
  write _ _ _ _ _ := barred_out
  post _ _ _ _ h := if_neg h
  mknod _ _ _ _ _ := barred_out
  ftruncate _ _ _ _ := barred_out

variable {e : Env D} {s₀ s : Sys D} {call : Call} {x : Fault}

/-- A call that runs into every trap changes a read-only mount. -/
theorem Unmutated.no_trap {lib : Library D} (h : Unmutated lib s call) (trapped : ∀ x,
    step { lib with env := { lib.env with ops := trap lib.env s call x } } call s = .error x) :
    False := by
  have abort := (trapped .abort).symm.trans (h _ (trap_same lib.env s call .abort))
  have diverge := (trapped .diverge).symm.trans (h _ (trap_same lib.env s call .diverge))
  cases abort.trans diverge.symm

theorem stands_inoOf {p : Pno} {r : Inode} (stands : Stands p s r) : ∃ i,
    (inoOf p : Sysio D (Option InoId)) s = .ok (some i, s) ∧ s.ic.inode i = some r := by
  obtain ⟨b, i, hb, hbi, hr⟩ := stands
  exact ⟨i, inoOf_ok.mpr ⟨b, hb, hbi, rfl⟩, hr⟩

theorem vacant_inoOf {p : Pno} (vacant : Vacant p s) :
    (inoOf p : Sysio D (Option InoId)) s = .ok (none, s) := by
  obtain ⟨b, hb, hbi⟩ := vacant
  exact inoOf_ok.mpr ⟨b, hb, hbi, rfl⟩

theorem isRdonly_run {p : Pno} (ro : ReadOnly p s) :
    (isRdonly p : Sysio D Bool) s = .ok (true, s) := by
  obtain ⟨m, hm, hflags⟩ := ro
  have hread : (mountAt (s.nc.pnode p).mount : Sysio D Mount) s = .ok (m, s) :=
    deref_ok.mpr ⟨hm, rfl⟩
  refine bind_ok.mpr ⟨_, s, rfl, bind_ok.mpr ⟨m, s, hread, pure_ok.mpr ⟨?_, rfl⟩⟩⟩
  exact bne_iff_ne.mpr hflags

/-- Whoever may write a directory has found its inode, and the names and mounts are as before. -/
theorem mayWrite_run {p : Pno} (may : MayWrite e p s) : ∃ t d,
    sysioPermitted e (s.nc.pnode p).parent W_OK s = .ok (0, t) ∧ t.nc = s.nc ∧ t.mt = s.mt ∧
    (inoOf (t.nc.pnode p).parent : Sysio D (Option InoId)) t = .ok (some d, t) := by
  obtain ⟨t, run⟩ := may
  have hscratch : Scratch s t := sysioPermitted_moves (fun _ _ k => k) _ _ _ _ _ run
  obtain ⟨⟨err, cr⟩, u, hcreds, h1⟩ := bind_ok.mp run
  have kept : Scratch s u := sysioLdcreds_moves (fun _ _ k => k) _ _ _ hcreds
  by_cases herr : err < 0
  · simp only [if_pos herr] at h1
    obtain ⟨h0, -⟩ := pure_ok.mp h1
    omega
  simp only [if_neg herr] at h1
  unfold sysioCheckPermission at h1
  rw [if_neg (by decide), if_neg (by decide)] at h1
  obtain ⟨ino, v, hino, h2⟩ := bind_ok.mp h1
  obtain ⟨_, _, has, -⟩ := bind_ok.mp h2
  obtain ⟨hsome, -⟩ := check_ok.mp has
  obtain ⟨d, rfl⟩ := Option.isSome_iff_exists.mp hsome
  obtain ⟨b, hb, hbd, -⟩ := inoOf_ok.mp hino
  refine ⟨t, d, run, hscratch.nc, hscratch.mt, inoOf_ok.mpr ⟨b, ?_, hbd, rfl⟩⟩
  rw [kept.nc] at hb
  rw [hscratch.nc]
  exact hb

theorem resolve_trap {path : Bytes} {flags : ℕ} {intnt : Option Intent} :
    resolve { e with ops := trap e s₀ call x } path flags intnt = resolve e path flags intnt :=
  resolve_same (trap_same e s₀ call x).walk

theorem resolveCwd_trap {path : Bytes} {flags : ℕ} {intnt : Option Intent} :
    resolveCwd { e with ops := trap e s₀ call x } path flags intnt = resolveCwd e path flags intnt :=
  resolveCwd_same (trap_same e s₀ call x).walk

theorem unlink_trapped {u : Uninit} {path : Bytes} {p : Pno} {t : Sys D}
    (found : resolve e path ND_NEGOK (some ⟨INT_UPDPARENT⟩) s = .ok (some p, t)) (ro : ReadOnly p t)
    (may : MayWrite e p t) :
    interfaceUnlink { e with ops := trap e s₀ call x } u path s = .error x := by
  rw [← @resolve_trap _ e s₀ call x] at found
  obtain ⟨v, d, hperm, nc, mt, hparent⟩ := mayWrite_run may
  have hread : (pnodeAt p : Sysio D Pnode) t = .ok (t.nc.pnode p, t) := rfl
  have hdir : (parentIno p : Sysio D InoId) v = .ok (d, v) :=
    bind_ok.mpr ⟨_, v, rfl, bind_ok.mpr ⟨some d, v, hparent, rfl⟩⟩
  refine (onMount_run found).trans (bind_error ((bind_run hread).trans ((bind_run hperm).trans
    ((bind_run hdir).trans (bind_error ?_)))))
  exact barred_in (ro.keep nc mt)

theorem rmdir_trapped {u : Uninit} {path : Bytes} {p : Pno} {t : Sys D} {r : Inode}
    (found : resolve e path 0 (some ⟨INT_UPDPARENT⟩) s = .ok (some p, t)) (ro : ReadOnly p t)
    (stands : Stands p t r) (dir : r.stbuf.isDir = true) (href : (t.nc.pnode p).ref ≤ 1)
    (may : MayWrite e p t) :
    interfaceRmdir { e with ops := trap e s₀ call x } u path s = .error x := by
  rw [← @resolve_trap _ e s₀ call x] at found
  obtain ⟨v, d, hperm, nc, mt, hparent⟩ := mayWrite_run may
  obtain ⟨i, hino, hr⟩ := stands_inoOf stands
  have hi : (inodeAt i : Sysio D Inode) t = .ok (r, t) := deref_ok.mpr ⟨hr, rfl⟩
  have hread : (pnodeAt p : Sysio D Pnode) t = .ok (t.nc.pnode p, t) := rfl
  have hdir : (parentIno p : Sysio D InoId) v = .ok (d, v) :=
    bind_ok.mpr ⟨_, v, rfl, bind_ok.mpr ⟨some d, v, hparent, rfl⟩⟩
  have hsome : (nonNull (some i) : Sysio D InoId) t = .ok (i, t) := rfl
  refine (onMount_run found).trans (bind_error ((bind_run hino).trans ((bind_run hsome).trans
    ((bind_run hi).trans ?_))))
  rw [dir]
  refine (bind_run hread).trans ((bind_run hperm).trans ?_)
  rw [if_neg (by decide), if_neg (by omega)]
  exact (bind_run hdir).trans (bind_error (barred_in (ro.keep nc mt)))

theorem mkdir_trapped {path : Bytes} {mode : ℕ} {p : Pno} {t : Sys D}
    (found : resolve e path ND_NEGOK (some ⟨INT_CREAT⟩) s = .ok (some p, t)) (ro : ReadOnly p t)
    (vacant : Vacant p t) (may : MayWrite e p t) :
    interfaceMkdir { e with ops := trap e s₀ call x } path mode s = .error x := by
  rw [← @resolve_trap _ e s₀ call x] at found
  obtain ⟨v, d, hperm, nc, mt, hparent⟩ := mayWrite_run may
  have hino := vacant_inoOf vacant
  have hread : (pnodeAt p : Sysio D Pnode) t = .ok (t.nc.pnode p, t) := rfl
  have humask : (Exec.read fun s => s.umask : Sysio D ℕ) t = .ok (t.umask, t) := rfl
  rw [nc] at hparent
  refine (onMount_run found).trans ((bind_run humask).trans (bind_error ((bind_run hino).trans
    ((bind_run hread).trans ((bind_run hperm).trans ((bind_run hparent).trans ?_))))))
  exact barred_in (ro.keep nc mt)

theorem symlink_trapped {oldpath newpath : Bytes} {p : Pno} {t : Sys D}
    (found : resolveCwd e newpath (ND_NOFOLLOW ||| ND_NEGOK) (some ⟨INT_CREAT⟩) s = .ok (some p, t))
    (ro : ReadOnly p t) (vacant : Vacant p t) (may : MayWrite e p t) :
    interfaceSymlink { e with ops := trap e s₀ call x } oldpath newpath s = .error x := by
  rw [← @resolveCwd_trap _ e s₀ call x] at found
  obtain ⟨v, d, hperm, nc, mt, hparent⟩ := mayWrite_run may
  have hino := vacant_inoOf vacant
  have hread : (pnodeAt p : Sysio D Pnode) t = .ok (t.nc.pnode p, t) := rfl
  have hdir : (parentIno p : Sysio D InoId) v = .ok (d, v) :=
    bind_ok.mpr ⟨_, v, rfl, bind_ok.mpr ⟨some d, v, hparent, rfl⟩⟩
  refine bind_error ((onPath_run found).trans (bind_error ((bind_run hino).trans
    ((bind_run hread).trans ((bind_run hperm).trans ((bind_run hdir).trans ?_))))))
  exact barred_in (ro.keep nc mt)

theorem sysioOpen_trapped {p : Pno} {flags mode : ℕ} {r : Inode} (ro : ReadOnly p s)
    (stands : Stands p s r) (trunc : flags &&& O_TRUNC ≠ 0)
    (reading : flags &&& (O_WRONLY ||| O_RDWR) = 0)
    (old : flags &&& (O_CREAT ||| O_EXCL) ≠ O_CREAT ||| O_EXCL)
    (plain : ¬ (flags &&& O_NOFOLLOW ≠ 0 ∧ r.stbuf.isLnk = true)) :
    sysioOpen { e with ops := trap e s₀ call x } p flags mode s = .error x := by
  obtain ⟨i, hino, hr⟩ := stands_inoOf stands
  have hi : (inodeAt i : Sysio D Inode) s = .ok (r, s) := deref_ok.mpr ⟨hr, rfl⟩
  refine (bind_run (isRdonly_run ro)).trans ?_
  rw [reading, if_neg (by decide), if_neg (by simp)]
  refine (bind_run hino).trans ?_
  simp only [if_neg old]
  refine (bind_run hi).trans ?_
  rw [if_neg plain]
  exact if_pos ⟨ro, Or.inr trunc⟩

theorem interfaceOpen_trapped {u : Uninit} {path : Bytes} {flags mode : ℕ} {p : Pno} {t : Sys D}
    (found : openTarget e path flags s = .ok (some p, t))
    (trapped : ∀ mode, sysioOpen { e with ops := trap e s₀ call x } p flags mode t = .error x) :
    interfaceOpen { e with ops := trap e s₀ call x } u path flags mode s = .error x := by
  have humask : (Exec.read fun s => s.umask : Sysio D ℕ) s = .ok (s.umask, s) := rfl
  have same := (trap_same e s₀ call x).walk
  obtain ⟨m, s₁, hm, h1⟩ := bind_ok.mp found
  refine (bind_run humask).trans ((bind_run hm).trans ?_)
  cases m with
  | none =>
    obtain ⟨hp, -⟩ := pure_ok.mp h1
    cases hp
  | some m =>
    obtain ⟨path', s₂, hpath, h2⟩ := bind_ok.mp h1
    obtain ⟨cwd, s₃, hcwd, h3⟩ := bind_ok.mp h2
    obtain ⟨cwd', s₄, hsome, h4⟩ := bind_ok.mp h3
    obtain ⟨nc, s₅, hnc, h5⟩ := bind_ok.mp h4
    obtain ⟨full, s₆, hfull, h6⟩ := bind_ok.mp h5
    obtain ⟨root, s₇, hroot, h7⟩ := bind_ok.mp h6
    obtain ⟨⟨err, o⟩, s₈, hnamei, h8⟩ := bind_ok.mp h7
    obtain ⟨hp, rfl⟩ := pure_ok.mp h8
    rw [← sysioNamei_same same] at hnamei
    refine (bind_run hpath).trans ((bind_run hcwd).trans ((bind_run hsome).trans ((bind_run hnc).trans
      ((bind_run hfull).trans ((bind_run hroot).trans ((bind_run hnamei).trans ?_))))))
    by_cases herr : err ≠ 0
    · rw [if_pos herr] at hp
      cases hp
    simp only [if_neg herr] at hp ⊢
    subst hp
    have hfound : (nonNull (some p) : Sysio D Pno) s₈ = .ok (p, s₈) := rfl
    exact (bind_run hfound).trans (bind_error (trapped _))

theorem link_trapped {oldpath newpath : Bytes} {p q : Pno} {t u : Sys D} {r : Inode} {mo mn : Mount}
    (hp : resolveCwd e oldpath 0 (some ⟨0⟩) s = .ok (some p, t)) (stands : Stands p t r)
    (dir : r.stbuf.isDir = false)
    (hq : resolveCwd e newpath ND_NEGOK (some ⟨INT_UPDPARENT⟩) t = .ok (some q, u))
    (vacant : Vacant q u) (hmo : u.mt.mount (u.nc.pnode p).mount = some mo)
    (hmn : u.mt.mount (u.nc.pnode q).mount = some mn) (hroot : mo.root = mn.root)
    (bound : Bound (u.nc.pnode p).parent u) (ro : ReadOnly p u ∨ ReadOnly q u) :
    interfaceLink { e with ops := trap e s₀ call x } oldpath newpath s = .error x := by
  rw [← @resolveCwd_trap _ e s₀ call x] at hp hq
  obtain ⟨i, hino, hr⟩ := stands_inoOf stands
  have hi : (inodeAt i : Sysio D Inode) t = .ok (r, t) := deref_ok.mpr ⟨hr, rfl⟩
  have hsome : (nonNull (some i) : Sysio D InoId) t = .ok (i, t) := rfl
  have hreadp : (pnodeAt p : Sysio D Pnode) u = .ok (u.nc.pnode p, u) := rfl
  have hreadq : (pnodeAt q : Sysio D Pnode) u = .ok (u.nc.pnode q, u) := rfl
  have hreado : (mountAt (u.nc.pnode p).mount : Sysio D Mount) u = .ok (mo, u) :=
    deref_ok.mpr ⟨hmo, rfl⟩
  have hreadn : (mountAt (u.nc.pnode q).mount : Sysio D Mount) u = .ok (mn, u) :=
    deref_ok.mpr ⟨hmn, rfl⟩
  obtain ⟨d, hd⟩ := parentIno_run bound
  refine bind_error ((onPath_run hp).trans (bind_error ((bind_run hino).trans ((bind_run hsome).trans
    ((bind_run hi).trans ?_)))))
  rw [dir]
  refine (onPath_run hq).trans (bind_error ((bind_run (vacant_inoOf vacant)).trans
    ((bind_run hreadp).trans ((bind_run hreadq).trans ((bind_run hreado).trans
    ((bind_run hreadn).trans ?_))))))
  rw [if_neg (not_not.mpr hroot)]
  exact (bind_run hd).trans (bind_error (if_pos ro))

theorem rename_trapped {oldpath newpath : Bytes} {p q : Pno} {t u v : Sys D}
    (hold : oldpath ≠ []) (hnew : newpath ≠ [])
    (hp : resolveCwd e oldpath ND_NOFOLLOW (some ⟨INT_UPDPARENT⟩) s = .ok (some p, t))
    (hq : resolveCwd e newpath (ND_NOFOLLOW ||| ND_NEGOK) (some ⟨INT_UPDPARENT⟩) t =
      .ok (some q, u))
    (stops : renameStops e p q u = .ok (none, v)) (bound : Bound (v.nc.pnode p).parent v)
    (ro : ReadOnly p v ∨ ReadOnly q v) :
    interfaceRename { e with ops := trap e s₀ call x } oldpath newpath s = .error x := by
  rw [← @resolveCwd_trap _ e s₀ call x] at hp hq
  have stops' : renameStops { e with ops := trap e s₀ call x } p q u = .ok (none, v) := by
    rw [← stops]
    unfold renameStops
    rw [prune_same (trap_same e s₀ call x)]
  obtain ⟨d, hd⟩ := parentIno_run bound
  have hreadp : (pnodeAt p : Sysio D Pnode) u = .ok (u.nc.pnode p, u) := rfl
  have hreadq : (pnodeAt q : Sysio D Pnode) u = .ok (u.nc.pnode q, u) := rfl
  unfold interfaceRename
  rw [if_neg (not_or.mpr ⟨hold, hnew⟩)]
  refine bind_error ((onPath_run hp).trans (bind_error ((onPath_run hq).trans (bind_error ?_))))
  rw [renameNodes_eq]
  exact (bind_run hreadp).trans ((bind_run hreadq).trans ((bind_run stops').trans
    ((bind_run hd).trans (bind_error (if_pos ro)))))

theorem write_trapped {fd : ℤ} {count : ℕ} {offset : Option ℤ} {r : File} (opened : Opened s fd r)
    (hchk : fChkrw r.flags true = true) (ro : ReadOnly r.pno s) :
    transfer { e with ops := trap e s₀ call x } true fd count offset s = .error x := by
  refine onFile_error opened fun f hr => ?_
  rw [hchk]
  exact bind_error (barred_in ro)

theorem ftruncate_trapped {fd length : ℤ} {r : File} {i : Inode} (opened : Opened s fd r)
    (hchk : fChkrw r.flags true = true) (hlen : 0 ≤ length) (hi : s.ic.inode r.ino = some i)
    (hreg : i.stbuf.isReg = true) (ro : ReadOnly r.pno s) :
    interfaceFtruncate { e with ops := trap e s₀ call x } fd length s = .error x := by
  refine onFile_error opened fun f hr => ?_
  rw [hchk]
  exact bind_error ((doTruncate_run hlen hi hreg).trans (barred_in ro))

theorem fsetattr_trapped {fd : ℤ} {mask : ℕ} {r : File} (opened : Opened s fd r)
    (named : ∃ r, Named s₀ call r ∧ ReadOnly r.pno s₀) :
    interfaceFsetattr { e with ops := trap e s₀ call x } fd mask s = .error x := by
  refine onFile_error opened fun f hr => bind_error ?_
  have held : (pure (some r.ino) : Sysio D (Option InoId)) s = .ok (some r.ino, s) := rfl
  have asserted : (assert (some r.ino == some r.ino) : Sysio D Unit) s = .ok ((), s) := by
    rw [beq_self_eq_true]
    rfl
  have hsome : (assert (some r.ino).isSome : Sysio D Unit) s = .ok ((), s) := rfl
  have hino : (nonNull (some r.ino) : Sysio D InoId) s = .ok (r.ino, s) := rfl
  have hro : (pure false : Sysio D Bool) s = .ok (false, s) := rfl
  exact (bind_run held).trans ((bind_run asserted).trans ((bind_run hsome).trans ((bind_run hino).trans
    ((bind_run hro).trans (if_pos named)))))

theorem malloc_run {n : ℕ} (fed : Fed e s (n + 1)) :
    malloc e s = .ok (true, { s with mallocs := s.mallocs + 1 }) := by
  rw [← fed.head]
  rfl

theorem mallocVec_run {n : ℕ} (fed : Fed e s (n + 1)) :
    ∃ v t, mallocVec e s = .ok (some v, t) ∧ Allocated e s t ∧ Fed e t n := by
  have run : mallocVec e s = .ok (some s.aio.nextVec,
      { s with mallocs := s.mallocs + 1, aio.nextVec := s.aio.nextVec + 1 }) :=
    bind_run (malloc_run fed)
  exact ⟨_, _, run, mallocVec_ok run, (fed_succ fed.head rfl).mpr fed⟩

theorem sysioIoctxNew_run {n : ℕ} {j : InoId} {i : Inode} {wr : Bool} {iov xtv : Option VecId}
    (fed : Fed e s (n + 1)) (hi : s.ic.inode j = some i) :
    ∃ c t, sysioIoctxNew e j wr iov xtv s = .ok (some c, t) ∧ Under s t c wr ∧ Fed e t n := by
  have ref : ∃ u, (iRef j : Sysio D Unit) { s with mallocs := s.mallocs + 1 } = .ok ((), u) :=
    ⟨_, bind_run (deref_ok.mpr ⟨hi, rfl⟩)⟩
  obtain ⟨u, ref⟩ := ref
  have run : ∃ c t, sysioIoctxNew e j wr iov xtv s = .ok (some c, t) :=
    ⟨u.aio.nextIoctx, _, (bind_run (malloc_run fed)).trans ((bind_run ref).trans rfl)⟩
  obtain ⟨c, t, run⟩ := run
  obtain ⟨under, mallocs, first, -⟩ := sysioIoctxNew_ok run
  exact ⟨_, _, run, under, (fed_succ first mallocs).mpr fed⟩

theorem registerAll_run {c : IocId} {wr : Bool} {cbs : List Callback} {t : Sys D}
    (under : Under s t c wr) (fed : Fed e t cbs.length) :
    ∃ u, registerAll e c cbs t = .ok (0, u) ∧ Under s u c wr := by
  induction cbs generalizing t with
  | nil => exact ⟨t, rfl, under⟩
  | cons cb cbs ih =>
    obtain ⟨r, hr, -⟩ := Option.map_eq_some_iff.mp under.write
    have read : (ioctxAt c : Sysio D Ioctx) { t with mallocs := t.mallocs + 1 } =
        .ok (r, { t with mallocs := t.mallocs + 1 }) := deref_ok.mpr ⟨hr, rfl⟩
    have run : ∃ u, sysioIoctxCb e c cb t = .ok (0, u) :=
      ⟨_, (bind_run (malloc_run fed)).trans ((bind_run read).trans rfl)⟩
    obtain ⟨v, run⟩ := run
    obtain ⟨under', mallocs, -⟩ := sysioIoctxCb_ok under run
    obtain ⟨u, rest, under''⟩ := ih under' ((fed_succ fed.head mallocs).mpr fed)
    exact ⟨u, (bind_run run).trans rest, under''⟩

theorem sysioIiox_trapped {f : FilId} {r : File} {i : Inode} {cc : ℤ} {iov xtv : Option VecId}
    {cbs : List Callback} (hr : s.ft.file f = some r) (hchk : fChkrw r.flags true = true)
    (hcc : 0 ≤ cc) (hi : s.ic.inode r.ino = some i) (fed : Fed e s (cbs.length + 1))
    (ro : ReadOnly r.pno s) :
    sysioIiox { e with ops := trap e s₀ call x } true f cc iov xtv cbs s = .error x := by
  have read : (fileAt f : Sysio D File) s = .ok (r, s) := deref_ok.mpr ⟨hr, rfl⟩
  obtain ⟨c, t, new, under, fed'⟩ := @sysioIoctxNew_run _ { e with ops := trap e s₀ call x } s _ _ i true
    iov xtv fed hi
  obtain ⟨u, registered, under'⟩ := @registerAll_run _ { e with ops := trap e s₀ call x } s c true cbs
    t under fed'
  refine (bind_run read).trans ?_
  rw [hchk, if_neg (by decide), if_neg (not_lt.mpr hcc)]
  refine (bind_run new).trans ((bind_run registered).trans (bind_error ?_))
  obtain ⟨q, hq, hwrite⟩ := Option.map_eq_some_iff.mp under'.write
  refine if_pos ⟨ro.keep under'.nc under'.mt, ?_⟩
  rw [hq]
  exact hwrite

/-- A file that may be written asynchronously with `n` allocations to go, in a read-only mount. -/
structure Exposed (e : Env D) (s : Sys D) (f : FilId) (n : ℕ) : Prop where
  file : ∃ r i, s.ft.file f = some r ∧ fChkrw r.flags true = true ∧ s.ic.inode r.ino = some i ∧
    ReadOnly r.pno s
  fed : Fed e s n

theorem Exposed.next {f : FilId} {n : ℕ} {t : Sys D} (h : Exposed e s f (n + 1))
    (a : Allocated e s t) : Exposed e t f n := by
  obtain ⟨r, i, hr, hchk, hi, ro⟩ := h.file
  exact ⟨⟨r, i, by rw [a.ft]; exact hr, hchk, by rw [a.ic]; exact hi, ro.keep a.nc a.mt⟩,
    (fed_succ a.first a.mallocs).mpr h.fed⟩

theorem Exposed.trapped {f : FilId} {cc : ℤ} {iov xtv : Option VecId} {cbs : List Callback}
    (h : Exposed e s f (cbs.length + 1)) (hcc : 0 ≤ cc) :
    sysioIiox { e with ops := trap e s₀ call x } true f cc iov xtv cbs s = .error x := by
  obtain ⟨r, i, hr, hchk, hi, ro⟩ := h.file
  exact sysioIiox_trapped hr hchk hcc hi h.fed ro

theorem iiov_trapped {f : FilId} {lens : List ℕ} {cc : ℤ} {iov xtv : Option VecId}
    {cbs : List Callback} (h : Exposed e s f (cbs.length + 2)) (hsum : 0 ≤ sysioSumIovec lens)
    (hcc : 0 ≤ cc) :
    sysioIiov { e with ops := trap e s₀ call x } true f lens cc iov xtv cbs s = .error x := by
  unfold sysioIiov
  rw [if_neg (not_lt.mpr hsum)]
  exact Exposed.trapped (by simpa using h) hcc

theorem ipiov_trapped {f : FilId} {lens : List ℕ} {cc : ℤ} {iov xtv : Option VecId}
    {cbs : List Callback} (h : Exposed e s f (cbs.length + 1)) (hsum : 0 ≤ sysioSumIovec lens)
    (hcc : 0 ≤ cc) :
    sysioIpiov { e with ops := trap e s₀ call x } true f lens cc iov xtv cbs s = .error x := by
  unfold sysioIpiov
  rw [if_neg (not_lt.mpr hsum)]
  exact h.trapped hcc

theorem onFil_error {α : Type} {fd : ℤ} {z : α} {k : FilId → Sysio D α} {r : File}
    (opened : Opened s fd r) (hk : ∀ f, s.ft.file f = some r → k f s = .error x) :
    (do
      match ← sysioFdFind fd with
      | none => return z
      | some f => k f : Sysio D α) s = .error x := by
  obtain ⟨f, hslot, hr⟩ := opened
  have hfind : (sysioFdFind fd : Sysio D (Option FilId)) s = .ok (some f, s) :=
    read_ok.mpr ⟨hslot, rfl⟩
  exact (bind_run hfind).trans (hk f hr)

theorem onExtents_error {u : IocId} {f : FilId} {n : ℕ} {o : InodeOps D}
    {post : VecId → Sysio D (ℤ × Option IocId)} (h : Exposed e s f (n + 1))
    (hpost : ∀ xtv t, Exposed e t f n → post xtv t = .error x) :
    (do
      match ← mallocVec { e with ops := o } with
      | none => return (none, -ENOMEM)
      | some xtv => posted u [xtv] (post xtv) : Sysio D (Option IocId × ℤ)) s = .error x := by
  obtain ⟨v, t, run, a, -⟩ := @mallocVec_run _ { e with ops := o } s n h.fed
  exact (bind_run run).trans (bind_error (hpost v t
    (h.next ⟨a.nc, a.mt, a.ft, a.ic, a.first, a.mallocs⟩)))

theorem iread_trapped {u : IocId} {count : ℕ} {cc : ℤ} {fd : ℤ} {r : File}
    (opened : Opened s fd r) (h : ∀ f, s.ft.file f = some r → Exposed e s f 6)
    (hsum : 0 ≤ sysioSumIovec [count]) (hcc : 0 ≤ cc) :
    interfaceIread { e with ops := trap e s₀ call x } u true fd count cc s = .error x := by
  refine onFil_error opened fun f hr => ?_
  obtain ⟨iov, t, run, a, -⟩ := @mallocVec_run _ { e with ops := trap e s₀ call x } s 5 (h f hr).fed
  have next := (h f hr).next ⟨a.nc, a.mt, a.ft, a.ic, a.first, a.mallocs⟩
  obtain ⟨xtv, v, run', a', -⟩ := @mallocVec_run _ { e with ops := trap e s₀ call x } t 4 next.fed
  have last := next.next ⟨a'.nc, a'.mt, a'.ft, a'.ic, a'.first, a'.mallocs⟩
  exact (bind_run run).trans ((bind_run run').trans (bind_error (iiov_trapped last hsum hcc)))

theorem ipread_trapped {u : IocId} {count : ℕ} {cc : ℤ} {fd : ℤ} {r : File}
    (opened : Opened s fd r) (h : ∀ f, s.ft.file f = some r → Exposed e s f 5)
    (hsum : 0 ≤ sysioSumIovec [count]) (hcc : 0 ≤ cc) :
    interfaceIpread { e with ops := trap e s₀ call x } u true fd count cc s = .error x := by
  refine onFil_error opened fun f hr => ?_
  obtain ⟨xtv, t, run, a, -⟩ := @mallocVec_run _ { e with ops := trap e s₀ call x } s 4 (h f hr).fed
  have next := (h f hr).next ⟨a.nc, a.mt, a.ft, a.ic, a.first, a.mallocs⟩
  obtain ⟨iov, v, run', a', -⟩ := @mallocVec_run _ { e with ops := trap e s₀ call x } t 3 next.fed
  have last := next.next ⟨a'.nc, a'.mt, a'.ft, a'.ic, a'.first, a'.mallocs⟩
  exact (bind_run run).trans ((bind_run run').trans (bind_error (ipiov_trapped last hsum hcc)))

/-- An asynchronous write that has what it takes runs into the trap. -/
theorem post_trapped {lib : Library D} {call' : Call} {fd : ℤ} {n : ℕ} {r : File} {i : Inode}
    (plan : writes call' = some (fd, n)) (opened : Opened s fd r) (hchk : fChkrw r.flags true = true)
    (hi : s.ic.inode r.ino = some i) (fed : Fed lib.env s n) (ro : ReadOnly r.pno s) :
    step { lib with env := { lib.env with ops := trap lib.env s₀ call x } } call' s = .error x := by
  have exposed : ∀ m, m = n → ∀ f, s.ft.file f = some r → Exposed lib.env s f m :=
    fun m hm f hr => ⟨⟨r, i, hr, hchk, hi, ro⟩, hm ▸ fed⟩
  cases call' with
  | iread u wr fd' count cc =>
    cases wr with
    | false => cases plan
    | true =>
      by_cases args : 0 ≤ sysioSumIovec [count] ∧ 0 ≤ cc
      · simp only [writes, args, and_self, if_true, Option.some.injEq, Prod.mk.injEq] at plan
        obtain ⟨rfl, rfl⟩ := plan
        exact bind_error (iread_trapped opened (exposed 6 rfl) args.1 args.2)
      · simp only [writes, args, if_false, reduceCtorEq] at plan
  | ireadv u wr fd' lens cc =>
    cases wr with
    | false => cases plan
    | true =>
      by_cases args : 0 ≤ sysioSumIovec lens ∧ 0 ≤ cc
      · simp only [writes, args, and_self, if_true, Option.some.injEq, Prod.mk.injEq] at plan
        obtain ⟨rfl, rfl⟩ := plan
        exact bind_error (onFil_error opened fun f hr => onExtents_error (exposed 4 rfl f hr)
          fun xtv t h => iiov_trapped h args.1 args.2)
      · simp only [writes, args, if_false, reduceCtorEq] at plan
  | ipread u wr fd' count cc =>
    cases wr with
    | false => cases plan
    | true =>
      by_cases args : 0 ≤ sysioSumIovec [count] ∧ 0 ≤ cc
      · simp only [writes, args, and_self, if_true, Option.some.injEq, Prod.mk.injEq] at plan
        obtain ⟨rfl, rfl⟩ := plan
        exact bind_error (ipread_trapped opened (exposed 5 rfl) args.1 args.2)
      · simp only [writes, args, if_false, reduceCtorEq] at plan
  | ipreadv u wr fd' lens cc =>
    cases wr with
    | false => cases plan
    | true =>
      by_cases args : 0 ≤ sysioSumIovec lens ∧ 0 ≤ cc
      · simp only [writes, args, and_self, if_true, Option.some.injEq, Prod.mk.injEq] at plan
        obtain ⟨rfl, rfl⟩ := plan
        exact bind_error (onFil_error opened fun f hr => onExtents_error (exposed 3 rfl f hr)
          fun xtv t h => ipiov_trapped h args.1 args.2)
      · simp only [writes, args, if_false, reduceCtorEq] at plan
  | ireadx u wr fd' iovs xtvs cc =>
    cases wr with
    | false => cases plan
    | true =>
      by_cases args : iovs ≠ 0 ∧ xtvs ≠ 0 ∧ 0 ≤ cc
      · simp only [writes, if_pos args, Option.some.injEq, Prod.mk.injEq] at plan
        obtain ⟨rfl, rfl⟩ := plan
        refine bind_error (onFil_error opened fun f hr => ?_)
        rw [if_neg (not_or.mpr ⟨args.1, args.2.1⟩)]
        exact onExtents_error (exposed 3 rfl f hr) fun xtv t h => h.trapped args.2.2
      · simp only [writes, if_neg args, reduceCtorEq] at plan
  | iwrite64x u fd' xtvs cc =>
    by_cases args : xtvs ≠ 0 ∧ 0 ≤ cc
    · simp only [writes, if_pos args, Option.some.injEq, Prod.mk.injEq] at plan
      obtain ⟨rfl, rfl⟩ := plan
      refine bind_error (onFil_error opened fun f hr => ?_)
      rw [if_neg args.1]
      exact bind_error ((exposed 1 rfl f hr).trapped args.2)
    · simp only [writes, if_neg args, reduceCtorEq] at plan
  | _ => cases plan

/-- A call that leaves the read-only mounts as they are spares them. -/
theorem spares_of_unmutated {lib : Library D} (h : Unmutated lib s call) :
    Spares lib.env s call := by
  have posts : ∀ fd n r i, writes call = some (fd, n) → Opened s fd r →
      fChkrw r.flags true = true → s.ic.inode r.ino = some i → Fed lib.env s n → ¬ ReadOnly r.pno s :=
    fun fd n r i plan opened hchk hi fed ro =>
      h.no_trap fun x => post_trapped plan opened hchk hi fed ro
  cases call with
  | open_ u path flags mode =>
    intro p t r found ro stands
    by_contra hne
    obtain ⟨trunc, hne⟩ := not_or.mp hne
    obtain ⟨reading, hne⟩ := not_or.mp hne
    obtain ⟨old, plain⟩ := not_or.mp hne
    exact h.no_trap fun x => interfaceOpen_trapped found fun mode => sysioOpen_trapped ro stands
      trunc (not_not.mp reading) old plain
  | unlink u path =>
    exact fun p t found ro may => h.no_trap fun x => unlink_trapped found ro may
  | rmdir u path =>
    exact fun p t r found ro stands dir href may =>
      h.no_trap fun x => rmdir_trapped found ro stands dir href may
  | mkdir path mode =>
    exact fun p t found ro vacant may =>
      h.no_trap fun x => mkdir_trapped found ro vacant may
  | symlink oldpath newpath =>
    exact fun p t found ro vacant may =>
      h.no_trap fun x => symlink_trapped found ro vacant may
  | link oldpath newpath =>
    exact fun p t r q u mo mn hp stands dir hq vacant hmo hmn root bound => not_or.mp fun ro =>
      h.no_trap fun x => link_trapped hp stands dir hq vacant hmo hmn root bound ro
  | rename oldpath newpath =>
    exact fun p t q u v hold hnew hp hq stops bound => not_or.mp fun ro =>
      h.no_trap fun x => rename_trapped hold hnew hp hq stops bound ro
  | write fd count =>
    exact fun r opened hchk ro => h.no_trap fun x => write_trapped opened hchk ro
  | pwrite fd count offset =>
    exact fun r opened hchk ro => h.no_trap fun x => write_trapped opened hchk ro
  | ftruncate fd length =>
    exact fun r i opened hchk hlen hi hreg ro =>
      h.no_trap fun x => ftruncate_trapped opened hchk hlen hi hreg ro
  | fchmod fd =>
    exact fun r opened ro => h.no_trap fun x => fsetattr_trapped opened ⟨r, opened, ro⟩
  | fchown fd owner group =>
    exact fun r opened ro => h.no_trap fun x => fsetattr_trapped opened ⟨r, opened, ro⟩
  | _ => exact posts

end Trap

/-- Every call of a run, as long as the run gets to it, has the property `P` in the state it is made
in. -/
def Throughout (lib : Library D) (P : Sys D → Call → Prop) : List Call → Sys D → Prop
  | [], _ => True
  | call :: calls, s =>
    P s call ∧ ∀ r t, step lib call s = .ok (r, t) → Throughout lib P calls t

/-- The calls of a run leave the read-only mounts as they are if and only if each of them spares
them. -/
theorem read_only_mounts {lib : Library D} (ops : OpsMove OffInodes lib.env) (calls : List Call)
    (s : Sys D) :
    Throughout lib (Unmutated lib) calls s ↔ Throughout lib (Spares lib.env) calls s := by
  induction calls generalizing s with
  | nil => exact Iff.rfl
  | cons call calls ih =>
    have one : Unmutated lib s call ↔ Spares lib.env s call :=
      ⟨spares_of_unmutated, fun spares o same => step_same ops same spares⟩
    exact and_congr one (forall_congr' fun r => forall_congr' fun t => imp_congr_right fun _ => ih t)

/-- A read-only file system of type "bb" is on "/b", and its root is open for reading. -/
def rootOpen : List Call :=
  [.open_ ⟨none, none⟩ [98, 98, 58, 47, 98] 0 0, .mount [] [47, 98] [98, 98] 3]

theorem rootOpen_reached : FuseReached calmHost () (fun _ _ => True) (calmRun rootOpen) := by
  have run : runCalls (fuseLibrary calmHost) fuseTypeName rootOpen (initState (initData ())) =
      .ok ((), calmRun rootOpen) := ok_of_value (by decide +kernel)
  exact runCalls_reached run

/-- Whether the descriptor is open on a file of a read-only mount. -/
def openRdonly (fd : ℕ) (s : Sys D) : Bool :=
  ((s.ft.oftab.getD fd none).bind s.ft.file).any fun r =>
    (s.mt.mount (s.nc.pnode r.pno).mount).any fun m => m.flags &&& MOUNT_F_RO != 0

theorem fchmod_mutates {lib : Library D} {s : Sys D} {fd : ℕ} (rdonly : openRdonly fd s = true) :
    ¬ Unmutated lib s (.fchmod fd) := by
  intro h
  obtain ⟨r, hr, hany⟩ := (Option.any_eq_true _ _).mp rdonly
  obtain ⟨f, hslot, hf⟩ := Option.bind_eq_some_iff.mp hr
  obtain ⟨m, hm, hflags⟩ := (Option.any_eq_true _ _).mp hany
  refine spares_of_unmutated h r ⟨f, ?_, hf⟩ ⟨m, hm, bne_iff_ne.mp hflags⟩
  rw [if_neg (by omega), Int.toNat_natCast]
  exact hslot

/-- The driver is asked to change the attributes of the root of a read-only mount. -/
theorem read_only_mounts_fchmod : ¬ ∀ s, FuseReached calmHost () (fun _ _ => True) s →
    ∀ call, Unmutated (fuseLibrary calmHost) s call := fun h =>
  fchmod_mutates (by decide +kernel) (h _ rootOpen_reached (.fchmod 0))

theorem read_only_mounts_chmod :
    Throughout (fuseLibrary calmHost) (Unmutated (fuseLibrary calmHost))
      [.chmod [98, 98, 58, 47, 98], .close 0] (calmRun rootOpen) := by
  refine (read_only_mounts fuseEnv_off _ _).mpr ⟨?_, fun _ _ _ => ⟨?_, fun _ _ _ => trivial⟩⟩
  · intro fd n r i plan
    cases plan
  · intro fd n r i plan
    cases plan

end ReadOnlyMounts
