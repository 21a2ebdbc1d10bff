import DirectFuse.ListedNodes
import DirectFuse.OtherOps

/-! What the operations of a driver are given. A call is dispatched safely when it does not matter what
they do with a path node that stands for no inode. -/
namespace Dispatch

open ExecLogic SysioState SysioInode SysioNamei SysioMount SysioFile SysioInterface SysioSystem
open FuseDriver FuseSystem CoreMoves WalkRules PathRefs CallMoves OtherOps ListedNodes

variable {D : Type}

/-- The operations `o` do what those of `e` do with a path node that stands for an inode; look-up,
open, mkdir and what takes no path node are the same. -/
structure SameOnBound (e : Env D) (o : InodeOps D) : Prop where
  lookup : o.lookup = e.ops.lookup
  open_ : o.open_ = e.ops.open_
  mkdir : o.mkdir = e.ops.mkdir
  iodone : o.iodone = e.ops.iodone
  gone : o.gone = e.ops.gone
  fsopGone : o.fsopGone = e.ops.fsopGone
  getattr : ∀ i p j s, Bound p s → o.getattr i (some p) j s = e.ops.getattr i (some p) j s
  setattr : ∀ i p j mask s, Bound p s →
    o.setattr i (some p) j mask s = e.ops.setattr i (some p) j mask s
  rmdir : ∀ i p s, Bound p s → o.rmdir i p s = e.ops.rmdir i p s
  symlink : ∀ i p path s, Bound p s → o.symlink i p path s = e.ops.symlink i p path s
  readlink : ∀ i p n s, Bound p s → o.readlink i p n s = e.ops.readlink i p n s
  close : ∀ i p s, Bound p s → o.close i p s = e.ops.close i p s
  link : ∀ i p q s, Bound p s → Bound q s → o.link i p q s = e.ops.link i p q s
  unlink : ∀ i p s, Bound p s → o.unlink i p s = e.ops.unlink i p s
  rename : ∀ i p q s, Bound p s → Bound q s → o.rename i p q s = e.ops.rename i p q s
  read : ∀ i n off p s, Bound p s → o.read i n off p s = e.ops.read i n off p s
  write : ∀ i n off p s, Bound p s → o.write i n off p s = e.ops.write i n off p s
  post : ∀ i p c s, Bound p s → o.post i p c s = e.ops.post i p c s
  sync : ∀ i p s, Bound p s → o.sync i p s = e.ops.sync i p s
  datasync : ∀ i p s, Bound p s → o.datasync i (some p) s = e.ops.datasync i (some p) s
  mknod : ∀ i p mode dev s, Bound p s → o.mknod i p mode dev s = e.ops.mknod i p mode dev s
  ftruncate : ∀ i p n s, Bound p s → o.ftruncate i p n s = e.ops.ftruncate i p n s

theorem SameOnBound.walk {e : Env D} {o : InodeOps D} (h : SameOnBound e o) : SameWalk e o :=
  ⟨h.lookup, h.gone, h.readlink⟩

/-- In the call, from state `s`, no operation but lookup, open and mkdir is given anything but a path
node that stands for an inode. -/
def Dispatched (lib : Library D) (s : Sys D) (call : Call) : Prop :=
  ∀ o, SameOnBound lib.env o →
    step { lib with env := { lib.env with ops := o } } call s = step lib call s

/-- What `stat` and `unlink` look up: the path node of the last component, which need not exist, or
none for a path that does not lead to one. -/
def target (e : Env D) (path : Bytes) : Sysio D (Option Pno) :=
  resolve e path ND_NEGOK (some ⟨INT_UPDPARENT⟩)

/-- The last component of the path given to `stat` or `unlink` does not exist. -/
def Missing (e : Env D) (s : Sys D) : Call → Prop
  | .stat path | .unlink _ path => ∃ p t, target e path s = .ok (some p, t) ∧ ¬ Bound p t
  | _ => False

/-- The call returns an error. -/
def Fails (lib : Library D) (s : Sys D) (call : Call) : Prop :=
  ∃ err t, step lib call s = .ok ((-1, err), t) ∧ err ≠ 0

/-- The call does without the driver once its path is resolved. -/
def Untouched (lib : Library D) (s : Sys D) (call : Call) : Prop :=
  ∀ o, SameWalk lib.env o →
    step { lib with env := { lib.env with ops := o } } call s = step lib call s

/-- The caller may not write the directory of a path node. -/
def Denied (e : Env D) (p : Pno) (s : Sys D) : Prop :=
  ∃ err t, sysioPermitted e (s.nc.pnode p).parent W_OK s = .ok (err, t) ∧ err ≠ 0

/-- The calls on names and descriptors that this is about. -/
def Covered : Call → Prop
  | .stat _ | .fstat _ | .lseek _ _ _ _ | .unlink _ _ | .rmdir _ _ | .read _ _ | .write _ _
  | .ftruncate _ _ | .fsync _ | .fdatasync _ | .close _ => True
  | _ => False

/-- When a call is safe: a name that is to be removed or looked at exists, or may not be removed; the
node an open file was opened by still stands for an inode where the call gets to use it; and no file
is open where the call passes no path node. -/
def Safe (e : Env D) (s : Sys D) : Call → Prop
  | .stat path => ∀ p t, target e path s = .ok (some p, t) → Bound p t
  | .unlink _ path => ∀ p t, target e path s = .ok (some p, t) → Bound p t ∨ Denied e p t
  | .read fd _ => ∀ r, Opened s fd r → fChkrw r.flags false = true → Bound r.pno s
  | .write fd _ => ∀ r, Opened s fd r → fChkrw r.flags true = true → Bound r.pno s
  | .ftruncate fd length => ∀ r i, Opened s fd r → fChkrw r.flags true = true → 0 ≤ length →
      s.ic.inode r.ino = some i → i.stbuf.isReg = true → Bound r.pno s
  | .fsync fd => ∀ r, Opened s fd r → Bound r.pno s
  | .close fd => ∀ r, Opened s fd r → r.ref = 1 → Bound r.pno s
  | .fdatasync fd | .fstat fd => ∀ r, ¬ Opened s fd r
  | .lseek fd _ whence _ => whence = .end_ → ∀ r, ¬ Opened s fd r
  | _ => True

section Target

variable {e : Env D} {o : InodeOps D} {s t : Sys D} {path : Bytes} {p : Pno}

theorem target_same (same : SameWalk e o) : target { e with ops := o } path = target e path :=
  resolve_same same

theorem stat_run (found : target e path s = .ok (some p, t)) :
    interfaceStat e path s = (do
      let ino ← inoOf p
      let d ← parentIno p
      let err ← e.ops.getattr d (some p) ino
      return status err : Sysio D Ret) t := onMount_run found

theorem unlink_run {u : Uninit} (found : target e path s = .ok (some p, t)) :
    interfaceUnlink e u path s = (do
      let err ← unlinkNode e p
      pRele p
      return status err : Sysio D Ret) t := onMount_run found

end Target

section Good

variable {e : Env D} {o : InodeOps D} (same : SameOnBound e o) {s : Sys D}

include same

theorem transfer_same {wr : Bool} {fd : ℤ} {count : ℕ} {offset : Option ℤ}
    (safe : ∀ r, Opened s fd r → fChkrw r.flags wr = true → Bound r.pno s) :
    transfer { e with ops := o } wr fd count offset s = transfer e wr fd count offset s := by
  refine onFile_same fun f r hopen _ => ite_same (fun _ => rfl) fun hchk => bind_same ?_ fun _ _ _ => rfl
  have bound := safe r hopen (by simpa using hchk)
  cases wr with
  | true => exact same.write _ _ _ _ _ bound
  | false => exact same.read _ _ _ _ _ bound

theorem stat_same {path : Bytes} (safe : ∀ p t, target e path s = .ok (some p, t) → Bound p t) :
    interfaceStat { e with ops := o } path s = interfaceStat e path s := by
  refine onMount_same same.walk fun p t hp => bind_same rfl fun ino u hino =>
    bind_same rfl fun d v hd => bind_same ?_ fun _ _ _ => rfl
  obtain ⟨-, -, -, rfl⟩ := inoOf_ok.mp hino
  obtain rfl : t = v := parentIno_moves (R := Eq) p _ _ _ hd
  exact same.getattr _ _ _ _ (safe p t hp)

theorem detach_same (p : Pno) : detach { e with ops := o } p = detach e p := by
  rw [same.walk.mix]
  rfl

theorem unlink_same {u : Uninit} {path : Bytes}
    (safe : ∀ p t, target e path s = .ok (some p, t) → Bound p t ∨ Denied e p t) :
    interfaceUnlink { e with ops := o } u path s = interfaceUnlink e u path s := by
  refine onMount_same same.walk fun p t hp => bind_same ?_ fun _ _ _ => rfl
  refine bind_same rfl fun n t' hn => bind_same rfl fun err v hperm => ite_same (fun _ => rfl)
    fun herr => bind_same rfl fun d v' hd => bind_same ?_ fun err w _ => ite_same (fun _ => rfl)
    fun _ => bind_same rfl fun ino _ _ => bind_same rfl fun _ _ _ => bind_same ?_ fun _ _ _ => rfl
  · obtain ⟨rfl, rfl⟩ := read_ok.mp hn
    obtain rfl : v = v' := parentIno_moves (R := Eq) p _ _ _ hd
    have hscratch : Scratch t v := sysioPermitted_moves (fun _ _ k => k) _ _ _ _ _ hperm
    rcases safe p t hp with bound | ⟨err', v', hdenied, hne⟩
    · exact same.unlink _ _ _ (bound.keep hscratch.nc)
    · rw [hdenied] at hperm
      obtain ⟨rfl, -⟩ := Prod.mk.inj (Except.ok.inj hperm)
      exact (herr hne).elim
  · rw [detach_same same]

theorem rmdir_same {u : Uninit} {path : Bytes} :
    interfaceRmdir { e with ops := o } u path s = interfaceRmdir e u path s := by
  refine onMount_same same.walk fun p t₀ hp => bind_same ?_ fun _ _ _ => rfl
  refine bind_same rfl fun ino t hino => bind_same rfl fun i t₁ hi => bind_same rfl fun r t₂ hr =>
    ite_same (fun _ => rfl) fun _ => bind_same rfl fun n t₃ hn => bind_same rfl fun err v hperm =>
    ite_same (fun _ => rfl) fun _ => ite_same (fun _ => rfl) fun _ => bind_same rfl fun d v' hd =>
    bind_same ?_ fun err w _ => ite_same (fun _ => rfl) fun _ => bind_same ?_ fun _ _ _ => rfl
  · obtain ⟨rfl, rfl⟩ := deref_ok.mp hi
    obtain ⟨-, rfl⟩ := deref_ok.mp hr
    obtain ⟨rfl, rfl⟩ := read_ok.mp hn
    obtain rfl : v = v' := parentIno_moves (R := Eq) p _ _ _ hd
    have hscratch : Scratch t v := sysioPermitted_moves (fun _ _ k => k) _ _ _ _ _ hperm
    have bound := bound_of_inoOf hino
    obtain ⟨-, -, -, rfl⟩ := inoOf_ok.mp hino
    exact same.rmdir _ _ _ (bound.keep hscratch.nc)
  · rw [detach_same same]

theorem ftruncate_same {fd length : ℤ}
    (safe : ∀ r i, Opened s fd r → fChkrw r.flags true = true → 0 ≤ length →
      s.ic.inode r.ino = some i → i.stbuf.isReg = true → Bound r.pno s) :
    interfaceFtruncate { e with ops := o } fd length s = interfaceFtruncate e fd length s := by
  refine onFile_same fun f r hopen _ => ite_same (fun _ => rfl) fun hchk => bind_same ?_ fun _ _ _ => rfl
  refine ite_same (fun _ => rfl) fun hlen => bind_same rfl fun i t hread => ite_same (fun _ => rfl)
    fun _ => ite_same (fun _ => rfl) fun hreg => ?_
  obtain ⟨hi, rfl⟩ := deref_ok.mp hread
  exact same.ftruncate _ _ _ _ (safe r i hopen (by simpa using hchk) (not_lt.mp hlen) hi
    (by simpa using hreg))

theorem fsync_same {fd : ℤ} (safe : ∀ r, Opened s fd r → Bound r.pno s) :
    interfaceFsync { e with ops := o } fd s = interfaceFsync e fd s :=
  onFile_same fun _ r hopen _ => bind_same (same.sync _ _ _ (safe r hopen)) fun _ _ _ => rfl

theorem close_same {fd : ℤ} (safe : ∀ r, Opened s fd r → r.ref = 1 → Bound r.pno s) :
    interfaceClose { e with ops := o } fd s = interfaceClose e fd s := by
  refine bind_same (bind_same rfl fun fil t hfind => ?_) fun _ _ _ => rfl
  obtain ⟨hslot, rfl⟩ := read_ok.mp hfind
  cases fil with
  | none => rfl
  | some f =>
    refine bind_same rfl fun _ t₁ hset => bind_same ?_ fun _ _ _ => rfl
    obtain rfl := write_ok.mp hset
    refine bind_same rfl fun r t₂ hread => bind_same rfl fun _ t₃ hassert => bind_same rfl
      fun _ t₄ hput => ite_same (fun hlast => ?_) fun _ => rfl
    obtain ⟨hr, rfl⟩ := deref_ok.mp hread
    obtain ⟨href, rfl⟩ := check_ok.mp hassert
    obtain rfl := write_ok.mp hput
    have href : r.ref ≠ 0 := of_decide_eq_true href
    have bound : Bound r.pno s := safe r ⟨f, hslot, hr⟩ (by omega)
    refine bind_same rfl fun r' t₅ hread' => bind_same rfl fun _ t₆ hassert' => bind_same ?_
      fun err t₇ _ => bind_same rfl fun _ _ _ => bind_same ?_ fun _ _ _ => rfl
    · obtain ⟨hr', rfl⟩ := deref_ok.mp hread'
      obtain ⟨-, rfl⟩ := check_ok.mp hassert'
      obtain rfl : { r with ref := r.ref - 1 } = r' :=
        Option.some.inj ((Function.update_self f _ _).symm.trans hr')
      exact same.close _ _ _ (bound.keep rfl)
    · rw [same.walk.mix]
      rfl

omit same in
theorem lseek_same {fd offset : ℤ} {whence : Whence} {size : ℤ}
    (safe : whence = .end_ → ∀ r, ¬ Opened s fd r) :
    interfaceLseek { e with ops := o } fd offset whence size s =
      interfaceLseek e fd offset whence size s := by
  refine bind_same rfl fun fil t hfind => ?_
  obtain ⟨hslot, rfl⟩ := read_ok.mp hfind
  cases fil with
  | none => rfl
  | some f =>
    refine bind_same (bind_same rfl fun r t hread => bind_same ?_ fun _ _ _ => rfl) fun _ _ _ => rfl
    obtain ⟨hr, rfl⟩ := deref_ok.mp hread
    cases whence with
    | set => rfl
    | cur => rfl
    | end_ => exact (safe rfl r ⟨f, hslot, hr⟩).elim
    | other => rfl

omit same in
/-- A call that is safe gives the driver nothing but path nodes that stand for inodes. -/
theorem step_same {lib : Library D} {call : Call} (same : SameOnBound lib.env o)
    (covered : Covered call) (safe : Safe lib.env s call) :
    step { lib with env := { lib.env with ops := o } } call s = step lib call s := by
  cases call with
  | stat path => exact stat_same same safe
  | fstat fd => exact onFile_same fun _ r hopen _ => (safe r hopen).elim
  | lseek fd offset whence size => exact lseek_same safe
  | unlink u path => exact unlink_same same safe
  | rmdir u path => exact rmdir_same same
  | read fd count => exact transfer_same same safe
  | write fd count => exact transfer_same same safe
  | ftruncate fd length => exact ftruncate_same same safe
  | fsync fd => exact fsync_same same safe
  | fdatasync fd => exact onFile_same fun _ r hopen _ => (safe r hopen).elim
  | close fd => exact close_same same safe
  | _ => exact covered.elim

end Good

section Bad

/-- Whether the path node stands for an inode. -/
def isBound (p : Pno) (s : Sys D) : Bool :=
  (s.nc.base (s.nc.pnode p).base).any fun r => r.ino.isSome

theorem isBound_iff {p : Pno} {s : Sys D} : isBound p s = true ↔ Bound p s := by
  unfold isBound Bound
  cases s.nc.base (s.nc.pnode p).base <;> simp [Option.isSome_iff_exists]

/-- The operation `m` behind a check of the path node it is given, with the fault `x`. -/
def guarded {α : Type} (x : Fault) (p : Option Pno) (m : Sysio D α) : Sysio D α := fun s =>
  if p.any (isBound · s) then m s else .error x

theorem guarded_bound {α : Type} {x : Fault} {p : Pno} {m : Sysio D α} {s : Sys D}
    (bound : Bound p s) : guarded x (some p) m s = m s := if_pos (isBound_iff.mpr bound)

theorem guarded_unbound {α : Type} {x : Fault} {p : Pno} {m : Sysio D α} {s : Sys D}
    (unbound : ¬ Bound p s) : guarded x (some p) m s = .error x :=
  if_neg fun h => unbound (isBound_iff.mp h)

/-- Operations that stop at the fault `x` where they are given a path node that stands for no
inode. -/
def trap (e : Env D) (x : Fault) : InodeOps D :=
  { e.ops with
    getattr := fun i p j => guarded x p (e.ops.getattr i p j)
    setattr := fun i p j mask => guarded x p (e.ops.setattr i p j mask)
    rmdir := fun i p => guarded x (some p) (e.ops.rmdir i p)
    symlink := fun i p path => guarded x (some p) (e.ops.symlink i p path)
    readlink := fun i p n => guarded x (some p) (e.ops.readlink i p n)
    close := fun i p => guarded x (some p) (e.ops.close i p)
    link := fun i p q => guarded x (some p) (guarded x (some q) (e.ops.link i p q))
    unlink := fun i p => guarded x (some p) (e.ops.unlink i p)
    rename := fun i p q => guarded x (some p) (guarded x (some q) (e.ops.rename i p q))
    read := fun i n off p => guarded x (some p) (e.ops.read i n off p)
    write := fun i n off p => guarded x (some p) (e.ops.write i n off p)
    post := fun i p c => guarded x (some p) (e.ops.post i p c)
    sync := fun i p => guarded x (some p) (e.ops.sync i p)
    datasync := fun i p => guarded x p (e.ops.datasync i p)
    mknod := fun i p mode dev => guarded x (some p) (e.ops.mknod i p mode dev)
    ftruncate := fun i p n => guarded x (some p) (e.ops.ftruncate i p n) }

theorem trap_same (e : Env D) (x : Fault) : SameOnBound e (trap e x) where
  lookup := rfl
  open_ := rfl
  mkdir := rfl
  iodone := rfl
  gone := rfl
  fsopGone := rfl
  getattr _ _ _ _ := guarded_bound
  setattr _ _ _ _ _ := guarded_bound
  rmdir _ _ _ := guarded_bound
  symlink _ _ _ _ := guarded_bound
  readlink _ _ _ _ := guarded_bound
  close _ _ _ := guarded_bound
  link _ _ _ _ hp hq := (guarded_bound hp).trans (guarded_bound hq)
  unlink _ _ _ := guarded_bound
  rename _ _ _ _ hp hq := (guarded_bound hp).trans (guarded_bound hq)
  read _ _ _ _ _ := guarded_bound
  write _ _ _ _ _ := guarded_bound
  post _ _ _ _ := guarded_bound
  sync _ _ _ := guarded_bound
  datasync _ _ _ := guarded_bound
  mknod _ _ _ _ _ := guarded_bound
  ftruncate _ _ _ _ := guarded_bound

variable {lib : Library D} {s : Sys D} {call : Call}

/-- A call that runs into every trap has met one. -/
theorem not_dispatched (trapped : ∀ x,
    step { lib with env := { lib.env with ops := trap lib.env x } } call s = .error x) :
    ¬ Dispatched lib s call := by
  intro h
  have abort := (trapped .abort).symm.trans (h _ (trap_same lib.env .abort))
  have diverge := (trapped .diverge).symm.trans (h _ (trap_same lib.env .diverge))
  cases abort.trans diverge.symm

variable {e : Env D}

theorem transfer_trapped {x : Fault} {wr : Bool} {fd : ℤ} {count : ℕ} {offset : Option ℤ} {r : File}
    (opened : Opened s fd r) (hchk : fChkrw r.flags wr = true) (unbound : ¬ Bound r.pno s) :
    transfer { e with ops := trap e x } wr fd count offset s = .error x := by
  refine onFile_error opened fun f hr => ?_
  rw [hchk]
  cases wr with
  | true => exact bind_error (guarded_unbound unbound)
  | false => exact bind_error (guarded_unbound unbound)

theorem close_trapped {x : Fault} {fd : ℤ} {r : File} (opened : Opened s fd r) (last : r.ref = 1)
    (unbound : ¬ Bound r.pno s) : interfaceClose { e with ops := trap e x } fd s = .error x := by
  obtain ⟨f, hslot, hr⟩ := opened
  have find : (sysioFdFind fd : Sysio D (Option FilId)) s = .ok (some f, s) :=
    read_ok.mpr ⟨hslot, rfl⟩
  have asserted : decide (r.ref ≠ 0) = true := decide_eq_true (by omega)
  have dropped : decide (r.ref - 1 = 0) = true := decide_eq_true (by omega)
  refine bind_error ((bind_run find).trans ?_)
  refine bind_error (m := fRele _ f) ?_
  set u : Sys D := { s with ft.oftab := s.ft.oftab.set fd.toNat none }
  have readf : (fileAt f : Sysio D File) u = .ok (r, u) := deref_ok.mpr ⟨hr, rfl⟩
  have assertf : (assert (decide (r.ref ≠ 0)) : Sysio D Unit) u = .ok ((), u) :=
    check_ok.mpr ⟨asserted, rfl⟩
  refine (bind_run readf).trans ((bind_run assertf).trans ?_)
  set v : Sys D := { u with ft.file := Function.update u.ft.file f (some { r with ref := r.ref - 1 }) }
  have write : (setFile f { r with ref := r.ref - 1 } : Sysio D Unit) u = .ok ((), v) :=
    write_ok.mpr rfl
  have reread : (fileAt f : Sysio D File) v = .ok ({ r with ref := r.ref - 1 }, v) :=
    deref_ok.mpr ⟨Function.update_self f _ _, rfl⟩
  have reassert : (assert (decide (r.ref - 1 = 0)) : Sysio D Unit) v = .ok ((), v) :=
    check_ok.mpr ⟨dropped, rfl⟩
  refine (bind_run write).trans ?_
  rw [if_pos (of_decide_eq_true dropped)]
  exact (bind_run reread).trans ((bind_run reassert).trans (bind_error (guarded_unbound unbound)))

theorem ftruncate_trapped {x : Fault} {fd length : ℤ} {r : File} {i : Inode}
    (opened : Opened s fd r) (hchk : fChkrw r.flags true = true) (hlen : 0 ≤ length)
    (hi : s.ic.inode r.ino = some i) (hreg : i.stbuf.isReg = true) (unbound : ¬ Bound r.pno s) :
    interfaceFtruncate { e with ops := trap e x } fd length s = .error x := by
  refine onFile_error opened fun f hr => ?_
  rw [hchk]
  exact bind_error ((doTruncate_run hlen hi hreg).trans (guarded_unbound unbound))

/-- A call on a descriptor that passes no path node. -/
theorem pathless_trapped {x : Fault} {fd offset size : ℤ} {r : File} (opened : Opened s fd r) :
    interfaceFstat { e with ops := trap e x } fd s = .error x ∧
    interfaceFdatasync { e with ops := trap e x } fd s = .error x ∧
    interfaceLseek { e with ops := trap e x } fd offset .end_ size s = .error x := by
  refine ⟨onFile_error opened fun _ _ => bind_error rfl,
    onFile_error opened fun _ _ => bind_error rfl, ?_⟩
  obtain ⟨f, hslot, hr⟩ := opened
  have find : (sysioFdFind fd : Sysio D (Option FilId)) s = .ok (some f, s) :=
    read_ok.mpr ⟨hslot, rfl⟩
  have readf : (fileAt f : Sysio D File) s = .ok (r, s) := deref_ok.mpr ⟨hr, rfl⟩
  exact (bind_run find).trans (bind_error ((bind_run readf).trans
    (bind_error (bind_error (bind_error rfl)))))

theorem stat_trapped {x : Fault} {path : Bytes} {p : Pno} {t u : Sys D} {res : Ret}
    (found : target e path s = .ok (some p, t)) (unbound : ¬ Bound p t)
    (returned : interfaceStat e path s = .ok (res, u)) :
    interfaceStat { e with ops := trap e x } path s = .error x := by
  have found' : target { e with ops := trap e x } path s = .ok (some p, t) := by
    rw [target_same (trap_same e x).walk]
    exact found
  rw [stat_run found] at returned
  rw [stat_run found']
  obtain ⟨ino, t', hino, h1⟩ := bind_ok.mp returned
  obtain ⟨d, t'', hd, -⟩ := bind_ok.mp h1
  refine (bind_run hino).trans ((bind_run hd).trans (bind_error (guarded_unbound ?_)))
  obtain ⟨-, -, -, rfl⟩ := inoOf_ok.mp hino
  obtain rfl : t = t'' := parentIno_moves (R := Eq) p _ _ _ hd
  exact unbound

theorem unlink_trapped {x : Fault} {v : Uninit} {path : Bytes} {p : Pno} {t u : Sys D} {res : Ret}
    (found : target e path s = .ok (some p, t)) (unbound : ¬ Bound p t) (permitted : ¬ Denied e p t)
    (returned : interfaceUnlink e v path s = .ok (res, u)) :
    interfaceUnlink { e with ops := trap e x } v path s = .error x := by
  have found' : target { e with ops := trap e x } path s = .ok (some p, t) := by
    rw [target_same (trap_same e x).walk]
    exact found
  rw [unlink_run found] at returned
  rw [unlink_run found']
  obtain ⟨_, _, hnode, -⟩ := bind_ok.mp returned
  obtain ⟨n, t₁, hn, h1⟩ := bind_ok.mp hnode
  obtain ⟨err, t₂, hperm, h2⟩ := bind_ok.mp h1
  obtain ⟨rfl, rfl⟩ := read_ok.mp hn
  have hscratch : Scratch t t₂ := sysioPermitted_moves (fun _ _ k => k) _ _ _ _ _ hperm
  have herr : ¬ err ≠ 0 := fun hne => permitted ⟨err, t₂, hperm, hne⟩
  rw [if_neg herr] at h2
  obtain ⟨d, t₃, hd, -⟩ := bind_ok.mp h2
  obtain rfl : t₂ = t₃ := parentIno_moves (R := Eq) p _ _ _ hd
  refine bind_error ((bind_run hn).trans ((bind_run hperm).trans ?_))
  rw [if_neg herr]
  exact (bind_run hd).trans (bind_error (guarded_unbound fun h => unbound (h.keep hscratch.nc.symm)))

/-- Only a safe call dispatches safely. -/
theorem safe_of_dispatched (covered : Covered call) (dispatched : Dispatched lib s call)
    (missing : Missing lib.env s call → Fails lib s call) : Safe lib.env s call := by
  cases call with
  | stat path =>
    intro p t found
    by_contra unbound
    obtain ⟨err, u, returned, -⟩ := missing ⟨p, t, found, unbound⟩
    refine not_dispatched (fun x => ?_) dispatched
    exact stat_trapped found unbound returned
  | unlink v path =>
    intro p t found
    by_contra h
    obtain ⟨unbound, permitted⟩ := not_or.mp h
    obtain ⟨err, u, returned, -⟩ := missing ⟨p, t, found, unbound⟩
    refine not_dispatched (fun x => ?_) dispatched
    exact unlink_trapped found unbound permitted returned
  | rmdir _ _ => trivial
  | read fd count =>
    intro r opened hchk
    by_contra unbound
    refine not_dispatched (fun x => ?_) dispatched
    exact transfer_trapped opened hchk unbound
  | write fd count =>
    intro r opened hchk
    by_contra unbound
    refine not_dispatched (fun x => ?_) dispatched
    exact transfer_trapped opened hchk unbound
  | ftruncate fd length =>
    intro r i opened hchk hlen hi hreg
    by_contra unbound
    refine not_dispatched (fun x => ?_) dispatched
    exact ftruncate_trapped opened hchk hlen hi hreg unbound
  | fsync fd =>
    intro r opened
    by_contra unbound
    refine not_dispatched (fun x => ?_) dispatched
    exact onFile_error opened fun _ _ =>
      bind_error (guarded_unbound unbound)
  | close fd =>
    intro r opened last
    by_contra unbound
    refine not_dispatched (fun x => ?_) dispatched
    exact close_trapped opened last unbound
  | fdatasync fd =>
    intro r opened
    refine not_dispatched (fun x => ?_) dispatched
    exact (@pathless_trapped _ _ _ x fd 0 0 r opened).2.1
  | fstat fd =>
    intro r opened
    refine not_dispatched (fun x => ?_) dispatched
    exact (@pathless_trapped _ _ _ x fd 0 0 r opened).1
  | lseek fd offset whence size =>
    rintro rfl r opened
    refine not_dispatched (fun x => ?_) dispatched
    exact (pathless_trapped opened).2.2
  | _ => exact covered.elim

end Bad

section Missing

variable {B : Type} {h : Host B} {s : Sys (FuseData B)} {path : Bytes} {p : Pno}

/-- The node that a look-up found carries a reference. -/
theorem resolve_held {t : Sys (FuseData B)} {flags : ℕ} {intnt : Option Intent} (lists : NodeLists s)
    (found : resolve (fuseEnv h) path flags intnt s = .ok (some p, t)) :
    (t.nc.pnode p).ref ≠ 0 := by
  obtain ⟨m, s₁, hm, h1⟩ := bind_ok.mp found
  obtain rfl : s = s₁ := sysioFindMount_moves (R := Eq) path _ _ _ hm
  cases m with
  | none =>
    obtain ⟨hp, -⟩ := pure_ok.mp h1
    cases hp
  | some m =>
    obtain ⟨path', s₂, hpath, h2⟩ := bind_ok.mp h1
    obtain rfl : s = s₂ := afterPrefix_moves (R := Eq) m path _ _ _ hpath
    obtain ⟨root, s₃, hroot, h3⟩ := bind_ok.mp h2
    obtain rfl : s = s₃ := mountRootOf_moves (R := Eq) m _ _ _ hroot
    obtain ⟨⟨err, o⟩, s₄, hnamei, h4⟩ := bind_ok.mp h3
    obtain ⟨hp, rfl⟩ := pure_ok.mp h4
    obtain ⟨held, -⟩ := sysioNamei_rule (n := 0) (held_rules fuseEnv_quiet (refs_nonneg s)) root
      (some path') flags intnt s (held_self lists) _ _ hnamei
    have ho : o = some p := by
      by_cases herr : err ≠ 0
      · simp [herr] at hp
      · simpa [herr] using hp
    have count := held.count p
    have base := refs_nonneg s p
    rw [ho] at count
    simp only [Option.toList_some, List.append_nil, List.count_singleton_self] at count
    have mem : p ∈ s₄.nc.pnodes := refs_pos_mem (by omega)
    simp only [refs, mem, if_true] at count
    omega

theorem pRele_run {v : Sys (FuseData B)} (held : (v.nc.pnode p).ref ≠ 0) :
    ∃ w, (pRele p : Fuse B Unit) v = .ok ((), w) :=
  ⟨_, bind_ok.mpr ⟨(), v, check_ok.mpr ⟨decide_eq_true held, rfl⟩, rfl⟩⟩

/-- A name that does not exist and may not be removed is left alone by `unlink`. -/
theorem unlink_denied {t : Sys (FuseData B)} {u : Uninit} (lists : NodeLists s)
    (found : target (fuseEnv h) path s = .ok (some p, t)) (denied : Denied (fuseEnv h) p t) :
    Fails (fuseLibrary h) s (.unlink u path) ∧ Untouched (fuseLibrary h) s (.unlink u path) := by
  obtain ⟨err, v, hperm, herr⟩ := denied
  have hscratch : Scratch t v := sysioPermitted_moves (fun _ _ k => k) _ _ _ _ _ hperm
  have held : (v.nc.pnode p).ref ≠ 0 := by
    rw [hscratch.nc]
    exact resolve_held lists found
  obtain ⟨w, release⟩ := pRele_run held
  have run : ∀ o, SameWalk (fuseEnv h) o →
      interfaceUnlink { fuseEnv h with ops := o } u path s =
        (do
          pRele p
          return status err : Fuse B Ret) v := by
    intro o same
    have found' : target { fuseEnv h with ops := o } path s = .ok (some p, t) := by
      rw [target_same same]
      exact found
    have hread : (pnodeAt p : Fuse B Pnode) t = .ok (t.nc.pnode p, t) := rfl
    have node : unlinkNode { fuseEnv h with ops := o } p t = .ok (err, v) := by
      refine (bind_run hread).trans ((bind_run hperm).trans ?_)
      rw [if_pos herr]
      rfl
    rw [unlink_run found']
    exact bind_run node
  have run' := run (fuseEnv h).ops ⟨rfl, rfl, fun _ _ _ _ _ => rfl⟩
  refine ⟨⟨err, w, run'.trans ((bind_run release).trans ?_), herr⟩,
    fun o same => (run o same).trans run'.symm⟩
  rw [status, if_pos herr]
  rfl

end Missing

/-- A call is dispatched safely, and fails by itself where the name does not exist, if and only if
it is one of the safe ones. -/
theorem dispatch_safety {B : Type} {h : Host B} {b : B} {s : Sys (FuseData B)}
    (run : FuseReached h b (fun _ _ => True) s) {call : Call} (covered : Covered call) :
    (Dispatched (fuseLibrary h) s call ∧ (Missing (fuseEnv h) s call →
      Fails (fuseLibrary h) s call ∧ Untouched (fuseLibrary h) s call)) ↔
    Safe (fuseEnv h) s call := by
  constructor
  · rintro ⟨dispatched, missing⟩
    exact @safe_of_dispatched _ (fuseLibrary h) s call covered dispatched fun m => (missing m).1
  intro safe
  refine ⟨fun o same => @step_same _ o s (fuseLibrary h) call same covered safe, fun missing => ?_⟩
  cases call with
  | stat path =>
    obtain ⟨p, t, found, unbound⟩ := missing
    exact (unbound (safe p t found)).elim
  | unlink u path =>
    obtain ⟨p, t, found, unbound⟩ := missing
    exact unlink_denied (reached_lists run) found ((safe p t found).resolve_left unbound)
  | _ => exact missing.elim

/-- A file system of type "bb" is on "/b", and the file "f" is open in it. -/
def fileOpen : List Call :=
  [.open_ ⟨none, none⟩ [98, 98, 58, 47, 98, 47, 102] 0o102 0o644, .mount [] [47, 98] [98, 98] 2]

theorem fileOpen_reached : FuseReached calmHost () (fun _ _ => True) (calmRun fileOpen) := by
  have run : runCalls (fuseLibrary calmHost) fuseTypeName fileOpen (initState (initData ())) =
      .ok ((), calmRun fileOpen) := ok_of_value (by decide +kernel)
  exact runCalls_reached run

theorem stat_unsafe {lib : Library D} {s : Sys D} {path : Bytes}
    (missing : (((target lib.env path).value s).join.any fun p =>
      !isBound p ((target lib.env path).final s)) = true) : ¬ Safe lib.env s (.stat path) := by
  intro safe
  obtain ⟨p, hp, unbound⟩ := (Option.any_eq_true _ _).mp missing
  have bound := safe p _ (ok_of_value (Option.join_eq_some_iff.mp hp))
  rw [isBound_iff.mpr bound] at unbound
  cases unbound

theorem fsync_safe {e : Env D} {s : Sys D} {fd : ℕ}
    (bound : ((s.ft.oftab.getD fd none).bind s.ft.file).all (fun r => isBound r.pno s) = true) :
    Safe e s (.fsync fd) := by
  rintro r ⟨f, hslot, hr⟩
  rw [if_neg (by omega), Int.toNat_natCast] at hslot
  rw [hslot, Option.bind_some, hr] at bound
  exact isBound_iff.mp bound

/-- "bb:/b/g", which does not exist. -/
def statMissing : Call := .stat [98, 98, 58, 47, 98, 47, 103]

/-- The driver is asked for the attributes of a file that does not exist. -/
theorem dispatch_unsafe_stat :
    FuseReached calmHost () (fun _ _ => True) (calmRun fileOpen) ∧ Covered statMissing ∧
    ¬ (Dispatched (fuseLibrary calmHost) (calmRun fileOpen) statMissing ∧
      (Missing (fuseEnv calmHost) (calmRun fileOpen) statMissing →
        Fails (fuseLibrary calmHost) (calmRun fileOpen) statMissing ∧
        Untouched (fuseLibrary calmHost) (calmRun fileOpen) statMissing)) := by
  refine ⟨fileOpen_reached, trivial, fun h => ?_⟩
  refine stat_unsafe ?_ (@safe_of_dispatched _ (fuseLibrary calmHost) (calmRun fileOpen)
    statMissing trivial h.1 fun m => (h.2 m).1)
  decide +kernel

theorem dispatch_safety_fileOpen :
    Dispatched (fuseLibrary calmHost) (calmRun fileOpen) (.fsync 0) := by
  have covered : Covered (.fsync 0) := trivial
  exact ((dispatch_safety fileOpen_reached covered).mpr (@fsync_safe _ _ _ 0 (by decide +kernel))).1

end Dispatch
