import DirectFuse.InodeRefs
import DirectFuse.CallMoves

/-! The books of the inodes over whole calls. A driver owes its caller a few things: its lookup
returns no inode with an error and a referenced one otherwise, its other operations leave the books
as they were, and its clean-up touches its own data only. -/
namespace InodeAccounts

open ExecLogic SysioState SysioInode SysioNamei SysioMount SysioFile SysioInterface SysioSystem
open CoreMoves Tally InodeRefs PostMoves CallMoves

variable {D : Type}

/-- No path node has been rewritten. -/
def SamePnode (s t : Sys D) : Prop := t.nc.pnode = s.nc.pnode

instance : IsPreorder (Sys D) SamePnode where
  refl _ := rfl
  trans _ _ _ h k := Eq.trans k h

/-- The name `p` stands for no inode. -/
def Unbound (p : Pno) (s : Sys D) : Prop :=
  ∀ r, s.nc.base (s.nc.pnode p).base = some r → r.ino = none

theorem unbound_of_inoOf {p : Pno} {s t : Sys D}
    (h : (inoOf p : Sysio D (Option InoId)) s = .ok (none, t)) : Unbound p s := by
  intro r hr
  obtain ⟨n, _, hn, h1⟩ := bind_ok.mp h
  obtain ⟨rfl, rfl⟩ := read_ok.mp hn
  obtain ⟨r', _, hread, h2⟩ := bind_ok.mp h1
  obtain ⟨hr', rfl⟩ := deref_ok.mp hread
  obtain ⟨hnone, -⟩ := pure_ok.mp h2
  obtain rfl : r = r' := Option.some.inj (hr.symm.trans hr')
  exact hnone

/-- What the accounts need of the drivers. -/
structure Contract (lk : Prop) (e : Env D) : Prop where
  lookup : ∀ i p o intnt path due, Triple (Books lk due) (e.ops.lookup i p o intnt path)
    fun res t => Books lk (fun j => due j + one (if res.2 = o then none else res.2) j) t ∧
      (res.1 ≠ 0 → res.2 = none)
  lookupBases : ∀ i p o intnt path,
    Moves (fun s t => t.nc.base = s.nc.base) (e.ops.lookup i p o intnt path)
  gone : ∀ i, Moves DriverOnly (e.ops.gone i)
  fsopGone : ∀ f, Moves DriverOnly (e.ops.fsopGone f)
  linkNodes : ∀ i p q, Moves SamePnode (e.ops.link i p q)
  renameNodes : ∀ i p q, Moves SamePnode (e.ops.rename i p q)
  closeFiles : ∀ i p, Moves (fun s t => t.ft = s.ft) (e.ops.close i p)
  getattr : ∀ i p j, Moves (Keep lk) (e.ops.getattr i p j)
  setattr : ∀ i p j mask, Moves (Keep lk) (e.ops.setattr i p j mask)
  mkdir : ∀ i p mode, Moves (fun s t => Unbound p s → Keep lk s t) (e.ops.mkdir i p mode)
  rmdir : ∀ i p, Moves (Keep lk) (e.ops.rmdir i p)
  symlink : ∀ i p path, Moves (Keep lk) (e.ops.symlink i p path)
  readlink : ∀ i p n, Moves (Keep lk) (e.ops.readlink i p n)
  open_ : ∀ i p flags mode, Moves (Keep lk) (e.ops.open_ i p flags mode)
  close : ∀ i p, Moves (Keep lk) (e.ops.close i p)
  link : ∀ i p q, Moves (Keep lk) (e.ops.link i p q)
  unlink : ∀ i p, Moves (Keep lk) (e.ops.unlink i p)
  rename : ∀ i p q, Moves (Keep lk) (e.ops.rename i p q)
  read : ∀ i n off p, Moves (Keep lk) (e.ops.read i n off p)
  write : ∀ i n off p, Moves (Keep lk) (e.ops.write i n off p)
  post : ∀ i p c, Moves (Keep lk) (e.ops.post i p c)
  iodone : ∀ i c, Moves (Keep lk) (e.ops.iodone i c)
  sync : ∀ i p, Moves (Keep lk) (e.ops.sync i p)
  datasync : ∀ i p, Moves (Keep lk) (e.ops.datasync i p)
  mknod : ∀ i p mode dev, Moves (Keep lk) (e.ops.mknod i p mode dev)
  ftruncate : ∀ i p n, Moves (Keep lk) (e.ops.ftruncate i p n)

section Nodes

variable {lk : Prop} {due : InoId → ℤ}

theorem Keep.triple {α : Type} {m : Sysio D α} (h : Moves (Keep lk) m) :
    Triple (Books lk due) m fun _ => Books lk due :=
  fun s hs a t hm => h s a t hm due hs

theorem scratch_keep (s t : Sys D) (h : Scratch s t) : Keep lk s t :=
  Aside.keep ⟨by rw [h.nc], by rw [h.nc], by rw [h.ic], by rw [h.ic], by rw [h.ic], by rw [h.ic],
    by rw [h.ic], by rw [h.ic], by rw [h.ft], by rw [h.ft], by rw [h.aio], by rw [h.aio]⟩

theorem pRef_keep (p : Pno) : Moves (Keep lk) (pRef p : Sysio D Unit) :=
  moves_bind (moves_check _ _) fun _ => aside_write fun _ =>
    ⟨rfl, rfl, rfl, rfl, rfl, rfl, rfl, rfl, rfl, rfl, rfl, rfl⟩

theorem pRele_keep (p : Pno) : Moves (Keep lk) (pRele p : Sysio D Unit) :=
  moves_bind (moves_check _ _) fun _ => aside_write fun _ =>
    ⟨rfl, rfl, rfl, rfl, rfl, rfl, rfl, rfl, rfl, rfl, rfl, rfl⟩

theorem setPnode_keep (p : Pno) (n : Pnode) : Moves (Keep lk) (setPnode p n : Sysio D Unit) :=
  aside_write fun _ => ⟨rfl, rfl, rfl, rfl, rfl, rfl, rfl, rfl, rfl, rfl, rfl, rfl⟩

/-- Rewriting a base node trades the inode it held for the one it holds. -/
theorem modBase_books {b : PbId} {f : PnodeBase → PnodeBase} {s t : Sys D} {u : Unit}
    (hs : Books lk due s) (h : (modBase b f : Sysio D Unit) s = .ok (u, t)) :
    ∃ r, s.nc.base b = some r ∧ Books lk (fun j => due j + one r.ino j - one (f r).ino j) t := by
  obtain ⟨r, hr, rfl⟩ := modBase_ok h
  exact ⟨r, hr, hs.putBase (o := some (f r))
    (t := { s with nc.base := Function.update s.nc.base b (some (f r)) }) hr rfl rfl rfl rfl rfl⟩

theorem modBase_keep (b : PbId) {f : PnodeBase → PnodeBase} (hf : ∀ r, (f r).ino = r.ino) :
    Moves (Keep lk) (modBase b f : Sysio D Unit) := by
  intro s u t h due hs
  obtain ⟨r, -, ht⟩ := modBase_books hs h
  simpa [hf r] using ht

theorem pbDestroy_keep (b : PbId) : Moves (Keep lk) (pbDestroy b : Sysio D Unit) := by
  intro s u t h due hs
  simp only [pbDestroy, baseAt, assert, bind_ok, check_ok, write_ok, deref_ok] at h
  obtain ⟨_, _, ⟨-, rfl⟩, _, _, rfl, r, _, ⟨hr, rfl⟩, _, _, ⟨-, rfl⟩, _, _, ⟨-, rfl⟩, _, _,
    ⟨hino, rfl⟩, _, v, hv, _, w, hw, rfl⟩ := h
  have hv' : v.nc.base = s.nc.base ∧ Books lk due v := by
    rcases when_ok.mp hv with ⟨-, hv⟩ | ⟨-, rfl⟩
    · obtain rfl := write_ok.mp hv
      exact ⟨rfl, hs.aside ⟨rfl, rfl, rfl, rfl, rfl, rfl, rfl, rfl, rfl, rfl, rfl, rfl⟩⟩
    · exact ⟨rfl, hs.aside ⟨rfl, rfl, rfl, rfl, rfl, rfl, rfl, rfl, rfl, rfl, rfl, rfl⟩⟩
  have hw' : Books lk due w :=
    ifSome_moves (fun q _ => modBase_keep q (by intros; rfl)) _ _ _ hw due hv'.2
  -- the parent's list changes, not the inode the node holds
  have hb : ∃ r', w.nc.base b = some r' ∧ r'.ino = none := by
    have hb : v.nc.base b = some r := by rw [hv'.1]; exact hr
    have hnone : r.ino = none := Option.isNone_iff_eq_none.mp hino
    cases hq : r.parent with
    | none =>
      rw [hq] at hw
      obtain ⟨-, rfl⟩ := pure_ok.mp hw
      exact ⟨r, hb, hnone⟩
    | some q =>
      rw [hq] at hw
      obtain ⟨rq, hrq, rfl⟩ := modBase_ok hw
      by_cases hbq : b = q
      · subst hbq
        obtain rfl : r = rq := Option.some.inj (hb.symm.trans hrq)
        exact ⟨_, Function.update_self .., hnone⟩
      · exact ⟨r, by simpa [hbq] using hb, hnone⟩
  obtain ⟨r', hr', hnone⟩ := hb
  have := hw'.putBase (o := none) hr' (t := { w with nc.base := Function.update w.nc.base b none })
    rfl rfl rfl rfl rfl
  simpa [one, hnone] using this

end Nodes

section Core

variable {lk : Prop} {due : InoId → ℤ} {e : Env D} (gone : ∀ i, Moves DriverOnly (e.ops.gone i))

include gone

theorem iRele_off (i : InoId) : Moves OffInodes (iRele e i) :=
  iRele_moves (fun _ _ h => h) (fun j => (gone j).mono fun _ _ h => h.off) i

/-- Letting go of an inode and forgetting it, or replacing it by a referenced one. -/
theorem replaceIno_books {b : PbId} {r : PnodeBase} {ino : Option InoId} {s t : Sys D} {u : Unit}
    (hr : s.nc.base b = some r) (hs : Books lk (fun j => due j + one ino j) s)
    (h : (do ifSome r.ino (iRele e); modBase b fun r => { r with ino := ino } : Sysio D Unit) s =
      .ok (u, t)) : Books lk due t := by
  obtain ⟨_, v, hv, hw⟩ := bind_ok.mp h
  have hv' : v.nc = s.nc ∧ Books lk (fun j => due j + one ino j - one r.ino j) v := by
    cases hi : r.ino with
    | none =>
      rw [hi] at hv
      obtain ⟨-, rfl⟩ := pure_ok.mp hv
      exact ⟨rfl, by simpa [one] using hs⟩
    | some i =>
      rw [hi] at hv
      exact ⟨(iRele_off gone i _ _ _ hv).nc, iRele_books gone i _ hs _ _ hv⟩
  obtain ⟨r', hr', ht⟩ := modBase_books hv'.2 hw
  obtain rfl : r = r' := by
    rw [hv'.1] at hr'
    exact Option.some.inj (hr.symm.trans hr')
  have : (fun j => due j + one ino j - one r.ino j + one r.ino j - one ino j) = due := by
    funext j
    omega
  simpa only [this] using ht

theorem sysioPbGone_keep (b : PbId) : Moves (Keep lk) (sysioPbGone e b) := by
  intro s u t h due hs
  obtain ⟨r, _, ha, h1⟩ := bind_ok.mp h
  obtain ⟨hr, rfl⟩ := deref_ok.mp ha
  obtain ⟨_, v, hv, h2⟩ := bind_ok.mp h1
  obtain ⟨_, w, hw, h3⟩ := bind_ok.mp h2
  have hw' : Books lk due w := replaceIno_books gone hr (by simpa [one] using hs)
    (bind_ok.mpr ⟨_, v, hv, hw⟩)
  exact pbDestroy_keep b w u t h3 due hw'

theorem sysioPGone_keep (p : Pno) : Moves (Keep lk) (sysioPGone e p) :=
  moves_bind (pnodeAt_moves p) fun n => moves_bind (assert_moves _) fun _ =>
    moves_bind (assert_moves _) fun _ => moves_bind (moves_check _ _) fun _ =>
    moves_bind (aside_write fun _ => ⟨rfl, rfl, rfl, rfl, rfl, rfl, rfl, rfl, rfl, rfl, rfl, rfl⟩)
    fun _ => moves_bind (modBase_keep n.base (by intros; rfl)) fun _ => moves_bind (baseAt_moves _)
    fun r => moves_bind (moves_when fun _ => sysioPbGone_keep gone n.base) fun _ =>
    aside_write fun _ => ⟨rfl, rfl, rfl, rfl, rfl, rfl, rfl, rfl, rfl, rfl, rfl, rfl⟩

theorem sysioPPrune_keep (p : Pno) : Moves (Keep lk) (sysioPPrune e p) :=
  sysioPPrune_moves (sysioPbGone_keep gone) (sysioPGone_keep gone) p

/-- Pruning moves nodes to the free list but rewrites none. -/
theorem sysioPPrune_pnode (p : Pno) : Moves SamePnode (sysioPPrune e p) := by
  have pbGone : ∀ b, Moves SamePnode (sysioPbGone e b) := sysioPbGone_moves
    (fun s t h => h.pnode) fun i => (gone i).mono fun s t h => by rw [h.nc]
  refine sysioPPrune_moves pbGone (fun p => ?_) p
  exact moves_bind (pnodeAt_moves p) fun n => moves_bind (assert_moves _) fun _ =>
    moves_bind (assert_moves _) fun _ => moves_bind (moves_check _ _) fun _ =>
    moves_bind (moves_write fun _ => rfl) fun _ => moves_bind (modBase_moves (fun s t h => h.pnode)
    _ _) fun _ => moves_bind (baseAt_moves _) fun r => moves_bind (moves_when fun _ => pbGone _)
    fun _ => moves_write fun _ => rfl

theorem pReclaim_keep : Moves (Keep lk) (pReclaim e) := by
  refine pReclaim_moves (fun p => ?_) fun _ _ =>
    Aside.keep ⟨rfl, rfl, rfl, rfl, rfl, rfl, rfl, rfl, rfl, rfl, rfl, rfl⟩
  exact moves_bind (pnodeAt_moves p) fun n => moves_ite (fun _ => moves_read _) fun _ =>
    moves_bind (setPnode_keep p _) fun _ => moves_bind (sysioPPrune_keep gone p) fun _ =>
    moves_bind (moves_read _) fun next => moves_bind (pRele_keep p) fun _ =>
    moves_bind (pnodeAt_moves p) fun n => moves_ite (fun _ => moves_pure _) fun _ =>
    moves_bind (sysioPPrune_keep gone p) fun _ => moves_pure _

/-- A new base node takes over the reference on the inode it is given. -/
theorem sysioPbNew_books (name : Qstr) (parent : Option PbId) (ino : Option InoId) :
    Triple (Books lk fun j => due j + one ino j) (sysioPbNew e name parent ino)
      fun o => Books lk fun j => due j + one (if o.isSome then none else ino) j := by
  refine triple_bind (Keep.triple (moves_read _)) fun nc =>
    triple_bind (Keep.triple (moves_when fun _ => pReclaim_keep gone)) fun _ =>
    triple_bind (Keep.triple malloc_keep) fun ok => triple_ite
    (fun _ => triple_pure fun s hs => hs) fun _ => ?_
  intro s hs o t h
  simp only [bind_ok, read_ok] at h
  obtain ⟨b, _, ⟨rfl, rfl⟩, _, v, hv, _, w, hw, _, x, hx, hp⟩ := h
  obtain rfl := write_ok.mp hx
  obtain ⟨rfl, rfl⟩ := pure_ok.mp hp
  have hv' : v.nc.nextBase = s.nc.nextBase ∧ Books lk (fun j => due j + one ino j) v := by
    rcases when_ok.mp hv with ⟨-, hv⟩ | ⟨-, rfl⟩
    · obtain ⟨_, _, ha, hwr⟩ := bind_ok.mp hv
      obtain ⟨-, rfl⟩ := check_ok.mp ha
      obtain rfl := write_ok.mp hwr
      exact ⟨rfl, hs.aside ⟨rfl, rfl, rfl, rfl, rfl, rfl, rfl, rfl, rfl, rfl, rfl, rfl⟩⟩
    · exact ⟨rfl, hs⟩
  have hw' : w.nc.nextBase = s.nc.nextBase ∧ Books lk (fun j => due j + one ino j) w := by
    cases parent with
    | none =>
      obtain ⟨-, rfl⟩ := pure_ok.mp hw
      exact hv'
    | some q =>
      refine ⟨?_, modBase_keep q (by intros; rfl) _ _ _ hw _ hv'.2⟩
      obtain ⟨r, -, rfl⟩ := modBase_ok hw
      exact hv'.1
  have hpush := hw'.2.pushBase (r := ⟨name, ino, [], [], parent⟩)
    (t := { w with
      nc.base := Function.update w.nc.base s.nc.nextBase (some ⟨name, ino, [], [], parent⟩)
      nc.nextBase := s.nc.nextBase + 1
      nc.nNames := w.nc.nNames + 1 })
    (by rw [hw'.1]) (by rw [hw'.1]) rfl rfl rfl
  simpa [one] using hpush

omit gone in
theorem sysioPNewAlias_keep (parent : Option Pno) (b : PbId) (mnt : MntId) :
    Moves (Keep lk) (sysioPNewAlias e parent b mnt) := by
  have fresh : Moves (Keep lk) (morePnodes e) :=
    moves_bind malloc_keep fun ok => moves_ite (fun _ => aside_write fun _ =>
      ⟨rfl, rfl, rfl, rfl, rfl, rfl, rfl, rfl, rfl, rfl, rfl, rfl⟩) fun _ => moves_pure _
  refine moves_bind (baseAt_moves b) fun r => moves_bind (assert_moves _) fun _ =>
    moves_bind (moves_read _) fun _ => moves_bind (moves_when fun _ => fresh) fun _ =>
    moves_bind (moves_read _) fun free => ?_
  cases free with
  | nil => exact moves_pure _
  | cons p rest =>
    exact moves_bind (aside_write fun _ => ⟨rfl, rfl, rfl, rfl, rfl, rfl, rfl, rfl, rfl, rfl, rfl,
      rfl⟩) fun _ => moves_bind (modBase_keep b (by intros; rfl)) fun _ => moves_pure _

theorem sysioPFindAlias_keep (p : Pno) (name : Qstr) :
    Moves (Keep lk) (sysioPFindAlias e p name) := by
  have base : ∀ b, Moves (Keep lk) (findBase e b name) := by
    intro b
    refine moves_bind (nameChain_moves b name) fun chain =>
      moves_bind (findNamed_moves _ _ _) fun found => ?_
    cases found with
    | some b => exact moves_pure _
    | none =>
      intro s o t h due hs
      have := sysioPbNew_books gone name (some b) none s (by simpa [one] using hs) o t h
      simpa [one] using this
  refine moves_bind (pnodeAt_moves p) fun n => moves_bind (base n.base) fun found => ?_
  cases found with
  | none => exact moves_pure _
  | some b =>
    refine moves_bind (baseAt_moves b) fun r => moves_bind (findAliasOf_moves _ _) fun known => ?_
    cases known with
    | some q => exact moves_bind (pRef_keep q) fun _ => moves_pure _
    | none =>
      refine moves_bind (pnodeAt_moves p) fun n => moves_bind (sysioPNewAlias_keep _ _ _)
        fun made => ?_
      cases made <;> exact moves_pure _

omit gone in
/-- A new file system record has an empty inode table. -/
theorem sysioFsNew_keep (flags : ℕ) (name : Bytes) (priv : ℕ) :
    Moves (Keep lk) (sysioFsNew e flags name priv) := by
  refine moves_bind (moves_read _) fun dev => moves_bind malloc_keep fun ok =>
    moves_ite (fun _ => moves_pure _) fun _ => moves_bind malloc_keep fun named =>
    moves_bind (moves_check _ _) fun _ => ?_
  intro s o t h due hs
  simp only [bind_ok, read_ok, write_ok, pure_ok] at h
  obtain ⟨f, _, ⟨rfl, rfl⟩, _, _, rfl, rfl, rfl⟩ := h
  have ht := hs.tables
  have fresh := ht.fsBound s.ic.nextFs (Nat.le_refl _)
  have old : ∀ g r, s.ic.filesys g = some r → g ≠ s.ic.nextFs := by
    rintro g r hg rfl
    simp [fresh] at hg
  refine hs.recount rfl rfl rfl ⟨ht.baseBound, ht.fileBound, ht.ioctxBound, ht.inodeBound,
    empty_push ht.fsBound, ht.inodes, ht.inodesNodup, ht.nInodes, fun g r k i hg hi => ?_,
    fun g r k hg => ?_, fun i n hn hz => ?_, ht.zombie⟩ fun j => rfl
  · by_cases hgf : g = s.ic.nextFs
    · simp only [hgf, Function.update_self, Option.some.injEq] at hg
      simp [← hg] at hi
    · simp only [Function.update_of_ne hgf] at hg
      exact ht.itbl g r k i hg hi
  · by_cases hgf : g = s.ic.nextFs
    · simp only [hgf, Function.update_self, Option.some.injEq] at hg
      simp [← hg]
    · simp only [Function.update_of_ne hgf] at hg
      exact ht.itblNodup g r k hg
  · obtain ⟨r, hr, hm⟩ := ht.listed i n hn hz
    exact ⟨r, by simpa only [Function.update_of_ne (old _ r hr)] using hr, hm⟩

/-- File system records stay, and an empty chain stays empty. -/
def Drains (s t : Sys D) : Prop :=
  ∀ f r, s.ic.filesys f = some r → ∃ r', t.ic.filesys f = some r' ∧
    ∀ k, r.itbl k = [] → r'.itbl k = []

omit gone in
theorem Drains.of_eq {s t : Sys D} (h : t.ic = s.ic) : Drains s t :=
  fun f r hr => ⟨r, by rw [h]; exact hr, fun _ hk => hk⟩

instance : IsPreorder (Sys D) Drains where
  refl _ := Drains.of_eq rfl
  trans _ _ _ h k f r hr := by
    obtain ⟨r', hr', h1⟩ := h f r hr
    obtain ⟨r'', hr'', h2⟩ := k f r' hr'
    exact ⟨r'', hr'', fun n hn => h2 n (h1 n hn)⟩

theorem sysioIGone_drains (i : InoId) : Moves Drains (sysioIGone e i) := by
  intro s u t h f rf hf
  obtain ⟨r, -, -, ic, -⟩ := sysioIGone_ok gone h
  rw [ic]
  cases hz : r.zombie with
  | true => exact ⟨rf, by simpa [dropInode, hz] using hf, fun _ hk => hk⟩
  | false =>
    simp only [dropInode, hz, Bool.false_eq_true, if_false, unhash]
    cases hfs : s.ic.filesys r.fs with
    | none => exact ⟨rf, hf, fun _ hk => hk⟩
    | some g =>
      by_cases hff : f = r.fs
      · subst hff
        obtain rfl : g = rf := Option.some.inj (hfs.symm.trans hf)
        refine ⟨_, Function.update_self .., fun k hk => ?_⟩
        by_cases hslot : k = itblSlot r.fid
        · subst hslot
          simp [hk]
        · simpa [hslot] using hk
      · exact ⟨rf, by simpa [hff] using hf, fun _ hk => hk⟩

theorem drainChain_drains (f : FsId) (slot fuel : ℕ) : Moves Drains (drainChain e f slot fuel) := by
  induction fuel with
  | zero => exact moves_fault _
  | succ fuel ih =>
    refine moves_bind (fsAt_moves f) fun r => ?_
    cases r.itbl slot with
    | nil => exact moves_pure _
    | cons i l => exact moves_bind (sysioIGone_drains gone i) fun _ => ih

theorem drainChain_keep (f : FsId) (slot fuel : ℕ) :
    Moves (Keep lk) (drainChain e f slot fuel) := by
  induction fuel with
  | zero => exact moves_fault _
  | succ fuel ih =>
    refine moves_bind (fsAt_moves f) fun r => ?_
    cases r.itbl slot with
    | nil => exact moves_pure _
    | cons i l => exact moves_bind (sysioIGone_keep gone i) fun _ => ih

omit gone in
theorem drainChain_empty (f : FsId) (slot fuel : ℕ) {s t : Sys D} {u : Unit}
    (h : drainChain e f slot fuel s = .ok (u, t)) :
    ∃ r, t.ic.filesys f = some r ∧ r.itbl slot = [] := by
  induction fuel generalizing s with
  | zero => exact (fault_ok.mp h).elim
  | succ fuel ih =>
    obtain ⟨r, _, ha, h1⟩ := bind_ok.mp h
    obtain ⟨hr, rfl⟩ := deref_ok.mp ha
    cases hl : r.itbl slot with
    | nil =>
      simp only [hl] at h1
      obtain ⟨-, rfl⟩ := pure_ok.mp h1
      exact ⟨r, hr, hl⟩
    | cons i l =>
      simp only [hl] at h1
      obtain ⟨_, v, -, h2⟩ := bind_ok.mp h1
      exact ih h2

theorem drainTable_spec (f : FsId) (n : ℕ) {s t : Sys D} {u : Unit}
    (h : drainTable e f n s = .ok (u, t)) :
    Keep lk s t ∧ Drains s t ∧ ∀ r, t.ic.filesys f = some r → ∀ k < n, r.itbl k = [] := by
  induction n generalizing s with
  | zero =>
    obtain ⟨-, rfl⟩ := pure_ok.mp h
    exact ⟨fun _ hs => hs, Drains.of_eq rfl, fun _ _ k hk => by omega⟩
  | succ n ih =>
    obtain ⟨r, _, ha, h1⟩ := bind_ok.mp h
    obtain ⟨hr, rfl⟩ := deref_ok.mp ha
    obtain ⟨_, v, hv, h2⟩ := bind_ok.mp h1
    obtain ⟨hkeep, hdrain, hempty⟩ := ih h2
    refine ⟨fun due hs => hkeep due (drainChain_keep gone f n _ _ _ _ hv due hs),
      IsTrans.trans _ _ _ (drainChain_drains gone f n _ _ _ _ hv) hdrain, fun r ht k hk => ?_⟩
    by_cases hkn : k = n
    · subst hkn
      obtain ⟨rv, hrv, hnil⟩ := drainChain_empty f k _ hv
      obtain ⟨r', hr', hk'⟩ := hdrain f rv hrv
      obtain rfl : r' = r := Option.some.inj (hr'.symm.trans ht)
      exact hk' k hnil
    · exact hempty r ht k (by omega)

variable (fsopGone : ∀ f, Moves DriverOnly (e.ops.fsopGone f))

include fsopGone

/-- `_sysio_fs_gone` leaves no inode behind that its tables would have to list. -/
theorem sysioFsGone_keep (f : FsId) : Moves (Keep lk) (sysioFsGone e f) := by
  intro s u t h due hs
  simp only [sysioFsGone, fsAt, bind_ok, deref_ok, check_ok, write_ok] at h
  obtain ⟨r, _, ⟨hr, rfl⟩, _, _, ⟨-, rfl⟩, _, v, hv, _, w, hw, rfl⟩ := h
  obtain ⟨hkeep, hdrain, hempty⟩ := @drainTable_spec D lk e gone f _ _ _ _ hv
  have hd := fsopGone f _ _ _ hw
  have hv' : Books lk due v := hkeep due hs
  have hw' : Books lk due w := hv'.aside ⟨by rw [hd.nc], by rw [hd.nc], by rw [hd.ic], by rw [hd.ic],
    by rw [hd.ic], by rw [hd.ic], by rw [hd.ic], by rw [hd.ic], by rw [hd.ft], by rw [hd.ft],
    by rw [hd.aio], by rw [hd.aio]⟩
  have ht := hw'.tables
  refine hw'.recount rfl rfl rfl ⟨ht.baseBound, ht.fileBound, ht.ioctxBound, ht.inodeBound,
    fun g hg => ?_, ht.inodes, ht.inodesNodup, ht.nInodes, fun g r k i hg hi => ?_,
    fun g r k hg => ?_, fun i n hn hz => ?_, ht.zombie⟩ fun j => rfl
  · by_cases hgf : g = f
    · simp [hgf]
    · simpa only [Function.update_of_ne hgf] using ht.fsBound g hg
  · by_cases hgf : g = f
    · simp [hgf] at hg
    · simp only [Function.update_of_ne hgf] at hg
      exact ht.itbl g r k i hg hi
  · by_cases hgf : g = f
    · simp [hgf] at hg
    · simp only [Function.update_of_ne hgf] at hg
      exact ht.itblNodup g r k hg
  · obtain ⟨rn, hrn, hm⟩ := ht.listed i n hn hz
    have hnf : n.fs ≠ f := by
      rintro rfl
      rw [hd.ic] at hrn
      have := hempty rn hrn (itblSlot n.fid) (Nat.mod_lt _ (by decide))
      simp [this] at hm
    exact ⟨rn, by simpa only [Function.update_of_ne hnf] using hrn, hm⟩

theorem fsRele_keep (f : FsId) : Moves (Keep lk) (fsRele e f) := by
  intro s u t h due hs
  simp only [fsRele, fsAt, assert, SysioState.setFs, bind_ok, deref_ok, check_ok, write_ok] at h
  obtain ⟨r, _, ⟨hr, rfl⟩, _, _, ⟨-, rfl⟩, _, v, rfl, h⟩ := h
  refine moves_ite (R := Keep lk) (fun _ => sysioFsGone_keep gone fsopGone f)
    (fun _ => moves_pure _) _ _ _ h due ?_
  have ht := hs.tables
  refine hs.recount rfl rfl rfl ⟨ht.baseBound, ht.fileBound, ht.ioctxBound, ht.inodeBound,
    empty_update ht.fsBound (ht.lt_nextFs hr), ht.inodes, ht.inodesNodup, ht.nInodes,
    fun g rg k i hg hi => ?_, fun g rg k hg => ?_, fun i n hn hz => ?_, ht.zombie⟩ fun j => rfl
  · by_cases hgf : g = f
    · subst hgf
      simp only [Function.update_self, Option.some.injEq] at hg
      subst hg
      exact ht.itbl g r k i hr hi
    · simp only [Function.update_of_ne hgf] at hg
      exact ht.itbl g rg k i hg hi
  · by_cases hgf : g = f
    · subst hgf
      simp only [Function.update_self, Option.some.injEq] at hg
      subst hg
      exact ht.itblNodup g r k hr
    · simp only [Function.update_of_ne hgf] at hg
      exact ht.itblNodup g rg k hg
  · obtain ⟨rn, hrn, hm⟩ := ht.listed i n hn hz
    by_cases hnf : n.fs = f
    · rw [hnf] at hrn ⊢
      obtain rfl : r = rn := Option.some.inj (hr.symm.trans hrn)
      exact ⟨_, Function.update_self .., hm⟩
    · exact ⟨rn, by simpa only [Function.update_of_ne hnf] using hrn, hm⟩

end Core

section Calls

variable {lk : Prop} {due : InoId → ℤ} {e : Env D} (c : Contract lk e)

include c

/-- Validation trades the cached inode for what the driver found. -/
theorem sysioPValidate_keep (p : Pno) (intnt : Option Intent) (path : Option Bytes) :
    Moves (Keep lk) (sysioPValidate e p intnt path) := by
  intro s err t h due hs
  simp only [sysioPValidate, pnodeAt, baseAt, mountAt, nonNull, assert, bind_ok, read_ok, deref_ok,
    check_ok, pure_ok] at h
  obtain ⟨n, _, ⟨rfl, rfl⟩, r, _, ⟨hr, rfl⟩, m, _, ⟨-, rfl⟩, root, _, ⟨-, rfl⟩, rn, _, ⟨-, rfl⟩,
    rootpb, _, ⟨-, rfl⟩, _, _, ⟨-, rfl⟩, rooti, _, ⟨-, rfl⟩, res, v, hv, r', _, ⟨hr', rfl⟩, _, w,
    hw, rfl, rfl⟩ := h
  obtain ⟨hv', hnone⟩ := c.lookup _ _ _ _ _ due s hs res v hv
  obtain rfl : r = r' := by
    rw [c.lookupBases _ _ _ _ _ s res v hv] at hr'
    exact Option.some.inj (hr.symm.trans hr')
  rcases when_ok.mp hw with ⟨hc, hw⟩ | ⟨hc, rfl⟩
  · refine replaceIno_books c.gone hr' ?_ hw
    by_cases hres : res.2 = r.ino
    · -- only an error leaves here, and then both are NULL
      rcases hc with herr | hne
      · rw [hnone herr] at hv' ⊢
        simpa using hv'
      · exact (hne hres.symm).elim
    · simpa [hres] using hv'
  · have hres : res.2 = r.ino := by
      by_contra hne
      exact hc (Or.inr (Ne.symm hne))
    simpa [hres, one] using hv'

theorem walk_keep : WalkMoves (Keep lk) e where
  pRef := pRef_keep
  pRele := pRele_keep
  malloc := malloc_keep
  validate := sysioPValidate_keep c
  permitted := sysioPermitted_moves scratch_keep
  findAlias := sysioPFindAlias_keep c.gone
  readlink := c.readlink

theorem sysioNamei_keep (parent : Option Pno) (path : Option Bytes) (flags : ℕ)
    (intnt : Option Intent) : Moves (Keep lk) (sysioNamei e parent path flags intnt) :=
  sysioNamei_moves (walk_keep c) parent path flags intnt

omit c in
theorem setMount_keep (m : MntId) (r : Mount) : Moves (Keep lk) (setMount m r : Sysio D Unit) :=
  aside_write fun _ => ⟨rfl, rfl, rfl, rfl, rfl, rfl, rfl, rfl, rfl, rfl, rfl, rfl⟩

omit c in
theorem freeMount_keep (m : MntId) : Moves (Keep lk) (freeMount m : Sysio D Unit) :=
  aside_write fun _ => ⟨rfl, rfl, rfl, rfl, rfl, rfl, rfl, rfl, rfl, rfl, rfl, rfl⟩

theorem sysioDoMount_keep (fs : FsId) (rootpb : PbId) (flags : ℕ) (tocover : Option Pno) :
    Moves (Keep lk) (sysioDoMount e fs rootpb flags tocover) := by
  have ancestor : Moves (Keep lk) (coversAncestor tocover rootpb : Sysio D Bool) := by
    cases tocover with
    | none => exact moves_pure _
    | some t => exact moves_bind (pnodeAt_moves t) fun _ => moves_bind (moves_read _) fun _ =>
        hasAncestor_moves _ _ _
  have above : Moves (Keep lk) (parentAbove tocover : Sysio D (Option Pno)) := by
    cases tocover with
    | none => exact moves_pure _
    | some t => exact moves_bind (pnodeAt_moves t) fun _ => moves_pure _
  have failed : ∀ m root err, Moves (Keep lk) (doMountError e m root err) := fun m root err =>
    moves_bind (ifSome_moves fun r _ => moves_bind (pRele_keep r) fun _ =>
      moves_bind (sysioPPrune_keep c.gone r) fun _ => moves_pure _) fun _ =>
      moves_bind (freeMount_keep m) fun _ => moves_pure _
  have cover : ∀ m root, Moves (Keep lk) (coverUp e m root tocover) := fun m root =>
    moves_bind (mountAt_moves m) fun r => moves_bind (setMount_keep m _) fun _ =>
      moves_bind (pnodeAt_moves _) fun n => moves_bind (ifSome_moves fun q _ =>
      moves_bind (pnodeAt_moves q) fun _ => moves_bind (sysioPbPath_moves scratch_keep _ _) fun _ =>
      moves_bind (pnodeAt_moves _) fun _ => moves_bind (sysioPbPath_moves scratch_keep _ _) fun _ =>
      moves_pure _) fun _ => moves_bind (setPnode_keep _ _) fun _ => aside_write fun _ =>
      ⟨rfl, rfl, rfl, rfl, rfl, rfl, rfl, rfl, rfl, rfl, rfl, rfl⟩
  refine moves_bind ancestor fun busy => moves_ite (fun _ => moves_pure _) fun _ =>
    moves_bind malloc_keep fun ok => moves_ite (fun _ => moves_pure _) fun _ =>
    moves_bind (moves_read _) fun m => moves_bind (fsAt_moves fs) fun f =>
    moves_bind (aside_write fun _ => ⟨rfl, rfl, rfl, rfl, rfl, rfl, rfl, rfl, rfl, rfl, rfl, rfl⟩)
    fun _ => moves_bind above fun up => moves_bind (sysioPNewAlias_keep _ _ _) fun made =>
    moves_bind (mountAt_moves m) fun r => moves_bind (setMount_keep m _) fun _ => ?_
  cases made with
  | none => exact failed m none _
  | some root =>
    refine moves_bind (sysioPValidate_keep c root none none) fun err => moves_ite
      (fun _ => failed m (some root) err) fun _ => moves_bind (inoOf_moves root) fun ino =>
      moves_bind (nonNull_moves _) fun i => moves_bind (inodeAt_moves i) fun ri => moves_ite
      (fun _ => failed m (some root) _) fun _ => moves_bind (cover m root) fun _ => moves_pure _

theorem sysioDoUnmount_keep (m : MntId) : Moves (Keep lk) (sysioDoUnmount e m) := by
  have commit : ∀ root covers, Moves (Keep lk) (unmountCommit e m root covers) :=
    fun root covers =>
    moves_bind (mountAt_moves m) fun r => moves_bind (pnodeAt_moves root) fun nr =>
      moves_bind (moves_when fun _ => pRele_keep covers) fun _ =>
      moves_bind (pnodeAt_moves covers) fun n => moves_bind (setPnode_keep _ _) fun _ =>
      moves_bind (aside_write fun _ => ⟨rfl, rfl, rfl, rfl, rfl, rfl, rfl, rfl, rfl, rfl, rfl,
        rfl⟩) fun _ => moves_bind (pRele_keep root) fun _ => moves_bind (pnodeAt_moves root)
      fun nr => moves_bind (setPnode_keep _ _) fun _ =>
      moves_bind (sysioPGone_keep c.gone root) fun _ => moves_bind (freeMount_keep m) fun _ =>
      moves_bind (fsRele_keep c.gone c.fsopGone r.fs) fun _ => moves_pure _
  exact moves_bind (mountAt_moves m) fun r => moves_bind (nonNull_moves _) fun root =>
    moves_bind (pnodeAt_moves root) fun nr => moves_ite (fun _ => moves_pure _) fun _ =>
    moves_bind (nonNull_moves _) fun covers => moves_bind (pnodeAt_moves covers) fun n =>
    moves_bind (assert_moves _) fun _ => moves_bind (sysioPPrune_keep c.gone root) fun left =>
    moves_ite (fun _ => moves_pure _) fun _ => commit root covers

omit c in
/-- The files of the table that `fRele` and its like rewrite keep their inode. -/
theorem setFile_keep {f : FilId} {r r' : File} {s t : Sys D} {u : Unit} (hs : Books lk due s)
    (hr : s.ft.file f = some r) (h : (setFile f r' : Sysio D Unit) s = .ok (u, t))
    (hino : r'.ino = r.ino) : Books lk due t := by
  obtain rfl := write_ok.mp h
  have := hs.putFile (o := some r') (t := { s with
    ft.file := Function.update s.ft.file f (some r') }) hr rfl rfl rfl rfl rfl
  simpa [fileIno, hino] using this

theorem sysioFgone_keep (f : FilId) : Moves (Keep lk) (sysioFgone e f) := by
  intro s u t h due hs
  simp only [sysioFgone, fileAt, assert, bind_ok, deref_ok, check_ok, write_ok] at h
  obtain ⟨r, _, ⟨hr, rfl⟩, _, _, ⟨-, rfl⟩, err, v, hv, _, _, ⟨-, rfl⟩, _, w, hw, rfl⟩ := h
  have hv' : Books lk due v := c.close _ _ _ _ _ hv due hs
  have hw' := iRele_books c.gone r.ino v hv' _ _ hw
  have file : w.ft = s.ft := (iRele_off c.gone r.ino _ _ _ hw).ft.trans (c.closeFiles _ _ _ _ _ hv)
  have hrw : w.ft.file f = some r := by rw [file]; exact hr
  have := hw'.putFile (o := none) (t := { w with ft.file := Function.update w.ft.file f none }) hrw
    rfl rfl rfl rfl rfl
  simpa [one] using this

theorem fRele_keep (f : FilId) : Moves (Keep lk) (fRele e f) := by
  intro s u t h due hs
  simp only [fRele, fileAt, assert, bind_ok, deref_ok, check_ok] at h
  obtain ⟨r, _, ⟨hr, rfl⟩, _, _, ⟨-, rfl⟩, _, v, hv, h⟩ := h
  refine moves_ite (R := Keep lk) (fun _ => sysioFgone_keep c f) (fun _ => moves_pure _) _ _ _ h due ?_
  exact setFile_keep hs hr hv rfl

omit c in
theorem fRef_keep (f : FilId) : Moves (Keep lk) (fRef f : Sysio D Unit) := by
  intro s u t h due hs
  obtain ⟨r, _, ha, hw⟩ := bind_ok.mp h
  obtain ⟨hr, rfl⟩ := deref_ok.mp ha
  exact setFile_keep hs hr hw rfl

omit c in
theorem sysioFuseFnew_keep (p : Pno) (flags : ℕ) : Moves (Keep lk) (sysioFuseFnew e p flags) := by
  refine moves_bind (inoOf_moves p) fun ino => moves_bind malloc_keep fun ok =>
    moves_ite (fun _ => moves_pure _) fun _ => moves_bind (nonNull_moves _) fun i => ?_
  intro s o t h due hs
  simp only [bind_ok, read_ok, write_ok, pure_ok] at h
  obtain ⟨f, _, ⟨rfl, rfl⟩, _, v, rfl, _, w, hw, rfl, rfl⟩ := h
  have hpush := hs.pushFile (r := ⟨i, 0, 1, flags, p⟩) (t := { s with
    ft.file := Function.update s.ft.file s.ft.nextFile (some ⟨i, 0, 1, flags, p⟩)
    ft.nextFile := s.ft.nextFile + 1 }) rfl rfl rfl rfl rfl
  have := iRef_books i _ hpush _ _ hw
  simpa using this

omit c in
theorem fdGrow_keep (n : ℕ) : Moves (Keep lk) (fdGrow e n) :=
  moves_ite (fun _ => moves_pure _) fun _ => moves_bind (moves_read _) fun size =>
    moves_ite (fun _ => moves_pure _) fun _ => moves_bind malloc_keep fun ok =>
    moves_ite (fun _ => moves_pure _) fun _ => moves_bind (aside_write fun _ =>
    ⟨rfl, rfl, rfl, rfl, rfl, rfl, rfl, rfl, rfl, rfl, rfl, rfl⟩) fun _ => moves_pure _

omit c in
theorem setSlot_keep (fd : ℕ) (o : Option FilId) : Moves (Keep lk) (setSlot fd o : Sysio D Unit) :=
  aside_write fun _ => ⟨rfl, rfl, rfl, rfl, rfl, rfl, rfl, rfl, rfl, rfl, rfl, rfl⟩

theorem sysioFdClose_keep (fd : ℤ) : Moves (Keep lk) (sysioFdClose e fd) := by
  refine moves_bind (moves_read _) fun fil => ?_
  cases fil with
  | none => exact moves_pure _
  | some f =>
    exact moves_bind (setSlot_keep _ _) fun _ => moves_bind (fRele_keep c f) fun _ => moves_pure _

theorem sysioFdSet_keep (f : FilId) (fd : ℤ) (force : Bool) :
    Moves (Keep lk) (sysioFdSet e f fd force) := by
  have free : Moves (Keep lk) (findFreeFildes e fd.toNat) :=
    moves_bind (moves_read _) fun oftab => moves_bind (moves_ite (fun _ => fdGrow_keep _)
      fun _ => moves_pure _) fun err => moves_pure _
  exact moves_bind (moves_ite (fun _ => free) fun _ => moves_pure _) fun fd =>
    moves_ite (fun _ => moves_pure _) fun _ => moves_bind (fdGrow_keep _) fun err =>
    moves_ite (fun _ => moves_pure _) fun _ => moves_bind (moves_read _) fun ofil =>
    moves_bind (setSlot_keep _ _) fun _ => moves_bind (ifSome_moves fun g _ => fRele_keep c g)
    fun _ => moves_pure _

theorem sysioFdDup_keep (oldfd newfd : ℤ) (force : Bool) :
    Moves (Keep lk) (sysioFdDup e oldfd newfd force) := by
  refine moves_ite (fun _ => moves_pure _) fun _ => moves_bind (moves_read _) fun fil => ?_
  cases fil with
  | none => exact moves_pure _
  | some f =>
    exact moves_bind (sysioFdSet_keep c f newfd force) fun fd =>
      moves_bind (moves_when fun _ => fRef_keep f) fun _ => moves_pure _

omit c in
theorem setIoctx_keep {q : IocId} {r r' : Ioctx} {s t : Sys D} {u : Unit} (hs : Books lk due s)
    (hr : s.aio.ioctx q = some r) (h : (setIoctx q r' : Sysio D Unit) s = .ok (u, t))
    (hino : ioctxIno r' = ioctxIno r) : Books lk due t := by
  obtain rfl := write_ok.mp h
  have := hs.putIoctx (o := some r') (t := { s with
    aio.ioctx := Function.update s.aio.ioctx q (some r') }) hr rfl rfl rfl rfl rfl
  simpa [hino] using this

omit c in
theorem sysioIoctxNew_keep (i : InoId) (wr : Bool) (iov xtv : Option VecId) :
    Moves (Keep lk) (sysioIoctxNew e i wr iov xtv) := by
  refine moves_bind malloc_keep fun ok => moves_ite (fun _ => moves_pure _) fun _ => ?_
  intro s o t h due hs
  obtain ⟨_, v, hv, h1⟩ := bind_ok.mp h
  simp only [bind_ok, read_ok, write_ok, pure_ok] at h1
  obtain ⟨q, _, ⟨rfl, rfl⟩, _, w, rfl, rfl, rfl⟩ := h1
  have hv' := iRef_books i s hs _ _ hv
  have := hv'.pushIoctx (r := ⟨false, false, wr, i, iov, xtv, 0, 0, []⟩) (t := { v with
    aio.ioctx := Function.update v.aio.ioctx v.aio.nextIoctx
      (some ⟨false, false, wr, i, iov, xtv, 0, 0, []⟩)
    aio.aioq := v.aio.nextIoctx :: v.aio.aioq
    aio.nextIoctx := v.aio.nextIoctx + 1 }) rfl rfl rfl rfl rfl
  simpa [ioctxIno] using this

omit c in
theorem sysioIoctxCb_keep (q : IocId) (cb : Callback) : Moves (Keep lk) (sysioIoctxCb e q cb) := by
  refine moves_bind malloc_keep fun ok => moves_ite (fun _ => moves_pure _) fun _ => ?_
  intro s err t h due hs
  obtain ⟨r, _, ha, h1⟩ := bind_ok.mp h
  obtain ⟨hr, rfl⟩ := deref_ok.mp ha
  obtain ⟨_, v, hv, h2⟩ := bind_ok.mp h1
  obtain ⟨-, rfl⟩ := pure_ok.mp h2
  exact setIoctx_keep hs hr hv rfl

theorem sysioIoctxDone_keep (q : IocId) : Moves (Keep lk) (sysioIoctxDone e q) := by
  refine moves_bind (moves_deref _ _) fun r => moves_ite (fun _ => moves_pure _) fun _ =>
    moves_bind (c.iodone _ _) fun done => moves_ite (fun _ => ?_) fun _ => moves_pure _
  intro s res t h due hs
  obtain ⟨r, _, ha, h1⟩ := bind_ok.mp h
  obtain ⟨hr, rfl⟩ := deref_ok.mp ha
  obtain ⟨_, v, hv, h2⟩ := bind_ok.mp h1
  obtain ⟨-, rfl⟩ := pure_ok.mp h2
  exact setIoctx_keep hs hr hv rfl

omit c in
theorem ifSome_freeVec_keep (o : Option VecId) :
    Moves (Keep lk) (ifSome o freeVec : Sysio D Unit) :=
  ifSome_moves fun _ _ => aside_write fun _ =>
    ⟨rfl, rfl, rfl, rfl, rfl, rfl, rfl, rfl, rfl, rfl, rfl, rfl⟩

/-- A callback on a context keeps the books and only forgets its buffers. -/
def CallbackKeep (lk : Prop) (q : IocId) (s t : Sys D) : Prop :=
  Keep lk s t ∧ ∀ r, s.aio.ioctx q = some r → ∃ iov, t.aio.ioctx q = some { r with iov := iov }

omit c in
theorem freeVector_keep {q : IocId} {o : Ioctx → Option VecId} {s t : Sys D} {u : Unit}
    (h : (do
      let r ← ioctxAt q
      ifSome (o r) freeVec
      setIoctx q { r with iov := none } : Sysio D Unit) s = .ok (u, t)) :
    CallbackKeep lk q s t := by
  obtain ⟨r, _, ha, h1⟩ := bind_ok.mp h
  obtain ⟨hr, rfl⟩ := deref_ok.mp ha
  obtain ⟨_, v, hv, hw⟩ := bind_ok.mp h1
  have hioctx : v.aio.ioctx = s.aio.ioctx := by
    cases hvec : o r with
    | none =>
      rw [hvec] at hv
      obtain ⟨-, rfl⟩ := pure_ok.mp hv
      rfl
    | some x =>
      rw [hvec] at hv
      have hfree : freeVec x s = .ok (_, v) := hv
      obtain rfl := write_ok.mp hfree
      rfl
  have hrv : v.aio.ioctx q = some r := by rw [hioctx, hr]
  refine ⟨fun due hs => setIoctx_keep (ifSome_freeVec_keep _ _ _ _ hv due hs) hrv hw rfl, ?_⟩
  intro r' hr'
  obtain rfl : r = r' := Option.some.inj (hr.symm.trans hr')
  obtain rfl := write_ok.mp hw
  exact ⟨none, Function.update_self ..⟩

omit c in
theorem runCallback_keep (q : IocId) (cb : Callback) :
    Moves (CallbackKeep lk q) (runCallback q cb : Sysio D Unit) := by
  intro s u t h
  cases cb with
  | freeIov => exact @freeVector_keep _ lk q (·.iov) _ _ _ h
  | freeXtv => exact @freeVector_keep _ lk q (·.xtv) _ _ _ h
  | fcompletio f =>
    obtain ⟨r, _, ha, h1⟩ := bind_ok.mp h
    obtain ⟨hr, rfl⟩ := deref_ok.mp ha
    by_cases hcc : r.cc ≤ 0
    · rw [if_pos hcc] at h1
      obtain ⟨-, rfl⟩ := pure_ok.mp h1
      exact ⟨fun _ hs => hs, fun r hr => ⟨r.iov, hr⟩⟩
    · rw [if_neg hcc] at h1
      simp only [fileAt, assert, bind_ok, deref_ok, check_ok] at h1
      obtain ⟨fr, _, ⟨hfr, rfl⟩, _, _, ⟨-, rfl⟩, _, _, ⟨-, rfl⟩, hw⟩ := h1
      refine ⟨fun due hs => setFile_keep hs hfr hw rfl, fun r hr => ⟨r.iov, ?_⟩⟩
      obtain rfl := write_ok.mp hw
      exact hr

omit c in
theorem runCallbacks_keep (q : IocId) (l : List Callback) :
    Moves (CallbackKeep lk q) (runCallbacks q l : Sysio D Unit) := by
  induction l with
  | nil =>
    intro s u t h
    obtain ⟨-, rfl⟩ := pure_ok.mp h
    exact ⟨fun _ hs => hs, fun r hr => ⟨r.iov, hr⟩⟩
  | cons cb l ih =>
    intro s u t h
    obtain ⟨_, v, hv, h1⟩ := bind_ok.mp h
    obtain ⟨_, w, hw, h2⟩ := bind_ok.mp h1
    obtain ⟨k1, a1⟩ := runCallback_keep q cb _ _ _ hv
    obtain rfl := write_ok.mp hw
    obtain ⟨k2, a2⟩ := ih _ _ _ h2
    refine ⟨fun due hs => k2 due ((k1 due hs).aside
      ⟨rfl, rfl, rfl, rfl, rfl, rfl, rfl, rfl, rfl, rfl, rfl, rfl⟩), fun r hr => ?_⟩
    obtain ⟨iov, hv⟩ := a1 r hr
    obtain ⟨iov', ht⟩ := a2 _ hv
    exact ⟨iov', ht⟩

theorem sysioIoctxComplete_keep (q : IocId) : Moves (Keep lk) (sysioIoctxComplete e q) := by
  intro s u t h due hs
  obtain ⟨r, _, ha, h1⟩ := bind_ok.mp h
  obtain ⟨hr, rfl⟩ := deref_ok.mp ha
  obtain ⟨_, v, hv, h2⟩ := bind_ok.mp h1
  obtain ⟨_, w, hw, h3⟩ := bind_ok.mp h2
  obtain ⟨_, x, hx, h4⟩ := bind_ok.mp h3
  have hv' : Books lk due v := setIoctx_keep hs hr hv rfl
  obtain rfl := write_ok.mp hv
  obtain ⟨kw, aw⟩ := @runCallbacks_keep D lk q _ _ _ _ hw
  obtain rfl := write_ok.mp hx
  have hx' : Books lk due { w with aio.aioq := w.aio.aioq.erase q } := (kw due hv').aside
    ⟨rfl, rfl, rfl, rfl, rfl, rfl, rfl, rfl, rfl, rfl, rfl, rfl⟩
  obtain ⟨iov, hq⟩ := aw { r with cbq := [] } (Function.update_self ..)
  by_cases hfast : r.fast = true
  · rw [if_pos hfast] at h4
    obtain ⟨-, rfl⟩ := pure_ok.mp h4
    exact hx'
  · rw [if_neg hfast] at h4
    obtain ⟨_, y, hy, hz⟩ := bind_ok.mp h4
    obtain rfl := write_ok.mp hz
    have hy' := iRele_books c.gone r.ino _ hx' _ _ hy
    have hqy : y.aio.ioctx q = some { r with iov := iov, cbq := [] } := by
      rw [(iRele_off c.gone r.ino _ _ _ hy).aio]
      exact hq
    have := hy'.putIoctx (o := none) (t := { y with
      aio.ioctx := Function.update y.aio.ioctx q none }) hqy rfl rfl rfl rfl rfl
    simpa [ioctxIno, hfast, one] using this

theorem sysioIoctxWait_keep (q : IocId) (polls : ℕ) : Moves (Keep lk) (sysioIoctxWait e q polls) := by
  induction polls with
  | zero => exact moves_fault _
  | succ polls ih =>
    exact moves_bind (sysioIoctxDone_keep c q) fun done => moves_ite (fun _ =>
      moves_bind (moves_deref _ _) fun r => moves_bind (sysioIoctxComplete_keep c q) fun _ =>
      moves_pure _) fun _ => ih

theorem sysioIiox_keep (wr : Bool) (f : FilId) (cc : ℤ) (iov xtv : Option VecId)
    (cbs : List Callback) : Moves (Keep lk) (sysioIiox e wr f cc iov xtv cbs) := by
  have register : ∀ q cbs, Moves (Keep lk) (registerAll e q cbs) := by
    intro q cbs
    induction cbs with
    | nil => exact moves_pure _
    | cons cb l ih =>
      exact moves_bind (sysioIoctxCb_keep q cb) fun err => moves_ite (fun _ => moves_pure _)
        fun _ => ih
  refine moves_bind (moves_deref _ _) fun r => moves_ite (fun _ => moves_pure _) fun _ =>
    moves_ite (fun _ => moves_pure _) fun _ => moves_bind (sysioIoctxNew_keep r.ino wr iov xtv)
    fun made => ?_
  cases made with
  | none => exact moves_pure _
  | some q =>
    refine moves_bind (register q cbs) fun err => moves_bind (moves_ite (fun _ => moves_pure _)
      fun _ => c.post _ _ _) fun err => moves_ite (fun _ => ?_) fun _ => moves_pure _
    intro s res t h due hs
    obtain ⟨rq, _, ha, h1⟩ := bind_ok.mp h
    obtain ⟨hrq, rfl⟩ := deref_ok.mp ha
    obtain ⟨_, v, hv, h2⟩ := bind_ok.mp h1
    obtain ⟨_, w, hw, h3⟩ := bind_ok.mp h2
    obtain ⟨-, rfl⟩ := pure_ok.mp h3
    exact sysioIoctxComplete_keep c q _ _ _ hw due (setIoctx_keep hs hrq hv rfl)

theorem paths_keep : PathMoves (Keep lk) e where
  scratch := scratch_keep
  namei := sysioNamei_keep c
  pRele := pRele_keep

theorem sysioPermitted_keep (p : Pno) (amode : ℕ) : Moves (Keep lk) (sysioPermitted e p amode) :=
  permitted_moves (paths_keep c) p amode

/-- The inode leaves its name and loses the reference of the name. -/
theorem detach_keep (p : Pno) : Moves (Keep lk) (detach e p) := by
  intro s u t h due hs
  simp only [detach, inoOf, pnodeAt, baseAt, nonNull, bind_ok, read_ok, deref_ok, pure_ok] at h
  obtain ⟨n, _, ⟨rfl, rfl⟩, ino, _, ⟨n', _, ⟨rfl, rfl⟩, r, _, ⟨hr, rfl⟩, rfl, rfl⟩, i, _,
    ⟨hi, rfl⟩, _, v, hv, hw⟩ := h
  obtain ⟨r', hr', hv'⟩ := modBase_books hs hv
  obtain rfl : r = r' := Option.some.inj (hr.symm.trans hr')
  have := iGone_books c.gone i v hv' _ _ hw
  simpa [hi, one] using this

theorem sysioMkdir_keep (p : Pno) (mode : ℕ) : Moves (Keep lk) (sysioMkdir e p mode) := by
  intro s a t h
  obtain ⟨ino, _, hino, h1⟩ := bind_ok.mp h
  obtain rfl : s = _ := inoOf_moves (R := Eq) p _ _ _ hino
  by_cases hbound : ino.isSome = true
  · rw [if_pos hbound] at h1
    obtain ⟨-, rfl⟩ := pure_ok.mp h1
    exact Std.Refl.refl _
  rw [if_neg hbound] at h1
  obtain rfl : ino = none := by simpa using hbound
  have unbound : Unbound p s := unbound_of_inoOf hino
  obtain ⟨n, _, hn, h2⟩ := bind_ok.mp h1
  obtain rfl : s = _ := pnodeAt_moves (R := Eq) p _ _ _ hn
  obtain ⟨err, v, hv, h3⟩ := bind_ok.mp h2
  have scratch : Scratch s v := sysioPermitted_moves (fun _ _ k => k) _ _ _ _ _ hv
  by_cases herr : err ≠ 0
  · rw [if_pos herr] at h3
    obtain ⟨-, rfl⟩ := pure_ok.mp h3
    exact scratch_keep _ _ scratch
  rw [if_neg herr] at h3
  obtain ⟨d, _, hd, h4⟩ := bind_ok.mp h3
  obtain rfl : v = _ := inoOf_moves (R := Eq) _ _ _ _ hd
  obtain ⟨_, _, has, h5⟩ := bind_ok.mp h4
  obtain rfl : v = _ := assert_moves (R := Eq) _ _ _ _ has
  obtain ⟨d, _, hnn, h6⟩ := bind_ok.mp h5
  obtain rfl : v = _ := nonNull_moves (R := Eq) _ _ _ _ hnn
  refine IsTrans.trans s v t (scratch_keep _ _ scratch) (c.mkdir _ _ _ _ _ _ h6 fun r hr => ?_)
  rw [scratch.nc] at hr
  exact unbound r hr

/-- A second name takes a reference on the inode. -/
theorem interfaceLink_keep (oldpath newpath : Bytes) :
    Moves (Keep lk) (interfaceLink e oldpath newpath) := by
  refine moves_bind (onPath_moves (paths_keep c) (fun old => ?_) _ _ _) fun err => moves_pure _
  refine moves_bind (inoOf_moves old) fun ino => moves_bind (nonNull_moves _) fun i =>
    moves_bind (inodeAt_moves i) fun r => moves_ite (fun _ => moves_pure _) fun _ =>
    onPath_moves (paths_keep c) (fun new => ?_) _ _ _
  refine moves_bind (inoOf_moves new) fun inn => moves_ite (fun _ => moves_pure _) fun _ =>
    moves_bind (pnodeAt_moves old) fun no => ?_
  intro s err t h due hs
  simp only [pnodeAt, mountAt, bind_ok, read_ok, deref_ok] at h
  obtain ⟨nn, _, ⟨rfl, rfl⟩, mo, _, ⟨-, rfl⟩, mn, _, ⟨-, rfl⟩, h⟩ := h
  by_cases hroot : mo.root ≠ mn.root
  · rw [if_pos hroot] at h
    obtain ⟨-, rfl⟩ := pure_ok.mp h
    exact hs
  rw [if_neg hroot] at h
  obtain ⟨d, v, hd, h1⟩ := bind_ok.mp h
  obtain rfl : s = v := parentIno_moves (R := Eq) old _ _ _ hd
  obtain ⟨err', w, hw, h⟩ := bind_ok.mp h1
  have hw' : Books lk due w := c.link _ _ _ _ _ _ hw due hs
  have pn : w.nc.pnode = s.nc.pnode := c.linkNodes _ _ _ _ _ _ hw
  by_cases herr : err' ≠ 0
  · rw [if_pos herr] at h
    obtain ⟨-, rfl⟩ := pure_ok.mp h
    exact hw'
  rw [if_neg herr] at h
  simp only [inoOf, pnodeAt, baseAt, nonNull, assert, bind_ok, read_ok, deref_ok, check_ok,
    pure_ok] at h
  obtain ⟨io, _, ⟨_, _, ⟨rfl, rfl⟩, ro, _, ⟨hro, rfl⟩, rfl, rfl⟩, in', _,
    ⟨_, _, ⟨rfl, rfl⟩, rn, _, ⟨hrn, rfl⟩, rfl, rfl⟩, _, _, ⟨hassert, rfl⟩, i', _, ⟨hi', rfl⟩, _, x,
    hx, _, y, hy, -, rfl⟩ := h
  obtain ⟨r', hr', hx'⟩ := modBase_books hw' hx
  rw [pn] at hrn
  obtain rfl : rn = r' := Option.some.inj (hrn.symm.trans hr')
  have hnone : rn.ino = none := by
    have := (Bool.and_eq_true_iff.mp hassert).1
    exact Option.isNone_iff_eq_none.mp this
  have := iRef_books i' x hx' _ _ hy
  simpa [hnone, one] using this

/-- The name moves: the replaced inode loses its reference, the other one changes hands. -/
theorem renameNodes_keep (old new : Pno) : Moves (Keep lk) (renameNodes e old new) := by
  intro s err t h due hs
  simp only [renameNodes, pnodeAt, mountAt, bind_ok, read_ok, deref_ok] at h
  obtain ⟨no, _, ⟨rfl, rfl⟩, nn, _, ⟨rfl, rfl⟩, mo, _, ⟨-, rfl⟩, mn, _, ⟨-, rfl⟩, h⟩ := h
  by_cases hbusy : mo.root = some old ∨ ((s.nc.pnode old).cover.isSome = true) ∨ mn.root = some new
  · rw [if_pos hbusy] at h
    obtain ⟨-, rfl⟩ := pure_ok.mp h
    exact hs
  rw [if_neg hbusy] at h
  by_cases hfs : mo.fs ≠ mn.fs
  · rw [if_pos hfs] at h
    obtain ⟨-, rfl⟩ := pure_ok.mp h
    exact hs
  rw [if_neg hfs] at h
  simp only [bind_ok, read_ok] at h
  obtain ⟨depth, _, ⟨rfl, rfl⟩, inside, v, hv, h⟩ := h
  obtain rfl : s = v := hasAncestor_moves (R := Eq) _ _ _ _ _ _ hv
  by_cases hin : inside = true
  · rw [if_pos hin] at h
    obtain ⟨-, rfl⟩ := pure_ok.mp h
    exact hs
  rw [if_neg hin] at h
  simp only [bind_ok] at h
  obtain ⟨io, v1, hio, inn, v2, hinn, h⟩ := h
  simp only [inoOf, pnodeAt, baseAt, bind_ok, read_ok, deref_ok, pure_ok] at hio hinn
  obtain ⟨_, _, ⟨rfl, rfl⟩, ro, _, ⟨hro, rfl⟩, rfl, rfl⟩ := hio
  obtain ⟨_, _, ⟨rfl, rfl⟩, rn, _, ⟨hrn, rfl⟩, rfl, rfl⟩ := hinn
  by_cases hsame : ro.ino = rn.ino
  · rw [if_pos hsame] at h
    obtain ⟨-, rfl⟩ := pure_ok.mp h
    exact hs
  rw [if_neg hsame] at h
  -- the two names have different base nodes, or they would hold the same inode
  have hne : (s.nc.pnode old).base ≠ (s.nc.pnode new).base := by
    intro hb
    rw [hb] at hro
    obtain rfl : ro = rn := Option.some.inj (hro.symm.trans hrn)
    exact hsame rfl
  obtain ⟨chk, v3, hchk, h1⟩ := bind_ok.mp h
  have h3 : s = v3 := by
    cases hino : rn.ino with
    | none =>
      rw [hino] at hchk
      exact (pure_ok.mp hchk).2
    | some j =>
      rw [hino] at hchk
      exact (moves_bind (R := Eq) (nonNull_moves _) fun i => moves_bind (inodeAt_moves i) fun _ =>
        moves_bind (inodeAt_moves j) fun _ => moves_pure _) _ _ _ hchk
  subst h3
  by_cases hchk0 : chk ≠ 0
  · rw [if_pos hchk0] at h1
    obtain ⟨-, rfl⟩ := pure_ok.mp h1
    exact hs
  rw [if_neg hchk0] at h1
  obtain ⟨left, v4, hprune, h2⟩ := bind_ok.mp h1
  have hv4 : Books lk due v4 := sysioPPrune_keep c.gone new _ _ _ hprune due hs
  by_cases hleft : left ≠ 1
  · rw [if_pos hleft] at h2
    obtain ⟨-, rfl⟩ := pure_ok.mp h2
    exact hv4
  rw [if_neg hleft] at h2
  obtain ⟨d, v5, hd, h3⟩ := bind_ok.mp h2
  obtain rfl : v4 = v5 := parentIno_moves (R := Eq) old _ _ _ hd
  obtain ⟨err', v6, hren, h4⟩ := bind_ok.mp h3
  have hv6 : Books lk due v6 := c.rename _ _ _ _ _ _ hren due hv4
  by_cases herr : err' ≠ 0
  · rw [if_pos herr] at h4
    obtain ⟨-, rfl⟩ := pure_ok.mp h4
    exact hv6
  rw [if_neg herr] at h4
  have pn : v6.nc.pnode = s.nc.pnode :=
    (c.renameNodes _ _ _ _ _ _ hren).trans (sysioPPrune_pnode c.gone new _ _ _ hprune)
  simp only [bind_ok] at h4
  obtain ⟨jn, w1, hjn, _, w2, hgone, io', w3, hio', _, w4, hset, _, w5, hclear, h5⟩ := h4
  obtain ⟨-, rfl⟩ := pure_ok.mp h5
  simp only [inoOf, pnodeAt, baseAt, bind_ok, read_ok, deref_ok, pure_ok] at hjn hio'
  obtain ⟨_, _, ⟨rfl, rfl⟩, rj, _, ⟨hrj, rfl⟩, rfl, rfl⟩ := hjn
  obtain ⟨_, _, ⟨rfl, rfl⟩, rio, _, ⟨hrio, rfl⟩, rfl, rfl⟩ := hio'
  have hw2 : w2.nc = v6.nc ∧ Books lk (fun j => due j - one rj.ino j) w2 := by
    cases hino : rj.ino with
    | none =>
      rw [hino] at hgone
      obtain ⟨-, rfl⟩ := pure_ok.mp hgone
      exact ⟨rfl, by simpa [one] using hv6⟩
    | some j =>
      rw [hino] at hgone
      exact ⟨(iGone_moves (fun _ _ h => h) (fun j => (c.gone j).mono fun _ _ h => h.off) j _ _ _ hgone :
        OffInodes _ _).nc, iGone_books c.gone j _ hv6 _ _ hgone⟩
  rw [hw2.1, pn] at hrio
  rw [pn] at hrj
  obtain ⟨r1, hr1, hw4⟩ := modBase_books hw2.2 hset
  rw [hw2.1] at hr1
  obtain rfl : rj = r1 := Option.some.inj (hrj.symm.trans hr1)
  obtain ⟨r2, hr2, hw5⟩ := modBase_books hw4 hclear
  obtain ⟨r1', -, hw4eq⟩ := modBase_ok hset
  have hr2' : r2 = rio := by
    rw [hw4eq] at hr2
    simp only [Function.update_of_ne hne, hw2.1] at hr2
    exact Option.some.inj (hr2.symm.trans hrio)
  subst hr2'
  have heq : (fun j => due j - one rj.ino j + one rj.ino j - one r2.ino j + one r2.ino j
      - one none j) = due := by
    funext j
    simp only [one]
    simp
  rw [heq] at hw5
  exact hw5

theorem sysioPChdir_keep (p : Pno) : Moves (Keep lk) (sysioPChdir e p) := by
  refine moves_bind (sysioPValidate_keep c p none none) fun err =>
    moves_ite (fun _ => moves_pure _) fun _ => moves_bind (inoOf_moves p) fun ino => ?_
  cases ino with
  | none => exact moves_pure _
  | some i =>
    exact moves_bind (inodeAt_moves i) fun r => moves_ite (fun _ => moves_pure _) fun _ =>
      moves_bind (sysioPermitted_keep c _ _) fun err => moves_ite (fun _ => moves_pure _) fun _ =>
      moves_bind (moves_read _) fun cwd => moves_bind (ifSome_moves fun q _ => pRele_keep q)
      fun _ => moves_bind (aside_write fun _ => ⟨rfl, rfl, rfl, rfl, rfl, rfl, rfl, rfl, rfl, rfl,
      rfl, rfl⟩) fun _ => moves_pure _

/-- The `fsswop_mount` functions behind the switch leave the books as they were, too. -/
def MountContract (lk : Prop) (fssw : Bytes → Option (FsswopMount D)) : Prop :=
  ∀ fstype mount, fssw fstype = some mount → ∀ source flags tocover,
    Moves (Keep lk) (mount source flags fstype tocover)

theorem posts_keep : Posts (Keep lk) e where
  malloc := malloc_keep
  nextVec _ := aside_write fun _ => ⟨rfl, rfl, rfl, rfl, rfl, rfl, rfl, rfl, rfl, rfl, rfl, rfl⟩
  frees _ := aside_write fun _ => ⟨rfl, rfl, rfl, rfl, rfl, rfl, rfl, rfl, rfl, rfl, rfl, rfl⟩
  iiox := sysioIiox_keep c

theorem calls_keep {fssw : Bytes → Option (FsswopMount D)} (m : MountContract lk fssw) :
    CallMoves (Keep lk) e fssw where
  toPathMoves := paths_keep c
  validate := sysioPValidate_keep c
  open_ := c.open_
  fnew := sysioFuseFnew_keep
  fRele := fRele_keep c
  fdSet := sysioFdSet_keep c
  fdClose := sysioFdClose_keep c
  fdDup := sysioFdDup_keep c
  unlink := c.unlink
  rmdir := c.rmdir
  detach := detach_keep c
  mkdir := sysioMkdir_keep c
  getattr := c.getattr
  setattr := c.setattr
  symlink := c.symlink
  readlink := c.readlink
  mknod := c.mknod
  link := interfaceLink_keep c
  rename := renameNodes_keep c
  chdir := sysioPChdir_keep c
  mount := m
  umount := sysioDoUnmount_keep c
  read := c.read
  write := c.write
  position _ _ _ _ hr _ hs := setFile_keep hs hr (u := ()) (write_ok.mpr rfl) rfl
  ftruncate := c.ftruncate
  sync := c.sync
  datasync := c.datasync
  posts := posts_keep c
  done := sysioIoctxDone_keep c
  wait := sysioIoctxWait_keep c

omit c in
theorem sysioMountRoot_keep {mount : Option (FsswopMount D)} {fstype : Bytes}
    (m : ∀ f, mount = some f → ∀ source flags tocover,
      Moves (Keep lk) (f source flags fstype tocover)) (source : Bytes) (flags : ℕ) :
    Moves (Keep lk) (sysioMountRoot mount source fstype flags) := by
  refine moves_bind (moves_read _) fun root => moves_ite (fun _ => moves_pure _) fun _ => ?_
  cases mount with
  | none => exact moves_pure _
  | some f =>
    refine moves_bind (m f rfl _ _ _) fun res => moves_ite (fun _ => moves_pure _) fun _ =>
      moves_bind (nonNull_moves _) fun mnt => moves_bind (mountAt_moves _) fun r => moves_bind ?_
      fun _ => moves_bind (moves_read _) fun cwd => moves_bind (moves_when fun _ => moves_bind
      (nonNull_moves _) fun p => moves_bind ?_ fun _ => pRef_keep p) fun _ => moves_pure _
    all_goals exact aside_write fun _ => ⟨rfl, rfl, rfl, rfl, rfl, rfl, rfl, rfl, rfl, rfl, rfl, rfl⟩

omit c in
theorem initState_books (d : D) : Books lk (fun _ => 0) (initState d) where
  tables :=
    { baseBound := fun _ _ => rfl
      fileBound := fun _ _ => rfl
      ioctxBound := fun _ _ => rfl
      inodeBound := fun _ _ => rfl
      fsBound := fun _ _ => rfl
      inodes := by simp [initState]
      inodesNodup := List.nodup_nil
      nInodes := rfl
      itbl := by simp [initState]
      itblNodup := by simp [initState]
      listed := by simp [initState]
      zombie := by simp [initState] }
  balance := ⟨fun _ => 0, by simp, fun i => by
    simp [refOf, holders, baseHolders, fileHolders, ioctxHolders, initState, tally]⟩

/-- The books are straight in every state a program can bring the library to. -/
theorem reached_books {fssw : Bytes → Option (FsswopMount D)} (m : MountContract lk fssw)
    {fstype : Bytes} {d : D} {ok : Sys D → Call → Prop} {s : Sys D}
    (run : Reached ⟨e, fssw⟩ fstype d ok s) : Books lk (fun _ => 0) s := by
  obtain ⟨s₀, boot, run⟩ := run
  refine run.invariant (I := Books lk fun _ => 0) (fun s call a t hs _ h => ?_) ?_
  · exact step_moves (calls_keep c m) call s a t h _ hs
  · exact sysioMountRoot_keep (m fstype) _ _ _ _ _ boot _ (initState_books d)

end Calls

end InodeAccounts
