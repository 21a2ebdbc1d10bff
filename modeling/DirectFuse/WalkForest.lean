import DirectFuse.FusePlain
import DirectFuse.GrowForest

/-! Path walks over the forest of a fuse name space. A walk keeps the links, and it keeps the nodes
that are referenced, covered or the root of a mount; while there is room for the names it may make,
it keeps all nodes. -/
namespace WalkForest

open ExecLogic SysioState SysioInode SysioNamei SysioMount FuseDriver CoreMoves FuseMoves PathRefs
open WalkRules NameForest PruneForest GrowForest FusePlain

variable {D : Type}

/-- The path node is the root of a mount. -/
def isRoot (mt : MountTable) (p : Pno) : Prop := ∃ m r, mt.mount m = some r ∧ r.root = some p

/-- The path nodes and the mounts fit together. -/
structure Sound (s : Sys D) : Prop where
  forest : Forest (isRoot s.mt) s.nc
  root : ∀ m r, s.mt.mount m = some r →
    ∃ p, r.root = some p ∧ p ∈ s.nc.pnodes ∧ (s.nc.pnode p).mount = m
  mounted : ∀ p ∈ s.nc.pnodes, ∃ r, s.mt.mount (s.nc.pnode p).mount = some r

theorem Sound.live {s : Sys D} (hs : Sound s) {p : Pno} (hp : isRoot s.mt p) : p ∈ s.nc.pnodes := by
  obtain ⟨m, r, hm, hr⟩ := hp
  obtain ⟨q, hq, hlive, -⟩ := hs.root m r hm
  obtain rfl : p = q := Option.some.inj (hr.symm.trans hq)
  exact hlive

theorem Sound.rooted {s : Sys D} (hs : Sound s) : Rooted (isRoot s.mt) s := by
  rintro p _ ⟨m, r, hm, hr⟩ r' hr'
  obtain ⟨q, hq, -, hmnt⟩ := hs.root m r hm
  obtain rfl : p = q := Option.some.inj (hr.symm.trans hq)
  rw [hmnt, hm] at hr'
  obtain rfl := Option.some.inj hr'
  exact hr

/-- Nothing is forgotten between `s` and `t` about the nodes in `safe`, and nothing else about nodes
and names is changed. -/
structure Stays (safe : Pno → Prop) (s t : Sys D) : Prop where
  node : ∀ p, safe p → p ∈ t.nc.pnodes ∧ links (t.nc.pnode p) = links (s.nc.pnode p) ∧
    (t.nc.pnode p).cover = (s.nc.pnode p).cover
  covered : ∀ p ∈ t.nc.pnodes, ∀ c, (t.nc.pnode p).cover = some c → p ∈ s.nc.pnodes ∧
    links (t.nc.pnode p) = links (s.nc.pnode p) ∧ (s.nc.pnode p).cover = some c
  base : ∀ (b : ℕ) r', t.nc.base b = some r' → b < s.nc.nextBase → ∃ r, s.nc.base b = some r ∧
    r'.name = r.name ∧ r'.parent = r.parent ∧ ∀ i, r.ino = some i → r'.ino = some i
  nextBase : s.nc.nextBase ≤ t.nc.nextBase
  mt : t.mt = s.mt
  ft : t.ft = s.ft
  aio : t.aio = s.aio
  umask : t.umask = s.umask

theorem Stays.trans {safe : Pno → Prop} {s t u : Sys D} (h : Stays safe s t) (k : Stays safe t u) :
    Stays safe s u := by
  constructor
  case node =>
    intro p hp
    obtain ⟨-, hl, hc⟩ := h.node p hp
    obtain ⟨hlive, hl', hc'⟩ := k.node p hp
    exact ⟨hlive, hl'.trans hl, hc'.trans hc⟩
  case covered =>
    intro p hp c hc
    obtain ⟨hp', hl', hc'⟩ := k.covered p hp c hc
    obtain ⟨hlive, hl, hc⟩ := h.covered p hp' c hc'
    exact ⟨hlive, hl'.trans hl, hc⟩
  case base =>
    intro b r'' hr hb
    obtain ⟨r', hr', hn', hp', hi'⟩ := k.base b r'' hr (Nat.lt_of_lt_of_le hb h.nextBase)
    obtain ⟨r, hr, hn, hp, hi⟩ := h.base b r' hr' hb
    exact ⟨r, hr, hn'.trans hn, hp'.trans hp, fun i h => hi' i (hi i h)⟩
  case nextBase => exact Nat.le_trans h.nextBase k.nextBase
  case mt => exact k.mt.trans h.mt
  case ft => exact k.ft.trans h.ft
  case aio => exact k.aio.trans h.aio
  case umask => exact k.umask.trans h.umask

theorem Stays.refl {safe : Pno → Prop} {s : Sys D} (live : ∀ p, safe p → p ∈ s.nc.pnodes) :
    Stays safe s s :=
  ⟨fun p hp => ⟨live p hp, rfl, rfl⟩, fun _ hp _ hc => ⟨hp, rfl, hc⟩,
    fun _ r hr _ => ⟨r, hr, rfl, rfl, fun _ hi => hi⟩, Nat.le_refl _, rfl, rfl, rfl, rfl⟩

section Steps

variable {safe : Pno → Prop} {s t : Sys D} (live : ∀ p, safe p → p ∈ s.nc.pnodes)

include live

/-- Counts, the order of the queue and the inodes of unbound names are of no account. -/
theorem stays_of_same (pnodes : ∀ p, p ∈ t.nc.pnodes ↔ p ∈ s.nc.pnodes)
    (node : ∀ p ∈ s.nc.pnodes, links (t.nc.pnode p) = links (s.nc.pnode p) ∧
      (t.nc.pnode p).cover = (s.nc.pnode p).cover)
    (base : ∀ b r', t.nc.base b = some r' → ∃ r, s.nc.base b = some r ∧ r'.name = r.name ∧
      r'.parent = r.parent ∧ ∀ i, r.ino = some i → r'.ino = some i)
    (next : t.nc.nextBase = s.nc.nextBase) (mt : t.mt = s.mt) (ft : t.ft = s.ft)
    (aio : t.aio = s.aio) (umask : t.umask = s.umask) : Stays safe s t := by
  refine ⟨fun p hp => ⟨(pnodes p).mpr (live p hp), node p (live p hp)⟩, fun p hp c hc => ?_,
    fun b r' hr _ => base b r' hr, Nat.le_of_eq next.symm, mt, ft, aio, umask⟩
  have hp := (pnodes p).mp hp
  exact ⟨hp, (node p hp).1, (node p hp).2 ▸ hc⟩

theorem stays_of_names (nc : t.nc = s.nc) (mt : t.mt = s.mt) (ft : t.ft = s.ft) (aio : t.aio = s.aio)
    (umask : t.umask = s.umask) : Stays safe s t := by
  refine stays_of_same live ?_ ?_ ?_ (by rw [nc]) mt ft aio umask
  · intro p
    rw [nc]
  · intro p _
    rw [nc]
    exact ⟨rfl, rfl⟩
  · intro b r' hr
    rw [nc] at hr
    exact ⟨r', hr, rfl, rfl, fun _ hi => hi⟩

theorem stays_of_kept {root : Pno → Prop} (k : Kept root s t)
    (firm : ∀ p, safe p → (s.nc.pnode p).ref = 0 → (s.nc.pnode p).cover = none → root p) :
    Stays safe s t := by
  constructor
  case node =>
    intro p hp
    refine ⟨?_, by rw [k.pruned.pnode], by rw [k.pruned.pnode]⟩
    by_contra hn
    obtain ⟨href, hcover, hroot⟩ := k.pruned.gone p (live p hp) hn
    exact hroot (firm p hp href hcover)
  case covered =>
    intro p hp c hc
    rw [k.pruned.pnode] at hc ⊢
    exact ⟨k.pruned.pnodes.subset hp, rfl, hc⟩
  case base =>
    intro b r' hr _
    obtain ⟨r, hr, hn, hi, hp⟩ := k.pruned.base b r' hr
    exact ⟨r, hr, hn, hp, fun i h => hi.trans h⟩
  case nextBase => exact Nat.le_of_eq k.pruned.nextBase.symm
  case mt => exact k.mt
  case ft => exact k.ft
  case aio => exact k.aio
  case umask => exact k.umask

theorem stays_insertBase {r : PnodeBase} :
    Stays safe s { s with nc := insertBase s.nc r } := by
  refine ⟨fun p hp => ⟨live p hp, rfl, rfl⟩, fun _ hp _ hc => ⟨hp, rfl, hc⟩, fun b r' hr hb => ?_,
    Nat.le_succ _, rfl, rfl, rfl, rfl⟩
  rcases insertBase_some.mp hr with ⟨rfl, -⟩ | ⟨-, rc, hrc, rfl⟩
  · exact absurd hb (Nat.lt_irrefl _)
  · refine ⟨rc, hrc, ?_⟩
    split
    · exact ⟨rfl, rfl, fun _ hi => hi⟩
    · exact ⟨rfl, rfl, fun _ hi => hi⟩

theorem stays_insertPnode {p : Pno} {n : Pnode} (fresh : p ∉ s.nc.pnodes) (cover : n.cover = none) :
    Stays safe s { s with nc := insertPnode s.nc p n } := by
  have other : ∀ q, q ≠ p → (insertPnode s.nc p n).pnode q = s.nc.pnode q := fun q hq =>
    Function.update_of_ne hq ..
  refine ⟨fun q hq => ?_, fun q hq c hc => ?_, fun b r' hr _ => ?_, Nat.le_refl _, rfl, rfl, rfl, rfl⟩
  · have hqp : q ≠ p := by
      rintro rfl
      exact fresh (live q hq)
    refine ⟨List.mem_append_left _ (live q hq), ?_⟩
    change links ((insertPnode s.nc p n).pnode q) = _ ∧ ((insertPnode s.nc p n).pnode q).cover = _
    rw [other q hqp]
    exact ⟨rfl, rfl⟩
  · change ((insertPnode s.nc p n).pnode q).cover = some c at hc
    change _ ∧ links ((insertPnode s.nc p n).pnode q) = _ ∧ _
    by_cases hqp : q = p
    · subst hqp
      have : (insertPnode s.nc q n).pnode q = n := Function.update_self ..
      rw [this, cover] at hc
      cases hc
    · rw [other q hqp] at hc ⊢
      refine ⟨?_, rfl, hc⟩
      rcases List.mem_append.mp hq with hq | hq
      · exact hq
      · exact absurd (List.mem_singleton.mp hq) hqp
  · obtain ⟨rc, hrc, rfl⟩ := insertPnode_some.mp hr
    refine ⟨rc, hrc, ?_⟩
    split
    · exact ⟨rfl, rfl, fun _ hi => hi⟩
    · exact ⟨rfl, rfl, fun _ hi => hi⟩

end Steps

section Counts

variable {p : Pno} {s t : Sys D} {u : Unit}

/-- A node with another count, wherever it now stands on the queue. -/
theorem recount_shape {k : ℕ} (node : t.nc.pnode = Function.update s.nc.pnode p
      { s.nc.pnode p with ref := k }) (base : t.nc.base = s.nc.base)
    (pnodes : t.nc.pnodes.Perm s.nc.pnodes) (freePnodes : t.nc.freePnodes = s.nc.freePnodes)
    (names : t.nc.names = s.nc.names) (nNames : t.nc.nNames = s.nc.nNames)
    (nextPnode : t.nc.nextPnode = s.nc.nextPnode) (nextBase : t.nc.nextBase = s.nc.nextBase)
    (max : t.nc.maxNames = s.nc.maxNames) : SameShape s.nc t.nc ∧ t.nc.base = s.nc.base ∧
      (∀ q, (t.nc.pnode q).cover = (s.nc.pnode q).cover) ∧ t.nc.maxNames = s.nc.maxNames := by
  have same : ∀ q, links (t.nc.pnode q) = links (s.nc.pnode q) ∧
      (t.nc.pnode q).cover = (s.nc.pnode q).cover := by
    intro q
    rw [node]
    by_cases hq : q = p
    · subst hq
      rw [Function.update_self]
      exact ⟨rfl, rfl⟩
    · rw [Function.update_of_ne hq]
      exact ⟨rfl, rfl⟩
  refine ⟨⟨fun q => (same q).1, fun b => ?_, pnodes, freePnodes, names, nNames, nextPnode,
    nextBase⟩, base, fun q => (same q).2, max⟩
  rw [base]

theorem pRef_shape (run : pRef p s = .ok (u, t)) : SameShape s.nc t.nc ∧ t.nc.base = s.nc.base ∧
    (∀ q, (t.nc.pnode q).cover = (s.nc.pnode q).cover) ∧ t.nc.maxNames = s.nc.maxNames := by
  obtain ⟨_, _, hc, hw⟩ := bind_ok.mp run
  obtain ⟨hmem, rfl⟩ := check_ok.mp hc
  obtain rfl := write_ok.mp hw
  have hmem : p ∈ s.nc.pnodes := of_decide_eq_true hmem
  have queue : (s.nc.pnodes.erase p ++ [p]).Perm s.nc.pnodes :=
    List.perm_append_comm.trans (List.perm_cons_erase hmem).symm
  exact recount_shape rfl rfl queue rfl rfl rfl rfl rfl rfl

theorem pRele_shape (run : pRele p s = .ok (u, t)) : SameShape s.nc t.nc ∧ t.nc.base = s.nc.base ∧
    (∀ q, (t.nc.pnode q).cover = (s.nc.pnode q).cover) ∧ t.nc.maxNames = s.nc.maxNames := by
  obtain ⟨_, _, hc, hw⟩ := bind_ok.mp run
  obtain ⟨-, rfl⟩ := check_ok.mp hc
  obtain rfl := write_ok.mp hw
  exact recount_shape rfl rfl (List.Perm.refl _) rfl rfl rfl rfl rfl rfl

end Counts

/-- The cache need not evict anything for the next `n` names. -/
def Room (n : ℕ) (s : Sys D) : Prop := s.nc.nNames + n ≤ s.nc.maxNames + 1

/-- The node is referenced beyond what the walk itself holds, covered, or the root of a mount. -/
def Firm (r : Pno → ℤ) (s : Sys D) (p : Pno) : Prop :=
  p ∈ s.nc.pnodes ∧ (0 < r p ∨ (s.nc.pnode p).cover ≠ none ∨ isRoot s.mt p)

theorem Sound.of_mounts {s t : Sys D} (hs : Sound s) (shape : SameShape s.nc t.nc)
    (mount : t.mt.mount = s.mt.mount) : Sound t := by
  have node : ∀ p, (t.nc.pnode p).mount = (s.nc.pnode p).mount := fun p =>
    (links_eq (shape.pnode p)).2.2
  have root : isRoot t.mt = isRoot s.mt := by
    funext p
    simp only [isRoot, mount]
  refine ⟨?_, fun m r hm => ?_, fun p hp => ?_⟩
  · rw [root]
    exact hs.forest.sameShape shape
  · rw [mount] at hm
    obtain ⟨p, hp, hlive, hmnt⟩ := hs.root m r hm
    exact ⟨p, hp, shape.pnodes.mem_iff.mpr hlive, (node p).trans hmnt⟩
  · rw [mount, node]
    exact hs.mounted p (shape.pnodes.mem_iff.mp hp)

theorem Sound.of_shape {s t : Sys D} (hs : Sound s) (shape : SameShape s.nc t.nc) (mt : t.mt = s.mt) :
    Sound t := hs.of_mounts shape (by rw [mt])

theorem Sound.of_kept {s t : Sys D} (hs : Sound s) (k : Kept (isRoot s.mt) s t) : Sound t := by
  refine ⟨?_, fun m r hm => ?_, fun p hp => ?_⟩
  · rw [k.mt]
    exact k.forest
  · rw [k.mt] at hm
    obtain ⟨p, hp, hlive, hmnt⟩ := hs.root m r hm
    refine ⟨p, hp, ?_, by rw [k.pruned.pnode]; exact hmnt⟩
    by_contra hn
    exact (k.pruned.gone p hlive hn).2.2 ⟨m, r, hm, hp⟩
  · rw [k.mt, k.pruned.pnode]
    exact hs.mounted p (k.pruned.pnodes.subset hp)

theorem Sound.insertBase {s : Sys D} (hs : Sound s) {r : PnodeBase} (fresh : Fresh s.nc r) :
    Sound { s with nc := insertBase s.nc r } :=
  ⟨hs.forest.insertBase fresh, hs.root, hs.mounted⟩

theorem Sound.grow {s : Sys D} (hs : Sound s) : Sound { s with nc := growth s.nc } :=
  ⟨hs.forest.grow PNODES_PER_CHUNK, hs.root, hs.mounted⟩

/-- A new node of a mount that is there. -/
theorem Sound.insertPnode {s : Sys D} (hs : Sound s) {p : Pno} {n : Pnode}
    (fresh : FreshNode (isRoot s.mt) s.nc p n) (mounted : ∃ r, s.mt.mount n.mount = some r) :
    Sound { s with nc := insertPnode s.nc p n } := by
  have notin : p ∉ s.nc.pnodes := hs.forest.apart p (List.mem_of_mem_head? fresh.free)
  have other : ∀ q, q ≠ p → (NameForest.insertPnode s.nc p n).pnode q = s.nc.pnode q := fun q hq =>
    Function.update_of_ne hq ..
  refine ⟨hs.forest.insertPnode fresh, fun m r hm => ?_, fun q hq => ?_⟩
  · obtain ⟨q, hq, hlive, hmnt⟩ := hs.root m r hm
    have hqp : q ≠ p := by
      rintro rfl
      exact notin hlive
    refine ⟨q, hq, List.mem_append_left _ hlive, ?_⟩
    change ((NameForest.insertPnode s.nc p n).pnode q).mount = m
    rw [other q hqp]
    exact hmnt
  · change ∃ r, s.mt.mount ((NameForest.insertPnode s.nc p n).pnode q).mount = some r
    by_cases hqp : q = p
    · subst hqp
      have : (NameForest.insertPnode s.nc q n).pnode q = n := Function.update_self ..
      rw [this]
      exact mounted
    · rw [other q hqp]
      rcases List.mem_append.mp hq with hq | hq
      · exact hs.mounted q hq
      · exact absurd (List.mem_singleton.mp hq) hqp

section Family

variable {B : Type} {h : Host B}

/-- A walk that started in `s₀`, where the references besides its own were `r`, has come to `s`. -/
structure Walked (r : Pno → ℤ) (safe : Pno → Prop) (s₀ : Sys (FuseData B)) (n : ℕ)
    (own : List Pno) (s : Sys (FuseData B)) : Prop where
  held : Held r own s
  sound : Sound s
  stays : Stays safe s₀ s
  plain : Plain s
  evolve : Evolve s₀ s
  guard : (∀ p, safe p → Firm r s₀ p) ∨ Room n s

variable {r : Pno → ℤ} {safe : Pno → Prop} {s₀ : Sys (FuseData B)} {n : ℕ} {own : List Pno}
  {s t : Sys (FuseData B)}

theorem Walked.live (w : Walked r safe s₀ n own s) : ∀ p, safe p → p ∈ s.nc.pnodes :=
  fun p hp => (w.stays.node p hp).1

theorem Walked.fewer (w : Walked r safe s₀ (n + 1) own s) : Walked r safe s₀ n own s := by
  refine { w with guard := w.guard.imp id fun room => ?_ }
  unfold Room at room ⊢
  omega

/-- A step inside the inode cache and the driver. -/
theorem Walked.off (w : Walked r safe s₀ n own s) (off : OffInodes s t) (evolve : Evolve s t) :
    Walked r safe s₀ n own t := by
  have shape : SameShape s.nc t.nc := by
    rw [off.nc]
    exact SameShape.refl _
  refine ⟨?_, w.sound.of_shape shape off.mt,
    w.stays.trans (stays_of_names w.live off.nc off.mt off.ft off.aio off.umask),
    evolve.plain w.plain, IsTrans.trans _ _ _ w.evolve evolve, w.guard.imp id fun room => ?_⟩
  · refine w.held.of_refs (w.sound.of_shape shape off.mt).forest.lists fun q => ?_
    simp only [refs, off.nc]
  · unfold Room at room ⊢
    rw [off.nc]
    exact room

theorem Walked.scratch (w : Walked r safe s₀ n own s) (k : Scratch s t) : Walked r safe s₀ n own t :=
  w.off k.driver.off (scratch_evolve s t k)

/-- A step that changes counts only, given the new counts. -/
theorem Walked.recount {own' : List Pno} (w : Walked r safe s₀ n own s) (held : Held r own' t)
    (only : NamesOnly s t) (shape : SameShape s.nc t.nc) (base : t.nc.base = s.nc.base)
    (cover : ∀ p, (t.nc.pnode p).cover = (s.nc.pnode p).cover)
    (max : t.nc.maxNames = s.nc.maxNames) : Walked r safe s₀ n own' t := by
  refine ⟨held, w.sound.of_shape shape only.mt, w.stays.trans (stays_of_same w.live
    (fun p => shape.pnodes.mem_iff) (fun p _ => ⟨shape.pnode p, cover p⟩) (fun b r' hr => ?_)
    shape.nextBase only.mt only.ft only.aio only.umask),
    w.plain.of_eq (by rw [only.ic]) (by rw [only.drv]),
    IsTrans.trans _ _ _ w.evolve (names_evolve _ _ only), w.guard.imp id fun room => ?_⟩
  · rw [base] at hr
    exact ⟨r', hr, rfl, rfl, fun _ hi => hi⟩
  · unfold Room at room ⊢
    rw [shape.nNames, max]
    exact room

theorem pRef_walked (p : Pno) :
    Triple (Walked r safe s₀ n own) (pRef p : Fuse B Unit) fun _ => Walked r safe s₀ n (p :: own) := by
  intro s w u t run
  obtain ⟨shape, base, cover, max⟩ := pRef_shape run
  exact w.recount (pRef_held p s w.held u t run) (pRef_names p s u t run) shape base cover max

theorem pRele_walked (hr : ∀ q, 0 ≤ r q) (p : Pno) :
    Triple (Walked r safe s₀ n (p :: own)) (pRele p : Fuse B Unit)
      fun _ => Walked r safe s₀ n own := by
  intro s w u t run
  obtain ⟨shape, base, cover, max⟩ := pRele_shape run
  exact w.recount (pRele_held hr p s w.held u t run) (pRele_names p s u t run) shape base cover max

theorem Walked.owned (w : Walked r safe s₀ n own s) (hr : ∀ q, 0 ≤ r q) :
    ∀ p ∈ own, p ∈ s.nc.pnodes ∧ 0 < (s.nc.pnode p).ref := by
  intro p hp
  have hpos : 0 < refs s p := by
    have := w.held.count p
    have := hr p
    have : 0 < own.count p := List.count_pos_iff.mpr hp
    omega
  have hlive := refs_pos_mem hpos
  refine ⟨hlive, ?_⟩
  unfold refs at hpos
  rw [if_pos hlive] at hpos
  omega

/-- Binding an unbound name to an inode. -/
theorem Walked.bind {b : PbId} {ino : Option InoId} (w : Walked r safe s₀ n own s)
    (unbound : ∀ rb, s.nc.base b = some rb → rb.ino = none) :
    Walked r safe s₀ n own { s with nc := bindIno s.nc b ino } := by
  have base : ∀ c, (bindIno s.nc b ino).base c =
      if c = b then (s.nc.base b).map fun r => { r with ino := ino } else s.nc.base c := by
    intro c
    by_cases hc : c = b <;> simp [bindIno, hc]
  have shape : SameShape s.nc (bindIno s.nc b ino) := by
    refine ⟨fun _ => rfl, fun c => ?_, List.Perm.refl _, rfl, rfl, rfl, rfl, rfl⟩
    rw [base]
    by_cases hc : c = b
    · subst hc
      cases s.nc.base c <;> simp [NameForest.unbound]
    · simp [hc]
  have sound : Sound { s with nc := bindIno s.nc b ino } := w.sound.of_shape shape rfl
  refine ⟨w.held.of_refs sound.forest.lists fun q => rfl, sound,
    w.stays.trans (stays_of_same w.live (fun _ => Iff.rfl) (fun _ _ => ⟨rfl, rfl⟩)
      (fun c r' hr => ?_) rfl rfl rfl rfl rfl), w.plain.of_eq rfl rfl,
    IsTrans.trans _ _ _ w.evolve (evolve_of_eq _ _ rfl rfl), w.guard.imp id fun room => room⟩
  have hr : (bindIno s.nc b ino).base c = some r' := hr
  rw [base] at hr
  by_cases hc : c = b
  · subst hc
    rw [if_pos rfl, Option.map_eq_some_iff] at hr
    obtain ⟨rb, hrb, rfl⟩ := hr
    refine ⟨rb, hrb, rfl, rfl, fun i hi => ?_⟩
    rw [unbound rb hrb] at hi
    cases hi
  · rw [if_neg hc] at hr
    exact ⟨r', hr, rfl, rfl, fun _ hi => hi⟩

/-- Validation binds an unbound name and leaves a bound one alone. -/
theorem sysioPValidate_walked (p : Pno) (intnt : Option Intent) (path : Option Bytes) :
    Triple (Walked r safe s₀ n own) (sysioPValidate (fuseEnv h) p intnt path)
      fun _ => Walked r safe s₀ n own := by
  intro s w err t run
  obtain ⟨np, _, hread, h1⟩ := bind_ok.mp run
  obtain ⟨rfl, rfl⟩ := read_ok.mp hread
  obtain ⟨rb, _, hread, h2⟩ := bind_ok.mp h1
  obtain ⟨hrb, rfl⟩ := deref_ok.mp hread
  obtain ⟨m, _, hread, h3⟩ := bind_ok.mp h2
  obtain ⟨-, rfl⟩ := deref_ok.mp hread
  obtain ⟨root, _, hread, h4⟩ := bind_ok.mp h3
  obtain ⟨-, rfl⟩ := deref_ok.mp hread
  obtain ⟨rn, _, hread, h5⟩ := bind_ok.mp h4
  obtain ⟨rfl, rfl⟩ := read_ok.mp hread
  obtain ⟨rootpb, _, hread, h6⟩ := bind_ok.mp h5
  obtain ⟨-, rfl⟩ := deref_ok.mp hread
  obtain ⟨_, _, hc, h7⟩ := bind_ok.mp h6
  obtain ⟨-, rfl⟩ := check_ok.mp hc
  obtain ⟨rooti, _, hread, h8⟩ := bind_ok.mp h7
  obtain ⟨-, rfl⟩ := deref_ok.mp hread
  obtain ⟨⟨err', ino⟩, v, hv, h9⟩ := bind_ok.mp h8
  have hv : fuseInopLookup h p rb.ino s = .ok ((err', ino), v) := hv
  have off := fuseInopLookup_off p rb.ino s _ v hv
  have wv : Walked r safe s₀ n own v := w.off off (fuseInopLookup_evolve p rb.ino s _ v hv)
  obtain ⟨rb', _, hread, h10⟩ := bind_ok.mp h9
  obtain ⟨hrb', rfl⟩ := deref_ok.mp hread
  obtain ⟨_, u, hu, h11⟩ := bind_ok.mp h10
  obtain ⟨rfl, rfl⟩ := pure_ok.mp h11
  rw [off.nc] at hrb'
  obtain rfl : rb = rb' := Option.some.inj (hrb.symm.trans hrb')
  rcases when_ok.mp hu with ⟨hne, hu⟩ | ⟨-, rfl⟩
  · cases hino : rb.ino with
    | some i =>
      rw [hino] at hv hne
      obtain ⟨rfl, rfl⟩ := Prod.mk.inj (fuseInopLookup_answer hv)
      simp at hne
    | none =>
      rw [hino] at hu
      obtain ⟨_, _, hp, hm⟩ := bind_ok.mp hu
      obtain ⟨-, rfl⟩ := pure_ok.mp hp
      obtain ⟨rb', hrb', rfl⟩ := modBase_ok hm
      rw [off.nc] at hrb'
      obtain rfl : rb = rb' := Option.some.inj (hrb.symm.trans hrb')
      have hrbv : v.nc.base (s.nc.pnode p).base = some rb := by
        rw [off.nc]
        exact hrb
      have wb := @Walked.bind _ _ _ _ _ _ v (s.nc.pnode p).base ino wv fun rc hrc => by
        obtain rfl : rb = rc := Option.some.inj (hrbv.symm.trans hrc)
        exact hino
      have hnc : bindIno v.nc (s.nc.pnode p).base ino = { v.nc with
          base := Function.update v.nc.base (s.nc.pnode p).base (some { rb with ino := ino }) } := by
        simp [bindIno, hrbv]
      rw [hnc] at wb
      exact wb
  · exact wv

/-- A new path node, with one reference for the walk. -/
theorem Walked.insertPnode {p : Pno} {np : Pnode} (w : Walked r safe s₀ n own s)
    (fresh : FreshNode (isRoot s.mt) s.nc p np) (mounted : ∃ r, s.mt.mount np.mount = some r)
    (ref : np.ref = 1) (cover : np.cover = none) :
    Walked r safe s₀ n (p :: own) { s with nc := insertPnode s.nc p np } := by
  have sound := w.sound.insertPnode fresh mounted
  have notin : p ∉ s.nc.pnodes := w.sound.forest.apart p (List.mem_of_mem_head? fresh.free)
  refine ⟨⟨sound.forest.lists, fun q => ?_⟩, sound,
    w.stays.trans (stays_insertPnode w.live notin cover), w.plain.of_eq rfl rfl,
    IsTrans.trans _ _ _ w.evolve (evolve_of_eq _ _ rfl rfl), w.guard.imp id fun room => room⟩
  have hq := w.held.count q
  simp only [refs] at hq ⊢
  have mem : q ∈ (NameForest.insertPnode s.nc p np).pnodes ↔ q ∈ s.nc.pnodes ∨ q = p := by
    change q ∈ s.nc.pnodes ++ [p] ↔ _
    simp
  by_cases hqp : q = p
  · subst hqp
    have : (NameForest.insertPnode s.nc q np).pnode q = np := Function.update_self ..
    rw [if_neg notin] at hq
    rw [if_pos (mem.mpr (Or.inr rfl)), this, ref, List.count_cons_self]
    push_cast
    omega
  · have : (NameForest.insertPnode s.nc p np).pnode q = s.nc.pnode q :=
      Function.update_of_ne hqp ..
    rw [this, List.count_cons_of_ne (Ne.symm hqp), ← hq]
    by_cases hlive : q ∈ s.nc.pnodes
    · rw [if_pos hlive, if_pos (mem.mpr (Or.inl hlive))]
    · rw [if_neg hlive, if_neg fun hm => (mem.mp hm).elim hlive hqp]

/-- What is not safe may be evicted when there is no room. -/
theorem Walked.kept (w : Walked r safe s₀ n own s) (firm : ∀ p, safe p → Firm r s₀ p)
    (k : Kept (isRoot s.mt) s t) (neutral : ∀ q, refs t q = refs s q) (evolve : Evolve s t) :
    Walked r safe s₀ n own t := by
  have sound := w.sound.of_kept k
  refine ⟨w.held.of_refs sound.forest.lists neutral, sound, w.stays.trans (stays_of_kept w.live k ?_),
    evolve.plain w.plain, IsTrans.trans _ _ _ w.evolve evolve, Or.inl firm⟩
  intro p hp href hcover
  obtain ⟨hlive, -, hc⟩ := w.stays.node p hp
  rcases (firm p hp).2 with hpos | hne | hroot
  · have := w.held.count p
    simp only [refs, if_pos hlive, href] at this
    omega
  · rw [hcover] at hc
    exact absurd hc.symm hne
  · rw [w.stays.mt]
    exact hroot

theorem walked_growth (hr : ∀ q, 0 ≤ r q) :
    Growth (isRoot s₀.mt) (fuseEnv h) (Walked r safe s₀) where
  forest w := by rw [← w.stays.mt]; exact w.sound.forest
  rooted w := by rw [← w.stays.mt]; exact w.sound.rooted
  live w p hp := by rw [← w.stays.mt] at hp; exact w.sound.live hp
  owned w := w.owned hr
  fewer w := w.fewer
  scratch k w := w.scratch k
  pRef _ _ p := pRef_walked p
  reclaim n own := by
    rintro s ⟨w, hmax⟩ u t run
    have kept := @pReclaim_prunes _ (isRoot s.mt) _ fuseEnv_off.gone s u t run w.sound.forest
      w.sound.rooted
    have neutral := (pReclaim_neutral fuseEnv_quiet s u t run w.held.lists).2
    rcases w.guard with firm | room
    · exact w.kept firm kept neutral (pReclaim_evolve s u t run)
    · unfold Room at room
      omega
  grow w := by
    have sound := w.sound.grow
    refine ⟨w.held.of_refs sound.forest.lists fun _ => rfl, sound,
      w.stays.trans (stays_of_same w.live (fun _ => Iff.rfl) (fun _ _ => ⟨rfl, rfl⟩)
        (fun _ r' hr => ⟨r', hr, rfl, rfl, fun _ hi => hi⟩) rfl rfl rfl rfl rfl),
      w.plain.of_eq rfl rfl, IsTrans.trans _ _ _ w.evolve (evolve_of_eq _ _ rfl rfl),
      w.guard.imp id fun room => room⟩
  base := by
    intro n own s name q hw fresh
    have sound := hw.sound.insertBase fresh
    refine ⟨hw.held.of_refs sound.forest.lists fun _ => rfl, sound,
      hw.stays.trans (stays_insertBase hw.live), hw.plain.of_eq rfl rfl,
      IsTrans.trans _ _ _ hw.evolve (evolve_of_eq _ _ rfl rfl), hw.guard.imp id fun room => ?_⟩
    unfold Room at room ⊢
    change _ + 1 + _ ≤ s.nc.maxNames + 1
    omega
  node w hp fresh := by
    rw [← w.stays.mt] at fresh
    exact w.insertPnode fresh (w.sound.mounted _ (w.owned hr _ hp).1) rfl rfl

theorem walked_rules (hr : ∀ q, 0 ≤ r q) : Rules (fuseEnv h) (Walked r safe s₀) where
  perm hp w := { w with held := w.held.perm hp }
  fewer w := w.fewer
  scratch k w := w.scratch k
  pRef _ _ p := pRef_walked p
  pRele _ _ p := pRele_walked hr p
  readlink _ _ _ _ _ := by
    intro s w a t run
    obtain ⟨cc, _, hread, h1⟩ := bind_ok.mp run
    obtain ⟨-, rfl⟩ := read_ok.mp hread
    obtain ⟨-, rfl⟩ := pure_ok.mp h1
    exact w
  validate _ _ p intnt path := sysioPValidate_walked p intnt path
  findAlias _ _ parent name hp hname :=
    sysioPFindAlias_grows (walked_growth hr) fuseEnv_off.gone parent name hp hname
  link w hi hlnk := by
    have := w.plain.inode _ _ hi
    rw [hlnk] at this
    cases this

/-- A walk, with the references `own` held by the caller. -/
theorem sysioNamei_walked (hr : ∀ q, 0 ≤ r q) (parent : Option Pno) (path : Option Bytes) (flags : ℕ)
    (intnt : Option Intent) : Triple (Walked r safe s₀ (n + names path) own)
      (sysioNamei (fuseEnv h) parent path flags intnt) (Found (Walked r safe s₀) n own) :=
  sysioNamei_rule (walked_rules hr) parent path flags intnt

end Family

end WalkForest
