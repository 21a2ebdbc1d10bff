import DirectFuse.GrowForest
import DirectFuse.Sparing

/-! Why the loops over the name cache end. A base node is made after its parent and a mount after
the node it covers, so a recursion down the names and a climb over covers both go up in number; the
queue of path nodes only loses nodes while it is scanned. -/
namespace RankedNames

open ExecLogic SysioState SysioInode SysioNamei CoreMoves PathRefs NameForest GrowForest Sparing

variable {D : Type}

/-- The root `c` of a mount lies on `p`. -/
def Mounted (s : Sys D) (p c : Pno) : Prop :=
  c ∈ s.nc.pnodes ∧ ∃ r, s.mt.mount (s.nc.pnode c).mount = some r ∧ r.root = some c ∧
    r.covers = some p

/-- The numbers go up from base node to child and from covered node to cover. -/
structure Ranked (s : Sys D) : Prop where
  lists : NodeLists s
  baseBound : ∀ (b : ℕ) r, s.nc.base b = some r → b < s.nc.nextBase
  child : ∀ (b : ℕ) r (c : ℕ), s.nc.base b = some r → c ∈ r.children → b < c
  alias_ : ∀ b r p, s.nc.base b = some r → p ∈ r.aliases →
    p ∈ s.nc.pnodes ∧ (s.nc.pnode p).base = b
  aliasNodup : ∀ b r, s.nc.base b = some r → r.aliases.Nodup
  mountBound : ∀ p, (s.nc.pnode p).mount = 0 ∨ (s.nc.pnode p).mount < s.mt.nextMount
  cover : ∀ p c, (s.nc.pnode p).cover = some c → c ≠ p →
    (s.nc.pnode p).mount < (s.nc.pnode c).mount ∧ Mounted s p c

/-- Base nodes and their lists have become fewer; the rest of the names is the same. -/
structure Slimmer (s t : Sys D) : Prop where
  pnode : t.nc.pnode = s.nc.pnode
  pnodes : t.nc.pnodes = s.nc.pnodes
  freePnodes : t.nc.freePnodes = s.nc.freePnodes
  nextPnode : t.nc.nextPnode = s.nc.nextPnode
  nextBase : t.nc.nextBase = s.nc.nextBase
  mt : t.mt = s.mt
  base : ∀ b r', t.nc.base b = some r' → ∃ r, s.nc.base b = some r ∧
    r'.children.Sublist r.children ∧ r'.aliases.Sublist r.aliases

instance : IsPreorder (Sys D) Slimmer where
  refl _ := ⟨rfl, rfl, rfl, rfl, rfl, rfl, fun _ r hr => ⟨r, hr, .refl _, .refl _⟩⟩
  trans s t u h k := by
    refine ⟨k.pnode.trans h.pnode, k.pnodes.trans h.pnodes, k.freePnodes.trans h.freePnodes,
      k.nextPnode.trans h.nextPnode, k.nextBase.trans h.nextBase, k.mt.trans h.mt, ?_⟩
    intro b r'' hr''
    obtain ⟨r', hr', hchild', halias'⟩ := k.base b r'' hr''
    obtain ⟨r, hr, hchild, halias⟩ := h.base b r' hr'
    exact ⟨r, hr, hchild'.trans hchild, halias'.trans halias⟩

theorem off_slimmer {s t : Sys D} (h : OffInodes s t) : Slimmer s t := by
  refine ⟨by rw [h.nc], by rw [h.nc], by rw [h.nc], by rw [h.nc], by rw [h.nc], h.mt, ?_⟩
  intro b r hr
  rw [h.nc] at hr
  exact ⟨r, hr, .refl _, .refl _⟩

theorem Ranked.slimmer {s t : Sys D} (h : Ranked s) (k : Slimmer s t) : Ranked t := by
  constructor
  case lists =>
    refine ⟨?_, ?_, ?_, ?_, ?_⟩
    · rw [k.pnodes]
      exact h.lists.nodup
    · rw [k.freePnodes]
      exact h.lists.freeNodup
    · rw [k.pnodes, k.freePnodes]
      exact h.lists.disjoint
    · rw [k.pnodes, k.nextPnode]
      exact h.lists.bound
    · rw [k.freePnodes, k.nextPnode]
      exact h.lists.freeBound
  case baseBound =>
    intro b r' hr'
    obtain ⟨r, hr, -, -⟩ := k.base b r' hr'
    rw [k.nextBase]
    exact h.baseBound b r hr
  case child =>
    intro b r' c hr' hc
    obtain ⟨r, hr, hchild, -⟩ := k.base b r' hr'
    exact h.child b r c hr (hchild.subset hc)
  case alias_ =>
    intro b r' p hr' hp
    obtain ⟨r, hr, -, halias⟩ := k.base b r' hr'
    rw [k.pnodes, k.pnode]
    exact h.alias_ b r p hr (halias.subset hp)
  case aliasNodup =>
    intro b r' hr'
    obtain ⟨r, hr, -, halias⟩ := k.base b r' hr'
    exact (h.aliasNodup b r hr).sublist halias
  case mountBound =>
    rw [k.pnode, k.mt]
    exact h.mountBound
  case cover =>
    unfold Mounted
    rw [k.pnode, k.pnodes, k.mt]
    exact h.cover

/-- What pruning does not change: the links and covers of the nodes, and the mounts. -/
structure Lessened (s t : Sys D) : Prop where
  links : ∀ p, links (t.nc.pnode p) = links (s.nc.pnode p)
  cover : ∀ p, (t.nc.pnode p).cover = (s.nc.pnode p).cover
  pnodes : t.nc.pnodes.Sublist s.nc.pnodes
  nextBase : t.nc.nextBase = s.nc.nextBase
  mt : t.mt = s.mt

theorem Lessened.refl (s : Sys D) : Lessened s s :=
  ⟨fun _ => rfl, fun _ => rfl, .refl _, rfl, rfl⟩

theorem Lessened.trans {s t u : Sys D} (h : Lessened s t) (k : Lessened t u) : Lessened s u :=
  ⟨fun p => (k.links p).trans (h.links p), fun p => (k.cover p).trans (h.cover p),
    k.pnodes.trans h.pnodes, k.nextBase.trans h.nextBase, k.mt.trans h.mt⟩

theorem Lessened.base {s t : Sys D} (h : Lessened s t) (p : Pno) :
    (t.nc.pnode p).base = (s.nc.pnode p).base := (links_eq (h.links p)).2.1

theorem Slimmer.lessened {s t : Sys D} (h : Slimmer s t) : Lessened s t :=
  ⟨fun p => by rw [h.pnode], fun p => by rw [h.pnode], by rw [h.pnodes], h.nextBase, h.mt⟩

/-- The counts of the nodes are of no account. -/
theorem Ranked.recount {s : Sys D} (h : Ranked s) {p : Pno} {n : Pnode}
    (links : links n = links (s.nc.pnode p)) (cover : n.cover = (s.nc.pnode p).cover) :
    Ranked { s with nc.pnode := Function.update s.nc.pnode p n } ∧
      Lessened s { s with nc.pnode := Function.update s.nc.pnode p n } := by
  have node : ∀ q, NameForest.links (Function.update s.nc.pnode p n q) =
        NameForest.links (s.nc.pnode q) ∧
      (Function.update s.nc.pnode p n q).cover = (s.nc.pnode q).cover := by
    intro q
    by_cases hq : q = p
    · rw [hq, Function.update_self]
      exact ⟨links, cover⟩
    · rw [Function.update_of_ne hq]
      exact ⟨rfl, rfl⟩
  have base : ∀ q, (Function.update s.nc.pnode p n q).base = (s.nc.pnode q).base := fun q =>
    (links_eq (node q).1).2.1
  have mount : ∀ q, (Function.update s.nc.pnode p n q).mount = (s.nc.pnode q).mount := fun q =>
    (links_eq (node q).1).2.2
  refine ⟨⟨⟨h.lists.nodup, h.lists.freeNodup, h.lists.disjoint, h.lists.bound, h.lists.freeBound⟩,
    h.baseBound, h.child, fun b r q hr hq => ?_, h.aliasNodup, fun q => ?_, fun q c hc hne => ?_⟩,
    ⟨fun q => (node q).1, fun q => (node q).2, .refl _, rfl, rfl⟩⟩
  · exact ⟨(h.alias_ b r q hr hq).1, (base q).trans (h.alias_ b r q hr hq).2⟩
  · change (Function.update s.nc.pnode p n q).mount = 0 ∨ _
    rw [mount]
    exact h.mountBound q
  · change (Function.update s.nc.pnode p n q).cover = some c at hc
    rw [(node q).2] at hc
    obtain ⟨hlt, hmem, hmount⟩ := h.cover q c hc hne
    unfold Mounted
    simp only [mount]
    exact ⟨hlt, hmem, hmount⟩

section Removal

variable {e : Env D} (gone : ∀ i, Moves OffInodes (e.ops.gone i))

theorem modBase_slimmer {b : PbId} {f : PnodeBase → PnodeBase}
    (child : ∀ r, (f r).children.Sublist r.children)
    (alias_ : ∀ r, (f r).aliases.Sublist r.aliases) :
    Moves Slimmer (modBase b f : Sysio D Unit) := by
  intro s u t run
  obtain ⟨r, hr, rfl⟩ := modBase_ok run
  refine ⟨rfl, rfl, rfl, rfl, rfl, rfl, fun c r' hr' => ?_⟩
  change Function.update s.nc.base b (some (f r)) c = some r' at hr'
  by_cases hc : c = b
  · subst hc
    rw [Function.update_self] at hr'
    obtain rfl := Option.some.inj hr'
    exact ⟨r, hr, child r, alias_ r⟩
  · rw [Function.update_of_ne hc] at hr'
    exact ⟨r', hr', .refl _, .refl _⟩

theorem pbDestroy_slimmer (b : PbId) : Moves Slimmer (pbDestroy b : Sysio D Unit) := by
  have quiet : ∀ f : Sys D → Sys D, (∀ s, Slimmer s (f s)) →
      Moves Slimmer (Exec.write f : Sysio D Unit) := fun f hf => moves_write hf
  have same : ∀ (s : Sys D) b r, s.nc.base b = some r → ∃ r', s.nc.base b = some r' ∧
      r.children.Sublist r'.children ∧ r.aliases.Sublist r'.aliases :=
    fun _ _ r hr => ⟨r, hr, .refl _, .refl _⟩
  refine moves_bind (moves_check _ _) fun _ => moves_bind (quiet _ fun s => ?_) fun _ =>
    moves_bind (baseAt_moves b) fun r => moves_bind (assert_moves _) fun _ =>
    moves_bind (assert_moves _) fun _ => moves_bind (assert_moves _) fun _ =>
    moves_bind (moves_when fun _ => quiet _ fun s => ?_) fun _ =>
    moves_bind (ifSome_moves fun q _ => modBase_slimmer (fun r => List.erase_sublist ..)
      fun _ => .refl _) fun _ => quiet _ fun s => ?_
  · exact ⟨rfl, rfl, rfl, rfl, rfl, rfl, same s⟩
  · exact ⟨rfl, rfl, rfl, rfl, rfl, rfl, same s⟩
  · refine ⟨rfl, rfl, rfl, rfl, rfl, rfl, fun c r' hr' => ?_⟩
    change Function.update s.nc.base b none c = some r' at hr'
    by_cases hc : c = b
    · rw [hc, Function.update_self] at hr'
      cases hr'
    · rw [Function.update_of_ne hc] at hr'
      exact same s c r' hr'

include gone

theorem sysioPbGone_slimmer (b : PbId) : Moves Slimmer (sysioPbGone e b) :=
  moves_bind (baseAt_moves b) fun _ =>
    moves_bind (ifSome_moves fun i _ => (iRele_moves (fun _ _ k => k) gone i).mono
      fun _ _ k => off_slimmer k) fun _ =>
    moves_bind (modBase_slimmer (fun _ => .refl _) fun _ => .refl _) fun _ => pbDestroy_slimmer b

/-- A node that covers no other may go. -/
theorem sysioPGone_ranked {p : Pno} {s t : Sys D} {u : Unit} (h : Ranked s)
    (bare : ∀ q, (s.nc.pnode q).cover = some p → p = q) (run : sysioPGone e p s = .ok (u, t)) :
    Ranked t ∧ Lessened s t := by
  simp only [sysioPGone, pnodeAt, assert, bind_ok, read_ok, check_ok, write_ok] at run
  obtain ⟨n, _, ⟨rfl, rfl⟩, _, _, ⟨-, rfl⟩, _, _, ⟨-, rfl⟩, _, _, ⟨hmem, rfl⟩, _, _, rfl, run⟩ := run
  obtain ⟨_, v, hv, r, _, hb, _, w, hw, rfl⟩ := run
  obtain ⟨-, rfl⟩ := deref_ok.mp hb
  obtain ⟨rb, hrb, rfl⟩ := modBase_ok hv
  have hmem : p ∈ s.nc.pnodes := of_decide_eq_true hmem
  have hrb : s.nc.base (s.nc.pnode p).base = some rb := hrb
  have k := moves_when (fun _ => sysioPbGone_slimmer gone _) _ _ _ hw
  have mem : ∀ q, q ∈ w.nc.pnodes ↔ q ≠ p ∧ q ∈ s.nc.pnodes := by
    intro q
    rw [k.pnodes]
    exact h.lists.nodup.mem_erase_iff
  -- the alias lists lose the node
  have base : ∀ b r', w.nc.base b = some r' → ∃ r, s.nc.base b = some r ∧
      r'.children.Sublist r.children ∧ r'.aliases.Sublist r.aliases ∧ p ∉ r'.aliases := by
    intro b r' hr'
    obtain ⟨rv, hrv, hchild, halias⟩ := k.base b r' hr'
    change Function.update s.nc.base _ _ b = some rv at hrv
    by_cases hb : b = (s.nc.pnode p).base
    · subst hb
      rw [Function.update_self] at hrv
      obtain rfl := Option.some.inj hrv
      refine ⟨rb, hrb, hchild, halias.trans List.erase_sublist, fun hp => ?_⟩
      exact (h.aliasNodup _ rb hrb).not_mem_erase (halias.subset hp)
    · rw [Function.update_of_ne hb] at hrv
      exact ⟨rv, hrv, hchild, halias, fun hp => hb (h.alias_ b rv p hrv (halias.subset hp)).2.symm⟩
  have node : w.nc.pnode = s.nc.pnode := k.pnode
  have mt : w.mt = s.mt := k.mt
  refine ⟨?_, ⟨fun q => by rw [node], fun q => by rw [node], ?_, k.nextBase, mt⟩⟩
  · constructor
    case lists =>
      refine ⟨?_, ?_, fun q hq => ?_, fun q hq => ?_, fun q hq => ?_⟩
      · change w.nc.pnodes.Nodup
        rw [k.pnodes]
        exact h.lists.nodup.erase p
      · change (p :: w.nc.freePnodes).Nodup
        rw [k.freePnodes]
        exact List.nodup_cons.mpr ⟨fun hf => h.lists.disjoint p hf hmem, h.lists.freeNodup⟩
      · change q ∈ p :: w.nc.freePnodes at hq
        rw [k.freePnodes] at hq
        rw [mem]
        rcases List.mem_cons.mp hq with rfl | hq
        · exact fun hq => hq.1 rfl
        · exact fun hm => h.lists.disjoint q hq hm.2
      · change q < w.nc.nextPnode
        rw [k.nextPnode]
        exact h.lists.bound q ((mem q).mp hq).2
      · change q ∈ p :: w.nc.freePnodes at hq
        change q < w.nc.nextPnode
        rw [k.freePnodes] at hq
        rw [k.nextPnode]
        rcases List.mem_cons.mp hq with rfl | hq
        · exact h.lists.bound q hmem
        · exact h.lists.freeBound q hq
    case baseBound =>
      intro b r' hr'
      obtain ⟨r, hr, -, -, -⟩ := base b r' hr'
      change b < w.nc.nextBase
      rw [k.nextBase]
      exact h.baseBound b r hr
    case child =>
      intro b r' c hr' hc
      obtain ⟨r, hr, hchild, -, -⟩ := base b r' hr'
      exact h.child b r c hr (hchild.subset hc)
    case alias_ =>
      intro b r' q hr' hq
      obtain ⟨r, hr, -, halias, hp⟩ := base b r' hr'
      obtain ⟨hqs, hqb⟩ := h.alias_ b r q hr (halias.subset hq)
      refine ⟨(mem q).mpr ⟨fun hqp => hp (hqp ▸ hq), hqs⟩, ?_⟩
      change (w.nc.pnode q).base = b
      rw [node]
      exact hqb
    case aliasNodup =>
      intro b r' hr'
      obtain ⟨r, hr, -, halias, -⟩ := base b r' hr'
      exact (h.aliasNodup b r hr).sublist halias
    case mountBound =>
      change ∀ q, (w.nc.pnode q).mount = 0 ∨ (w.nc.pnode q).mount < w.mt.nextMount
      rw [node, mt]
      exact h.mountBound
    case cover =>
      intro q c hc hne
      change (w.nc.pnode q).cover = some c at hc
      change (w.nc.pnode q).mount < (w.nc.pnode c).mount ∧ c ∈ w.nc.pnodes ∧
        ∃ r, w.mt.mount (w.nc.pnode c).mount = some r ∧ _
      rw [node] at hc ⊢
      rw [mt]
      obtain ⟨hlt, hlive, hmount⟩ := h.cover q c hc hne
      refine ⟨hlt, (mem c).mpr ⟨fun hcp => ?_, hlive⟩, hmount⟩
      subst hcp
      exact hne (bare q hc)
  · change w.nc.pnodes.Sublist s.nc.pnodes
    rw [k.pnodes]
    exact List.erase_sublist

end Removal

/-- The run from `s` comes to an end, and where it returns, it does so into `Q`. -/
abbrev Ends {α : Type} (m : Sysio D α) (s : Sys D) (Q : α → Sys D → Prop) : Prop :=
  Spares .diverge m s Q

/-- A driver that answers whatever a walk asks of it, in every state that meets `I`, and leaves the
path nodes and the mounts alone. -/
structure Prompt (I : Sys D → Prop) (e : Env D) : Prop where
  off : OpsMove OffInodes e
  outside : ∀ s t : Sys D, t.ic = s.ic → t.drv = s.drv → I s → I t
  lookup : ∀ i p o intnt path s, I s → Ends (e.ops.lookup i p o intnt path) s fun _ => I
  readlink : ∀ i p n s, I s → Ends (e.ops.readlink i p n) s fun _ => I
  iRele : ∀ i s, I s → Ends (iRele e i) s fun _ => I

section Reads

variable {s : Sys D}

theorem pnodeAt_ends {p : Pno} {Q : Pnode → Sys D → Prop} (h : Q (s.nc.pnode p) s) :
    Ends (pnodeAt p) s Q := spares_read h

theorem baseAt_ends {b : PbId} {Q : PnodeBase → Sys D → Prop}
    (h : ∀ r, s.nc.base b = some r → Q r s) : Ends (baseAt b) s Q :=
  spares_deref (by decide) h

theorem inodeAt_ends {i : InoId} {Q : Inode → Sys D → Prop}
    (h : ∀ r, s.ic.inode i = some r → Q r s) : Ends (inodeAt i) s Q :=
  spares_deref (by decide) h

theorem mountAt_ends {m : MntId} {Q : Mount → Sys D → Prop}
    (h : ∀ r, s.mt.mount m = some r → Q r s) : Ends (mountAt m) s Q :=
  spares_deref (by decide) h

theorem nonNull_ends {α : Type} {o : Option α} {Q : α → Sys D → Prop} (h : ∀ a, o = some a → Q a s) :
    Ends (nonNull o) s Q := spares_deref (by decide) h

theorem assert_ends {c : Bool} {Q : Unit → Sys D → Prop} (h : Q () s) : Ends (assert c) s Q :=
  spares_check (by decide) fun _ => h

end Reads

section Pruning

/-- The root of a mount is told by its mount, so a node that is not passed over covers no other. -/
theorem bare_of_mount {s : Sys D} (h : Ranked s) {p : Pno} {m : Mount}
    (hm : s.mt.mount (s.nc.pnode p).mount = some m) (hroot : m.root ≠ some p) (q : Pno)
    (hq : (s.nc.pnode q).cover = some p) : p = q := by
  by_contra hne
  obtain ⟨-, -, r, hr, hp, -⟩ := h.cover q p hq hne
  rw [hm] at hr
  obtain rfl := Option.some.inj hr
  exact hroot hp

variable {I : Sys D → Prop} {e : Env D} (d : Prompt I e)

/-- What pruning from `s` leads to. -/
structure Pruning (I : Sys D → Prop) (s t : Sys D) : Prop where
  ranked : Ranked t
  inv : I t
  less : Lessened s t

theorem Pruning.refl {s : Sys D} (h : Ranked s) (hi : I s) : Pruning I s s :=
  ⟨h, hi, Lessened.refl s⟩

theorem Pruning.after {s t u : Sys D} (h : Pruning I s t) (k : Pruning I t u) : Pruning I s u :=
  ⟨k.ranked, k.inv, h.less.trans k.less⟩

include d

theorem Prompt.nc {s t : Sys D} (h : I s) (ic : t.ic = s.ic) (drv : t.drv = s.drv) : I t :=
  d.outside s t ic drv h

theorem modBase_ends {b : PbId} {f : PnodeBase → PnodeBase} {s : Sys D} (hi : I s) :
    Ends (modBase b f) s fun _ => I :=
  spares_bind <| baseAt_ends fun _ _ => spares_write (d.nc hi rfl rfl)

theorem pbDestroy_ends (b : PbId) {s : Sys D} (hi : I s) : Ends (pbDestroy b) s fun _ => I := by
  refine spares_bind <| spares_check (by decide) fun _ => spares_bind <| spares_write <|
    spares_bind <| baseAt_ends fun r _ => spares_bind <| assert_ends <| spares_bind <|
    assert_ends <| spares_bind <| assert_ends <| spares_bind <| spares_mono (Q := fun _ => I) ?_ ?_
  · exact spares_when (fun _ => spares_write (d.nc hi rfl rfl)) fun _ => d.nc hi rfl rfl
  · intro _ u _ hu
    refine spares_bind <| spares_mono (Q := fun _ => I) ?_ fun _ v _ hv =>
      spares_write (d.nc hv rfl rfl)
    cases r.parent with
    | none => exact spares_pure hu
    | some q => exact modBase_ends d hu

theorem sysioPbGone_inv (b : PbId) {s : Sys D} (hi : I s) :
    Ends (sysioPbGone e b) s fun _ => I := by
  refine spares_bind <| baseAt_ends fun r _ => spares_bind <| spares_mono (Q := fun _ => I) ?_
    fun _ u _ hu => spares_bind <| spares_mono (modBase_ends d hu) fun _ v _ hv =>
    pbDestroy_ends d b hv
  cases r.ino with
  | none => exact spares_pure hi
  | some i => exact d.iRele i s hi

theorem sysioPbGone_ends (b : PbId) {s : Sys D} (h : Ranked s) (hi : I s) :
    Ends (sysioPbGone e b) s fun _ => Pruning I s := by
  refine spares_mono (sysioPbGone_inv d b hi) fun _ t run hi' => ?_
  have k := sysioPbGone_slimmer d.off.gone b s _ t run
  exact ⟨h.slimmer k, hi', k.lessened⟩

theorem sysioPGone_ends {p : Pno} {s : Sys D} (h : Ranked s) (hi : I s)
    (bare : ∀ q, (s.nc.pnode q).cover = some p → p = q) :
    Ends (sysioPGone e p) s fun _ => Pruning I s := by
  have ends : Ends (sysioPGone e p) s fun _ => I := by
    refine spares_bind <| pnodeAt_ends <| spares_bind <| assert_ends <| spares_bind <|
      assert_ends <| spares_bind <| spares_check (by decide) fun _ => spares_bind <| spares_write <|
      spares_bind <| spares_mono (modBase_ends d (d.nc hi rfl rfl)) fun _ u _ hu =>
      spares_bind <| baseAt_ends fun r _ => spares_bind <| spares_mono (Q := fun _ => I) ?_
      fun _ v _ hv => spares_write (d.nc hv rfl rfl)
    exact spares_when (fun _ => sysioPbGone_inv d _ hu) fun _ => hu
  refine spares_mono ends fun _ t run hi' => ?_
  obtain ⟨ranked, less⟩ := sysioPGone_ranked d.off.gone h bare run
  exact ⟨ranked, hi', less⟩

/-- The loop over base nodes below `b`. -/
theorem pruneBases_ends {rec : PbId → Sysio D Unit} {s : Sys D} (l : List ℕ)
    (hrec : ∀ c ∈ l, ∀ u, Pruning I s u → c < s.nc.nextBase →
      Ends (rec c) u fun _ => Pruning I u) {u : Sys D} (hu : Pruning I s u) :
    Ends (pruneBases e rec l) u fun _ => Pruning I s := by
  induction l generalizing u with
  | nil => exact spares_pure hu
  | cons c l ih =>
    refine spares_bind <| baseAt_ends fun r hr => spares_bind <| spares_mono (Q := fun _ => Pruning I s)
      ?_ fun _ v _ hv => ih (fun c hc => hrec c (List.mem_cons_of_mem _ hc)) hv
    refine spares_when (fun _ => spares_ite (fun _ => ?_) fun _ => ?_) fun _ => hu
    · have hlt : c < s.nc.nextBase := hu.less.nextBase ▸ hu.ranked.baseBound c r hr
      exact spares_mono (hrec c (List.mem_cons_self ..) u hu hlt) fun _ _ _ k => hu.after k
    · exact spares_mono (sysioPbGone_ends d c hu.ranked hu.inv) fun _ _ _ k => hu.after k

theorem sysioPrune_ends (fuel b : ℕ) {s : Sys D} (h : Ranked s) (hi : I s)
    (enough : s.nc.nextBase ≤ b + fuel) (pos : 0 < fuel) :
    Ends (sysioPrune e fuel b) s fun _ => Pruning I s := by
  induction fuel generalizing b s with
  | zero => exact absurd pos (Nat.lt_irrefl 0)
  | succ fuel ih =>
    refine spares_bind <| baseAt_ends fun r hr => spares_bind <| spares_mono
      (pruneBases_ends d r.children (fun c hc u hu hlt => ?_) (Pruning.refl h hi)) fun _ u _ hu =>
      spares_bind <| baseAt_ends fun r' _ => spares_ite (fun _ => spares_pure hu) fun _ => ?_
    · have hbc := h.child b r c hr hc
      have hnext := hu.less.nextBase
      exact ih c hu.ranked hu.inv (by omega) (by omega)
    · exact spares_mono (sysioPbGone_ends d b hu.ranked hu.inv) fun _ _ _ k => hu.after k

/-- One alias of a child, which lies on the base node `c`. -/
theorem pruneAlias_ends {rec : Pno → Sysio D ℕ} {p : Pno} {s : Sys D} (h : Ranked s) (hi : I s)
    (hrec : Ends (rec p) s fun _ => Pruning I s) :
    Ends (pruneAlias e rec p (s.nc.pnode p)) s fun _ => Pruning I s := by
  have same := Pruning.refl h hi
  refine spares_bind <| baseAt_ends fun r _ => spares_ite (fun _ => hrec) fun _ =>
    spares_ite (fun _ => spares_pure same) fun _ => spares_bind <| assert_ends <| spares_bind <|
    assert_ends <| spares_bind <| mountAt_ends fun m hm => spares_ite (fun _ => spares_pure same)
    fun hroot => spares_bind <| spares_mono (sysioPGone_ends d h hi (bare_of_mount h hm hroot))
    fun _ _ _ k => spares_pure k

theorem pruneAliases_ends {rec : Pno → Sysio D ℕ} {s : Sys D} (mnt : MntId) (l : List Pno)
    (hrec : ∀ p ∈ l, ∀ u, Pruning I s u → Ends (rec p) u fun _ => Pruning I u) {u : Sys D}
    (hu : Pruning I s u) : Ends (pruneAliases e rec mnt l) u fun _ => Pruning I s := by
  induction l generalizing u with
  | nil => exact spares_pure hu
  | cons p l ih =>
    refine spares_bind <| pnodeAt_ends <| spares_bind <| spares_mono (Q := fun _ => Pruning I s) ?_
      fun _ v _ hv => spares_bind <| spares_mono
      (ih (fun p hp => hrec p (List.mem_cons_of_mem _ hp)) hv) fun _ _ _ hw => spares_pure hw
    refine spares_ite (fun _ => spares_pure hu) fun _ => ?_
    exact spares_mono (pruneAlias_ends d hu.ranked hu.inv (hrec p (List.mem_cons_self ..) u hu))
      fun _ _ _ k => hu.after k

/-- The children of a base node have greater numbers, and the recursion has room for these. -/
theorem pPrune_ends (fuel b : ℕ) (p : Pno) {s : Sys D} (h : Ranked s) (hi : I s)
    (hb : (s.nc.pnode p).base = b) (enough : s.nc.nextBase ≤ b + fuel) (pos : 0 < fuel) :
    Ends (pPrune e fuel p) s fun _ => Pruning I s := by
  induction fuel generalizing b p s with
  | zero => exact absurd pos (Nat.lt_irrefl 0)
  | succ fuel ih =>
    have children : ∀ mnt (l : List ℕ), (∀ c ∈ l, b < c) → ∀ u, Pruning I s u →
        Ends (pruneChildren e (sysioPrune e fuel) (pPrune e fuel) mnt l) u fun _ => Pruning I s := by
      intro mnt l
      induction l with
      | nil => exact fun _ u hu => spares_pure hu
      | cons c l ihl =>
        intro above u hu
        refine spares_bind <| baseAt_ends fun r hr => spares_bind <| spares_mono
          (Q := fun _ => Pruning I s) ?_ fun _ v _ hv => spares_bind <| spares_mono
          (ihl (fun c hc => above c (List.mem_cons_of_mem _ hc)) v hv) fun _ _ _ hw => spares_pure hw
        have hbc := above c (List.mem_cons_self ..)
        have hlt := hu.ranked.baseBound c r hr
        have hnext := hu.less.nextBase
        refine spares_ite (fun _ => spares_bind <| spares_mono
          (sysioPrune_ends d fuel c hu.ranked hu.inv (by omega) (by omega)) fun _ _ _ k =>
          spares_pure (hu.after k)) fun _ => ?_
        refine spares_mono (pruneAliases_ends d mnt r.aliases (fun q hq v hv => ?_)
          (Pruning.refl hu.ranked hu.inv)) fun _ _ _ k => hu.after k
        have hbase := (hv.less.base q).trans (hu.ranked.alias_ c r q hr hq).2
        have hnext' := hv.less.nextBase
        exact ih c q hv.ranked hv.inv hbase (by omega) (by omega)
    refine spares_bind <| pnodeAt_ends <| spares_bind <| baseAt_ends fun r hr => spares_bind <|
      spares_mono (children _ r.children (fun c hc => h.child b r c (hb ▸ hr) hc) s (Pruning.refl h hi))
      fun _ u _ hu => spares_bind <| pnodeAt_ends <| spares_ite (fun _ => spares_pure hu) fun _ =>
      spares_ite (fun _ => spares_pure hu) fun _ => spares_bind <| mountAt_ends fun m hm =>
      spares_ite (fun _ => spares_pure hu) fun hroot => spares_bind <| spares_mono
      (sysioPGone_ends d hu.ranked hu.inv (bare_of_mount hu.ranked hm hroot)) fun _ _ _ k =>
      spares_pure (hu.after k)

theorem sysioPPrune_ends (p : Pno) {s : Sys D} (h : Ranked s) (hi : I s) (pos : 0 < s.nc.nextBase) :
    Ends (sysioPPrune e p) s fun _ => Pruning I s :=
  spares_bind <| spares_read <| pPrune_ends d _ _ p h hi rfl (Nat.le_add_left _ _) pos

end Pruning

section Queue

/-- How many nodes stand behind `p` on a queue. -/
def behind (p : ℕ) : List ℕ → ℕ
  | [] => 0
  | a :: l => if a = p then l.length else behind p l

variable {p q : ℕ} {l l' : List ℕ}

theorem behind_le (p : ℕ) (l : List ℕ) : behind p l ≤ l.length := by
  induction l with
  | nil => exact Nat.le_refl 0
  | cons a l ih =>
    unfold behind
    rw [List.length_cons]
    split <;> omega

theorem behind_sublist (h : l'.Sublist l) : behind p l' ≤ behind p l := by
  induction h with
  | slnil => exact Nat.le_refl _
  | cons a h ih =>
    rw [behind.eq_2]
    split
    · exact (behind_le p _).trans h.length_le
    · exact ih
  | cons_cons a h ih =>
    unfold behind
    split
    · exact h.length_le
    · exact ih

theorem mem_of_nextOf (h : nextOf p l = some q) : q ∈ l := by
  induction l with
  | nil => cases h
  | cons a l ih =>
    unfold nextOf at h
    split at h
    · exact List.mem_cons_of_mem _ (List.mem_of_mem_head? h)
    · exact List.mem_cons_of_mem _ (ih h)

/-- The scan goes up the queue. -/
theorem behind_nextOf (hl : l.Nodup) (h : nextOf p l = some q) : behind q l < behind p l := by
  induction l with
  | nil => cases h
  | cons a l ih =>
    obtain ⟨ha, hl⟩ := List.nodup_cons.mp hl
    unfold nextOf at h
    by_cases hap : a = p
    · rw [if_pos hap] at h
      have hq : a ≠ q := by
        rintro rfl
        exact ha (List.mem_of_mem_head? h)
      rw [behind, behind, if_pos hap, if_neg hq]
      cases l with
      | nil => cases h
      | cons b l =>
        rw [List.head?_cons, Option.some.injEq] at h
        rw [behind, if_pos h, List.length_cons]
        exact Nat.lt_succ_self _
    · rw [if_neg hap] at h
      have hq : a ≠ q := by
        rintro rfl
        exact ha (mem_of_nextOf h)
      rw [behind, behind, if_neg hap, if_neg hq]
      exact ih hl h

end Queue

section Reclaim

variable {I : Sys D → Prop} {e : Env D} (d : Prompt I e)

include d

theorem Pruning.recount {s t : Sys D} (h : Pruning I s t) (p : Pno) (k : ℕ) :
    Pruning I s { t with
      nc.pnode := Function.update t.nc.pnode p { t.nc.pnode p with ref := k } } := by
  obtain ⟨ranked, less⟩ := @Ranked.recount _ t h.ranked p { t.nc.pnode p with ref := k } rfl rfl
  exact ⟨ranked, d.nc h.inv rfl rfl, h.less.trans less⟩

/-- One node of the queue, with the next one to look at. -/
theorem pReclaimNode_ends (p : ℕ) {s : Sys D} (h : Ranked s) (hi : I s) (pos : 0 < s.nc.nextBase) :
    Ends (pReclaimNode e p) s fun next t => Pruning I s t ∧
      ∀ q : ℕ, next = some q → behind q t.nc.pnodes < behind p s.nc.pnodes := by
  have next : ∀ {u v : Sys D}, Pruning I s u → v.nc.pnodes.Sublist u.nc.pnodes → ∀ q : ℕ,
      nextOf p u.nc.pnodes = some q → behind q v.nc.pnodes < behind p s.nc.pnodes := by
    intro u v hu hv q hq
    exact (behind_sublist hv).trans_lt ((behind_nextOf hu.ranked.lists.nodup hq).trans_le
      (behind_sublist hu.less.pnodes))
  have same := Pruning.refl h hi
  refine spares_bind <| pnodeAt_ends <| spares_ite (fun _ => ?_) fun _ => ?_
  · exact spares_read ⟨same, next same (.refl _)⟩
  have held := same.recount d p ((s.nc.pnode p).ref + 1)
  refine spares_bind <| spares_write <| spares_bind <| spares_mono (sysioPPrune_ends d p
    held.ranked held.inv pos) fun _ u _ k => ?_
  have hu := held.after k
  have hv := hu.recount d p ((u.nc.pnode p).ref - 1)
  refine spares_bind <| spares_read <| spares_bind <| spares_bind <| spares_check (by decide)
    fun _ => spares_write ?_
  refine spares_bind <| pnodeAt_ends <| spares_ite (fun _ => spares_pure ⟨hv, next hu (.refl _)⟩)
    fun _ => spares_bind <| spares_mono (sysioPPrune_ends d p hv.ranked hv.inv ?_) fun _ w _ k =>
    spares_pure ⟨hv.after k, next hu k.less.pnodes⟩
  rw [hv.less.nextBase]
  exact pos

theorem pReclaimLoop_ends (k fuel p : ℕ) {s : Sys D} (h : Ranked s) (hi : I s)
    (pos : 0 < s.nc.nextBase) (enough : behind p s.nc.pnodes < fuel) :
    Ends (pReclaimLoop e k fuel p) s fun _ => Pruning I s := by
  induction fuel generalizing p s with
  | zero => exact absurd enough (Nat.not_lt_zero _)
  | succ fuel ih =>
    refine spares_bind <| spares_mono (pReclaimNode_ends d p h hi pos) fun next t _ hnext => ?_
    obtain ⟨ht, up⟩ := hnext
    refine spares_bind <| spares_read ?_
    cases next with
    | none => exact spares_pure ht
    | some q =>
      have hq := up q rfl
      refine spares_ite (fun _ => ?_) fun _ => spares_pure ht
      refine spares_mono (ih q ht.ranked ht.inv ?_ (by omega)) fun _ _ _ k => ht.after k
      rw [ht.less.nextBase]
      exact pos

theorem pReclaim_ends {s : Sys D} (h : Ranked s) (hi : I s) (pos : 0 < s.nc.nextBase) :
    Ends (pReclaim e) s fun _ => Pruning I s := by
  refine spares_bind <| spares_read ?_
  cases hq : s.nc.pnodes with
  | nil => exact spares_pure (Pruning.refl h hi)
  | cons p l =>
    have enough : behind p s.nc.pnodes < (p :: l).length := by
      rw [hq, behind, if_pos rfl]
      exact Nat.lt_succ_self _
    refine spares_bind <| spares_mono (pReclaimLoop_ends d _ _ p h hi pos enough) fun _ t _ ht =>
      spares_bind <| spares_read <| spares_ite (fun _ => spares_write ?_) fun _ => spares_pure ht
    exact ⟨⟨⟨ht.ranked.lists.nodup, ht.ranked.lists.freeNodup, ht.ranked.lists.disjoint,
      ht.ranked.lists.bound, ht.ranked.lists.freeBound⟩, ht.ranked.baseBound, ht.ranked.child,
      ht.ranked.alias_, ht.ranked.aliasNodup, ht.ranked.mountBound, ht.ranked.cover⟩,
      d.nc ht.inv rfl rfl, ⟨ht.less.links, ht.less.cover, ht.less.pnodes, ht.less.nextBase,
      ht.less.mt⟩⟩

end Reclaim

/-- A name cache with a mounted root, ready for a walk. -/
structure Ready (I : Sys D → Prop) (s : Sys D) : Prop where
  ranked : Ranked s
  inv : I s
  bases : 0 < s.nc.nextBase
  mounts : 0 < s.mt.nextMount

theorem Pruning.ready {I : Sys D → Prop} {s t : Sys D} (h : Pruning I s t) (hs : Ready I s) :
    Ready I t := by
  refine ⟨h.ranked, h.inv, ?_, ?_⟩
  · rw [h.less.nextBase]
    exact hs.bases
  · rw [h.less.mt]
    exact hs.mounts

theorem Ready.slimmer {I : Sys D → Prop} {s t : Sys D} (h : Ready I s) (k : Slimmer s t) (hi : I t) :
    Ready I t :=
  Pruning.ready ⟨h.ranked.slimmer k, hi, k.lessened⟩ h

section Growth

theorem Ranked.insertBase {s : Sys D} (h : Ranked s) {r : PnodeBase} (children : r.children = [])
    (aliases : r.aliases = []) (parent : ∀ q, r.parent = some q → ∃ rq, s.nc.base q = some rq) :
    Ranked { s with nc := insertBase s.nc r } := by
  have old : ∀ b r', (NameForest.insertBase s.nc r).base b = some r' →
      (b = s.nc.nextBase ∧ r'.children = [] ∧ r'.aliases = []) ∨ ∃ rb, s.nc.base b = some rb ∧
        r'.aliases = rb.aliases ∧ ∀ c ∈ r'.children, c ∈ rb.children ∨ c = s.nc.nextBase := by
    intro b r' hr'
    rcases insertBase_some.mp hr' with ⟨hb, rfl⟩ | ⟨-, rb, hrb, rfl⟩
    · exact Or.inl ⟨hb, children, aliases⟩
    · refine Or.inr ⟨rb, hrb, ?_, fun c hc => ?_⟩
      · split <;> rfl
      · split at hc
        · exact (List.mem_cons.mp hc).symm
        · exact Or.inl hc
  constructor
  case lists => exact ⟨h.lists.nodup, h.lists.freeNodup, h.lists.disjoint, h.lists.bound,
    h.lists.freeBound⟩
  case baseBound =>
    intro b r' hr'
    change b < s.nc.nextBase + 1
    rcases old b r' hr' with ⟨rfl, -⟩ | ⟨rb, hrb, -⟩
    · exact Nat.lt_succ_self _
    · exact Nat.lt_succ_of_lt (h.baseBound b rb hrb)
  case child =>
    intro b r' c hr' hc
    rcases old b r' hr' with ⟨-, hnone, -⟩ | ⟨rb, hrb, -, hchild⟩
    · rw [hnone] at hc
      cases hc
    · rcases hchild c hc with hc | rfl
      · exact h.child b rb c hrb hc
      · exact h.baseBound b rb hrb
  case alias_ =>
    intro b r' p hr' hp
    rcases old b r' hr' with ⟨-, -, hnone⟩ | ⟨rb, hrb, halias, -⟩
    · rw [hnone] at hp
      cases hp
    · rw [halias] at hp
      exact h.alias_ b rb p hrb hp
  case aliasNodup =>
    intro b r' hr'
    rcases old b r' hr' with ⟨-, -, hnone⟩ | ⟨rb, hrb, halias, -⟩
    · rw [hnone]
      exact List.nodup_nil
    · rw [halias]
      exact h.aliasNodup b rb hrb
  case mountBound => exact h.mountBound
  case cover => exact h.cover

/-- A free node becomes an alias. -/
theorem Ranked.insertPnode {s : Sys D} (h : Ranked s) {p : Pno} {n : Pnode}
    (free : p ∈ s.nc.freePnodes) (cover : n.cover = none)
    (mount : n.mount = 0 ∨ n.mount < s.mt.nextMount)
    (lists : NodeLists { s with nc := insertPnode s.nc p n }) :
    Ranked { s with nc := insertPnode s.nc p n } := by
  have dead : p ∉ s.nc.pnodes := h.lists.disjoint p free
  have other : ∀ q, q ≠ p → Function.update s.nc.pnode p n q = s.nc.pnode q := fun q hq =>
    Function.update_of_ne hq ..
  constructor
  case lists => exact lists
  case baseBound =>
    intro b r' hr'
    obtain ⟨rb, hrb, -⟩ := insertPnode_some.mp hr'
    exact h.baseBound b rb hrb
  case child =>
    intro b r' c hr' hc
    obtain ⟨rb, hrb, rfl⟩ := insertPnode_some.mp hr'
    refine h.child b rb c hrb ?_
    split at hc <;> exact hc
  case alias_ =>
    intro b r' q hr' hq
    obtain ⟨rb, hrb, rfl⟩ := insertPnode_some.mp hr'
    change q ∈ s.nc.pnodes ++ [p] ∧ (Function.update s.nc.pnode p n q).base = b
    have kept : q ∈ rb.aliases → q ∈ s.nc.pnodes ++ [p] ∧
        (Function.update s.nc.pnode p n q).base = b := by
      intro hq
      obtain ⟨hlive, hbase⟩ := h.alias_ b rb q hrb hq
      rw [other q fun hqp => dead (hqp ▸ hlive)]
      exact ⟨List.mem_append_left _ hlive, hbase⟩
    split at hq
    · rename_i hb
      rcases List.mem_cons.mp hq with rfl | hq
      · rw [Function.update_self]
        exact ⟨List.mem_append_right _ (List.mem_singleton_self _), hb.symm⟩
      · exact kept hq
    · exact kept hq
  case aliasNodup =>
    intro b r' hr'
    obtain ⟨rb, hrb, rfl⟩ := insertPnode_some.mp hr'
    split
    · exact List.nodup_cons.mpr ⟨fun hp => dead (h.alias_ b rb p hrb hp).1, h.aliasNodup b rb hrb⟩
    · exact h.aliasNodup b rb hrb
  case mountBound =>
    intro q
    change (Function.update s.nc.pnode p n q).mount = 0 ∨
      (Function.update s.nc.pnode p n q).mount < s.mt.nextMount
    by_cases hq : q = p
    · rw [hq, Function.update_self]
      exact mount
    · rw [other q hq]
      exact h.mountBound q
  case cover =>
    intro q c hc hne
    change (Function.update s.nc.pnode p n q).cover = some c at hc
    by_cases hq : q = p
    · rw [hq, Function.update_self, cover] at hc
      cases hc
    · rw [other q hq] at hc
      obtain ⟨hlt, hlive, r, hr, hroot, hcov⟩ := h.cover q c hc hne
      have hcp : c ≠ p := fun hcp => dead (hcp ▸ hlive)
      change (Function.update s.nc.pnode p n q).mount < (Function.update s.nc.pnode p n c).mount ∧
        c ∈ s.nc.pnodes ++ [p] ∧
        ∃ r, s.mt.mount (Function.update s.nc.pnode p n c).mount = some r ∧ _
      rw [other q hq, other c hcp]
      exact ⟨hlt, List.mem_append_left _ hlive, r, hr, hroot, hcov⟩

variable {I : Sys D → Prop} {e : Env D} (d : Prompt I e)

include d

omit d in
theorem malloc_avoids : Avoids Fault.diverge (malloc e) := fun s hd => by cases hd

theorem Ready.scratch {s t : Sys D} (h : Ready I s) (k : Scratch s t) : Ready I t :=
  h.slimmer (off_slimmer k.driver.off) (d.nc h.inv k.ic k.drv)

theorem malloc_ends {s : Sys D} (h : Ready I s) : Ends (malloc e) s fun _ => Ready I :=
  malloc_avoids.spares fun ok t run => h.scratch d (malloc_moves (fun _ _ k => k) s ok t run)

omit d in
theorem morePnodes_avoids : Avoids Fault.diverge (morePnodes e) :=
  avoids_bind malloc_avoids fun _ => avoids_ite (fun _ => avoids_write _) fun _ => avoids_pure _

theorem morePnodes_ready {s t : Sys D} {u : Unit} (h : Ready I s)
    (run : morePnodes e s = .ok (u, t)) : Ready I t ∧ t.mt = s.mt := by
  have lists := (morePnodes_neutral s u t run h.ranked.lists).1
  rcases morePnodes_ok run with k | ⟨v, k, rfl⟩
  · exact ⟨h.scratch d k, k.mt⟩
  · have hv := h.scratch d k
    exact ⟨⟨⟨lists, hv.ranked.baseBound, hv.ranked.child, hv.ranked.alias_, hv.ranked.aliasNodup,
      hv.ranked.mountBound, hv.ranked.cover⟩, d.nc hv.inv rfl rfl, hv.bases, hv.mounts⟩, k.mt⟩

/-- A new alias in a mount there is. -/
theorem sysioPNewAlias_ends (parent : Option Pno) (b : PbId) {mnt : MntId} {s : Sys D}
    (h : Ready I s) (mount : mnt = 0 ∨ mnt < s.mt.nextMount) :
    Ends (sysioPNewAlias e parent b mnt) s fun _ => Ready I := by
  have avoids : Avoids Fault.diverge (sysioPNewAlias e parent b mnt) := by
    refine avoids_bind (avoids_deref (by decide) _) fun r =>
      avoids_bind (avoids_check (by decide) _) fun _ => avoids_bind (avoids_read _) fun free =>
      avoids_bind (avoids_when fun _ => morePnodes_avoids) fun _ =>
      avoids_bind (avoids_read _) fun free => ?_
    cases free with
    | nil => exact avoids_pure _
    | cons p rest =>
      exact avoids_bind (avoids_write _) fun _ => avoids_bind (avoids_bind
        (avoids_deref (by decide) _) fun _ => avoids_write _) fun _ => avoids_pure _
  refine avoids.spares fun o t run => ?_
  have lists := (@sysioPNewAlias_held _ e (refs s) [] parent b mnt s
    ⟨h.ranked.lists, fun q => by simp⟩ o t run).lists
  obtain ⟨u, hu, htail⟩ := sysioPNewAlias_ok run
  have grown : Ready I u ∧ u.mt = s.mt := by
    rcases when_ok.mp hu with ⟨-, hu⟩ | ⟨-, rfl⟩
    · exact morePnodes_ready d h hu
    · exact ⟨h, rfl⟩
  obtain ⟨ready, mt⟩ := grown
  rcases htail with ⟨-, rfl⟩ | ⟨p, r, rfl, hp, -, rfl⟩
  · exact ready
  · rw [← mt] at mount
    exact ⟨ready.ranked.insertPnode (List.mem_of_mem_head? hp) rfl mount lists,
      d.nc ready.inv rfl rfl, ready.bases, ready.mounts⟩

theorem sysioPbNew_ends (name : Qstr) (parent : Option PbId) (ino : Option InoId) {s : Sys D}
    (h : Ready I s) : Ends (sysioPbNew e name parent ino) s fun _ => Ready I := by
  have reclaimed : Ends (Exec.when (s.nc.maxNames < s.nc.nNames) (pReclaim e)) s fun _ => Ready I :=
    spares_when (fun _ => spares_mono (pReclaim_ends d h.ranked h.inv h.bases) fun _ _ _ k =>
      k.ready h) fun _ => h
  constructor
  · have ends : Ends (sysioPbNew e name parent ino) s fun _ _ => True := by
      refine spares_bind <| spares_read <| spares_bind <| spares_mono reclaimed fun _ u _ _ =>
        spares_bind <| malloc_avoids.spares fun ok v _ => spares_ite (fun _ => spares_pure trivial)
        fun _ => spares_bind <| spares_read <| Avoids.spares (avoids_bind (avoids_when fun _ =>
        avoids_bind (avoids_check (by decide) _) fun _ => avoids_write _) fun _ => avoids_bind ?_
        fun _ => avoids_bind (avoids_write _) fun _ => avoids_pure _) fun _ _ _ => trivial
      cases parent with
      | none => exact avoids_pure ()
      | some q => exact avoids_bind (avoids_deref (by decide) _) fun _ => avoids_write _
    exact ends.1
  · intro o t run
    obtain ⟨u, ok, v, hu, hv, htail⟩ := sysioPbNew_ok run
    have hv' : Ready I v := (reclaimed.2 () u hu).scratch d (malloc_moves (fun _ _ k => k) u ok v hv)
    rcases htail with ⟨-, rfl⟩ | ⟨-, -, hparent, rfl⟩
    · exact hv'
    · exact ⟨hv'.ranked.insertBase rfl rfl hparent, d.nc hv'.inv rfl rfl, Nat.succ_pos _, hv'.mounts⟩

omit d in
/-- Searches change nothing. -/
theorem found_ends {α : Type} {m : Sysio D α} {s : Sys D} (h : Ready I s)
    (avoids : Avoids Fault.diverge m) (moves : Moves Eq m) : Ends m s fun _ => Ready I :=
  avoids.spares fun a t run => moves s a t run ▸ h

omit d in
theorem findNamed_avoids (parent : PbId) (name : Qstr) (l : List PbId) :
    Avoids Fault.diverge (findNamed parent name l : Sysio D (Option PbId)) := by
  induction l with
  | nil => exact avoids_pure _
  | cons b l ih =>
    exact avoids_bind (avoids_deref (by decide) _) fun _ => avoids_ite (fun _ => avoids_pure _)
      fun _ => ih

omit d in
theorem findAliasOf_avoids (parent : Pno) (l : List Pno) :
    Avoids Fault.diverge (findAliasOf parent l : Sysio D (Option Pno)) := by
  induction l with
  | nil => exact avoids_pure _
  | cons p l ih =>
    exact avoids_bind (avoids_read _) fun _ => avoids_ite (fun _ => avoids_pure _) fun _ => ih

omit d in
theorem nameChain_avoids (parent : PbId) (name : Qstr) :
    Avoids Fault.diverge (nameChain parent name : Sysio D (List PbId)) :=
  avoids_ite (fun _ => avoids_read _) fun _ =>
    avoids_bind (avoids_deref (by decide) _) fun _ => avoids_pure _

/-- A node goes to the end of the queue with one reference more. -/
theorem pRef_ends (p : Pno) {s : Sys D} (h : Ready I s) : Ends (pRef p) s fun _ t => Ready I t ∧
    t.nc.pnodes.Perm s.nc.pnodes ∧ (∀ q, links (t.nc.pnode q) = links (s.nc.pnode q)) ∧
    p ∈ s.nc.pnodes := by
  refine spares_bind <| spares_check (by decide) fun hmem => spares_write ?_
  have hmem : p ∈ s.nc.pnodes := of_decide_eq_true hmem
  have perm : (s.nc.pnodes.erase p ++ [p]).Perm s.nc.pnodes :=
    List.perm_append_comm.trans (List.perm_cons_erase hmem).symm
  have queued : Ranked { s with nc.pnodes := s.nc.pnodes.erase p ++ [p] } := by
    refine ⟨⟨perm.nodup_iff.mpr h.ranked.lists.nodup, h.ranked.lists.freeNodup, fun q hq => ?_,
      fun q hq => h.ranked.lists.bound q (perm.mem_iff.mp hq), h.ranked.lists.freeBound⟩,
      h.ranked.baseBound, h.ranked.child, fun b r q hr hq => ?_, h.ranked.aliasNodup,
      h.ranked.mountBound, fun q c hc hne => ?_⟩
    · exact fun hm => h.ranked.lists.disjoint q hq (perm.mem_iff.mp hm)
    · obtain ⟨hlive, hbase⟩ := h.ranked.alias_ b r q hr hq
      exact ⟨perm.mem_iff.mpr hlive, hbase⟩
    · obtain ⟨hlt, hlive, hmount⟩ := h.ranked.cover q c hc hne
      exact ⟨hlt, perm.mem_iff.mpr hlive, hmount⟩
  obtain ⟨ranked, less⟩ := @Ranked.recount _ _ queued p
    { s.nc.pnode p with ref := (s.nc.pnode p).ref + 1 } rfl rfl
  exact ⟨⟨ranked, d.nc h.inv rfl rfl, h.bases, h.mounts⟩, perm, less.links, hmem⟩

theorem pRele_ends (p : Pno) {s : Sys D} (h : Ready I s) : Ends (pRele p) s fun _ t => Ready I t ∧
    t.nc.pnodes = s.nc.pnodes ∧ ∀ q, links (t.nc.pnode q) = links (s.nc.pnode q) := by
  refine spares_bind <| spares_check (by decide) fun _ => spares_write ?_
  have k := (Pruning.refl h.ranked h.inv).recount d p ((s.nc.pnode p).ref - 1)
  exact ⟨k.ready h, rfl, k.less.links⟩

theorem sysioPFindAlias_ends (parent : Pno) (name : Qstr) {s : Sys D} (h : Ready I s) :
    Ends (sysioPFindAlias e parent name) s fun _ => Ready I := by
  have base : ∀ b, Ends (findBase e b name) s fun _ => Ready I := by
    intro b
    refine spares_bind <| spares_mono (found_ends h (nameChain_avoids b name)
      (nameChain_moves b name)) fun chain u _ hu => spares_bind <| spares_mono (found_ends hu
      (findNamed_avoids b name chain) (findNamed_moves b name chain)) fun found v _ hv => ?_
    cases found with
    | some c => exact spares_pure hv
    | none => exact sysioPbNew_ends d name (some b) none hv
  refine spares_bind <| pnodeAt_ends <| spares_bind <| spares_mono (base _) fun found u _ hu => ?_
  cases found with
  | none => exact spares_pure hu
  | some b =>
    refine spares_bind <| baseAt_ends fun r _ => spares_bind <| spares_mono (found_ends hu
      (findAliasOf_avoids parent r.aliases) (findAliasOf_moves parent r.aliases))
      fun known v _ hv => ?_
    cases known with
    | some p => exact spares_bind <| spares_mono (pRef_ends d p hv) fun _ _ _ hw => spares_pure hw.1
    | none =>
      refine spares_bind <| pnodeAt_ends <| spares_bind <| spares_mono (sysioPNewAlias_ends d
        (some parent) b hv (hv.ranked.mountBound parent)) fun made w _ hw => ?_
      cases made <;> exact spares_pure hw

end Growth

end RankedNames
