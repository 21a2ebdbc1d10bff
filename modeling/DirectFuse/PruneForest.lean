import DirectFuse.NameForest
import Mathlib.Data.List.Sublists

/-! Pruning keeps the forest. What goes are idle and uncovered path nodes that are not the root of
a mount, and the base nodes left without aliases and children; nothing that stays is rewritten. -/
namespace PruneForest

open ExecLogic SysioState SysioInode SysioNamei CoreMoves PathRefs NameForest

variable {D : Type} {root : Pno → Prop}

/-- What `_sysio_p_gone` makes of the forest: a base node without aliases and children goes along. -/
def dropNode (nc : NameCache) (p : Pno) : NameCache :=
  match (removePnode nc p).base (nc.pnode p).base with
  | none => removePnode nc p
  | some r =>
    if r.aliases = [] ∧ r.children = [] then
      removeBase (removePnode nc p) (nc.pnode p).base
    else
      removePnode nc p

/-- Pruning from `nc` has led to `nc'`. -/
structure Pruned (root : Pno → Prop) (nc nc' : NameCache) : Prop where
  pnode : nc'.pnode = nc.pnode
  pnodes : List.Sublist nc'.pnodes nc.pnodes
  gone : ∀ p ∈ nc.pnodes, p ∉ nc'.pnodes →
    (nc.pnode p).ref = 0 ∧ (nc.pnode p).cover = none ∧ ¬ root p
  base : ∀ b r', nc'.base b = some r' → ∃ r, nc.base b = some r ∧ r'.name = r.name ∧
    r'.ino = r.ino ∧ r'.parent = r.parent
  nextPnode : nc'.nextPnode = nc.nextPnode
  nextBase : nc'.nextBase = nc.nextBase
  maxNames : nc.maxNames ≤ nc'.maxNames

theorem Pruned.refl (nc : NameCache) : Pruned root nc nc :=
  ⟨rfl, List.Sublist.refl _, fun _ hp hn => absurd hp hn, fun _ r' h => ⟨r', h, rfl, rfl, rfl⟩,
    rfl, rfl, Nat.le_refl _⟩

theorem Pruned.trans {nc nc' nc'' : NameCache} (h : Pruned root nc nc') (k : Pruned root nc' nc'') :
    Pruned root nc nc'' := by
  refine ⟨k.pnode.trans h.pnode, k.pnodes.trans h.pnodes, fun p hp hn => ?_, fun b r'' hb => ?_,
    k.nextPnode.trans h.nextPnode, k.nextBase.trans h.nextBase, h.maxNames.trans k.maxNames⟩
  · by_cases hmid : p ∈ nc'.pnodes
    · have := k.gone p hmid hn
      rw [h.pnode] at this
      exact this
    · exact h.gone p hp hmid
  · obtain ⟨r', hr', hn', hi', hp'⟩ := k.base b r'' hb
    obtain ⟨r, hr, hn, hi, hp⟩ := h.base b r' hr'
    exact ⟨r, hr, hn'.trans hn, hi'.trans hi, hp'.trans hp⟩

theorem pruned_removeBase (nc : NameCache) (b : PbId) : Pruned root nc (removeBase nc b) := by
  refine ⟨rfl, List.Sublist.refl _, fun p hp hn => absurd hp hn, fun c r' hc => ?_, rfl, rfl,
    Nat.le_refl _⟩
  obtain ⟨-, r, hr, rfl⟩ := removeBase_some.mp hc
  exact ⟨r, hr, rfl, rfl, rfl⟩

theorem pruned_removePnode {nc : NameCache} {p : Pno} (href : (nc.pnode p).ref = 0)
    (hcover : (nc.pnode p).cover = none) (hroot : ¬ root p) : Pruned root nc (removePnode nc p) := by
  refine ⟨rfl, List.erase_sublist, fun q hq hn => ?_, fun c r' hc => ?_, rfl, rfl, Nat.le_refl _⟩
  · have : q = p := by
      by_contra hne
      exact hn ((List.mem_erase_of_ne hne).mpr hq)
    rw [this]
    exact ⟨href, hcover, hroot⟩
  · obtain ⟨r, hr, rfl⟩ := removePnode_some.mp hc
    exact ⟨r, hr, rfl, rfl, rfl⟩

theorem dropNode_pnodes (nc : NameCache) (p : Pno) : (dropNode nc p).pnodes = nc.pnodes.erase p := by
  unfold dropNode
  split
  · rfl
  · split <;> rfl

theorem pruned_dropNode {nc : NameCache} {p : Pno} (href : (nc.pnode p).ref = 0)
    (hcover : (nc.pnode p).cover = none) (hroot : ¬ root p) : Pruned root nc (dropNode nc p) := by
  have h := pruned_removePnode href hcover hroot
  unfold dropNode
  split
  · exact h
  · split
    · exact h.trans (pruned_removeBase _ _)
    · exact h

theorem forest_dropNode {nc : NameCache} {p : Pno} (hf : Forest root nc) (hp : p ∈ nc.pnodes)
    (leaf : ∀ c ∈ nc.pnodes, ¬ root c → (nc.pnode c).parent ≠ p) : Forest root (dropNode nc p) := by
  have h := hf.removePnode hp leaf
  unfold dropNode
  split
  · exact h
  · rename_i r hr
    split
    · rename_i hempty
      exact h.removeBase hr hempty.1 hempty.2
    · exact h

/-- Fewer free nodes are fine. -/
theorem forest_freePnodes {nc : NameCache} {l : List Pno} (hf : Forest root nc)
    (hl : List.Sublist l nc.freePnodes) : Forest root { nc with freePnodes := l } :=
  { hf with
    freeNodup := hf.freeNodup.sublist hl
    apart := fun p hp => hf.apart p (hl.subset hp)
    pnodeBound := fun p hp => hf.pnodeBound p (hp.imp id fun h => hl.subset h) }

/-- `pb_destroy` under the links of the forest. -/
theorem pbDestroy_forest {b : PbId} {s t : Sys D} {u : Unit} (hf : Forest root s.nc)
    (run : (pbDestroy b : Sysio D Unit) s = .ok (u, t)) : ∃ r, s.nc.base b = some r ∧
      r.aliases = [] ∧ r.children = [] ∧ t = { s with nc := removeBase s.nc b } := by
  simp only [pbDestroy, baseAt, assert, bind_ok, check_ok, write_ok, deref_ok] at run
  obtain ⟨_, _, ⟨-, rfl⟩, _, _, rfl, r, _, ⟨hr, rfl⟩, _, _, ⟨hal, rfl⟩, _, _, ⟨hch, rfl⟩, _, _,
    ⟨-, rfl⟩, _, v, hv, _, w, hw, rfl⟩ := run
  have hal : r.aliases = [] := List.isEmpty_iff.mp hal
  have hch : r.children = [] := List.isEmpty_iff.mp hch
  refine ⟨r, hr, hal, hch, ?_⟩
  -- the chains, of which only one holds the node
  have hv' : v = { s with nc := { s.nc with
      names := fun k => (s.nc.names k).erase b, nNames := s.nc.nNames - 1 } } := by
    have other : ∀ k, (r.name.name = [] ∨ k ≠ r.name.hashval % NAMES_TABLE_LEN) →
        (s.nc.names k).erase b = s.nc.names k := by
      intro k hk
      refine List.erase_of_not_mem fun hm => ?_
      obtain ⟨r', hr', hname, hslot⟩ := (hf.chain k b).mp hm
      obtain rfl : r = r' := Option.some.inj (hr.symm.trans hr')
      rcases hk with hk | hk
      · exact hname hk
      · exact hk hslot.symm
    rcases when_ok.mp hv with ⟨hname, hv⟩ | ⟨hname, rfl⟩
    · obtain rfl := write_ok.mp hv
      have : Function.update s.nc.names (r.name.hashval % NAMES_TABLE_LEN)
          ((s.nc.names (r.name.hashval % NAMES_TABLE_LEN)).erase b) =
          fun k => (s.nc.names k).erase b := by
        funext k
        by_cases hk : k = r.name.hashval % NAMES_TABLE_LEN
        · rw [hk, Function.update_self]
        · rw [Function.update_of_ne hk, other k (Or.inr hk)]
      simp only [this]
    · have hname : r.name.name = [] := by simpa using hname
      have : s.nc.names = fun k => (s.nc.names k).erase b := by
        funext k
        rw [other k (Or.inl hname)]
      simp only [← this]
  subst hv'
  -- the parent's list, the only list of children that holds the node
  have noList : ∀ c rc, r.parent ≠ some c → s.nc.base c = some rc → dropChild b rc = rc := by
    intro c rc hne hc
    have hnot : b ∉ rc.children := by
      intro hm
      obtain ⟨r', hr', hp⟩ := (hf.child c rc hc b).mp hm
      obtain rfl : r = r' := Option.some.inj (hr.symm.trans hr')
      exact hne hp
    simp only [dropChild, List.erase_of_not_mem hnot]
  have hbase : Function.update w.nc.base b none =
      Function.update (fun c => (s.nc.base c).map (dropChild b)) b none := by
    funext c
    by_cases hcb : c = b
    · rw [hcb, Function.update_self, Function.update_self]
    · rw [Function.update_of_ne hcb, Function.update_of_ne hcb]
      cases hq : r.parent with
      | none =>
        rw [hq] at hw
        obtain ⟨-, rfl⟩ := pure_ok.mp hw
        cases hc : s.nc.base c with
        | none => rfl
        | some rc => rw [Option.map_some, noList c rc (by simp [hq]) hc]
      | some q =>
        rw [hq] at hw
        obtain ⟨rq, hrq, rfl⟩ := modBase_ok hw
        by_cases hcq : c = q
        · subst hcq
          have hrq' : s.nc.base c = some rq := hrq
          simp only [Function.update_self, hrq', Option.map_some, dropChild]
        · change Function.update s.nc.base q _ c = _
          rw [Function.update_of_ne hcq]
          cases hc : s.nc.base c with
          | none => rfl
          | some rc => rw [Option.map_some, noList c rc (by rw [hq]; simpa using Ne.symm hcq) hc]
  have hrest : w = { s with nc := { s.nc with
      names := fun k => (s.nc.names k).erase b, nNames := s.nc.nNames - 1, base := w.nc.base } } := by
    cases hq : r.parent with
    | none =>
      rw [hq] at hw
      obtain ⟨-, rfl⟩ := pure_ok.mp hw
      rfl
    | some q =>
      rw [hq] at hw
      obtain ⟨rq, -, rfl⟩ := modBase_ok hw
      rfl
  rw [hrest]
  simp only [removeBase, ← hbase]

/-- The root of a mount is known to its mount. -/
def Rooted (root : Pno → Prop) (s : Sys D) : Prop :=
  ∀ p ∈ s.nc.pnodes, root p → ∀ m, s.mt.mount (s.nc.pnode p).mount = some m → m.root = some p

/-- Pruning from `s` has led to `t`. -/
structure Kept (root : Pno → Prop) (s t : Sys D) : Prop where
  forest : Forest root t.nc
  pruned : Pruned root s.nc t.nc
  mt : t.mt = s.mt
  ft : t.ft = s.ft
  aio : t.aio = s.aio
  umask : t.umask = s.umask

theorem Kept.rooted {s t : Sys D} (h : Kept root s t) (hr : Rooted root s) : Rooted root t := by
  intro p hp hroot m hm
  rw [h.mt, h.pruned.pnode] at hm
  exact hr p (h.pruned.pnodes.subset hp) hroot m hm

def Prunes (root : Pno → Prop) (s t : Sys D) : Prop :=
  Forest root s.nc → Rooted root s → Kept root s t

theorem Kept.trans {s t u : Sys D} (h : Kept root s t) (k : Kept root t u) : Kept root s u :=
  ⟨k.forest, h.pruned.trans k.pruned, k.mt.trans h.mt, k.ft.trans h.ft, k.aio.trans h.aio,
    k.umask.trans h.umask⟩

theorem Kept.refl {s : Sys D} (hf : Forest root s.nc) : Kept root s s :=
  ⟨hf, Pruned.refl _, rfl, rfl, rfl, rfl⟩

instance : IsPreorder (Sys D) (Prunes root) where
  refl _ hf _ := Kept.refl hf
  trans _ _ _ h k hf hr := (h hf hr).trans (k (h hf hr).forest ((h hf hr).rooted hr))

section Gone

variable {e : Env D} (gone : ∀ i, Moves OffInodes (e.ops.gone i))

include gone

theorem iRele_off (i : InoId) : Moves OffInodes (iRele e i) :=
  iRele_moves (fun _ _ h => h) gone i

theorem sysioPbGone_forest {b : PbId} {s t : Sys D} {u : Unit} (hf : Forest root s.nc)
    (run : sysioPbGone e b s = .ok (u, t)) : ∃ r, s.nc.base b = some r ∧ r.aliases = [] ∧
      r.children = [] ∧ t.nc = removeBase s.nc b ∧ t.mt = s.mt ∧ t.ft = s.ft ∧ t.aio = s.aio ∧
      t.umask = s.umask := by
  obtain ⟨r, _, hread, h1⟩ := bind_ok.mp run
  obtain ⟨hr, rfl⟩ := deref_ok.mp hread
  obtain ⟨_, v, hv, h2⟩ := bind_ok.mp h1
  obtain ⟨_, w, hw, h3⟩ := bind_ok.mp h2
  have off : OffInodes s v := ifSome_moves (fun i _ => iRele_off gone i) _ _ _ hv
  obtain ⟨r', hr', rfl⟩ := modBase_ok hw
  rw [off.nc] at hr'
  obtain rfl : r = r' := Option.some.inj (hr.symm.trans hr')
  have shape : SameShape s.nc { v.nc with
      base := Function.update v.nc.base b (some { r with ino := none }) } := by
    rw [off.nc]
    refine ⟨fun _ => rfl, fun c => ?_, List.Perm.refl _, rfl, rfl, rfl, rfl, rfl⟩
    by_cases hc : c = b
    · subst hc
      simp [hr, unbound]
    · simp [hc]
  obtain ⟨r', hr', hal, hch, rfl⟩ := pbDestroy_forest (hf.sameShape shape) h3
  simp only [Function.update_self, Option.some.injEq] at hr'
  subst hr'
  refine ⟨r, hr, hal, hch, ?_, off.mt, off.ft, off.aio, off.umask⟩
  rw [off.nc]
  unfold removeBase
  have : Function.update (fun c => (Function.update s.nc.base b
        (some { r with ino := none }) c).map (dropChild b)) b none =
      Function.update (fun c => (s.nc.base c).map (dropChild b)) b none := by
    funext c
    by_cases hc : c = b <;> simp [hc]
  simp only [this]

theorem sysioPbGone_prunes (b : PbId) : Moves (Prunes root) (sysioPbGone e b) := by
  intro s u t run hf _
  obtain ⟨r, hr, hal, hch, hnc, mt, ft, aio, umask⟩ := sysioPbGone_forest gone hf run
  refine ⟨?_, ?_, mt, ft, aio, umask⟩
  · rw [hnc]
    exact hf.removeBase hr hal hch
  · rw [hnc]
    exact pruned_removeBase _ _

omit gone in
/-- Only one base node has the alias. -/
theorem dropAlias_base {nc : NameCache} (hf : Forest root nc) {p : Pno} {rb : PnodeBase}
    (hrb : nc.base (nc.pnode p).base = some rb) :
    Function.update nc.base (nc.pnode p).base (some (dropAlias p rb)) =
      fun c => (nc.base c).map (dropAlias p) := by
  funext c
  by_cases hc : c = (nc.pnode p).base
  · rw [hc, Function.update_self, hrb, Option.map_some]
  · rw [Function.update_of_ne hc]
    cases hcr : nc.base c with
    | none => rfl
    | some rc =>
      have hnot : p ∉ rc.aliases := by
        intro hm
        exact hc ((hf.alias_ c rc hcr p).mp hm).2.symm
      simp only [Option.map_some, dropAlias, List.erase_of_not_mem hnot]

/-- The links of the forest when `p` is off the lists and its record not yet free. -/
def cutAlias (nc : NameCache) (p : Pno) (rb : PnodeBase) : NameCache :=
  { nc with
    pnodes := nc.pnodes.erase p
    base := Function.update nc.base (nc.pnode p).base (some (dropAlias p rb)) }

omit gone in
theorem cutAlias_eq {nc : NameCache} (hf : Forest root nc) {p : Pno} {rb : PnodeBase}
    (hrb : nc.base (nc.pnode p).base = some rb) :
    cutAlias nc p rb = { removePnode nc p with freePnodes := nc.freePnodes } := by
  unfold cutAlias
  rw [dropAlias_base hf hrb]
  rfl

omit gone in
theorem forest_cutAlias {nc : NameCache} (hf : Forest root nc) {p : Pno} {rb : PnodeBase}
    (hrb : nc.base (nc.pnode p).base = some rb) (hp : p ∈ nc.pnodes)
    (leaf : ∀ c ∈ nc.pnodes, ¬ root c → (nc.pnode c).parent ≠ p) :
    Forest root (cutAlias nc p rb) := by
  rw [cutAlias_eq hf hrb]
  exact forest_freePnodes (hf.removePnode hp leaf) (List.sublist_cons_self ..)

/-- `_sysio_p_gone` of a node no other hangs below. -/
theorem sysioPGone_forest {p : Pno} {s t : Sys D} {u : Unit} (hf : Forest root s.nc)
    (leaf : ∀ c ∈ s.nc.pnodes, ¬ root c → (s.nc.pnode c).parent ≠ p)
    (run : sysioPGone e p s = .ok (u, t)) : p ∈ s.nc.pnodes ∧ (s.nc.pnode p).ref = 0 ∧
      (s.nc.pnode p).cover = none ∧ t.nc = dropNode s.nc p ∧ t.mt = s.mt ∧ t.ft = s.ft ∧
      t.aio = s.aio ∧ t.umask = s.umask := by
  simp only [sysioPGone, pnodeAt, assert, baseAt, bind_ok, read_ok, check_ok, write_ok,
    deref_ok] at run
  obtain ⟨n, _, ⟨rfl, rfl⟩, _, _, ⟨href, rfl⟩, _, _, ⟨hcover, rfl⟩, _, _, ⟨hmem, rfl⟩, _, _, rfl,
    _, v, hv, r, _, ⟨hr, rfl⟩, _, w, hw, rfl⟩ := run
  have href : (s.nc.pnode p).ref = 0 := of_decide_eq_true href
  have hcover : (s.nc.pnode p).cover = none := Option.isNone_iff_eq_none.mp hcover
  have hmem : p ∈ s.nc.pnodes := of_decide_eq_true hmem
  refine ⟨hmem, href, hcover, ?_⟩
  obtain ⟨rb, hrb, rfl⟩ := modBase_ok hv
  have hrb : s.nc.base (s.nc.pnode p).base = some rb := hrb
  have hstate := cutAlias_eq hf hrb
  have hcut := forest_cutAlias hf hrb hmem leaf
  have hrem : (removePnode s.nc p).base (s.nc.pnode p).base = some r := by
    have hr : (cutAlias s.nc p rb).base (s.nc.pnode p).base = some r := hr
    rw [hstate] at hr
    exact hr
  unfold dropNode
  rw [hrem]
  rcases when_ok.mp hw with ⟨hempty, hw⟩ | ⟨hfull, rfl⟩
  · obtain ⟨r', hr', -, -, hnc, mt, ft, aio, umask⟩ :=
      sysioPbGone_forest gone (s := { s with nc := cutAlias s.nc p rb }) hcut hw
    refine ⟨?_, mt, ft, aio, umask⟩
    simp only [if_pos hempty]
    change { w.nc with freePnodes := p :: w.nc.freePnodes } = _
    rw [hnc]
    change ({ removeBase (cutAlias s.nc p rb) (s.nc.pnode p).base with freePnodes := _ } :
      NameCache) = _
    rw [hstate]
    rfl
  · refine ⟨?_, rfl, rfl, rfl, rfl⟩
    simp only [if_neg hfull]
    change ({ cutAlias s.nc p rb with freePnodes := _ } : NameCache) = _
    rw [hstate]
    rfl

/-- A run keeps the forest, and establishes `P` when it counts nothing that stays. -/
def Removes (root : Pno → Prop) (m : Sysio D ℕ) (P : Sys D → Prop) : Prop :=
  ∀ s k t, m s = .ok (k, t) → Forest root s.nc → Rooted root s →
    Kept root s t ∧ (k = 0 → P t)

omit gone in
theorem leaf_of_base {s : Sys D} {p : Pno} {r : PnodeBase} (hf : Forest root s.nc)
    (hr : s.nc.base (s.nc.pnode p).base = some r)
    (hch : ∀ c ∈ s.nc.pnodes, (s.nc.pnode c).mount = (s.nc.pnode p).mount →
      (s.nc.pnode c).base ∉ r.children) :
    ∀ c ∈ s.nc.pnodes, ¬ root c → (s.nc.pnode c).parent ≠ p := by
  rintro c hc hroot rfl
  obtain ⟨-, hmnt, rc, hrc, hp⟩ := hf.inside c hc hroot
  exact hch c hc hmnt.symm ((hf.child _ r hr _).mpr ⟨rc, hrc, hp⟩)

theorem sysioPGone_kept {p : Pno} {s t : Sys D} {u : Unit} (hf : Forest root s.nc)
    (hroot : ¬ root p) (leaf : ∀ c ∈ s.nc.pnodes, ¬ root c → (s.nc.pnode c).parent ≠ p)
    (run : sysioPGone e p s = .ok (u, t)) : Kept root s t ∧ p ∉ t.nc.pnodes := by
  obtain ⟨hmem, href, hcover, hnc, mt, ft, aio, umask⟩ := sysioPGone_forest gone hf leaf run
  refine ⟨⟨?_, ?_, mt, ft, aio, umask⟩, ?_⟩
  · rw [hnc]
    exact forest_dropNode hf hmem leaf
  · rw [hnc]
    exact pruned_dropNode href hcover hroot
  · rw [hnc, dropNode_pnodes]
    exact fun hp => (hf.nodup.mem_erase_iff.mp hp).1 rfl

theorem pruneAlias_removes {rec : Pno → Sysio D ℕ} {p : Pno} {s t : Sys D} {k : ℕ}
    (hrec : Removes root (rec p) fun t => p ∉ t.nc.pnodes)
    (run : pruneAlias e rec p (s.nc.pnode p) s = .ok (k, t)) (hf : Forest root s.nc)
    (hr : Rooted root s) : Kept root s t ∧ (k = 0 → p ∉ t.nc.pnodes) := by
  obtain ⟨r, _, hread, h1⟩ := bind_ok.mp run
  obtain ⟨hrb, rfl⟩ := deref_ok.mp hread
  by_cases hch : r.children ≠ []
  · rw [if_pos hch] at h1
    exact hrec s k t h1 hf hr
  rw [if_neg hch] at h1
  by_cases href : (s.nc.pnode p).ref ≠ 0
  · rw [if_pos href] at h1
    obtain ⟨rfl, rfl⟩ := pure_ok.mp h1
    exact ⟨Kept.refl hf, fun h => by cases h⟩
  rw [if_neg href] at h1
  obtain ⟨_, _, has, h2⟩ := bind_ok.mp h1
  obtain rfl : s = _ := assert_moves (R := Eq) _ _ _ _ has
  obtain ⟨_, _, has, h3⟩ := bind_ok.mp h2
  obtain rfl : s = _ := assert_moves (R := Eq) _ _ _ _ has
  obtain ⟨m, _, hread, h4⟩ := bind_ok.mp h3
  obtain ⟨hm, rfl⟩ := deref_ok.mp hread
  by_cases hmroot : m.root = some p
  · rw [if_pos hmroot] at h4
    obtain ⟨rfl, rfl⟩ := pure_ok.mp h4
    exact ⟨Kept.refl hf, fun h => by cases h⟩
  rw [if_neg hmroot] at h4
  obtain ⟨_, v, hv, h5⟩ := bind_ok.mp h4
  obtain ⟨rfl, rfl⟩ := pure_ok.mp h5
  have hchild : r.children = [] := not_not.mp hch
  have leaf := leaf_of_base hf hrb (by simp [hchild])
  by_cases hp : p ∈ s.nc.pnodes
  · have hroot : ¬ root p := fun hroot => hmroot (hr p hp hroot m hm)
    exact ⟨(sysioPGone_kept gone hf hroot leaf hv).1,
      fun _ => (sysioPGone_kept gone hf hroot leaf hv).2⟩
  · exact absurd (sysioPGone_forest gone hf leaf hv).1 hp

theorem pruneAliases_removes {rec : Pno → Sysio D ℕ}
    (hrec : ∀ p, Removes root (rec p) fun t => p ∉ t.nc.pnodes) (mnt : MntId) (l : List Pno)
    {s t : Sys D} {k : ℕ} (run : pruneAliases e rec mnt l s = .ok (k, t)) (hf : Forest root s.nc)
    (hr : Rooted root s) : Kept root s t ∧
      (k = 0 → ∀ p ∈ l, (s.nc.pnode p).mount = mnt → p ∉ t.nc.pnodes) := by
  induction l generalizing s k with
  | nil =>
    obtain ⟨rfl, rfl⟩ := pure_ok.mp run
    exact ⟨Kept.refl hf, fun _ p hp => by cases hp⟩
  | cons p l ih =>
    obtain ⟨n, _, hread, h1⟩ := bind_ok.mp run
    obtain ⟨rfl, rfl⟩ := read_ok.mp hread
    obtain ⟨k₁, v, hv, h2⟩ := bind_ok.mp h1
    obtain ⟨k₂, w, hw, h3⟩ := bind_ok.mp h2
    obtain ⟨rfl, rfl⟩ := pure_ok.mp h3
    have head : Kept root s v ∧ (k₁ = 0 → (s.nc.pnode p).mount = mnt → p ∉ v.nc.pnodes) := by
      by_cases hm : (s.nc.pnode p).mount ≠ mnt
      · rw [if_pos hm] at hv
        obtain ⟨rfl, rfl⟩ := pure_ok.mp hv
        exact ⟨Kept.refl hf, fun _ he => absurd he hm⟩
      · rw [if_neg hm] at hv
        obtain ⟨kept, goes⟩ := pruneAlias_removes gone (hrec p) hv hf hr
        exact ⟨kept, fun h _ => goes h⟩
    obtain ⟨kept, goes⟩ := head
    obtain ⟨kept', goes'⟩ := ih hw kept.forest (kept.rooted hr)
    refine ⟨kept.trans kept', fun hk q hq hm => ?_⟩
    rcases List.mem_cons.mp hq with rfl | hq
    · exact fun hw => goes (by omega) hm (kept'.pruned.pnodes.subset hw)
    · exact goes' (by omega) q hq (by rw [kept.pruned.pnode]; exact hm)

theorem pruneChildren_removes {rec : Pno → Sysio D ℕ}
    (hrec : ∀ p, Removes root (rec p) fun t => p ∉ t.nc.pnodes) (fuel : ℕ) (mnt : MntId)
    (l : List PbId) {s t : Sys D} {k : ℕ}
    (run : pruneChildren e (sysioPrune e fuel) rec mnt l s = .ok (k, t)) (hf : Forest root s.nc)
    (hr : Rooted root s) : Kept root s t ∧ (k = 0 → ∀ b ∈ l, ∀ p ∈ t.nc.pnodes,
      (t.nc.pnode p).mount = mnt → (t.nc.pnode p).base ≠ b) := by
  induction l generalizing s k with
  | nil =>
    obtain ⟨rfl, rfl⟩ := pure_ok.mp run
    exact ⟨Kept.refl hf, fun _ b hb => by cases hb⟩
  | cons b l ih =>
    obtain ⟨r, _, hread, h1⟩ := bind_ok.mp run
    obtain ⟨hrb, rfl⟩ := deref_ok.mp hread
    obtain ⟨k₁, v, hv, h2⟩ := bind_ok.mp h1
    obtain ⟨k₂, w, hw, h3⟩ := bind_ok.mp h2
    obtain ⟨rfl, rfl⟩ := pure_ok.mp h3
    have head : Kept root s v ∧ (k₁ = 0 → ∀ p ∈ v.nc.pnodes, (v.nc.pnode p).mount = mnt →
        (v.nc.pnode p).base ≠ b) := by
      by_cases hal : r.aliases = []
      · rw [if_pos hal] at hv
        obtain ⟨_, x, hx, h4⟩ := bind_ok.mp hv
        obtain ⟨rfl, rfl⟩ := pure_ok.mp h4
        have kept : Kept root s x :=
          sysioPrune_moves (sysioPbGone_prunes gone) fuel b _ _ _ hx hf hr
        refine ⟨kept, fun _ p hp _ he => ?_⟩
        rw [kept.pruned.pnode] at he
        have := (hf.alias_ b r hrb p).mpr ⟨kept.pruned.pnodes.subset hp, he⟩
        simp [hal] at this
      · rw [if_neg hal] at hv
        obtain ⟨kept, goes⟩ := pruneAliases_removes gone hrec mnt r.aliases hv hf hr
        refine ⟨kept, fun hk p hp hm he => ?_⟩
        rw [kept.pruned.pnode] at hm he
        have := (hf.alias_ b r hrb p).mpr ⟨kept.pruned.pnodes.subset hp, he⟩
        exact goes hk p this hm hp
    obtain ⟨kept, goes⟩ := head
    obtain ⟨kept', goes'⟩ := ih hw kept.forest (kept.rooted hr)
    refine ⟨kept.trans kept', fun hk c hc p hp hm => ?_⟩
    rcases List.mem_cons.mp hc with rfl | hc
    · rw [kept'.pruned.pnode] at hm ⊢
      exact goes (by omega) p (kept'.pruned.pnodes.subset hp) hm
    · exact goes' (by omega) c hc p hp hm

omit gone in
/-- The nodes below went with the children of the base node. -/
theorem leaf_of_goes {s v : Sys D} {p : Pno} {r : PnodeBase} (hf : Forest root s.nc)
    (kept : Kept root s v) (hrb : s.nc.base (s.nc.pnode p).base = some r)
    (goes : ∀ b ∈ r.children, ∀ q ∈ v.nc.pnodes, (v.nc.pnode q).mount = (s.nc.pnode p).mount →
      (v.nc.pnode q).base ≠ b) :
    ∀ c ∈ v.nc.pnodes, ¬ root c → (v.nc.pnode c).parent ≠ p := by
  rintro c hc hroot rfl
  obtain ⟨-, hmnt, rc, hrc, hp⟩ := kept.forest.inside c hc hroot
  obtain ⟨rc', hrc', -, -, hp'⟩ := kept.pruned.base _ rc hrc
  have hp' : rc'.parent = some (s.nc.pnode (v.nc.pnode c).parent).base := by
    rw [← hp', hp, kept.pruned.pnode]
  have hchild := (hf.child _ r hrb _).mpr ⟨rc', hrc', hp'⟩
  refine goes _ hchild c hc ?_ rfl
  rw [← hmnt, kept.pruned.pnode]

/-- Pruning below a node keeps the forest, and a count of zero means that the node went too. -/
theorem pPrune_removes (fuel : ℕ) (p : Pno) :
    Removes root (pPrune e fuel p) fun t => p ∉ t.nc.pnodes := by
  induction fuel generalizing p with
  | zero =>
    intro s k t run
    exact (fault_ok.mp run).elim
  | succ fuel ih =>
    intro s k t run hf hr
    obtain ⟨n, _, hread, h1⟩ := bind_ok.mp run
    obtain ⟨rfl, rfl⟩ := read_ok.mp hread
    obtain ⟨r, _, hread, h2⟩ := bind_ok.mp h1
    obtain ⟨hrb, rfl⟩ := deref_ok.mp hread
    obtain ⟨count, v, hv, h3⟩ := bind_ok.mp h2
    obtain ⟨kept, goes⟩ := pruneChildren_removes gone ih fuel _ _ hv hf hr
    obtain ⟨n', _, hread, h4⟩ := bind_ok.mp h3
    obtain ⟨rfl, rfl⟩ := read_ok.mp hread
    by_cases hcount : count ≠ 0
    · rw [if_pos hcount] at h4
      obtain ⟨rfl, rfl⟩ := pure_ok.mp h4
      exact ⟨kept, fun h => absurd h (by omega)⟩
    rw [if_neg hcount] at h4
    by_cases href : (v.nc.pnode p).ref ≠ 0
    · rw [if_pos href] at h4
      obtain ⟨rfl, rfl⟩ := pure_ok.mp h4
      exact ⟨kept, fun h => by cases h⟩
    rw [if_neg href] at h4
    obtain ⟨m, _, hread, h5⟩ := bind_ok.mp h4
    obtain ⟨hm, rfl⟩ := deref_ok.mp hread
    by_cases hmroot : m.root = some p
    · rw [if_pos hmroot] at h5
      obtain ⟨rfl, rfl⟩ := pure_ok.mp h5
      exact ⟨kept, fun h => by cases h⟩
    rw [if_neg hmroot] at h5
    obtain ⟨_, w, hw, h6⟩ := bind_ok.mp h5
    obtain ⟨rfl, rfl⟩ := pure_ok.mp h6
    have leaf := leaf_of_goes hf kept hrb (goes (by omega))
    by_cases hp : p ∈ v.nc.pnodes
    · have hroot : ¬ root p := fun hroot => hmroot (kept.rooted hr p hp hroot m hm)
      obtain ⟨kept', goes'⟩ := sysioPGone_kept gone kept.forest hroot leaf hw
      exact ⟨kept.trans kept', fun _ => goes'⟩
    · exact absurd (sysioPGone_forest gone kept.forest leaf hw).1 hp

theorem sysioPPrune_removes (p : Pno) :
    Removes root (sysioPPrune e p) fun t => p ∉ t.nc.pnodes := by
  intro s k t run
  obtain ⟨depth, _, hread, h1⟩ := bind_ok.mp run
  obtain ⟨rfl, rfl⟩ := read_ok.mp hread
  exact pPrune_removes gone _ p s k t h1

/-- The run at a referenced node counts what stays of its children, and itself. -/
theorem sysioPPrune_held {p : Pno} {s t : Sys D} {k : ℕ} (hf : Forest root s.nc)
    (hr : Rooted root s) (href : (s.nc.pnode p).ref ≠ 0)
    (run : sysioPPrune e p s = .ok (k, t)) : ∃ fuel r count, s.nc.nextBase = fuel + 1 ∧
      s.nc.base (s.nc.pnode p).base = some r ∧ k = count + 1 ∧
      pruneChildren e (sysioPrune e fuel) (pPrune e fuel) (s.nc.pnode p).mount r.children s =
        .ok (count, t) := by
  obtain ⟨depth, _, hread, h1⟩ := bind_ok.mp run
  obtain ⟨rfl, rfl⟩ := read_ok.mp hread
  cases hd : s.nc.nextBase with
  | zero =>
    rw [hd] at h1
    exact (fault_ok.mp h1).elim
  | succ fuel =>
    rw [hd] at h1
    obtain ⟨n, _, hread, h2⟩ := bind_ok.mp h1
    obtain ⟨rfl, rfl⟩ := read_ok.mp hread
    obtain ⟨r, _, hread, h3⟩ := bind_ok.mp h2
    obtain ⟨hrb, rfl⟩ := deref_ok.mp hread
    obtain ⟨count, v, hv, h4⟩ := bind_ok.mp h3
    obtain ⟨kv, -⟩ := pruneChildren_removes gone (pPrune_removes gone fuel) fuel _ _ hv hf hr
    obtain ⟨n', _, hread, h5⟩ := bind_ok.mp h4
    obtain ⟨rfl, rfl⟩ := read_ok.mp hread
    have href' : (v.nc.pnode p).ref ≠ 0 := by
      rw [kv.pruned.pnode]
      exact href
    rw [if_pos href', if_pos href'] at h5
    by_cases hc : count ≠ 0
    · rw [if_pos hc] at h5
      obtain ⟨rfl, rfl⟩ := pure_ok.mp h5
      exact ⟨fuel, r, count, rfl, hrb, rfl, hv⟩
    · rw [if_neg hc] at h5
      obtain ⟨rfl, rfl⟩ := pure_ok.mp h5
      obtain rfl := not_not.mp hc
      exact ⟨fuel, r, 0, rfl, hrb, rfl, hv⟩

theorem sysioPPrune_prunes (p : Pno) : Moves (Prunes root) (sysioPPrune e p) :=
  fun s k t run hf hr => (sysioPPrune_removes gone p s k t run hf hr).1

/-- Holding the node while its subtree is pruned changes no count in the end. -/
theorem pReclaimNode_prunes (p : Pno) : Moves (Prunes root) (pReclaimNode e p) := by
  intro s next t run hf hr
  obtain ⟨n, _, hread, h1⟩ := bind_ok.mp run
  obtain ⟨rfl, rfl⟩ := read_ok.mp hread
  by_cases href : (s.nc.pnode p).ref ≠ 0
  · rw [if_pos href] at h1
    obtain ⟨-, rfl⟩ := read_ok.mp h1
    exact Kept.refl hf
  rw [if_neg href] at h1
  obtain ⟨_, v, hset, h2⟩ := bind_ok.mp h1
  obtain rfl := write_ok.mp hset
  obtain ⟨_, w, hw, h3⟩ := bind_ok.mp h2
  obtain ⟨_, _, hread, h4⟩ := bind_ok.mp h3
  obtain ⟨-, rfl⟩ := read_ok.mp hread
  obtain ⟨_, x, hx, h5⟩ := bind_ok.mp h4
  obtain ⟨_, _, hc, hx⟩ := bind_ok.mp hx
  obtain ⟨-, rfl⟩ := check_ok.mp hc
  obtain rfl := write_ok.mp hx
  have hzero : (s.nc.pnode p).ref = 0 := not_not.mp href
  generalize hheld : Function.update s.nc.pnode p
    { s.nc.pnode p with ref := (s.nc.pnode p).ref + 1 } = held at hw
  have hlinks : ∀ q, links (held q) = links (s.nc.pnode q) := by
    intro q
    rw [← hheld]
    by_cases hq : q = p
    · subst hq
      simp [links]
    · simp [hq]
  have shape : SameShape s.nc { s.nc with pnode := held } :=
    ⟨hlinks, fun _ => rfl, List.Perm.refl _, rfl, rfl, rfl, rfl, rfl⟩
  have rooted : Rooted root ({ s with nc := { s.nc with pnode := held } } : Sys D) := by
    intro q hq hroot m hm
    refine hr q hq hroot m ?_
    rw [← (links_eq (hlinks q)).2.2]
    exact hm
  have kept := sysioPPrune_prunes gone p _ _ _ hw (hf.sameShape shape) rooted
  -- the release gives back what the hold took
  have hback : Function.update w.nc.pnode p
      { w.nc.pnode p with ref := (w.nc.pnode p).ref - 1 } = s.nc.pnode := by
    rw [kept.pruned.pnode, ← hheld]
    simp only [Function.update_self, Function.update_idem, Nat.add_sub_cancel]
    exact Function.update_eq_self p s.nc.pnode
  rw [hback] at h5
  have shape' : SameShape w.nc { w.nc with pnode := s.nc.pnode } := by
    refine ⟨fun q => ?_, fun _ => rfl, List.Perm.refl _, rfl, rfl, rfl, rfl, rfl⟩
    rw [kept.pruned.pnode]
    exact (hlinks q).symm
  have kept' : Kept root s { w with nc := { w.nc with pnode := s.nc.pnode } } := by
    refine ⟨kept.forest.sameShape shape', ⟨rfl, kept.pruned.pnodes, fun q hq hn => ?_,
      kept.pruned.base, kept.pruned.nextPnode, kept.pruned.nextBase, kept.pruned.maxNames⟩,
      kept.mt, kept.ft, kept.aio, kept.umask⟩
    have hgone := kept.pruned.gone q hq hn
    by_cases hqp : q = p
    · subst hqp
      have hone : (held q).ref = (s.nc.pnode q).ref + 1 := by
        rw [← hheld, Function.update_self]
      have hnone : (held q).ref = 0 := hgone.1
      omega
    · have hsame : held q = s.nc.pnode q := by rw [← hheld, Function.update_of_ne hqp]
      have hgone : (held q).ref = 0 ∧ (held q).cover = none ∧ ¬ root q := hgone
      rw [hsame] at hgone
      exact hgone
  obtain ⟨n', _, hread, h6⟩ := bind_ok.mp h5
  obtain ⟨-, rfl⟩ := read_ok.mp hread
  by_cases href' : n'.ref ≠ 0
  · rw [if_pos href'] at h6
    obtain ⟨-, rfl⟩ := pure_ok.mp h6
    exact kept'
  rw [if_neg href'] at h6
  obtain ⟨_, y, hy, h7⟩ := bind_ok.mp h6
  obtain ⟨-, rfl⟩ := pure_ok.mp h7
  exact kept'.trans (sysioPPrune_prunes gone p _ _ _ hy kept'.forest (kept'.rooted hr))

theorem pReclaim_prunes : Moves (Prunes root) (pReclaim e) := by
  refine pReclaim_moves (pReclaimNode_prunes gone) fun s k => ?_
  intro hf _
  have shape : SameShape s.nc { s.nc with maxNames := s.nc.maxNames + k } :=
    ⟨fun _ => rfl, fun _ => rfl, List.Perm.refl _, rfl, rfl, rfl, rfl, rfl⟩
  exact ⟨hf.sameShape shape, ⟨rfl, List.Sublist.refl _, fun q hq hn => absurd hq hn,
    fun _ r' h => ⟨r', h, rfl, rfl, rfl⟩, rfl, rfl, Nat.le_add_right _ _⟩, rfl, rfl, rfl, rfl⟩

end Gone

end PruneForest
