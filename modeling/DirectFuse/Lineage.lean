import DirectFuse.WalkForest
import Mathlib.Logic.Relation

/-! The ways up: from a base node over its parents to the top, and from a path node over its
parents as far as the root of its mount. Inside one mount the two agree. -/
namespace Lineage

open SysioState PruneForest NameForest WalkForest

variable {D : Type}

/-- The base node `c` is in the directory `q`. -/
def ParentOf (nc : NameCache) (c q : PbId) : Prop := ∃ r, nc.base c = some r ∧ r.parent = some q

/-- The way up from `c` leads to `b`, which is another base node. -/
def StrictlyBelow (nc : NameCache) (c b : PbId) : Prop := Relation.TransGen (ParentOf nc) c b

def AtOrBelow (nc : NameCache) (c b : PbId) : Prop := Relation.ReflTransGen (ParentOf nc) c b

/-- One step up from a path node that is not the root of a mount. -/
def HangsOn (root : Pno → Prop) (node : Pno → Pnode) (p q : Pno) : Prop :=
  ¬ root p ∧ (node p).parent = q

def Hangs (root : Pno → Prop) (node : Pno → Pnode) (p q : Pno) : Prop :=
  Relation.ReflTransGen (HangsOn root node) p q

section Bases

variable {root : Pno → Prop} {nc nc' : NameCache}

theorem parentOf_lt (forest : Forest root nc) {c b : ℕ} (h : ParentOf nc c b) : b < c := by
  obtain ⟨r, hr, hp⟩ := h
  exact (forest.parent c r b hr hp).1

/-- A parent is older than what is in it. -/
theorem strictlyBelow_lt (forest : Forest root nc) {c b : ℕ} (h : StrictlyBelow nc c b) : b < c := by
  induction h with
  | single step => exact parentOf_lt forest step
  | tail _ step ih => exact Nat.lt_trans (parentOf_lt forest step) ih

theorem atOrBelow_le (forest : Forest root nc) {c b : ℕ} (h : AtOrBelow nc c b) : b ≤ c := by
  rcases Relation.reflTransGen_iff_eq_or_transGen.mp h with same | below
  · exact Nat.le_of_eq same
  · exact Nat.le_of_lt (strictlyBelow_lt forest below)

theorem not_atOrBelow_child (forest : Forest root nc) {c b : ℕ} (h : ParentOf nc c b) :
    ¬ AtOrBelow nc b c := by
  intro way
  have := atOrBelow_le forest way
  have := parentOf_lt forest h
  omega

/-- Two children of one directory are not below each other. -/
theorem not_atOrBelow_sibling (forest : Forest root nc) {c c' b : ℕ} (h : ParentOf nc c b)
    (h' : ParentOf nc c' b) (apart : c' ≠ c) : ¬ AtOrBelow nc c' c := by
  intro way
  rcases Relation.ReflTransGen.cases_head way with same | ⟨q, ⟨r, hr, hq⟩, rest⟩
  · exact apart same
  · obtain ⟨r', hr', hb⟩ := h'
    obtain rfl : r = r' := Option.some.inj (hr.symm.trans hr')
    obtain rfl : q = b := Option.some.inj (hq.symm.trans hb)
    exact not_atOrBelow_child forest h rest

/-- Pruning leaves the ways up of what it leaves. -/
theorem AtOrBelow.of_pruned (k : Pruned root nc nc') {c b : PbId} (h : AtOrBelow nc' c b) :
    AtOrBelow nc c b := by
  refine Relation.ReflTransGen.mono (r := ParentOf nc') (fun c q step => ?_) _ _ h
  obtain ⟨r', hr', hq⟩ := step
  obtain ⟨r, hr, -, -, parent⟩ := k.base c r' hr'
  exact ⟨r, hr, parent ▸ hq⟩

end Bases

section Nodes

variable {root : Pno → Prop} {nc : NameCache} {p q : Pno}

/-- The way up from a path node stays on live nodes of its mount. -/
theorem Hangs.live (forest : Forest root nc) (hp : p ∈ nc.pnodes) (h : Hangs root nc.pnode p q) :
    q ∈ nc.pnodes ∧ (nc.pnode q).mount = (nc.pnode p).mount ∧
      AtOrBelow nc (nc.pnode p).base (nc.pnode q).base := by
  induction h with
  | refl => exact ⟨hp, rfl, Relation.ReflTransGen.refl⟩
  | tail _ step ih =>
    obtain ⟨live, mount, way⟩ := ih
    obtain ⟨off, rfl⟩ := step
    obtain ⟨hpar, hmnt, r, hr, hb⟩ := forest.inside _ live off
    exact ⟨hpar, hmnt.trans mount, way.tail ⟨r, hr, hb⟩⟩

/-- Nothing but the node itself is below a leaf. -/
theorem Hangs.eq_of_leaf (forest : Forest root nc) (hp : p ∈ nc.pnodes)
    (leaf : ∀ c ∈ nc.pnodes, ¬ root c → (nc.pnode c).parent ≠ q) (h : Hangs root nc.pnode p q) :
    p = q := by
  rcases Relation.ReflTransGen.cases_tail h with same | ⟨c, way, off, parent⟩
  · exact same.symm
  · exact absurd parent (leaf c (Hangs.live forest hp way).1 off)

end Nodes

section Mounts

variable {s : Sys D} {p q : Pno}

/-- A mount has one root. -/
theorem root_one (sound : Sound s) (hp : isRoot s.mt p) (hq : isRoot s.mt q)
    (same : (s.nc.pnode p).mount = (s.nc.pnode q).mount) : p = q := by
  obtain ⟨m, hm⟩ := sound.mounted p (sound.live hp)
  have rootp := sound.rooted p (sound.live hp) hp m hm
  have rootq := sound.rooted q (sound.live hq) hq m (same ▸ hm)
  exact Option.some.inj (rootp.symm.trans rootq)

/-- Every path node hangs on the root of a mount. -/
theorem hangs_root (sound : Sound s) (hp : p ∈ s.nc.pnodes) :
    ∃ q, isRoot s.mt q ∧ Hangs (isRoot s.mt) s.nc.pnode p q := by
  generalize hb : (s.nc.pnode p).base = b
  induction b using Nat.strong_induction_on generalizing p with
  | _ b ih =>
    by_cases hroot : isRoot s.mt p
    · exact ⟨p, hroot, Relation.ReflTransGen.refl⟩
    · obtain ⟨live, -, r, hr, parent⟩ := sound.forest.inside p hp hroot
      have older := parentOf_lt sound.forest ⟨r, hr, parent⟩
      obtain ⟨q, hq, way⟩ := ih _ (hb ▸ older) live rfl
      exact ⟨q, hq, Relation.ReflTransGen.head ⟨hroot, rfl⟩ way⟩

/-- No other node of a mount lies as high as its root. -/
theorem root_lt (sound : Sound s) (hp : p ∈ s.nc.pnodes) (off : ¬ isRoot s.mt p)
    (hq : isRoot s.mt q) (same : (s.nc.pnode p).mount = (s.nc.pnode q).mount) :
    ((s.nc.pnode q).base : ℕ) < (s.nc.pnode p).base := by
  obtain ⟨live, mount, r, hr, parent⟩ := sound.forest.inside p hp off
  obtain ⟨top, htop, way⟩ := hangs_root sound live
  obtain ⟨-, mount', below⟩ := way.live sound.forest live
  obtain rfl := root_one sound htop hq (mount'.trans (mount.trans same))
  exact Nat.lt_of_le_of_lt (atOrBelow_le sound.forest below)
    (parentOf_lt sound.forest ⟨r, hr, parent⟩)

/-- A base node has one alias in a mount. -/
theorem alias_one (sound : Sound s) (hp : p ∈ s.nc.pnodes) (hq : q ∈ s.nc.pnodes)
    (base : (s.nc.pnode p).base = (s.nc.pnode q).base)
    (mount : (s.nc.pnode p).mount = (s.nc.pnode q).mount) : p = q := by
  generalize hb : (s.nc.pnode p).base = b
  induction b using Nat.strong_induction_on generalizing p q with
  | _ b ih =>
    by_cases rootp : isRoot s.mt p
    · by_cases rootq : isRoot s.mt q
      · exact root_one sound rootp rootq mount
      · exact absurd (root_lt sound hq rootq rootp mount.symm) (base ▸ Nat.lt_irrefl _)
    by_cases rootq : isRoot s.mt q
    · exact absurd (root_lt sound hp rootp rootq mount) (base ▸ Nat.lt_irrefl _)
    · -- the parents are aliases of one base node too
      obtain ⟨livep, mountp, rp, hrp, parentp⟩ := sound.forest.inside p hp rootp
      obtain ⟨liveq, mountq, rq, hrq, parentq⟩ := sound.forest.inside q hq rootq
      rw [base] at hrp
      obtain rfl : rp = rq := Option.some.inj (hrp.symm.trans hrq)
      have above := Option.some.inj (parentp.symm.trans parentq)
      have older := parentOf_lt sound.forest ⟨rp, base ▸ hrp, parentp⟩
      have parents := ih _ (hb ▸ older) livep liveq above (mountp.trans (mount.trans mountq.symm)) rfl
      exact sound.forest.oneAlias p hp q hq base parents mount

/-- Inside a mount the way up of the base nodes is one of path nodes. -/
theorem hangs_of_below (sound : Sound s) (hp : p ∈ s.nc.pnodes) (hq : q ∈ s.nc.pnodes)
    (mount : (s.nc.pnode p).mount = (s.nc.pnode q).mount)
    (below : AtOrBelow s.nc (s.nc.pnode p).base (s.nc.pnode q).base) :
    Hangs (isRoot s.mt) s.nc.pnode p q := by
  generalize hb : (s.nc.pnode p).base = b
  induction b using Nat.strong_induction_on generalizing p with
  | _ b ih =>
    rcases Relation.ReflTransGen.cases_head below with same | ⟨c, ⟨r, hr, hc⟩, rest⟩
    · obtain rfl := alias_one sound hp hq same mount
      exact Relation.ReflTransGen.refl
    have older := parentOf_lt sound.forest ⟨r, hr, hc⟩
    have lower := atOrBelow_le sound.forest rest
    by_cases root : isRoot s.mt p
    · -- the root would lie below another node of its mount
      have high : ((s.nc.pnode p).base : ℕ) ≤ (s.nc.pnode q).base := by
        by_cases rootq : isRoot s.mt q
        · rw [root_one sound root rootq mount]
        · exact Nat.le_of_lt (root_lt sound hq rootq root mount.symm)
      exact absurd (Nat.lt_of_le_of_lt lower older) (Nat.not_lt.mpr high)
    · obtain ⟨live, mount', r', hr', parent⟩ := sound.forest.inside p hp root
      obtain rfl : r = r' := Option.some.inj (hr.symm.trans hr')
      obtain rfl := Option.some.inj (hc.symm.trans parent)
      have way := ih _ (hb ▸ older) live (mount'.trans mount) rest rfl
      exact Relation.ReflTransGen.head ⟨root, rfl⟩ way

end Mounts

end Lineage
