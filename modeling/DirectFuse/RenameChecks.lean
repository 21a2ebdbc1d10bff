import DirectFuse.SoundRuns
import DirectFuse.InodeRefs
import DirectFuse.DeviceIdentity
import DirectFuse.PruneRegion

/-! What `rename` tests before it asks the driver, and what a rename that fails has changed. The
tests come in a fixed order: mount points, file systems, the way from the new name up to the root,
the two inodes. Only then the target is pruned, which may give up idle names below it. -/
namespace RenameChecks

open ExecLogic SysioState SysioInode SysioNamei SysioMount SysioInterface SysioSystem
open FuseDriver FuseSystem CoreMoves Tally InodeRefs PathRefs WalkRules
open NameForest PruneForest PruneRegion WalkForest SoundRuns Lineage
open CallMoves (parentIno_moves)

variable {D : Type}

section Refunds

variable {e : Env D} {s t u : Sys D}

/-- There are base nodes at the addresses given out only. -/
def Bounded (s : Sys D) : Prop := ∀ b : ℕ, s.nc.nextBase ≤ b → s.nc.base b = none

/-- Base nodes may have gone, and each has given back its reference. The rest of the bindings is as
it was, and so are the zombies, of which one that has lost its last reference is gone. -/
structure Refunded (s t : Sys D) : Prop where
  bounded : Bounded t
  bindings : ∀ b r', t.nc.base b = some r' → ∃ r, s.nc.base b = some r ∧ r'.ino = r.ino
  zombies : ∀ i r', t.ic.inode i = some r' → ∃ r, s.ic.inode i = some r ∧ r'.zombie = r.zombie
  inodes : ∀ i r, s.ic.inode i = some r → t.ic.inode i = none → r.zombie = true
  counts : ∀ i, refOf t i + baseHolders s i = refOf s i + baseHolders t i

theorem Refunded.refl (bounded : Bounded s) : Refunded s s where
  bounded := bounded
  bindings _ r' h := ⟨r', h, rfl⟩
  zombies _ r' h := ⟨r', h, rfl⟩
  inodes _ r here gone := by
    rw [here] at gone
    cases gone
  counts _ := rfl

theorem Refunded.trans (h : Refunded s t) (k : Refunded t u) : Refunded s u where
  bounded := k.bounded
  bindings b r'' hb := by
    obtain ⟨r', hr', hino'⟩ := k.bindings b r'' hb
    obtain ⟨r, hr, hino⟩ := h.bindings b r' hr'
    exact ⟨r, hr, hino'.trans hino⟩
  zombies i r'' hi := by
    obtain ⟨r', hr', hz'⟩ := k.zombies i r'' hi
    obtain ⟨r, hr, hz⟩ := h.zombies i r' hr'
    exact ⟨r, hr, hz'.trans hz⟩
  inodes i r hr gone := by
    cases mid : t.ic.inode i with
    | none => exact h.inodes i r hr mid
    | some r' =>
      obtain ⟨r₀, hr₀, hz⟩ := h.zombies i r' mid
      obtain rfl : r = r₀ := Option.some.inj (hr.symm.trans hr₀)
      exact hz.symm.trans (k.inodes i r' mid gone)
  counts i := by
    have := h.counts i
    have := k.counts i
    omega

def Refunds (s t : Sys D) : Prop := Bounded s → Refunded s t

instance : IsPreorder (Sys D) Refunds where
  refl _ bounded := Refunded.refl bounded
  trans _ _ _ h k bounded := (h bounded).trans (k (h bounded).bounded)

/-- A change that leaves the inodes and what the base nodes stand for. -/
theorem refunds_of_same (inode : t.ic.inode = s.ic.inode) (nextBase : t.nc.nextBase = s.nc.nextBase)
    (base : ∀ b, (t.nc.base b).map PnodeBase.ino = (s.nc.base b).map PnodeBase.ino) :
    Refunds s t := by
  intro bounded
  constructor
  case bounded =>
    intro b hb
    have same := base b
    rw [bounded b (nextBase ▸ hb)] at same
    exact Option.map_eq_none_iff.mp same
  case bindings =>
    intro b r' hr'
    have same := base b
    rw [hr'] at same
    obtain ⟨r, hr, hino⟩ := Option.map_eq_some_iff.mp same.symm
    exact ⟨r, hr, hino.symm⟩
  case zombies =>
    intro i r' hr'
    rw [inode] at hr'
    exact ⟨r', hr', rfl⟩
  case inodes =>
    intro i r hr gone
    rw [inode, hr] at gone
    cases gone
  case counts =>
    intro i
    have holders : baseHolders t i = baseHolders s i := by
      unfold baseHolders
      rw [nextBase]
      apply tally_congr
      intro b _
      have same := base b
      cases ht : t.nc.base b <;> cases hs : s.nc.base b <;> simp_all [weight_some]
    unfold refOf
    rw [inode, holders]

theorem modBase_refunds (b : PbId) {f : PnodeBase → PnodeBase} (hf : ∀ r, (f r).ino = r.ino) :
    Moves Refunds (modBase b f : Sysio D Unit) := by
  intro s u t run
  obtain ⟨r, hr, rfl⟩ := modBase_ok run
  refine refunds_of_same rfl rfl fun c => ?_
  by_cases hc : c = b
  · subst hc
    change (Function.update s.nc.base c (some (f r)) c).map _ = _
    rw [Function.update_self, hr]
    exact congrArg some (hf r)
  · change (Function.update s.nc.base b (some (f r)) c).map _ = _
    rw [Function.update_of_ne hc]

/-- A base node without an inode may go. -/
theorem refunds_drop {b : PbId} (unbound : ∀ r, s.nc.base b = some r → r.ino = none) :
    Refunds s { s with nc.base := Function.update s.nc.base b none } := by
  intro bounded
  constructor
  case bounded =>
    intro c hc
    change Function.update s.nc.base b none c = none
    by_cases hcb : c = b
    · rw [hcb, Function.update_self]
    · rw [Function.update_of_ne hcb]
      exact bounded c hc
  case bindings =>
    intro c r' hr'
    change Function.update s.nc.base b none c = some r' at hr'
    by_cases hcb : c = b
    · rw [hcb, Function.update_self] at hr'
      cases hr'
    · rw [Function.update_of_ne hcb] at hr'
      exact ⟨r', hr', rfl⟩
  case zombies => exact fun i r' hr' => ⟨r', hr', rfl⟩
  case inodes =>
    intro i r hr gone
    cases hr.symm.trans gone
  case counts =>
    intro i
    have holders : tally s.nc.nextBase (Function.update s.nc.base b none) (fun r => r.ino == some i) =
        tally s.nc.nextBase s.nc.base fun r => r.ino == some i := by
      apply tally_congr
      intro c _
      by_cases hcb : c = b
      · rw [hcb, Function.update_self]
        cases hb : s.nc.base b with
        | none => rfl
        | some r => simp [weight_some, unbound r hb]
      · rw [Function.update_of_ne hcb]
    change refOf s i + _ = refOf s i + _
    unfold baseHolders
    rw [holders]

theorem pbDestroy_refunds (b : PbId) : Moves Refunds (pbDestroy b : Sysio D Unit) := by
  intro s u t run bounded
  simp only [pbDestroy, baseAt, assert, bind_ok, check_ok, write_ok, deref_ok] at run
  obtain ⟨_, _, ⟨-, rfl⟩, _, _, rfl, r, _, ⟨hr, rfl⟩, _, _, ⟨-, rfl⟩, _, _, ⟨-, rfl⟩, _, _,
    ⟨hino, rfl⟩, _, v, hv, _, w, hw, rfl⟩ := run
  have unnamed : v.nc.base = s.nc.base ∧ v.nc.nextBase = s.nc.nextBase ∧ v.ic = s.ic := by
    rcases when_ok.mp hv with ⟨-, hv⟩ | ⟨-, rfl⟩
    · obtain rfl := write_ok.mp hv
      exact ⟨rfl, rfl, rfl⟩
    · exact ⟨rfl, rfl, rfl⟩
  obtain ⟨base, nextBase, ic⟩ := unnamed
  have first : Refunded s v := refunds_of_same (by rw [ic]) nextBase (by rw [base]; exact fun _ => rfl)
    bounded
  have second : Refunded v w := ifSome_moves (fun q _ => modBase_refunds q (by intros; rfl)) _ _ _ hw
    first.bounded
  have gone : Refunded w { w with nc.base := Function.update w.nc.base b none } := by
    refine refunds_drop (fun r' hr' => ?_) second.bounded
    obtain ⟨r₀, hr₀, hsame⟩ := second.bindings b r' hr'
    rw [base] at hr₀
    obtain rfl : r = r₀ := Option.some.inj (hr.symm.trans hr₀)
    exact hsame.trans (Option.isNone_iff_eq_none.mp hino)
  exact (first.trans second).trans gone

theorem pbDestroy_none {b : PbId} {x : Unit} (run : (pbDestroy b : Sysio D Unit) s = .ok (x, t)) :
    t.nc.base b = none := by
  simp only [pbDestroy, bind_ok, write_ok] at run
  obtain ⟨_, _, -, _, _, -, _, _, -, _, _, -, _, _, -, _, _, -, _, _, -, _, w, -, rfl⟩ := run
  exact Function.update_self ..

/-- A release takes one reference and makes no zombie. -/
theorem iRele_counts (gone : ∀ i, Moves DriverOnly (e.ops.gone i)) {i : InoId} {x : Unit}
    (run : iRele e i s = .ok (x, t)) : t.nc = s.nc ∧ (∀ j, refOf t j = refOf s j - one (some i) j) ∧
      (∀ j r', t.ic.inode j = some r' → ∃ r, s.ic.inode j = some r ∧ r'.zombie = r.zombie) ∧
      ∀ j r, s.ic.inode j = some r → t.ic.inode j = none → r.zombie = true := by
  obtain ⟨r, hr, href, nc, -, -, inode⟩ := iRele_ok gone run
  refine ⟨nc, fun j => ?_, fun j r' hr' => ?_, fun j r' hr' none => ?_⟩
  · rw [refOf_update inode]
    by_cases hj : j = i
    · subst hj
      rw [if_pos rfl, refOf, hr]
      by_cases last : r.ref = 1 ∧ r.zombie = true
      · rw [if_pos last]
        simp [one, last.1]
      · rw [if_neg last]
        simp [one]
        omega
    · rw [if_neg hj]
      simp [one, Ne.symm hj]
  · rw [inode] at hr'
    by_cases hj : j = i
    · subst hj
      rw [Function.update_self] at hr'
      by_cases last : r.ref = 1 ∧ r.zombie = true
      · rw [if_pos last] at hr'
        cases hr'
      · rw [if_neg last] at hr'
        obtain rfl := Option.some.inj hr'
        exact ⟨r, hr, rfl⟩
    · rw [Function.update_of_ne hj] at hr'
      exact ⟨r', hr', rfl⟩
  · rw [inode] at none
    by_cases hj : j = i
    · subst hj
      obtain rfl : r = r' := Option.some.inj (hr.symm.trans hr')
      rw [Function.update_self] at none
      by_cases last : r.ref = 1 ∧ r.zombie = true
      · exact last.2
      · rw [if_neg last] at none
        cases none
    · rw [Function.update_of_ne hj, hr'] at none
      cases none

/-- The number of names an inode has, when one of them is taken away. -/
theorem baseHolders_unbind (bounded : Bounded s) {b : PbId} {r : PnodeBase}
    (hr : s.nc.base b = some r) {base : PbId → Option PnodeBase}
    (hbase : base = Function.update s.nc.base b (some { r with ino := none })) (j : InoId) :
    (tally s.nc.nextBase base fun r => r.ino == some j : ℤ) = baseHolders s j - one r.ino j := by
  have inside : b < s.nc.nextBase := by
    by_contra outside
    rw [bounded b (not_lt.mp outside)] at hr
    cases hr
  have moved := tally_update inside s.nc.base (some { r with ino := none }) fun r => r.ino == some j
  rw [hr, weight_some, weight_some] at moved
  rw [hbase]
  unfold baseHolders one
  by_cases hj : r.ino = some j
  · rw [if_pos hj]
    simp only [hj, beq_self_eq_true, if_true] at moved
    simp at moved
    omega
  · rw [if_neg hj]
    simp [hj] at moved
    omega

variable (gone : ∀ i, Moves DriverOnly (e.ops.gone i))

include gone

/-- The base node gives its reference back before it goes. -/
theorem sysioPbGone_refunds (b : PbId) : Moves Refunds (sysioPbGone e b) := by
  intro s x t run bounded
  obtain ⟨r, _, hread, h1⟩ := bind_ok.mp run
  obtain ⟨hr, rfl⟩ := deref_ok.mp hread
  obtain ⟨_, u, hu, h2⟩ := bind_ok.mp h1
  obtain ⟨_, v, hv, h3⟩ := bind_ok.mp h2
  have released : u.nc = s.nc ∧ (∀ j, refOf u j = refOf s j - one r.ino j) ∧
      (∀ j r', u.ic.inode j = some r' → ∃ r, s.ic.inode j = some r ∧ r'.zombie = r.zombie) ∧
      ∀ j r, s.ic.inode j = some r → u.ic.inode j = none → r.zombie = true := by
    cases hino : r.ino with
    | none =>
      rw [hino] at hu
      obtain ⟨-, rfl⟩ := pure_ok.mp hu
      exact ⟨rfl, fun j => by simp [one], fun j r' hr' => ⟨r', hr', rfl⟩,
        fun j r' hr' gone => by cases hr'.symm.trans gone⟩
    | some i =>
      rw [hino] at hu
      exact iRele_counts gone hu
  obtain ⟨nc, counts, zombies, inodes⟩ := released
  obtain ⟨ru, hru, rfl⟩ := modBase_ok hv
  rw [nc] at hru
  obtain rfl : r = ru := Option.some.inj (hr.symm.trans hru)
  have unbound : Bounded
      { u with nc.base := Function.update u.nc.base b (some { r with ino := none }) } := by
    intro c hc
    change u.nc.nextBase ≤ c at hc
    change Function.update u.nc.base b _ c = none
    rw [nc] at hc ⊢
    by_cases hcb : c = b
    · rw [hcb] at hc
      rw [bounded b hc] at hr
      cases hr
    · rw [Function.update_of_ne hcb]
      exact bounded c hc
  have rest := pbDestroy_refunds b _ _ _ h3 unbound
  constructor
  case bounded => exact rest.bounded
  case bindings =>
    intro c r' hr'
    obtain ⟨rv, hrv, hino⟩ := rest.bindings c r' hr'
    have other : c ≠ b := by
      intro same
      rw [same, pbDestroy_none h3] at hr'
      cases hr'
    change Function.update u.nc.base b _ c = some rv at hrv
    rw [Function.update_of_ne other, nc] at hrv
    exact ⟨rv, hrv, hino⟩
  case zombies =>
    intro i r' hr'
    obtain ⟨ru, hru, hz⟩ := rest.zombies i r' hr'
    obtain ⟨rs, hrs, hz'⟩ := zombies i ru hru
    exact ⟨rs, hrs, hz.trans hz'⟩
  case inodes =>
    intro i rs hrs gone
    cases mid : u.ic.inode i with
    | none => exact inodes i rs hrs mid
    | some ru =>
      obtain ⟨r₀, hr₀, hz⟩ := zombies i ru mid
      obtain rfl : rs = r₀ := Option.some.inj (hrs.symm.trans hr₀)
      exact hz.symm.trans (rest.inodes i ru mid gone)
  case counts =>
    intro j
    have unbound : Function.update u.nc.base b (some { r with ino := none }) =
        Function.update s.nc.base b (some { r with ino := none }) := by rw [nc]
    have names := baseHolders_unbind bounded hr unbound j
    have balance := rest.counts j
    change refOf t j + (tally u.nc.nextBase (Function.update u.nc.base b
      (some { r with ino := none })) fun r => r.ino == some j : ℕ) = refOf u j + _ at balance
    rw [nc] at names balance
    have := counts j
    omega

/-- The alias goes off the lists, and its base node may go with it. -/
theorem sysioPGone_refunds (p : Pno) : Moves Refunds (sysioPGone e p) := by
  have lists : ∀ {f : Sys D → NameCache}, (∀ s, (f s).base = s.nc.base ∧
      (f s).nextBase = s.nc.nextBase) →
      Moves Refunds (Exec.write fun s => { s with nc := f s } : Sysio D Unit) := by
    intro f hf
    refine moves_write fun s => refunds_of_same rfl (hf s).2 fun b => ?_
    exact congrArg _ (congrFun (hf s).1 b)
  refine moves_bind (pnodeAt_moves p) fun n => moves_bind (assert_moves _) fun _ =>
    moves_bind (assert_moves _) fun _ => moves_bind (moves_check _ _) fun _ =>
    moves_bind (lists fun s => ⟨rfl, rfl⟩) fun _ => moves_bind ?_ fun _ =>
    moves_bind (baseAt_moves _) fun r =>
    moves_bind (moves_when fun _ => sysioPbGone_refunds gone _) fun _ => lists fun s => ⟨rfl, rfl⟩
  exact modBase_refunds _ fun _ => rfl

theorem sysioPPrune_refunds (p : Pno) : Moves Refunds (sysioPPrune e p) :=
  sysioPPrune_moves (sysioPbGone_refunds gone) (sysioPGone_refunds gone) p

end Refunds

section Ancestors

variable {root : Pno → Prop} {s : Sys D}

/-- The test of the way up finds the target where it is, and it ends: a parent is older. -/
theorem hasAncestor_run (forest : Forest root s.nc) (target : PbId) (fuel b : ℕ) {r : PnodeBase}
    (hr : s.nc.base b = some r) (enough : b < fuel) :
    ∃ found, hasAncestor target fuel b s = .ok (found, s) ∧
      (found = true ↔ Relation.ReflTransGen (ParentOf s.nc) b target) := by
  induction fuel generalizing b r with
  | zero => omega
  | succ fuel ih =>
    unfold hasAncestor
    by_cases here : b = target
    · rw [if_pos here]
      refine ⟨true, rfl, fun _ => ?_, fun _ => rfl⟩
      rw [here]
    · have read : (baseAt b : Sysio D PnodeBase) s = .ok (r, s) := deref_ok.mpr ⟨hr, rfl⟩
      rw [if_neg here, bind_run read]
      -- the way up goes on with the parent, if there is one
      have up : Relation.ReflTransGen (ParentOf s.nc) b target ↔
          ∃ q, r.parent = some q ∧ Relation.ReflTransGen (ParentOf s.nc) q target := by
        constructor
        · intro way
          rcases Relation.ReflTransGen.cases_head way with same | ⟨q, ⟨r', hr', hq⟩, rest⟩
          · exact absurd same here
          · obtain rfl : r = r' := Option.some.inj (hr.symm.trans hr')
            exact ⟨q, hq, rest⟩
        · rintro ⟨q, hq, rest⟩
          exact Relation.ReflTransGen.head ⟨r, hr, hq⟩ rest
      cases hp : r.parent with
      | none =>
        refine ⟨false, rfl, fun h => (by cases h), fun way => ?_⟩
        obtain ⟨q, hq, -⟩ := up.mp way
        rw [hp] at hq
        cases hq
      | some q =>
        obtain ⟨older, rq, hrq⟩ := forest.parent b r q hr hp
        obtain ⟨found, run, right⟩ := ih q hrq (by omega)
        refine ⟨found, run, right.trans ⟨fun rest => up.mpr ⟨q, hp, rest⟩, fun way => ?_⟩⟩
        obtain ⟨q', hq', rest⟩ := up.mp way
        obtain rfl : q = q' := Option.some.inj (hp.symm.trans hq')
        exact rest

end Ancestors

section Tests

variable {e : Env D} {s t : Sys D} {old new : Pno}

def MountPoint (s : Sys D) (p : Pno) : Prop :=
  ∃ m, s.mt.mount (s.nc.pnode p).mount = some m ∧ m.root = some p

/-- A name that may not move, or that nothing may move onto. -/
def Pinned (s : Sys D) (old new : Pno) : Prop :=
  MountPoint s old ∨ (s.nc.pnode old).cover ≠ none ∨ MountPoint s new

def fsOf (s : Sys D) (p : Pno) : Option FsId := (s.mt.mount (s.nc.pnode p).mount).map Mount.fs

def boundTo (s : Sys D) (p : Pno) : Option InoId := (s.nc.base (s.nc.pnode p).base).bind PnodeBase.ino

/-- The two names are on the tree. -/
structure Onboard (s : Sys D) (old new : Pno) : Prop where
  sound : Sound s
  old : old ∈ s.nc.pnodes
  new : new ∈ s.nc.pnodes

theorem mountAt_run {p : Pno} {m : Mount} (hm : s.mt.mount (s.nc.pnode p).mount = some m) :
    (mountAt (s.nc.pnode p).mount : Sysio D Mount) s = .ok (m, s) := deref_ok.mpr ⟨hm, rfl⟩

theorem mountPoint_iff {p : Pno} {m : Mount} (hm : s.mt.mount (s.nc.pnode p).mount = some m) :
    MountPoint s p ↔ m.root = some p := by
  constructor
  · rintro ⟨m', hm', root⟩
    obtain rfl : m = m' := Option.some.inj (hm.symm.trans hm')
    exact root
  · exact fun root => ⟨m, hm, root⟩

/-- Mount points are refused first. -/
theorem renameNodes_busy (on : Onboard s old new) (pinned : Pinned s old new) :
    renameNodes e old new s = .ok (-EBUSY, s) := by
  obtain ⟨mo, hmo⟩ := on.sound.mounted old on.old
  obtain ⟨mn, hmn⟩ := on.sound.mounted new on.new
  have test : mo.root = some old ∨ (s.nc.pnode old).cover.isSome = true ∨ mn.root = some new := by
    rcases pinned with root | covered | root
    · exact Or.inl ((mountPoint_iff hmo).mp root)
    · exact Or.inr (Or.inl (Option.isSome_iff_ne_none.mpr covered))
    · exact Or.inr (Or.inr ((mountPoint_iff hmn).mp root))
  unfold renameNodes
  have head := fun p => (rfl : (pnodeAt p : Sysio D Pnode) s = .ok (s.nc.pnode p, s))
  rw [bind_run (head old), bind_run (head new), bind_run (mountAt_run hmo), bind_run (mountAt_run hmn),
    if_pos test]
  rfl

/-- The end of `rename`, behind the tests of the places: the inodes, the target, the driver. -/
def renameTarget (e : Env D) (old new : Pno) (oldBase newBase : PbId) : Sysio D ℤ := do
  let io ← inoOf old
  let inn ← inoOf new
  if io = inn then
    return 0
  let err ← renameReplaces io inn
  if err ≠ 0 then
    return err
  let left ← sysioPPrune e new
  if left ≠ 1 then
    return -EBUSY
  let d ← parentIno old
  let err ← e.ops.rename d old new
  if err ≠ 0 then
    return err
  ifSome (← inoOf new) (iGone e)
  let io ← inoOf old
  modBase newBase fun r => { r with ino := io }
  modBase oldBase fun r => { r with ino := none }
  return 0

/-- What follows the test for mount points. -/
theorem renameNodes_free (on : Onboard s old new) (free : ¬ Pinned s old new) :
    ∃ mo mn, s.mt.mount (s.nc.pnode old).mount = some mo ∧
      s.mt.mount (s.nc.pnode new).mount = some mn ∧
      renameNodes e old new s = (if mo.fs ≠ mn.fs then pure (-EXDEV) else do
        let depth ← Exec.read fun s : Sys D => s.nc.nextBase
        if ← hasAncestor (s.nc.pnode old).base depth (s.nc.pnode new).base then
          return -EINVAL
        renameTarget e old new (s.nc.pnode old).base (s.nc.pnode new).base) s := by
  obtain ⟨mo, hmo⟩ := on.sound.mounted old on.old
  obtain ⟨mn, hmn⟩ := on.sound.mounted new on.new
  have test : ¬ (mo.root = some old ∨ (s.nc.pnode old).cover.isSome = true ∨ mn.root = some new) := by
    rintro (root | covered | root)
    · exact free (Or.inl ((mountPoint_iff hmo).mpr root))
    · exact free (Or.inr (Or.inl (Option.isSome_iff_ne_none.mp covered)))
    · exact free (Or.inr (Or.inr ((mountPoint_iff hmn).mpr root)))
  refine ⟨mo, mn, hmo, hmn, ?_⟩
  unfold renameNodes
  have head := fun p => (rfl : (pnodeAt p : Sysio D Pnode) s = .ok (s.nc.pnode p, s))
  rw [bind_run (head old), bind_run (head new), bind_run (mountAt_run hmo), bind_run (mountAt_run hmn),
    if_neg test]
  rfl

theorem renameNodes_xdev (on : Onboard s old new) (free : ¬ Pinned s old new)
    (other : fsOf s old ≠ fsOf s new) : renameNodes e old new s = .ok (-EXDEV, s) := by
  obtain ⟨mo, mn, hmo, hmn, run⟩ := @renameNodes_free D e s old new on free
  have test : mo.fs ≠ mn.fs := by
    intro same
    unfold fsOf at other
    rw [hmo, hmn] at other
    exact other (congrArg some same)
  rw [run, if_pos test]
  rfl

/-- The way up from the new name is searched for the old one, the new name itself included. -/
theorem renameNodes_way (on : Onboard s old new) (free : ¬ Pinned s old new)
    (same : fsOf s old = fsOf s new) : ∃ found : Bool,
      (found = true ↔ Relation.ReflTransGen (ParentOf s.nc) (s.nc.pnode new).base
        (s.nc.pnode old).base) ∧
      renameNodes e old new s = (if found then pure (-EINVAL) else
        renameTarget e old new (s.nc.pnode old).base (s.nc.pnode new).base) s := by
  obtain ⟨mo, mn, hmo, hmn, run⟩ := @renameNodes_free D e s old new on free
  have test : ¬ mo.fs ≠ mn.fs := by
    unfold fsOf at same
    rw [hmo, hmn] at same
    exact not_not.mpr (Option.some.inj same)
  obtain ⟨rn, hrn⟩ := on.sound.forest.based new on.new
  have depth : (Exec.read fun s => s.nc.nextBase : Sysio D ℕ) s = .ok (s.nc.nextBase, s) := rfl
  obtain ⟨found, way, right⟩ := hasAncestor_run on.sound.forest (s.nc.pnode old).base s.nc.nextBase
    (s.nc.pnode new).base hrn (on.sound.forest.lt_nextBase hrn)
  refine ⟨found, right, ?_⟩
  rw [run, if_neg test, bind_run depth, bind_run way]

theorem renameNodes_inside (on : Onboard s old new) (free : ¬ Pinned s old new)
    (same : fsOf s old = fsOf s new)
    (below : StrictlyBelow s.nc (s.nc.pnode new).base (s.nc.pnode old).base) :
    renameNodes e old new s = .ok (-EINVAL, s) := by
  obtain ⟨found, right, run⟩ := @renameNodes_way D e s old new on free same
  rw [run, right.mpr below.to_reflTransGen, if_pos rfl]
  rfl

theorem inoOf_run {p : Pno} (on : Sound s) (hp : p ∈ s.nc.pnodes) :
    (inoOf p : Sysio D (Option InoId)) s = .ok (boundTo s p, s) := by
  obtain ⟨r, hr⟩ := on.forest.based p hp
  have node : (pnodeAt p : Sysio D Pnode) s = .ok (s.nc.pnode p, s) := rfl
  have base : (baseAt (s.nc.pnode p).base : Sysio D PnodeBase) s = .ok (r, s) := deref_ok.mpr ⟨hr, rfl⟩
  have bound : boundTo s p = r.ino := by
    unfold boundTo
    rw [hr]
    rfl
  unfold inoOf
  rw [bind_run node, bind_run base, bound]
  rfl

/-- Two names of one inode, neither of them on the way up from the new one. -/
theorem renameNodes_same (on : Onboard s old new) (free : ¬ Pinned s old new)
    (same : fsOf s old = fsOf s new) (apart : (s.nc.pnode new).base ≠ (s.nc.pnode old).base)
    (aside : ¬ StrictlyBelow s.nc (s.nc.pnode new).base (s.nc.pnode old).base)
    (one : boundTo s old = boundTo s new) : renameNodes e old new s = .ok (0, s) := by
  obtain ⟨found, right, run⟩ := @renameNodes_way D e s old new on free same
  have absent : found = false := by
    apply Bool.eq_false_of_not_eq_true
    intro h
    rcases Relation.reflTransGen_iff_eq_or_transGen.mp (right.mp h) with here | below
    · exact apart here.symm
    · exact aside below
  rw [run, absent, if_neg Bool.false_ne_true]
  unfold renameTarget
  rw [bind_run (inoOf_run on.sound on.old), bind_run (inoOf_run on.sound on.new), if_pos one]
  rfl

/-- The tests in front of the pruning have all been passed. -/
structure Passed (s : Sys D) (old new : Pno) : Prop where
  free : ¬ Pinned s old new
  same : fsOf s old = fsOf s new
  outside : ¬ AtOrBelow s.nc (s.nc.pnode new).base (s.nc.pnode old).base
  apart : boundTo s old ≠ boundTo s new

/-- A base node strictly below `p` that no path node in use stands for. -/
def IdleBelow (s : Sys D) (p : Pno) (b : PbId) : Prop :=
  StrictlyBelow s.nc b (s.nc.pnode p).base ∧
    ∀ q ∈ s.nc.pnodes, (s.nc.pnode q).base = b →
      (s.nc.pnode q).ref = 0 ∧ (s.nc.pnode q).cover = none ∧ ¬ isRoot s.mt q

/-- What a rename that fails has changed: the pruning of the target may have given idle names up. -/
structure Spent (s : Sys D) (old new : Pno) (t : Sys D) : Prop where
  refunds : Refunds s t
  idle : ∀ b, s.nc.base b ≠ none → t.nc.base b = none → Passed s old new ∧ IdleBelow s new b

theorem Spent.refl (s : Sys D) : Spent s old new s :=
  ⟨Std.Refl.refl s, fun _ here gone => absurd gone here⟩

variable (gone : ∀ i, Moves DriverOnly (e.ops.gone i))
  (refuses : ∀ i p q s err t, e.ops.rename i p q s = .ok (err, t) → err ≠ 0 → t = s)

include gone refuses

/-- A rename that fails has at most pruned the target. -/
theorem renameTarget_failed (on : Onboard s old new) (held : (s.nc.pnode new).ref ≠ 0)
    (free : ¬ Pinned s old new) (same : fsOf s old = fsOf s new)
    (outside : ¬ AtOrBelow s.nc (s.nc.pnode new).base (s.nc.pnode old).base) {ob nb : PbId} {err : ℤ}
    (failed : err ≠ 0) (run : renameTarget e old new ob nb s = .ok (err, t)) :
    Spent s old new t := by
  unfold renameTarget at run
  rw [bind_run (inoOf_run on.sound on.old), bind_run (inoOf_run on.sound on.new)] at run
  by_cases one : boundTo s old = boundTo s new
  · rw [if_pos one] at run
    obtain ⟨-, rfl⟩ := pure_ok.mp run
    exact Spent.refl s
  rw [if_neg one] at run
  obtain ⟨chk, u, hchk, h3⟩ := bind_ok.mp run
  have quiet : s = u := by
    cases hnew : boundTo s new with
    | none =>
      rw [hnew] at hchk
      exact (pure_ok.mp hchk).2
    | some j =>
      rw [hnew] at hchk
      exact (moves_bind (R := Eq) (nonNull_moves _) fun i => moves_bind (inodeAt_moves i) fun _ =>
        moves_bind (inodeAt_moves j) fun _ => moves_pure _) _ _ _ hchk
  subst quiet
  by_cases refused : chk ≠ 0
  · rw [if_pos refused] at h3
    obtain ⟨-, rfl⟩ := pure_ok.mp h3
    exact Spent.refl s
  rw [if_neg refused] at h3
  obtain ⟨left, v, hprune, h4⟩ := bind_ok.mp h3
  have pruned : Spent s old new v := by
    refine ⟨sysioPPrune_refunds gone new s left v hprune, fun b here lost =>
      ⟨⟨free, same, outside, one⟩, ?_⟩⟩
    exact sysioPPrune_lost (fun i => (gone i).mono fun _ _ k => k.off) on.sound.forest
      on.sound.rooted on.new held hprune here lost
  by_cases busy : left ≠ 1
  · rw [if_pos busy] at h4
    obtain ⟨-, rfl⟩ := pure_ok.mp h4
    exact pruned
  rw [if_neg busy] at h4
  obtain ⟨d, w, hd, h5⟩ := bind_ok.mp h4
  obtain rfl := parentIno_moves (R := Eq) old _ _ _ hd
  obtain ⟨answer, w, hren, h6⟩ := bind_ok.mp h5
  by_cases denied : answer ≠ 0
  · rw [if_pos denied] at h6
    obtain ⟨-, rfl⟩ := pure_ok.mp h6
    rw [refuses _ _ _ _ _ _ hren denied]
    exact pruned
  · rw [if_neg denied] at h6
    simp only [bind_ok, pure_ok] at h6
    obtain ⟨_, _, -, _, _, -, _, _, -, _, _, -, _, _, -, rfl, -⟩ := h6
    exact absurd rfl failed

theorem renameNodes_failed (on : Onboard s old new) (held : (s.nc.pnode new).ref ≠ 0) {err : ℤ}
    (failed : err ≠ 0) (run : renameNodes e old new s = .ok (err, t)) : Spent s old new t := by
  have unchanged : ∀ n, renameNodes e old new s = .ok (n, s) → Spent s old new t := by
    intro n run'
    obtain ⟨-, rfl⟩ := Prod.mk.inj (Except.ok.inj (run'.symm.trans run))
    exact Spent.refl s
  by_cases pinned : Pinned s old new
  · exact unchanged _ (renameNodes_busy on pinned)
  by_cases same : fsOf s old = fsOf s new
  · obtain ⟨found, right, way⟩ := @renameNodes_way D e s old new on pinned same
    cases found with
    | true =>
      refine unchanged (-EINVAL) ?_
      rw [way, if_pos rfl]
      rfl
    | false =>
      rw [way, if_neg Bool.false_ne_true] at run
      exact renameTarget_failed gone refuses on held pinned same (fun below => by cases right.mpr below)
        failed run
  · exact unchanged _ (renameNodes_xdev on pinned same)

end Tests

section Calls

variable {e : Env D} {s t u v : Sys D} {old new : Pno} {oldpath newpath : Bytes}

/-- The two look-ups have found `old` and `new`, and have led to `v`. -/
structure Resolved (e : Env D) (oldpath newpath : Bytes) (s : Sys D) (old new : Pno) (v : Sys D) :
    Prop where
  named : oldpath ≠ [] ∧ newpath ≠ []
  looks : ∃ u, sysioNamei e s.mt.cwd (some oldpath) ND_NOFOLLOW (some ⟨INT_UPDPARENT⟩) s =
      .ok ((0, some old), u) ∧
    sysioNamei e u.mt.cwd (some newpath) (ND_NOFOLLOW ||| ND_NEGOK) (some ⟨INT_UPDPARENT⟩) u =
      .ok ((0, some new), v)

/-- The look-ups of the call, as far as they go, have led to `v`. -/
inductive LookedUp (e : Env D) (oldpath newpath : Bytes) (s : Sys D) : Sys D → Prop where
  | none (empty : oldpath = [] ∨ newpath = []) : LookedUp e oldpath newpath s s
  | first {err : ℤ} {found : Option Pno} {u : Sys D} (failed : err ≠ 0)
      (look : sysioNamei e s.mt.cwd (some oldpath) ND_NOFOLLOW (some ⟨INT_UPDPARENT⟩) s =
        .ok ((err, found), u)) : LookedUp e oldpath newpath s u
  | second {err : ℤ} {found : Option Pno} {old : Pno} {u v : Sys D}
      (look : sysioNamei e s.mt.cwd (some oldpath) ND_NOFOLLOW (some ⟨INT_UPDPARENT⟩) s =
        .ok ((0, some old), u))
      (last : sysioNamei e u.mt.cwd (some newpath) (ND_NOFOLLOW ||| ND_NEGOK) (some ⟨INT_UPDPARENT⟩) u =
        .ok ((err, found), v)) : LookedUp e oldpath newpath s v

/-- Nothing but the counts of the path nodes in `held` is different, which have each given back as
many references as there are of them. -/
structure Released (held : List Pno) (s t : Sys D) : Prop where
  state : t = { s with nc.pnode := t.nc.pnode }
  pnode : ∀ p, t.nc.pnode p = { s.nc.pnode p with ref := (s.nc.pnode p).ref - held.count p }

theorem Released.trans {l l' : List Pno} (h : Released l s t) (k : Released l' t u) :
    Released (l ++ l') s u where
  state := by
    rw [k.state, h.state]
  pnode p := by
    rw [k.pnode p, h.pnode p, List.count_append, ← Nat.sub_sub]

theorem Released.base {l : List Pno} (h : Released l s t) : t.nc.base = s.nc.base := by
  rw [h.state]

theorem Released.refunds {l : List Pno} (h : Released l s t) : Refunds s t := by
  rw [h.state]
  exact refunds_of_same rfl rfl fun _ => rfl

theorem pRele_run {p : Pno} (held : (s.nc.pnode p).ref ≠ 0) :
    ∃ t, (pRele p : Sysio D Unit) s = .ok ((), t) := by
  have test : (Exec.check .assertion fun s => decide ((s.nc.pnode p).ref ≠ 0) : Sysio D Unit) s =
      .ok ((), s) := check_ok.mpr ⟨decide_eq_true held, rfl⟩
  unfold pRele
  rw [bind_run test]
  exact ⟨_, rfl⟩

theorem pRele_released {p : Pno} {x : Unit} (run : (pRele p : Sysio D Unit) s = .ok (x, t)) :
    Released [p] s t := by
  obtain ⟨_, _, hc, hw⟩ := bind_ok.mp run
  obtain ⟨-, rfl⟩ := check_ok.mp hc
  obtain rfl := write_ok.mp hw
  refine ⟨rfl, fun q => ?_⟩
  by_cases hq : q = p
  · rw [hq]
    simp
  · simp [hq, Ne.symm hq]

/-- A reference of the look-ups is there to be given back. -/
theorem held_ref {r : Pno → ℤ} {own : List Pno} {p : Pno} (hr : ∀ q, 0 ≤ r q)
    (held : Held r (p :: own) s) : (s.nc.pnode p).ref ≠ 0 := by
  have count := held.count p
  have := hr p
  rw [List.count_cons_self] at count
  intro zero
  unfold refs at count
  split at count <;> omega

/-- The call, when both look-ups succeed and nothing is changed behind them. -/
theorem interfaceRename_run {r : Pno → ℤ} (hr : ∀ q, 0 ≤ r q) {err : ℤ}
    (resolved : Resolved e oldpath newpath s old new v) (held : Held r [new, old] v)
    (run : renameNodes e old new v = .ok (err, v)) :
    ∃ t, interfaceRename e oldpath newpath s = .ok (status err, t) ∧ Released [new, old] v t := by
  obtain ⟨u, first, second⟩ := resolved.looks
  obtain ⟨w, rele⟩ := pRele_run (held_ref hr held)
  obtain ⟨t, rele'⟩ := pRele_run (held_ref hr (pRele_held hr new v held () w rele))
  refine ⟨t, ?_, (pRele_released rele).trans (pRele_released rele')⟩
  have cwd : ∀ s : Sys D, (Exec.read fun s => s.mt.cwd : Sysio D (Option Pno)) s =
      .ok (s.mt.cwd, s) := fun _ => rfl
  have node : ∀ (p : Pno) (s : Sys D), (nonNull (some p) : Sysio D Pno) s = .ok (p, s) :=
    fun _ _ => rfl
  have inner : onPath e newpath (ND_NOFOLLOW ||| ND_NEGOK) (some ⟨INT_UPDPARENT⟩)
      (fun new => renameNodes e old new) u = .ok (err, w) := by
    unfold onPath
    rw [bind_run (cwd u), bind_run second]
    change (if (0 : ℤ) ≠ 0 then _ else _ : Sysio D ℤ) v = _
    rw [if_neg (by decide), bind_run (node new v), bind_run run, bind_run rele]
    rfl
  have outer : onPath e oldpath ND_NOFOLLOW (some ⟨INT_UPDPARENT⟩) (fun old =>
      onPath e newpath (ND_NOFOLLOW ||| ND_NEGOK) (some ⟨INT_UPDPARENT⟩) fun new =>
        renameNodes e old new) s = .ok (err, t) := by
    rw [onPath, bind_run (cwd s), bind_run first]
    change (if (0 : ℤ) ≠ 0 then _ else _ : Sysio D ℤ) u = _
    rw [if_neg (by decide), bind_run (node old u), bind_run inner, bind_run rele']
    rfl
  have nonempty : ¬ (oldpath = [] ∨ newpath = []) := by
    rintro (empty | empty)
    · exact resolved.named.1 empty
    · exact resolved.named.2 empty
  unfold interfaceRename
  rw [if_neg nonempty, bind_run outer]
  rfl

/-- The look-up of a call on a path, and what comes behind it. -/
theorem onPath_cases {path : Bytes} {flags : ℕ} {intnt : Option Intent} {act : Pno → Sysio D ℤ}
    {err : ℤ} (run : onPath e path flags intnt act s = .ok (err, t)) :
    ∃ res u, sysioNamei e s.mt.cwd (some path) flags intnt s = .ok (res, u) ∧
      ((res.1 ≠ 0 ∧ t = u) ∨ ∃ p v, res = (0, some p) ∧ act p u = .ok (err, v) ∧
        pRele p v = .ok ((), t)) := by
  obtain ⟨cwd, _, hread, h1⟩ := bind_ok.mp run
  obtain ⟨rfl, rfl⟩ := read_ok.mp hread
  obtain ⟨res, u, look, h2⟩ := bind_ok.mp h1
  refine ⟨res, u, look, ?_⟩
  obtain ⟨err', found⟩ := res
  by_cases failed : err' ≠ 0
  · change (if err' ≠ 0 then _ else _ : Sysio D ℤ) u = _ at h2
    rw [if_pos failed] at h2
    obtain ⟨-, rfl⟩ := pure_ok.mp h2
    exact Or.inl ⟨failed, rfl⟩
  · change (if err' ≠ 0 then _ else _ : Sysio D ℤ) u = _ at h2
    rw [if_neg failed] at h2
    obtain ⟨p, _, hnode, h3⟩ := bind_ok.mp h2
    obtain ⟨rfl, rfl⟩ := deref_ok.mp hnode
    obtain ⟨answer, v, hact, h4⟩ := bind_ok.mp h3
    obtain ⟨_, w, rele, h5⟩ := bind_ok.mp h4
    obtain ⟨rfl, rfl⟩ := pure_ok.mp h5
    obtain rfl := not_not.mp failed
    exact Or.inr ⟨p, v, rfl, hact, rele⟩

/-- What a call that fails has changed behind its look-ups. -/
structure GivenUp (e : Env D) (oldpath newpath : Bytes) (s v t : Sys D) : Prop where
  refunds : Refunds v t
  idle : ∀ b, v.nc.base b ≠ none → t.nc.base b = none → ∃ old new,
    Resolved e oldpath newpath s old new v ∧ Passed v old new ∧ IdleBelow v new b

theorem GivenUp.refl (v : Sys D) : GivenUp e oldpath newpath s v v :=
  ⟨Std.Refl.refl v, fun _ here gone => absurd gone here⟩

/-- A call that fails has changed, behind its look-ups, what the pruning of the target gives up. -/
theorem interfaceRename_failed (gone : ∀ i, Moves DriverOnly (e.ops.gone i))
    (refuses : ∀ i p q s err t, e.ops.rename i p q s = .ok (err, t) → err ≠ 0 → t = s)
    (boards : ∀ old new v, Resolved e oldpath newpath s old new v →
      Onboard v old new ∧ (v.nc.pnode new).ref ≠ 0)
    {ret : Ret} (failed : ret.2 ≠ 0) (run : interfaceRename e oldpath newpath s = .ok (ret, t)) :
    ∃ v, LookedUp e oldpath newpath s v ∧ GivenUp e oldpath newpath s v t := by
  unfold interfaceRename at run
  by_cases empty : oldpath = [] ∨ newpath = []
  · rw [if_pos empty] at run
    obtain ⟨-, rfl⟩ := pure_ok.mp run
    exact ⟨s, .none empty, .refl s⟩
  rw [if_neg empty] at run
  obtain ⟨err, _, outer, h1⟩ := bind_ok.mp run
  obtain ⟨rfl, rfl⟩ := pure_ok.mp h1
  have failed : err ≠ 0 := failed
  obtain ⟨res, u, look, ⟨lost, rfl⟩ | ⟨old, w, rfl, inner, rele⟩⟩ := onPath_cases outer
  · exact ⟨_, .first lost look, .refl _⟩
  have back := pRele_released rele
  obtain ⟨res, v, last, ⟨lost, rfl⟩ | ⟨new, x, rfl, renamed, rele'⟩⟩ := onPath_cases inner
  · refine ⟨_, .second look last, back.refunds, fun b here gone => absurd gone ?_⟩
    rw [back.base]
    exact here
  · refine ⟨v, .second look last, ?_⟩
    have resolved : Resolved e oldpath newpath s old new v := ⟨not_or.mp empty, u, look, last⟩
    obtain ⟨on, held⟩ := boards old new v resolved
    have spent := renameNodes_failed gone refuses on held failed renamed
    have back := (pRele_released rele').trans back
    refine ⟨IsTrans.trans _ _ _ spent.refunds back.refunds, fun b here gone => ?_⟩
    rw [back.base] at gone
    exact ⟨old, new, resolved, spent.idle b here gone⟩

end Calls

section Fuse

variable {B : Type} {h : Host B} {b : B} {ok : Sys (FuseData B) → Call → Prop}
  {s v : Sys (FuseData B)} {old new : Pno} {oldpath newpath : Bytes}

/-- The call returns the error, or 0, and behind its look-ups only gives their references back. -/
def Answers (h : Host B) (oldpath newpath : Bytes) (s : Sys (FuseData B)) (old new : Pno)
    (v : Sys (FuseData B)) (err : ℤ) : Prop :=
  ∃ t, interfaceRename (fuseEnv h) oldpath newpath s = .ok (status err, t) ∧ Released [new, old] v t

/-- What the call answers, from the places of the two names and their inodes. -/
structure Tested (h : Host B) (oldpath newpath : Bytes) (s : Sys (FuseData B)) (old new : Pno)
    (v : Sys (FuseData B)) : Prop where
  pinned : Pinned v old new → Answers h oldpath newpath s old new v (-EBUSY)
  xdev : ¬ Pinned v old new → fsOf v old ≠ fsOf v new → Answers h oldpath newpath s old new v (-EXDEV)
  inside : ¬ Pinned v old new → fsOf v old = fsOf v new →
    StrictlyBelow v.nc (v.nc.pnode new).base (v.nc.pnode old).base →
    Answers h oldpath newpath s old new v (-EINVAL)
  same : ¬ Pinned v old new → fsOf v old = fsOf v new →
    (v.nc.pnode new).base ≠ (v.nc.pnode old).base →
    ¬ StrictlyBelow v.nc (v.nc.pnode new).base (v.nc.pnode old).base →
    boundTo v old = boundTo v new → Answers h oldpath newpath s old new v 0

/-- The look-ups of a call keep the books of the path nodes. -/
theorem resolved_walked (tidy : PlainRuns.Tidy s) (fitted : Fitted s)
    (resolved : Resolved (fuseEnv h) oldpath newpath s old new v) :
    Walked (refs s) (isRoot s.mt) s 0 [new, old] v := by
  obtain ⟨u, first, second⟩ := resolved.looks
  have start := start_walked tidy.plain fitted (0 + names (some newpath) + names (some oldpath))
  obtain ⟨once, -⟩ := sysioNamei_walked (refs_nonneg s) s.mt.cwd (some oldpath) ND_NOFOLLOW _ s start
    _ u first
  exact (sysioNamei_walked (refs_nonneg s) u.mt.cwd (some newpath) _ _ u once _ v second).1

theorem lookedUp_sound (tidy : PlainRuns.Tidy s) (fitted : Fitted s)
    (looks : LookedUp (fuseEnv h) oldpath newpath s v) : Sound v := by
  have wholes : ∀ parent path flags intnt, Moves Wholes (sysioNamei (fuseEnv h) parent path flags
    intnt) := sysioNamei_wholes
  cases looks with
  | none => exact fitted.sound
  | first failed look => exact (wholes _ _ _ _ _ _ _ look ⟨tidy, fitted⟩).2.sound
  | second look last =>
    exact (wholes _ _ _ _ _ _ _ last (wholes _ _ _ _ _ _ _ look ⟨tidy, fitted⟩)).2.sound

/-- A rename that would move a mount point or the target onto one, or cross file systems, or move a
name into its own subtree, is answered so, in this order; two names of one inode are left alone; and
a rename that fails has changed no binding, no count and no zombie, but where, all these tests being
passed, idle names below the target are gone with their references. -/
theorem rename_checks (reached : FuseReached h b ok s) (oldpath newpath : Bytes) :
    (∀ old new v, Resolved (fuseEnv h) oldpath newpath s old new v →
      Tested h oldpath newpath s old new v) ∧
    ∀ ret t, interfaceRename (fuseEnv h) oldpath newpath s = .ok (ret, t) → ret.2 ≠ 0 →
      ∃ v, LookedUp (fuseEnv h) oldpath newpath s v ∧ Refunded v t ∧
        ∀ b, v.nc.base b ≠ none → t.nc.base b = none → ∃ old new,
          Resolved (fuseEnv h) oldpath newpath s old new v ∧ Passed v old new ∧
            IdleBelow v new b := by
  obtain ⟨tidy, fitted⟩ := reached_fitted reached
  have boards : ∀ old new v, Resolved (fuseEnv h) oldpath newpath s old new v →
      Onboard v old new ∧ (v.nc.pnode new).ref ≠ 0 := by
    intro old new v resolved
    have walked := resolved_walked tidy fitted resolved
    have owned := walked.owned (refs_nonneg s)
    exact ⟨⟨walked.sound, (owned old (by simp)).1, (owned new (by simp)).1⟩,
      held_ref (refs_nonneg s) walked.held⟩
  constructor
  · intro old new v resolved
    have walked := resolved_walked tidy fitted resolved
    obtain ⟨on, -⟩ := boards old new v resolved
    have answers : ∀ {err}, renameNodes (fuseEnv h) old new v = .ok (err, v) →
        Answers h oldpath newpath s old new v err :=
      fun run => interfaceRename_run (refs_nonneg s) resolved walked.held run
    constructor
    case pinned => exact fun pinned => answers (renameNodes_busy on pinned)
    case xdev => exact fun free other => answers (renameNodes_xdev on free other)
    case inside => exact fun free same below => answers (renameNodes_inside on free same below)
    case same =>
      exact fun free same apart aside one => answers (renameNodes_same on free same apart aside one)
  · intro ret t run failed
    have refuses : ∀ i p q s err t, (fuseEnv h).ops.rename i p q s = .ok (err, t) → err ≠ 0 →
        t = s := by
      intro i p q s err t run _
      have returns : noReturn h s = .ok (err, t) := run
      exact (read_ok.mp returns).2.symm
    have gone : ∀ i, Moves DriverOnly ((fuseEnv h).ops.gone i) := FuseMoves.fuseInopGone_driver
    obtain ⟨v, looks, given⟩ := interfaceRename_failed gone refuses boards failed run
    refine ⟨v, looks, given.refunds fun b hb => ?_, given.idle⟩
    exact (lookedUp_sound tidy fitted looks).forest.baseBound b hb

end Fuse

section Examples

open DeviceIdentity (secondMount secondMkdir)

/-- The look-ups of a rename from `path`, as values and states. -/
def looked (path : Bytes) (flags : ℕ) (s : Sys (FuseData Unit)) : Fuse Unit (ℤ × Option Pno) :=
  sysioNamei (fuseEnv calmHost) s.mt.cwd (some path) flags (some ⟨INT_UPDPARENT⟩)

/-- The directory "/b/d" has been made on the file system on "/b". -/
def renameState : Sys (FuseData Unit) := calmRun [secondMkdir, secondMount]

theorem renameState_reached : FuseReached calmHost () (fun _ _ => True) renameState := by
  have run : runCalls (fuseLibrary calmHost) fuseTypeName [secondMkdir, secondMount]
      (initState (initData ())) = .ok ((), renameState) := ok_of_value (by decide +kernel)
  exact runCalls_reached run

/-- The path "/b/d". -/
def dirPath : Bytes := [47, 98, 47, 100]

/-- The path "/b/d/x". -/
def underPath : Bytes := [47, 98, 47, 100, 47, 120]

def firstLook : Sys (FuseData Unit) := (looked dirPath ND_NOFOLLOW renameState).final renameState

def secondLook : Sys (FuseData Unit) :=
  (looked underPath (ND_NOFOLLOW ||| ND_NEGOK) firstLook).final firstLook

theorem secondLook_values :
    (looked dirPath ND_NOFOLLOW renameState).value renameState = some (0, some 107) ∧
    (looked underPath (ND_NOFOLLOW ||| ND_NEGOK) firstLook).value firstLook = some (0, some 106) ∧
    secondLook.nc.pnode 107 = ⟨1, 108, 3, 1, none⟩ ∧ secondLook.nc.pnode 106 = ⟨1, 107, 4, 1, none⟩ ∧
    secondLook.mt.mount 1 = some ⟨1, 2, some 108, some 109⟩ ∧
    secondLook.nc.base 4 = some ⟨⟨[120], 120⟩, none, [], [106], some 3⟩ := by
  decide +kernel

theorem dirPath_resolved :
    Resolved (fuseEnv calmHost) dirPath underPath renameState 107 106 secondLook := by
  obtain ⟨first, second, -⟩ := secondLook_values
  constructor
  · exact ⟨by decide, by decide⟩
  · exact ⟨firstLook, ok_of_value first, ok_of_value second⟩

/-- A name in the directory of another one, from the records of the two. -/
theorem under_of_records {v : Sys D} {old new : Pno} {po pn : Pnode} {k : MntId} {m : Mount}
    {c : PbId} {r : PnodeBase} (hold : v.nc.pnode old = po) (hnew : v.nc.pnode new = pn)
    (hm : v.mt.mount k = some m) (hr : v.nc.base c = some r) (mounts : po.mount = k ∧ pn.mount = k)
    (roots : m.root ≠ some old ∧ m.root ≠ some new) (cover : po.cover = none)
    (under : pn.base = c ∧ r.parent = some po.base) :
    ¬ Pinned v old new ∧ fsOf v old = fsOf v new ∧
      StrictlyBelow v.nc (v.nc.pnode new).base (v.nc.pnode old).base := by
  refine ⟨?_, ?_, ?_⟩
  · unfold Pinned MountPoint
    rw [hold, hnew, mounts.1, mounts.2]
    rintro (⟨m', hm', root⟩ | covered | ⟨m', hm', root⟩)
    · obtain rfl := Option.some.inj (hm.symm.trans hm')
      exact roots.1 root
    · exact covered cover
    · obtain rfl := Option.some.inj (hm.symm.trans hm')
      exact roots.2 root
  · unfold fsOf
    rw [hold, hnew, mounts.1, mounts.2]
  · rw [hold, hnew, under.1]
    exact Relation.TransGen.single ⟨r, hr, under.2⟩

/-- "/b/d" cannot be moved below itself. -/
theorem rename_checks_inside :
    Answers calmHost dirPath underPath renameState 107 106 secondLook (-EINVAL) := by
  obtain ⟨-, -, old, new, mount, base⟩ := secondLook_values
  have tested := (rename_checks renameState_reached dirPath underPath).1 107 106 secondLook
    dirPath_resolved
  have places := @under_of_records (FuseData Unit) secondLook 107 106 _ _ 1 _ 4 _ old new mount base
    ⟨rfl, rfl⟩ ⟨by decide, by decide⟩ rfl ⟨rfl, rfl⟩
  obtain ⟨free, same, below⟩ := places
  exact tested.inside free same below

/-- The path "/b". -/
def mountPath : Bytes := [47, 98]

def mountLook : Sys (FuseData Unit) := (looked mountPath ND_NOFOLLOW renameState).final renameState

def mountLookAgain : Sys (FuseData Unit) :=
  (looked mountPath (ND_NOFOLLOW ||| ND_NEGOK) mountLook).final mountLook

theorem mountLook_values :
    (looked mountPath ND_NOFOLLOW renameState).value renameState = some (0, some 108) ∧
    (looked mountPath (ND_NOFOLLOW ||| ND_NEGOK) mountLook).value mountLook = some (0, some 108) ∧
    (interfaceRename (fuseEnv calmHost) mountPath mountPath).value renameState = some (-1, -16) := by
  decide +kernel

theorem mountPath_resolved :
    Resolved (fuseEnv calmHost) mountPath mountPath renameState 108 108 mountLookAgain := by
  obtain ⟨first, second, -⟩ := mountLook_values
  constructor
  · exact ⟨by decide, by decide⟩
  · exact ⟨mountLook, ok_of_value first, ok_of_value second⟩

/-- A host on which a function that returns nothing leaves its caller 5. -/
def leftoverHost : Host Unit := { calmHost with junk := fun _ => 5 }

/-- The file "/b/d/y" is open, and "/b/c" is another directory. -/
def targetCalls : List Call :=
  [.open_ ⟨none, none⟩ [98, 98, 58, 47, 98, 47, 100, 47, 121] 0o102 0o644,
    .mkdir [98, 98, 58, 47, 98, 47, 99] 0o755, secondMkdir, secondMount]

def targetState : Sys (FuseData Unit) :=
  (runCalls (fuseLibrary leftoverHost) fuseTypeName targetCalls).final (initState (initData ()))

theorem targetState_values :
    (interfaceRename (fuseEnv leftoverHost) [47, 98, 47, 99] dirPath).value targetState =
      some (-1, 5) ∧
    refOf ((interfaceRename (fuseEnv leftoverHost) [47, 98, 47, 99] dirPath).final targetState) 4 ≠
      refOf targetState 4 := by
  decide +kernel

/-- Where both paths name the root of the mount on "/b", the call refuses to move it; and where the
driver refuses to move "/b/c" onto "/b/d", the name "/b/d/y" has gone with its reference. -/
theorem rename_refusals :
    (¬ ∀ s, FuseReached calmHost () (fun _ _ => True) s →
      ∀ path p v, Resolved (fuseEnv calmHost) path path s p p v →
        ∃ t, interfaceRename (fuseEnv calmHost) path path s = .ok ((0, 0), t)) ∧
    ¬ ∀ s, FuseReached leftoverHost () (fun _ _ => True) s → ∀ oldpath newpath ret t,
      interfaceRename (fuseEnv leftoverHost) oldpath newpath s = .ok (ret, t) → ret.2 ≠ 0 →
        ∀ i, refOf t i = refOf s i := by
  constructor
  · intro right
    obtain ⟨-, -, answer⟩ := mountLook_values
    obtain ⟨t, run⟩ := right renameState renameState_reached mountPath 108 mountLookAgain
      mountPath_resolved
    rw [ok_of_value answer] at run
    exact absurd (congrArg Prod.fst (Prod.mk.inj (Except.ok.inj run)).1) (by decide)
  · intro kept
    have run : runCalls (fuseLibrary leftoverHost) fuseTypeName targetCalls
        (initState (initData ())) = .ok ((), targetState) := ok_of_value (by decide +kernel)
    obtain ⟨answer, dropped⟩ := targetState_values
    exact dropped (kept targetState (runCalls_reached run) _ _ _ _ (ok_of_value answer) (by decide) 4)

end Examples

end RenameChecks
