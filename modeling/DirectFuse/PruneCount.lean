import DirectFuse.PruneRuns
import DirectFuse.Dispatch
import DirectFuse.SoundRuns

/-! What `_sysio_p_prune` does, and what its count says. In a well-formed forest it returns; what it
destroys is idle, on the mount of the node it started from, and above nothing that stays; and the
count is 0 when that node went and 1 when, held, it is the last one. -/
namespace PruneCount

open ExecLogic Returning SysioState SysioInode SysioSystem FuseDriver FuseSystem FuseMoves
open InodeRefs NameForest PruneForest WalkForest SoundRuns Lineage PruneRuns

section Specification

variable {D : Type} {J : Sys D → Prop} {e : Env D} {s t : Sys D} {p : Pno} {left : ℕ}

/-- What pruning at `p` has done when it returns `left`. -/
structure Specified (s : Sys D) (p : Pno) (left : ℕ) (t : Sys D) : Prop where
  record : t.nc.pnode = s.nc.pnode ∧ t.nc.pnodes.Sublist s.nc.pnodes
  spared : ∀ q ∈ s.nc.pnodes, q ∉ t.nc.pnodes → (s.nc.pnode q).ref = 0 ∧ ¬ isRoot s.mt q ∧
    (s.nc.pnode q).mount = (s.nc.pnode p).mount
  ancestors : ∀ q ∈ t.nc.pnodes, ∀ a ∈ s.nc.pnodes, (s.nc.pnode q).mount = (s.nc.pnode a).mount →
    StrictlyBelow s.nc (s.nc.pnode q).base (s.nc.pnode a).base → a ∈ t.nc.pnodes
  zero : left = 0 ↔ p ∉ t.nc.pnodes
  one : (s.nc.pnode p).ref ≠ 0 → (left = 1 ↔ ∀ q ∈ t.nc.pnodes,
    (s.nc.pnode q).mount = (s.nc.pnode p).mount →
    ¬ StrictlyBelow t.nc (s.nc.pnode q).base (s.nc.pnode p).base)

/-- The count at a node that is held. -/
theorem counts_one (d : Releases J e) (formed : WellFormed J s) (live : p ∈ s.nc.pnodes)
    (held : (s.nc.pnode p).ref ≠ 0) (kept : Kept (isRoot s.mt) s t)
    (run : sysioPPrune e p s = .ok (left, t)) :
    left = 1 ↔ ∀ q ∈ t.nc.pnodes, (s.nc.pnode q).mount = (s.nc.pnode p).mount →
      ¬ StrictlyBelow t.nc (s.nc.pnode q).base (s.nc.pnode p).base := by
  have gone : ∀ i, Moves CoreMoves.OffInodes (e.ops.gone i) := fun i =>
    (d.gone i).mono fun _ _ h => h.off
  have node := kept.pruned.pnode
  have soundt := formed.sound.of_kept kept
  obtain ⟨fuel, r, count, depth, hr, rfl, children⟩ :=
    sysioPPrune_held gone formed.sound.forest formed.sound.rooted held run
  have stays : p ∈ t.nc.pnodes := by
    by_contra lost
    exact held (kept.pruned.gone p live lost).1
  constructor
  · intro one q hq mount below
    obtain ⟨-, goes⟩ := pruneChildren_removes gone (pPrune_removes gone fuel) fuel _ _ children
      formed.sound.forest formed.sound.rooted
    have leaf := leaf_of_goes formed.sound.forest kept hr (goes (by omega))
    rw [← kept.mt] at leaf
    rw [← node] at mount below
    have way := hangs_of_below soundt hq stays mount below.to_reflTransGen
    obtain rfl := way.eq_of_leaf soundt.forest hq leaf
    exact Nat.lt_irrefl _ (strictlyBelow_lt soundt.forest below)
  · intro none
    by_contra more
    obtain ⟨k, u, run', -, tied⟩ := children_returns d fuel formed hr (by omega)
      fun q u => pPrune_returns d fuel q
    obtain ⟨rfl, rfl⟩ := Prod.mk.inj (Except.ok.inj (children.symm.trans run'))
    obtain ⟨q, hq, mount, under, knot⟩ := tied (by omega)
    have hq' := knot.live kept
    refine none q hq' mount (Relation.TransGen.single ?_)
    obtain ⟨r', hr'⟩ := soundt.forest.based q hq'
    rw [node] at hr'
    obtain ⟨r₀, hr₀, -, -, parent⟩ := kept.pruned.base _ r' hr'
    obtain ⟨r₁, hr₁, hb⟩ := under
    obtain rfl : r₁ = r₀ := Option.some.inj (hr₁.symm.trans hr₀)
    exact ⟨r', hr', parent.trans hb⟩

theorem sysioPPrune_specified (d : Releases J e) (formed : WellFormed J s)
    (live : p ∈ s.nc.pnodes) :
    ∃ left t, sysioPPrune e p s = .ok (left, t) ∧ Specified s p left t := by
  have gone : ∀ i, Moves CoreMoves.OffInodes (e.ops.gone i) := fun i =>
    (d.gone i).mono fun _ _ h => h.off
  obtain ⟨left, t, run, trimmed, tied⟩ := sysioPPrune_returns d formed live
  have kept := trimmed.kept
  have node := kept.pruned.pnode
  refine ⟨left, t, run, ?_⟩
  constructor
  case record => exact ⟨node, kept.pruned.pnodes⟩
  case spared =>
    intro q hq lost
    obtain ⟨idle, -, off⟩ := kept.pruned.gone q hq lost
    exact ⟨idle, off, (trimmed.nodes q hq lost).1⟩
  case ancestors =>
    intro q hq a ha mount below
    have way := hangs_of_below formed.sound (kept.pruned.pnodes.subset hq) ha mount
      below.to_reflTransGen
    rw [← node] at way
    exact (way.live kept.forest hq).1
  case zero =>
    constructor
    · rintro rfl
      exact (sysioPPrune_removes gone p s 0 t run formed.sound.forest formed.sound.rooted).2 rfl
    · intro lost
      by_contra more
      exact lost ((tied more).live kept)
  case one => exact fun held => counts_one d formed live held kept run

end Specification

section Fuse

variable {B : Type} {h : Host B} {s : Sys (FuseData B)} {p : Pno}

/-- Every inode has a record of its own with the driver, on a file system the driver knows. -/
structure Served (s : Sys (FuseData B)) : Prop where
  record : ∀ i r, s.ic.inode i = some r → ∃ f l, s.drv.finode r.priv = some f ∧
    s.drv.ffs f.ffs = some l
  own : ∀ i j r r', s.ic.inode i = some r → s.ic.inode j = some r' → r.priv = r'.priv → i = j

/-- The record goes with the inode. -/
theorem fuseInopGone_returns {i : InoId} {r : Inode} (served : Served s)
    (hr : s.ic.inode i = some r) : Returns (fuseInopGone i) s fun _ t =>
      t.ic = s.ic ∧ t.drv.finode = Function.update s.drv.finode r.priv none ∧
      ∀ q, s.drv.ffs q ≠ none → t.drv.ffs q ≠ none := by
  obtain ⟨f, l, hf, hl⟩ := served.record i r hr
  refine returns_bind <| returns_bind <| returns_deref hr <| returns_pure <| returns_bind <|
    returns_deref hf <| returns_bind <| returns_deref hl <| returns_write ⟨rfl, rfl, fun q hq => ?_⟩
  change Function.update s.drv.ffs f.ffs (some (l.erase r.priv)) q ≠ none
  by_cases same : q = f.ffs
  · rw [same, Function.update_self]
    exact Option.some_ne_none _
  · rw [Function.update_of_ne same]
    exact hq

/-- The inode `i` has been taken out, and its record with it. -/
theorem Served.drop {t : Sys (FuseData B)} {i : InoId} {r : Inode} (served : Served s)
    (hr : s.ic.inode i = some r) (inode : t.ic.inode = Function.update s.ic.inode i none)
    (finode : t.drv.finode = Function.update s.drv.finode r.priv none)
    (ffs : ∀ q, s.drv.ffs q ≠ none → t.drv.ffs q ≠ none) : Served t := by
  have old : ∀ j n, t.ic.inode j = some n → j ≠ i ∧ s.ic.inode j = some n := by
    intro j n hn
    rw [inode] at hn
    by_cases same : j = i
    · rw [same, Function.update_self] at hn
      cases hn
    · rw [Function.update_of_ne same] at hn
      exact ⟨same, hn⟩
  constructor
  · intro j n hn
    obtain ⟨other, hn⟩ := old j n hn
    obtain ⟨f, l, hf, hl⟩ := served.record j n hn
    have apart : n.priv ≠ r.priv := fun same => other (served.own j i n r hn hr same)
    obtain ⟨l', hl'⟩ := Option.ne_none_iff_exists'.mp (ffs f.ffs (by rw [hl]; simp))
    refine ⟨f, l', ?_, hl'⟩
    rw [finode, Function.update_of_ne apart]
    exact hf
  · intro j k n n' hn hn' same
    exact served.own j k n n' (old j n hn).2 (old k n' hn').2 same

/-- One reference less on an inode that stays. -/
theorem Served.recount {t : Sys (FuseData B)} {i : InoId} {r r' : Inode} (served : Served s)
    (hr : s.ic.inode i = some r) (inode : t.ic.inode = Function.update s.ic.inode i (some r'))
    (priv : r'.priv = r.priv) (drv : t.drv = s.drv) : Served t := by
  have old : ∀ j n, t.ic.inode j = some n → ∃ n', s.ic.inode j = some n' ∧ n'.priv = n.priv := by
    intro j n hn
    rw [inode] at hn
    by_cases same : j = i
    · rw [same, Function.update_self] at hn
      obtain rfl := Option.some.inj hn
      exact ⟨r, same ▸ hr, priv.symm⟩
    · rw [Function.update_of_ne same] at hn
      exact ⟨n, hn, rfl⟩
  constructor
  · intro j n hn
    obtain ⟨n', hn', same⟩ := old j n hn
    rw [drv, ← same]
    exact served.record j n' hn'
  · intro j k n n' hn hn' same
    obtain ⟨m, hm, hp⟩ := old j n hn
    obtain ⟨m', hm', hp'⟩ := old k n' hn'
    exact served.own j k m m' hm hm' (hp.trans (same.trans hp'.symm))

theorem fuse_releases : Releases (Served (B := B)) (fuseEnv h) where
  gone := fuseInopGone_driver
  outside s t ic drv served := by
    constructor
    · rw [ic, drv]
      exact served.record
    · rw [ic]
      exact served.own
  iRele i s r served hr held counted := by
    refine returns_bind <| returns_deref hr <| returns_bind <|
      returns_check (decide_eq_true held) <| returns_bind <| returns_write ?_
    have here : Function.update s.ic.inode i (some { r with ref := r.ref - 1 }) i =
        some { r with ref := r.ref - 1 } := Function.update_self ..
    refine returns_ite (fun last => ?_) fun _ => returns_pure (served.recount hr rfl rfl rfl)
    -- a zombie goes with its last reference
    refine returns_bind <| returns_deref here <| returns_bind <|
      returns_check (decide_eq_true last.1) <| returns_bind <|
      returns_when (fun alive => absurd last.2 (by rw [alive]; decide)) fun _ => ?_
    refine returns_bind <| returns_write <| returns_bind <| returns_mono
      (fuseInopGone_returns (served.recount hr rfl rfl rfl) here) ?_
    rintro _ t - ⟨ic, finode, ffs⟩
    refine returns_bind <| returns_write <| returns_bind <| returns_check ?_ <| returns_write ?_
    · exact decide_eq_true (by rw [ic]; exact counted)
    · refine served.drop hr ?_ finode ffs
      change Function.update t.ic.inode i none = _
      rw [ic]
      exact Function.update_idem ..

/-- For every well-formed forest and every path node: pruning returns, spares what it has to, and
returns the count its callers rely on. -/
theorem prune_specification (h : Host B) (formed : WellFormed Served s) (live : p ∈ s.nc.pnodes) :
    ∃ left t, sysioPPrune (fuseEnv h) p s = .ok (left, t) ∧ Specified s p left t :=
  sysioPPrune_specified fuse_releases formed live

theorem served_of_listed (tables : Tables s)
    (record : ∀ i ∈ s.ic.inodes, (((s.ic.inode i).bind fun r => s.drv.finode r.priv).bind fun f =>
      s.drv.ffs f.ffs).isSome = true)
    (own : ∀ i ∈ s.ic.inodes, ∀ j ∈ s.ic.inodes,
      (s.ic.inode i).map Inode.priv = (s.ic.inode j).map Inode.priv → i = j) : Served s := by
  have listed : ∀ i r, s.ic.inode i = some r → i ∈ s.ic.inodes := by
    intro i r hr
    rw [tables.inodes, hr]
    exact Option.some_ne_none r
  constructor
  · intro i r hr
    obtain ⟨l, hl⟩ := Option.isSome_iff_exists.mp (record i (listed i r hr))
    obtain ⟨f, hf, hl⟩ := Option.bind_eq_some_iff.mp hl
    rw [hr] at hf
    exact ⟨f, l, hf, hl⟩
  · intro i j r r' hr hr' same
    apply own i (listed i r hr) j (listed j r' hr')
    rw [hr, hr', Option.map_some, Option.map_some, same]

end Fuse

section Examples

open Dispatch (fileOpen fileOpen_reached)

/-- The name space in which "/b/f" is open. -/
def fileState : Sys (FuseData Unit) := calmRun fileOpen

theorem fileState_reached : FuseReached calmHost () (fun _ _ => True) fileState := fileOpen_reached

theorem fileState_values :
    (∀ p ∈ fileState.nc.pnodes, (fileState.nc.pnode p).cover ≠ none →
      (fileState.nc.pnode p).ref ≠ 0) ∧ 108 ∈ fileState.nc.pnodes ∧
    (∀ i ∈ fileState.ic.inodes, (((fileState.ic.inode i).bind fun r =>
      fileState.drv.finode r.priv).bind fun f => fileState.drv.ffs f.ffs).isSome = true) ∧
    (∀ i ∈ fileState.ic.inodes, ∀ j ∈ fileState.ic.inodes,
      (fileState.ic.inode i).map Inode.priv = (fileState.ic.inode j).map Inode.priv → i = j) := by
  decide +kernel

/-- A state that a program can come to is well-formed, if no covered node is idle and every inode has
a record of its own. -/
theorem formed_of_reached {s : Sys (FuseData Unit)}
    (run : FuseReached calmHost () (fun _ _ => True) s)
    (covered : ∀ p ∈ s.nc.pnodes, (s.nc.pnode p).cover ≠ none → (s.nc.pnode p).ref ≠ 0)
    (record : ∀ i ∈ s.ic.inodes, (((s.ic.inode i).bind fun r => s.drv.finode r.priv).bind fun f =>
      s.drv.ffs f.ffs).isSome = true)
    (own : ∀ i ∈ s.ic.inodes, ∀ j ∈ s.ic.inodes,
      (s.ic.inode i).map Inode.priv = (s.ic.inode j).map Inode.priv → i = j) :
    WellFormed Served s := by
  have enough : (∀ n, calmHost.malloc n = true) ∨ False := Or.inl fun _ => rfl
  obtain ⟨tables, leak, -, balance⟩ := InodeAccounts.reached_books
    (FuseAccounts.fuseEnv_contract enough) (FuseAccounts.fsswLookup_contract enough) run
  constructor
  case sound => exact (reached_fitted run).2.sound
  case covered => exact covered
  case books => exact ⟨tables, leak, fun _ => trivial, balance⟩
  case driver => exact served_of_listed tables record own

theorem fileState_formed : WellFormed Served fileState := by
  obtain ⟨covered, -, record, own⟩ := fileState_values
  exact formed_of_reached fileState_reached covered record own

/-- Pruning at the root of the mount on "/b". -/
theorem prune_specification_mount : ∃ left t,
    sysioPPrune (fuseEnv calmHost) 108 fileState = .ok (left, t) ∧
      Specified fileState 108 left t := by
  obtain ⟨-, live, -, -⟩ := fileState_values
  exact prune_specification calmHost fileState_formed live

end Examples

end PruneCount
