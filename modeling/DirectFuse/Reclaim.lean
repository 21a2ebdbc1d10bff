import DirectFuse.InodeMoves
import DirectFuse.ListedNodes
import DirectFuse.PruneCount
import DirectFuse.RankedNames

/-! The garbage collection of path nodes, `p_reclaim` (src/inode.c). The node it comes to is pruned
twice: held, with all below it, and then by itself. The first time leaves nothing below that could
go, so that the second one takes the node at most, and the next node on the queue stays. -/
namespace Reclaim

open ExecLogic Returning SysioState SysioInode CoreMoves FuseMoves InodeRefs NameForest PruneForest
open WalkForest Lineage PruneRuns

variable {D : Type}

/-- What is left on a mount within `W` is tied. -/
def Settled (m : MntId) (W : PbId → Prop) (t : Sys D) : Prop :=
  ∀ q ∈ t.nc.pnodes, (t.nc.pnode q).mount = m → W (t.nc.pnode q).base → Tied t q

section Ties

variable {s t : Sys D} {p q : Pno} {m : MntId} {W : PbId → Prop}

/-- A run that prunes unties nothing. -/
theorem tied_kept (k : Kept (isRoot s.mt) s t) (h : Tied s p) : Tied t p := by
  rcases h with ⟨q, live, way, held⟩
  have own : Tied s q := tied_self live held
  refine ⟨q, own.live k, ?_, ?_⟩
  · rw [k.pruned.pnode, k.mt]
    exact way
  · rw [k.pruned.pnode, k.mt]
    exact held

theorem Settled.kept (k : Kept (isRoot s.mt) s t) (h : Settled m W s) : Settled m W t := by
  intro q hq mount within
  rw [k.pruned.pnode] at mount within
  exact tied_kept k (h q (k.pruned.pnodes.subset hq) mount within)

/-- Something tied hangs on `p`. -/
theorem tied_above (h : Tied s q) (way : Hangs (isRoot s.mt) s.nc.pnode q p) : Tied s p := by
  rcases h with ⟨a, live, below, held⟩
  exact ⟨a, live, below.trans way, held⟩

/-- Where the base node of `p` has no children, `p` is all there is of the mount from there on. -/
theorem alone_of_leaf (sound : Sound s) (live : p ∈ s.nc.pnodes) (hq : q ∈ s.nc.pnodes)
    (mount : (s.nc.pnode q).mount = (s.nc.pnode p).mount) {r : PnodeBase}
    (hr : s.nc.base (s.nc.pnode p).base = some r) (leaf : r.children = [])
    (below : AtOrBelow s.nc (s.nc.pnode q).base (s.nc.pnode p).base) : q = p := by
  rcases Relation.ReflTransGen.cases_tail below with same | ⟨c, -, rc, hrc, parent⟩
  · exact alias_one sound hq live same.symm mount
  · have child := (sound.forest.child _ r hr c).mpr ⟨rc, hrc, parent⟩
    rw [leaf] at child
    cases child

/-- The way up from a node below `p` passes an alias of each base node in between. -/
theorem alias_between (sound : Sound s) (live : p ∈ s.nc.pnodes) (hq : q ∈ s.nc.pnodes)
    (mount : (s.nc.pnode q).mount = (s.nc.pnode p).mount) {c : PbId}
    (child : ParentOf s.nc c (s.nc.pnode p).base) (below : AtOrBelow s.nc (s.nc.pnode q).base c) :
    ∃ a, (s.nc.pnode a).base = c ∧ Hangs (isRoot s.mt) s.nc.pnode q a := by
  generalize hb : (s.nc.pnode q).base = b at below
  induction below using Relation.ReflTransGen.head_induction_on generalizing q with
  | refl => exact ⟨q, hb, Relation.ReflTransGen.refl⟩
  | @head b x step rest ih =>
    have off : ¬ isRoot s.mt q := by
      intro root
      -- the root of the mount is no deeper than `p`
      have high : ((s.nc.pnode q).base : ℕ) ≤ (s.nc.pnode p).base := by
        by_cases rootp : isRoot s.mt p
        · rw [root_one sound root rootp mount]
        · exact Nat.le_of_lt (root_lt sound live rootp root mount.symm)
      have lower := parentOf_lt sound.forest child
      have way := atOrBelow_le sound.forest rest
      have older := parentOf_lt sound.forest step
      rw [hb] at high
      exact absurd (Nat.lt_trans (Nat.lt_of_lt_of_le lower way) older) (Nat.not_lt.mpr high)
    rcases sound.forest.inside q hq off with ⟨up, same, r, hr, parent⟩
    rcases step with ⟨r', hr', parent'⟩
    rw [hb, hr'] at hr
    rcases Option.some.inj hr with rfl
    rw [parent'] at parent
    rcases ih up (same.trans mount) (Option.some.inj parent).symm with ⟨a, ha, way⟩
    exact ⟨a, ha, Relation.ReflTransGen.head ⟨off, rfl⟩ way⟩

/-- The way up from a base node that stays is not cut. -/
theorem atOrBelow_kept {root : Pno → Prop} (k : Kept root s t) {b c : PbId} (hb : t.nc.base b ≠ none)
    (below : AtOrBelow s.nc b c) : AtOrBelow t.nc b c := by
  induction below using Relation.ReflTransGen.head_induction_on with
  | refl => exact Relation.ReflTransGen.refl
  | @head b x step rest ih =>
    rcases Option.ne_none_iff_exists'.mp hb with ⟨r', hr'⟩
    rcases k.pruned.base b r' hr' with ⟨r, hr, -, -, same⟩
    rcases step with ⟨r₀, hr₀, parent⟩
    rcases Option.some.inj (hr₀.symm.trans hr) with rfl
    have parent' : r'.parent = some x := same.trans parent
    rcases k.forest.parent b r' x hr' parent' with ⟨-, rx, hrx⟩
    refine Relation.ReflTransGen.head ⟨r', hr', parent'⟩ (ih ?_)
    rw [hrx]
    exact Option.some_ne_none rx

theorem tied_live (sound : Sound s) (h : Tied s p) : p ∈ s.nc.pnodes := by
  rcases h with ⟨q, live, way, -⟩
  exact (way.live sound.forest live).1

theorem hangs_kept (k : Kept (isRoot s.mt) s t) (way : Hangs (isRoot s.mt) s.nc.pnode q p) :
    Hangs (isRoot t.mt) t.nc.pnode q p := by
  rw [k.pruned.pnode, k.mt]
  exact way

end Ties

section Runs

variable {e : Env D} (gone : ∀ i, Moves OffInodes (e.ops.gone i)) {m : MntId} {s t : Sys D}
  {p : Pno} {k : ℕ}

include gone

/-- A run at `p` leaves what is tied, and `p` itself if it counts any. -/
def Settles (recur : Pno → Sysio D ℕ) : Prop := ∀ p s k t, recur p s = .ok (k, t) → Sound s →
  p ∈ s.nc.pnodes → Settled (s.nc.pnode p).mount (AtOrBelow s.nc · (s.nc.pnode p).base) t ∧
    (k ≠ 0 → p ∈ t.nc.pnodes)

omit gone in
/-- Aliases on other mounts are passed over. -/
theorem pruneAliases_skip {recur : Pno → Sysio D ℕ} {l : List Pno}
    (others : ∀ q ∈ l, (s.nc.pnode q).mount ≠ m)
    (run : pruneAliases e recur m l s = .ok (k, t)) : k = 0 ∧ t = s := by
  induction l generalizing s k with
  | nil =>
    rcases pure_ok.mp run with ⟨rfl, rfl⟩
    exact ⟨rfl, rfl⟩
  | cons q l ih =>
    rcases bind_ok.mp run with ⟨n, s₁, hread, hnode⟩
    rcases read_ok.mp hread with ⟨rfl, rfl⟩
    rcases bind_ok.mp hnode with ⟨k₁, v, hfirst, hlater⟩
    rw [if_pos (others q List.mem_cons_self)] at hfirst
    rcases pure_ok.mp hfirst with ⟨rfl, rfl⟩
    rcases bind_ok.mp hlater with ⟨k₂, w, hsecond, hend⟩
    rcases pure_ok.mp hend with ⟨rfl, rfl⟩
    rcases ih (fun q' hq' => others q' (List.mem_cons_of_mem q hq')) hsecond with ⟨rfl, rfl⟩
    exact ⟨rfl, rfl⟩

theorem pruneAlias_settles {recur : Pno → Sysio D ℕ} (settles : Settles recur)
    (run : pruneAlias e recur p (s.nc.pnode p) s = .ok (k, t)) (sound : Sound s)
    (live : p ∈ s.nc.pnodes) :
    Settled (s.nc.pnode p).mount (AtOrBelow s.nc · (s.nc.pnode p).base) t ∧
      (k ≠ 0 → p ∈ t.nc.pnodes) := by
  rcases bind_ok.mp run with ⟨r, s₁, hread, hrest⟩
  rcases deref_ok.mp hread with ⟨hr, rfl⟩
  by_cases interior : r.children ≠ []
  · rw [if_pos interior] at hrest
    exact settles p s k t hrest sound live
  rw [if_neg interior] at hrest
  have leaf : r.children = [] := not_not.mp interior
  have stays : ∀ held : (s.nc.pnode p).ref ≠ 0 ∨ isRoot s.mt p,
      Settled (s.nc.pnode p).mount (AtOrBelow s.nc · (s.nc.pnode p).base) s := by
    intro held q hq mount below
    rcases alone_of_leaf sound live hq mount hr leaf below with rfl
    exact tied_self hq held
  by_cases held : (s.nc.pnode p).ref ≠ 0
  · rw [if_pos held] at hrest
    rcases pure_ok.mp hrest with ⟨-, rfl⟩
    exact ⟨stays (Or.inl held), fun _ => live⟩
  rw [if_neg held] at hrest
  rcases bind_ok.mp hrest with ⟨u, s₂, hbare, hnamed⟩
  rcases check_ok.mp hbare with ⟨-, rfl⟩
  rcases bind_ok.mp hnamed with ⟨u', s₃, hhash, hmounted⟩
  rcases check_ok.mp hhash with ⟨-, rfl⟩
  rcases bind_ok.mp hmounted with ⟨mnt, s₄, hm, hlast⟩
  rcases deref_ok.mp hm with ⟨hmount, rfl⟩
  by_cases top : mnt.root = some p
  · rw [if_pos top] at hlast
    rcases pure_ok.mp hlast with ⟨-, rfl⟩
    exact ⟨stays (Or.inr ⟨_, mnt, hmount, top⟩), fun _ => live⟩
  rw [if_neg top] at hlast
  rcases bind_ok.mp hlast with ⟨u'', v, hgone, hend⟩
  rcases pure_ok.mp hend with ⟨rfl, rfl⟩
  have off : ¬ isRoot s.mt p := fun root => top (sound.rooted p live root mnt hmount)
  have below := leaf_of_base sound.forest hr (by simp [leaf])
  rcases sysioPGone_kept gone sound.forest off below hgone with ⟨kept, lost⟩
  refine ⟨?_, fun more => absurd rfl more⟩
  intro q hq mount way
  rw [kept.pruned.pnode] at mount way
  rcases alone_of_leaf sound live (kept.pruned.pnodes.subset hq) mount hr leaf way with rfl
  exact absurd hq lost

/-- The aliases of one base node, of which one at most lies on the mount. -/
theorem pruneAliases_settles {recur : Pno → Sysio D ℕ} (settles : Settles recur)
    (removes : ∀ p, Removes (isRoot s.mt) (recur p) fun t => p ∉ t.nc.pnodes) {c : PbId}
    {l : List Pno} (run : pruneAliases e recur m l s = .ok (k, t)) (sound : Sound s)
    (aliases : ∀ q ∈ l, q ∈ s.nc.pnodes ∧ (s.nc.pnode q).base = c) (once : l.Nodup) :
    (∀ a ∈ l, (s.nc.pnode a).mount = m → Settled m (AtOrBelow s.nc · c) t) ∧
      (k ≠ 0 → ∃ a ∈ l, (s.nc.pnode a).mount = m ∧ a ∈ t.nc.pnodes) := by
  induction l generalizing s k with
  | nil =>
    rcases pure_ok.mp run with ⟨rfl, rfl⟩
    refine ⟨?_, fun more => absurd rfl more⟩
    intro a ha
    cases ha
  | cons q l ih =>
    rcases List.nodup_cons.mp once with ⟨front, rest⟩
    rcases aliases q List.mem_cons_self with ⟨live, base⟩
    rcases bind_ok.mp run with ⟨n, s₁, hread, hnode⟩
    rcases read_ok.mp hread with ⟨rfl, rfl⟩
    rcases bind_ok.mp hnode with ⟨k₁, v, hfirst, hlater⟩
    rcases bind_ok.mp hlater with ⟨k₂, w, hsecond, hend⟩
    rcases pure_ok.mp hend with ⟨rfl, rfl⟩
    by_cases on : (s.nc.pnode q).mount = m
    · -- the others lie on other mounts
      have others : ∀ q' ∈ l, (s.nc.pnode q').mount ≠ m := by
        intro q' hq' on'
        rcases aliases q' (List.mem_cons_of_mem q hq') with ⟨live', base'⟩
        have same := alias_one sound live' live (base'.trans base.symm) (on'.trans on.symm)
        exact front (same ▸ hq')
      rw [if_neg (not_not.mpr on)] at hfirst
      rcases pruneAlias_settles gone settles hfirst sound live with ⟨settled, stays⟩
      rcases pruneAlias_removes gone (removes q) hfirst sound.forest sound.rooted with ⟨kept, -⟩
      rw [on, base] at settled
      have skip : ∀ q' ∈ l, (v.nc.pnode q').mount ≠ m := by
        rw [kept.pruned.pnode]
        exact others
      rcases pruneAliases_skip skip hsecond with ⟨rfl, rfl⟩
      refine ⟨fun a _ _ => settled, fun more => ⟨q, List.mem_cons_self, on, stays ?_⟩⟩
      omega
    · rw [if_pos on] at hfirst
      rcases pure_ok.mp hfirst with ⟨rfl, rfl⟩
      rcases ih removes hsecond sound (fun q' hq' => aliases q' (List.mem_cons_of_mem q hq')) rest with
        ⟨settled, stays⟩
      constructor
      · intro a ha mount
        rcases List.mem_cons.mp ha with rfl | ha
        · exact absurd mount on
        · exact settled a ha mount
      · intro more
        rcases stays (by omega) with ⟨a, ha, mount, hlive⟩
        exact ⟨a, List.mem_cons_of_mem q ha, mount, hlive⟩

/-- The children of the base node of `p`, from a state that pruning at `p` has led to. -/
theorem pruneChildren_settles {recur : Pno → Sysio D ℕ} (settles : Settles recur) {v : Sys D}
    (removes : ∀ p, Removes (isRoot s.mt) (recur p) fun t => p ∉ t.nc.pnodes) (fuel : ℕ)
    {l : List PbId} (sound : Sound s) (live : p ∈ s.nc.pnodes) (kept : Kept (isRoot s.mt) s v)
    (children : ∀ c ∈ l, ParentOf s.nc c (s.nc.pnode p).base)
    (run : pruneChildren e (sysioPrune e fuel) recur (s.nc.pnode p).mount l v = .ok (k, t)) :
    (∀ c ∈ l, Settled (s.nc.pnode p).mount (AtOrBelow s.nc · c) t) ∧
      (k ≠ 0 → ∃ q, Tied t q ∧ (s.nc.pnode q).mount = (s.nc.pnode p).mount ∧
        (s.nc.pnode q).base ∈ l) := by
  induction l generalizing v k with
  | nil =>
    rcases pure_ok.mp run with ⟨rfl, rfl⟩
    refine ⟨?_, fun more => absurd rfl more⟩
    intro c hc
    cases hc
  | cons c l ih =>
    have soundv := sound.of_kept kept
    have same : isRoot v.mt = isRoot s.mt := by rw [kept.mt]
    have removes' : ∀ p, Removes (isRoot v.mt) (recur p) fun t => p ∉ t.nc.pnodes := by
      rw [same]
      exact removes
    have hc := children c List.mem_cons_self
    rcases bind_ok.mp run with ⟨r, v₁, hread, hstep⟩
    rcases deref_ok.mp hread with ⟨hr, rfl⟩
    rcases bind_ok.mp hstep with ⟨k₁, w, hfirst, hlater⟩
    rcases bind_ok.mp hlater with ⟨k₂, w', hsecond, hend⟩
    rcases pure_ok.mp hend with ⟨rfl, rfl⟩
    have aliases : ∀ a ∈ r.aliases, a ∈ v.nc.pnodes ∧ (v.nc.pnode a).base = c :=
      fun a ha => (soundv.forest.alias_ c r hr a).mp ha
    -- what is left at or below the child comes up at one of its aliases
    have passes : ∀ q ∈ v.nc.pnodes, (s.nc.pnode q).mount = (s.nc.pnode p).mount →
        AtOrBelow s.nc (s.nc.pnode q).base c →
        ∃ a ∈ r.aliases, (v.nc.pnode a).mount = (s.nc.pnode p).mount := by
      intro q hq mount below
      rcases alias_between sound live (kept.pruned.pnodes.subset hq) mount hc below with ⟨a, ha, way⟩
      rcases (hangs_kept kept way).live soundv.forest hq with ⟨alive, mount', -⟩
      refine ⟨a, (soundv.forest.alias_ c r hr a).mpr ⟨alive, ?_⟩, ?_⟩
      · rw [kept.pruned.pnode]
        exact ha
      · rw [mount', kept.pruned.pnode]
        exact mount
    have head : Kept (isRoot v.mt) v w ∧ Settled (s.nc.pnode p).mount (AtOrBelow s.nc · c) w ∧
        (k₁ ≠ 0 → ∃ q, Tied w q ∧ (s.nc.pnode q).mount = (s.nc.pnode p).mount ∧
          (s.nc.pnode q).base = c) := by
      by_cases bare : r.aliases = []
      · rw [if_pos bare] at hfirst
        rcases bind_ok.mp hfirst with ⟨u, x, hbases, hnone⟩
        rcases pure_ok.mp hnone with ⟨rfl, rfl⟩
        have kept' : Kept (isRoot v.mt) v x := sysioPrune_moves (sysioPbGone_prunes gone) fuel c _ _ _
          hbases soundv.forest soundv.rooted
        refine ⟨kept', ?_, fun more => absurd rfl more⟩
        intro q hq mount below
        rw [kept'.pruned.pnode, kept.pruned.pnode] at mount below
        rcases passes q (kept'.pruned.pnodes.subset hq) mount below with ⟨a, ha, -⟩
        rw [bare] at ha
        cases ha
      · rw [if_neg bare] at hfirst
        rcases pruneAliases_removes gone removes' _ _ hfirst soundv.forest soundv.rooted with ⟨kept', -⟩
        rcases pruneAliases_settles gone settles removes' hfirst soundv aliases
          (soundv.forest.aliasNodup c r hr) with ⟨settled, stays⟩
        have all : Settled (s.nc.pnode p).mount (AtOrBelow s.nc · c) w := by
          intro q hq mount below
          have hqv := kept'.pruned.pnodes.subset hq
          have mount' := mount
          rw [kept'.pruned.pnode, kept.pruned.pnode] at mount' below
          rcases passes q hqv mount' below with ⟨a, ha, hmount⟩
          refine settled a ha hmount q hq mount ?_
          rw [kept'.pruned.pnode]
          rcases soundv.forest.based q hqv with ⟨rq, hrq⟩
          have hbase : v.nc.base (v.nc.pnode q).base ≠ none := by
            rw [hrq]
            exact Option.some_ne_none rq
          rw [kept.pruned.pnode] at hbase ⊢
          exact atOrBelow_kept kept hbase below
        refine ⟨kept', all, ?_⟩
        intro more
        rcases stays more with ⟨a, ha, hmount, alive⟩
        have base := (aliases a ha).2
        refine ⟨a, settled a ha hmount a alive ?_ ?_, ?_, ?_⟩
        · rw [kept'.pruned.pnode]
          exact hmount
        · rw [kept'.pruned.pnode, base]
          exact Relation.ReflTransGen.refl
        · rw [kept.pruned.pnode] at hmount
          exact hmount
        · rw [kept.pruned.pnode] at base
          exact base
    rcases head with ⟨kept', settled, stays⟩
    rw [same] at kept'
    have both := kept.trans kept'
    have hw := sound.of_kept both
    rcases ih both (fun c hc => children c (List.mem_cons_of_mem _ hc)) hsecond with
      ⟨settled', stays'⟩
    have samew : isRoot w.mt = isRoot s.mt := by rw [both.mt]
    have removesw : ∀ p, Removes (isRoot w.mt) (recur p) fun t => p ∉ t.nc.pnodes := by
      rw [samew]
      exact removes
    rcases pruneChildren_removes gone removesw fuel _ _ hsecond hw.forest hw.rooted with ⟨last, -⟩
    constructor
    · intro c' hc'
      rcases List.mem_cons.mp hc' with rfl | hc'
      · exact settled.kept last
      · exact settled' c' hc'
    · intro more
      by_cases first : k₁ ≠ 0
      · rcases stays first with ⟨q, tied, mount, base⟩
        refine ⟨q, tied_kept last tied, mount, ?_⟩
        rw [base]
        exact List.mem_cons_self
      · rcases stays' (by omega) with ⟨q, tied, mount, base⟩
        exact ⟨q, tied, mount, List.mem_cons_of_mem _ base⟩

/-- Pruning at a node leaves nothing of its mount, at the node or below, that could go. -/
theorem pPrune_settles (fuel : ℕ) : Settles (pPrune e fuel) := by
  induction fuel with
  | zero =>
    intro p s k t run
    exact (fault_ok.mp run).elim
  | succ fuel ih =>
    intro p s k t run sound live
    rcases bind_ok.mp run with ⟨n, s₁, hread, hbased⟩
    rcases read_ok.mp hread with ⟨rfl, rfl⟩
    rcases bind_ok.mp hbased with ⟨r, s₂, hbase, hloop⟩
    rcases deref_ok.mp hbase with ⟨hr, rfl⟩
    rcases bind_ok.mp hloop with ⟨count, v, hchildren, hcounted⟩
    have removes : ∀ q, Removes (isRoot s.mt) (pPrune e fuel q) fun t => q ∉ t.nc.pnodes :=
      fun q => pPrune_removes gone fuel q
    have children : ∀ c ∈ r.children, ParentOf s.nc c (s.nc.pnode p).base :=
      fun c hc => (sound.forest.child _ r hr c).mp hc
    rcases pruneChildren_removes gone removes fuel _ _ hchildren sound.forest sound.rooted with
      ⟨kept, goes⟩
    rcases pruneChildren_settles gone ih removes fuel sound live (Kept.refl sound.forest) children
      hchildren with ⟨settled, stays⟩
    have soundv := sound.of_kept kept
    -- below the node everything is tied already
    have under : Settled (s.nc.pnode p).mount (StrictlyBelow s.nc · (s.nc.pnode p).base) v := by
      intro q hq mount below
      rcases Relation.TransGen.tail'_iff.mp below with ⟨c, way, rc, hrc, parent⟩
      exact settled c ((sound.forest.child _ r hr c).mpr ⟨rc, hrc, parent⟩) q hq mount way
    have whole : ∀ {u : Sys D}, Kept (isRoot v.mt) v u → (p ∈ u.nc.pnodes → Tied u p) →
        Settled (s.nc.pnode p).mount (AtOrBelow s.nc · (s.nc.pnode p).base) u := by
      intro u kept' own q hq mount below
      rcases Relation.reflTransGen_iff_eq_or_transGen.mp below with same | strict
      · have both := kept.trans (kept.mt ▸ kept')
        rw [both.pruned.pnode] at mount same
        rcases alias_one sound (both.pruned.pnodes.subset hq) live same.symm mount with rfl
        exact own hq
      · exact under.kept kept' q hq mount strict
    rcases bind_ok.mp hcounted with ⟨n', v₁, hagain, hfork⟩
    rcases read_ok.mp hagain with ⟨rfl, rfl⟩
    by_cases more : count ≠ 0
    · rw [if_pos more] at hfork
      rcases pure_ok.mp hfork with ⟨-, rfl⟩
      rcases stays more with ⟨q, tied, mount, child⟩
      have hq := kept.pruned.pnodes.subset (tied_live soundv tied)
      have way := hangs_child sound live hq mount (children _ child)
      have own : Tied v p := tied_above tied (hangs_kept kept way)
      exact ⟨whole (Kept.refl soundv.forest) fun _ => own, fun _ => tied_live soundv own⟩
    rw [if_neg more] at hfork
    have alive : (v.nc.pnode p).ref ≠ 0 ∨ isRoot v.mt p → p ∈ v.nc.pnodes := by
      intro held
      rw [kept.pruned.pnode, kept.mt] at held
      exact (tied_self live held).live kept
    by_cases held : (v.nc.pnode p).ref ≠ 0
    · rw [if_pos held] at hfork
      rcases pure_ok.mp hfork with ⟨-, rfl⟩
      have here := alive (Or.inl held)
      exact ⟨whole (Kept.refl soundv.forest) fun _ => tied_self here (Or.inl held), fun _ => here⟩
    rw [if_neg held] at hfork
    rcases bind_ok.mp hfork with ⟨mnt, v₂, hmount, hlast⟩
    rcases deref_ok.mp hmount with ⟨hm, rfl⟩
    by_cases top : mnt.root = some p
    · rw [if_pos top] at hlast
      rcases pure_ok.mp hlast with ⟨-, rfl⟩
      have root : isRoot v.mt p := ⟨_, mnt, hm, top⟩
      have here := alive (Or.inr root)
      exact ⟨whole (Kept.refl soundv.forest) fun _ => tied_self here (Or.inr root), fun _ => here⟩
    rw [if_neg top] at hlast
    rcases bind_ok.mp hlast with ⟨u, w, hgone, hend⟩
    rcases pure_ok.mp hend with ⟨rfl, rfl⟩
    have leaf := leaf_of_goes sound.forest kept hr (goes (not_not.mp more))
    rw [← kept.mt] at leaf
    have here : p ∈ v.nc.pnodes := (sysioPGone_forest gone soundv.forest leaf hgone).1
    have off : ¬ isRoot v.mt p := fun root => top (soundv.rooted p here root mnt hm)
    rcases sysioPGone_kept gone soundv.forest off leaf hgone with ⟨kept', lost⟩
    exact ⟨whole kept' fun still => absurd still lost, fun more => absurd rfl more⟩

theorem sysioPPrune_settles {p : Pno} {k : ℕ} {s t : Sys D} (sound : Sound s)
    (live : p ∈ s.nc.pnodes) (run : sysioPPrune e p s = .ok (k, t)) :
    Settled (s.nc.pnode p).mount (AtOrBelow s.nc · (s.nc.pnode p).base) t := by
  rcases bind_ok.mp run with ⟨depth, s₁, hread, hrun⟩
  rcases read_ok.mp hread with ⟨rfl, rfl⟩
  exact (pPrune_settles gone _ p s k t hrun sound live).1

end Runs

section Turns

/-- The state with another reference count for `p`. -/
def recount (s : Sys D) (p : Pno) (k : ℕ) : Sys D :=
  { s with nc.pnode := Function.update s.nc.pnode p { s.nc.pnode p with ref := k } }

variable {J : Sys D → Prop} {e : Env D} (d : Releases J e) {s t : Sys D} {p q : Pno} {k : ℕ}

theorem recount_links (s : Sys D) (p : Pno) (k : ℕ) (q : Pno) :
    links ((recount s p k).nc.pnode q) = links (s.nc.pnode q) := by
  unfold recount
  by_cases hq : q = p
  · rw [hq]
    simp only [Function.update_self]
    rfl
  · simp only [Function.update_of_ne hq]

theorem recount_other (s : Sys D) (k : ℕ) (hq : q ≠ p) :
    (recount s p k).nc.pnode q = s.nc.pnode q := Function.update_of_ne hq _ _

theorem recount_shape (s : Sys D) (p : Pno) (k : ℕ) : SameShape s.nc (recount s p k).nc :=
  ⟨recount_links s p k, fun _ => rfl, List.Perm.refl _, rfl, rfl, rfl, rfl, rfl⟩

include d in
/-- A node without a mount on it may have any count. -/
theorem formed_recount (formed : WellFormed J s) (bare : (s.nc.pnode p).cover = none) (k : ℕ) :
    WellFormed J (recount s p k) where
  sound := formed.sound.of_shape (recount_shape s p k) rfl
  covered := by
    intro q hq covered
    by_cases same : q = p
    · rw [same] at covered
      change (Function.update s.nc.pnode p { s.nc.pnode p with ref := k } p).cover ≠ none at covered
      rw [Function.update_self] at covered
      exact absurd bare covered
    · rw [recount_other s k same] at covered ⊢
      exact formed.covered q hq covered
  books := formed.books.aside ⟨rfl, rfl, rfl, rfl, rfl, rfl, rfl, rfl, rfl, rfl, rfl, rfl⟩
  driver := d.outside s _ rfl rfl formed.driver

/-- Letting `p` go unties nothing below it. -/
theorem tied_recount (sound : Sound s) (tied : Tied s q)
    (below : StrictlyBelow s.nc (s.nc.pnode q).base (s.nc.pnode p).base) (k : ℕ) :
    Tied (recount s p k) q := by
  rcases tied with ⟨a, live, way, held⟩
  have apart : a ≠ p := by
    rintro rfl
    have deep := atOrBelow_le sound.forest (way.live sound.forest live).2.2
    exact absurd deep (Nat.not_le.mpr (strictlyBelow_lt sound.forest below))
  refine ⟨a, live, ?_, ?_⟩
  · refine Relation.ReflTransGen.mono ?_ _ _ way
    rintro x y ⟨off, parent⟩
    exact ⟨off, (links_eq (recount_links s p k x)).1.trans parent⟩
  · rw [recount_other s k apart]
    exact held

include d

/-- One turn of the loop returns, and the node to visit next is live behind it. -/
theorem pReclaimNode_returns (formed : WellFormed J s) (live : p ∈ s.nc.pnodes) :
    Returns (pReclaimNode e p) s fun next t => WellFormed J t ∧
      ∀ q, next = some q → q ∈ t.nc.pnodes ∧
        RankedNames.behind q t.nc.pnodes < RankedNames.behind p s.nc.pnodes := by
  have gone : ∀ i, Moves OffInodes (e.ops.gone i) := fun i => (d.gone i).mono fun _ _ h => h.off
  by_cases held : (s.nc.pnode p).ref ≠ 0
  · refine returns_bind <| returns_read <| returns_ite (fun _ => returns_read ?_) fun idle => ?_
    · refine ⟨formed, ?_⟩
      intro q hq
      exact ⟨RankedNames.mem_of_nextOf hq, RankedNames.behind_nextOf formed.sound.forest.nodup hq⟩
    · exact absurd held idle
  have idle : (s.nc.pnode p).ref = 0 := not_not.mp held
  have bare : (s.nc.pnode p).cover = none := by
    by_contra covered
    exact formed.covered p live covered idle
  refine returns_bind <| returns_read <| returns_ite (fun h => absurd h held) fun _ => ?_
  -- the node is held while all below it is pruned
  have formedu := formed_recount d formed bare ((s.nc.pnode p).ref + 1)
  have hcount : ((recount s p ((s.nc.pnode p).ref + 1)).nc.pnode p) =
      { s.nc.pnode p with ref := (s.nc.pnode p).ref + 1 } := Function.update_self ..
  refine returns_bind <| returns_write <| returns_bind ?_
  change Returns (sysioPPrune e p) (recount s p ((s.nc.pnode p).ref + 1)) _
  have liveu : p ∈ (recount s p ((s.nc.pnode p).ref + 1)).nc.pnodes := live
  refine returns_mono (sysioPPrune_returns d formedu liveu) ?_
  rintro left v run ⟨trimmed, -⟩
  have settled := sysioPPrune_settles gone formedu.sound liveu run
  have kept := trimmed.kept
  have formedv := trimmed.formed
  have node := kept.pruned.pnode
  have hnode : v.nc.pnode p = { s.nc.pnode p with ref := (s.nc.pnode p).ref + 1 } := by
    rw [node]
    exact hcount
  have still : p ∈ v.nc.pnodes := by
    refine (tied_self liveu (Or.inl ?_)).live kept
    rw [hcount]
    exact Nat.succ_ne_zero _
  have queue : v.nc.pnodes.Sublist s.nc.pnodes := kept.pruned.pnodes
  have onward : ∀ q, nextOf p v.nc.pnodes = some q → q ∈ v.nc.pnodes ∧ q ≠ p ∧
      RankedNames.behind q v.nc.pnodes < RankedNames.behind p s.nc.pnodes := by
    intro q hq
    have fewer := RankedNames.behind_nextOf formedv.sound.forest.nodup hq
    refine ⟨RankedNames.mem_of_nextOf hq, ?_, fewer.trans_le (RankedNames.behind_sublist queue)⟩
    rintro rfl
    exact Nat.lt_irrefl _ fewer
  have barev : (v.nc.pnode p).cover = none := by
    rw [hnode]
    exact bare
  have formedw := formed_recount d formedv barev ((v.nc.pnode p).ref - 1)
  refine returns_bind <| returns_read <| returns_bind <| returns_bind <| returns_check ?_ <|
    returns_write ?_
  · apply decide_eq_true
    rw [hnode]
    exact Nat.succ_ne_zero _
  change Returns _ (recount v p ((v.nc.pnode p).ref - 1)) _
  refine returns_bind <| returns_read <| returns_ite (fun _ => returns_pure ⟨formedw, ?_⟩) fun _ => ?_
  · intro q hq
    rcases onward q hq with ⟨there, -, fewer⟩
    exact ⟨there, fewer⟩
  have livew : p ∈ (recount v p ((v.nc.pnode p).ref - 1)).nc.pnodes := still
  refine returns_bind <| returns_mono (sysioPPrune_returns d formedw livew) ?_
  rintro left' x - ⟨trimmed', -⟩
  refine returns_pure ⟨trimmed'.formed, ?_⟩
  intro q hq
  rcases onward q hq with ⟨there, apart, fewer⟩
  have kept' := trimmed'.kept
  refine ⟨?_, (RankedNames.behind_sublist kept'.pruned.pnodes).trans_lt fewer⟩
  -- the second run can take nothing but `p`
  by_contra lost
  have therew : q ∈ (recount v p ((v.nc.pnode p).ref - 1)).nc.pnodes := there
  rcases trimmed'.nodes q therew lost with ⟨mount, below⟩
  rcases links_eq (recount_links v p ((v.nc.pnode p).ref - 1) q) with ⟨-, baseq, mountq⟩
  rcases links_eq (recount_links v p ((v.nc.pnode p).ref - 1) p) with ⟨-, basep, mountp⟩
  rw [mountq, mountp] at mount
  rw [baseq, basep] at below
  have below : AtOrBelow v.nc (v.nc.pnode q).base (v.nc.pnode p).base := below
  rcases Relation.reflTransGen_iff_eq_or_transGen.mp below with same | strict
  · exact apart (alias_one formedv.sound there still same.symm mount)
  · have tied : Tied v q := by
      refine settled q there ?_ ?_
      · rw [← node]
        exact mount
      · rw [← node]
        exact below.of_pruned kept.pruned
    exact lost ((tied_recount formedv.sound tied strict _).live kept')

end Turns

section Runs

variable {J : Sys D → Prop} {e : Env D} (d : Releases J e) {s : Sys D} {p : Pno}

/-- The turns of the loop from a node on, with the state in which it comes to each node, to the state
in which it stops. -/
inductive Turns (e : Env D) (limit : ℕ) : Pno → Sys D → List (Pno × Sys D) → Sys D → Prop where
  | last {p : Pno} {s t : Sys D} {next : Option Pno} (turn : pReclaimNode e p s = .ok (next, t))
      (stop : next = none ∨ t.nc.nNames ≤ limit) : Turns e limit p s [(p, s)] t
  | more {p q : Pno} {s u t : Sys D} {visits : List (Pno × Sys D)}
      (turn : pReclaimNode e p s = .ok (some q, u)) (crowded : limit < u.nc.nNames)
      (rest : Turns e limit q u visits t) : Turns e limit p s ((p, s) :: visits) t

include d

/-- The loop ends, and every node it comes to is live. -/
theorem pReclaimLoop_turns (limit fuel : ℕ) (formed : WellFormed J s) (live : p ∈ s.nc.pnodes)
    (enough : RankedNames.behind p s.nc.pnodes < fuel) :
    ∃ visits t, pReclaimLoop e limit fuel p s = .ok ((), t) ∧ Turns e limit p s visits t ∧
      (∀ v ∈ visits, v.1 ∈ v.2.nc.pnodes) ∧ WellFormed J t ∧ Kept (isRoot s.mt) s t := by
  have gone : ∀ i, Moves OffInodes (e.ops.gone i) := fun i => (d.gone i).mono fun _ _ h => h.off
  induction fuel generalizing p s with
  | zero => exact absurd enough (Nat.not_lt_zero _)
  | succ fuel ih =>
    rcases pReclaimNode_returns d formed live with ⟨next, u, turn, formedu, onward⟩
    have kept := @pReclaimNode_prunes D (isRoot s.mt) e gone p s next u turn formed.sound.forest
      formed.sound.rooted
    have names : (Exec.read fun s => s.nc.nNames : Sysio D ℕ) u = .ok (u.nc.nNames, u) := rfl
    rw [pReclaimLoop, bind_run turn, bind_run names]
    have here : ∀ v ∈ [(p, s)], v.1 ∈ v.2.nc.pnodes := by
      intro v hv
      rcases List.mem_singleton.mp hv with rfl
      exact live
    cases next with
    | none => exact ⟨[(p, s)], u, rfl, .last turn (Or.inl rfl), here, formedu, kept⟩
    | some q =>
      rcases onward q rfl with ⟨there, fewer⟩
      by_cases crowded : limit < u.nc.nNames
      · rcases ih formedu there (by omega) with ⟨visits, t, run, turns, all, formedt, kept'⟩
        refine ⟨(p, s) :: visits, t, ?_, .more turn crowded turns, ?_, formedt, ?_⟩
        · simp only [if_pos crowded]
          exact run
        · intro v hv
          rcases List.mem_cons.mp hv with rfl | hv
          · exact live
          · exact all v hv
        · exact kept.trans (kept.mt ▸ kept')
      · refine ⟨[(p, s)], u, ?_, .last turn (Or.inr (Nat.not_lt.mp crowded)), here, formedu, kept⟩
        simp only [if_neg crowded]
        rfl

/-- What `p_reclaim` has done. -/
structure Reclaimed (e : Env D) (s t : Sys D) : Prop where
  visited : ∃ p visits u, s.nc.pnodes.head? = some p ∧
    Turns e (s.nc.maxNames / 2) p s visits u ∧ (∀ v ∈ visits, v.1 ∈ v.2.nc.pnodes) ∧
    t.nc = { u.nc with maxNames := t.nc.maxNames }
  records : t.nc.pnode = s.nc.pnode
  spared : ∀ q ∈ s.nc.pnodes, (s.nc.pnode q).ref ≠ 0 → q ∈ t.nc.pnodes
  room : t.nc.nNames ≤ s.nc.maxNames / 2 ∨ s.nc.maxNames + s.nc.maxNames / 2 ≤ t.nc.maxNames

/-- How many names there may be is nothing to the forest. -/
theorem formed_limit (formed : WellFormed J s) (n : ℕ) :
    WellFormed J { s with nc.maxNames := n } := by
  have shape : SameShape s.nc { s.nc with maxNames := n } :=
    ⟨fun _ => rfl, fun _ => rfl, List.Perm.refl _, rfl, rfl, rfl, rfl, rfl⟩
  constructor
  · exact formed.sound.of_shape shape rfl
  · exact formed.covered
  · exact formed.books.aside ⟨rfl, rfl, rfl, rfl, rfl, rfl, rfl, rfl, rfl, rfl, rfl, rfl⟩
  · exact d.outside s _ rfl rfl formed.driver

theorem pReclaim_returns (formed : WellFormed J s) (queue : s.nc.pnodes ≠ []) :
    Returns (pReclaim e) s fun _ t => WellFormed J t ∧ Reclaimed e s t := by
  have gone : ∀ i, Moves OffInodes (e.ops.gone i) := fun i => (d.gone i).mono fun _ _ h => h.off
  cases hq : s.nc.pnodes with
  | nil => exact absurd hq queue
  | cons p l =>
    have live : p ∈ s.nc.pnodes := by
      rw [hq]
      exact List.mem_cons_self
    have enough : RankedNames.behind p s.nc.pnodes < s.nc.pnodes.length := by
      rw [hq, RankedNames.behind, if_pos rfl]
      exact Nat.lt_succ_self _
    rcases pReclaimLoop_turns d (s.nc.maxNames / 2) s.nc.pnodes.length formed live enough with
      ⟨visits, u, run, turns, all, formedu, kept⟩
    have spared : ∀ q ∈ s.nc.pnodes, (s.nc.pnode q).ref ≠ 0 → q ∈ u.nc.pnodes := by
      intro q hlive held
      exact (tied_self hlive (Or.inl held)).live kept
    have head : s.nc.pnodes.head? = some p := by
      rw [hq]
      rfl
    refine returns_bind <| returns_read ?_
    rw [head]
    refine returns_bind <| returns_of_run run <| returns_bind <| returns_read <|
      returns_when (fun crowded => returns_write ?_) fun within => ?_
    · constructor
      · exact formed_limit d formedu _
      · refine ⟨⟨p, visits, u, head, turns, all, rfl⟩, kept.pruned.pnode, spared, Or.inr ?_⟩
        exact Nat.add_le_add_right kept.pruned.maxNames _
    · exact ⟨formedu, ⟨p, visits, u, head, turns, all, rfl⟩, kept.pruned.pnode, spared,
        Or.inl (Nat.not_lt.mp within)⟩

/-- What a new base node leaves of a node whose directory it is made in. -/
structure Extended (s : Sys D) (p : Pno) (made : Option PbId) (t : Sys D) : Prop where
  live : p ∈ t.nc.pnodes
  record : t.nc.pnode p = s.nc.pnode p
  base : ∃ r, t.nc.base (s.nc.pnode p).base = some r ∧ ∀ b, made = some b → b ∈ r.children

/-- `_sysio_pb_new` returns, and the node that is extended survives. -/
theorem sysioPbNew_returns (formed : WellFormed J s) (live : p ∈ s.nc.pnodes)
    (held : (s.nc.pnode p).ref ≠ 0) {name : Qstr} (hashed : name.name ≠ [] → name.hashval ≠ 0)
    (ino : Option InoId) :
    Returns (sysioPbNew e name (some (s.nc.pnode p).base) ino) s (Extended s p) := by
  have queue : s.nc.pnodes ≠ [] := List.ne_nil_of_mem live
  have reclaim : Returns (Exec.when (s.nc.maxNames < s.nc.nNames) (pReclaim e)) s fun _ u =>
      WellFormed J u ∧ p ∈ u.nc.pnodes ∧ u.nc.pnode = s.nc.pnode := by
    refine returns_when (fun _ => returns_mono (pReclaim_returns d formed queue) ?_) fun _ => ?_
    · rintro _ u - ⟨formedu, reclaimed⟩
      exact ⟨formedu, reclaimed.spared p live held, reclaimed.records⟩
    · exact ⟨formed, live, rfl⟩
  refine returns_bind <| returns_read <| returns_bind <| returns_mono reclaim ?_
  rintro _ u - ⟨formedu, there, records⟩
  rcases formedu.sound.forest.based p there with ⟨r, hr⟩
  rw [records] at hr
  have older := formedu.sound.forest.lt_nextBase hr
  have hmalloc : malloc e u = .ok (e.malloc u.mallocs, { u with mallocs := u.mallocs + 1 }) := rfl
  refine returns_bind <| returns_of_run hmalloc ?_
  refine returns_ite (fun _ => returns_pure ?_) fun _ => ?_
  · refine ⟨there, congrFun records p, r, hr, ?_⟩
    intro b hb
    cases hb
  refine returns_bind <| returns_read <| returns_bind ?_
  -- from here on only the chain of the name has been written
  have link : ∀ v : Sys D, v.nc.pnodes = u.nc.pnodes → v.nc.pnode = u.nc.pnode →
      v.nc.base = u.nc.base → v.nc.nextBase = u.nc.nextBase → Returns (do
        ifSome (some (s.nc.pnode p).base) fun q =>
          modBase q fun rq => { rq with children := u.nc.nextBase :: rq.children }
        Exec.write fun x =>
          { x with
            nc.base := Function.update x.nc.base u.nc.nextBase
              (some { name := name, ino := ino, children := [], aliases := [],
                      parent := some (s.nc.pnode p).base })
            nc.nextBase := u.nc.nextBase + 1
            nc.nNames := x.nc.nNames + 1 }
        return some u.nc.nextBase : Sysio D (Option PbId)) v (Extended s p) := by
    intro v pnodes pnode base next
    have hv : v.nc.base (s.nc.pnode p).base = some r := by
      rw [base]
      exact hr
    refine returns_bind <| returns_bind <| returns_deref hv <| returns_write <| returns_bind <|
      returns_write <| returns_pure ⟨?_, ?_, { r with children := u.nc.nextBase :: r.children }, ?_, ?_⟩
    · change p ∈ v.nc.pnodes
      rw [pnodes]
      exact there
    · change v.nc.pnode p = s.nc.pnode p
      rw [pnode, records]
    · change Function.update (Function.update v.nc.base (s.nc.pnode p).base _) u.nc.nextBase _ _ = _
      rw [Function.update_of_ne (Nat.ne_of_lt older), Function.update_self]
    · intro b hb
      rcases Option.some.inj hb with rfl
      exact List.mem_cons_self
  refine returns_when (fun named => ?_) fun _ => link _ rfl rfl rfl rfl
  exact returns_bind <| returns_check (decide_eq_true (hashed named)) <|
    returns_write (link _ rfl rfl rfl rfl)

end Runs

section Fuse

open CallRules FuseDriver FuseSystem InodeMoves ListedNodes MountForest PruneCount SysioMount
open SysioSystem

variable {B : Type} {h : Host B} {s : Sys (FuseData B)}

/-- The limit on the number of names is only raised. -/
def Wider (s t : Sys D) : Prop := s.nc.maxNames ≤ t.nc.maxNames

instance : IsPreorder (Sys D) Wider where
  refl _ := Nat.le_refl _
  trans _ _ _ := Nat.le_trans

theorem wider_outside (s t : Sys D) (_ : t.ic = s.ic) (_ : t.ft = s.ft) (_ : t.drv = s.drv)
    (names : s.nc.maxNames ≤ t.nc.maxNames) : Wider s t := names

theorem wider_inos (s t : Sys D) (k : InosOnly s t) : Wider s t := Nat.le_of_eq k.maxNames.symm

theorem wider_off (s t : Sys D) (k : OffInodes s t) : Wider s t := wider_inos s t (off_inos k)

theorem wider_acts : ActMoves Wider (fuseEnv h) :=
  fuse_acts wider_inos fun s t k => Nat.le_of_eq (by rw [k.nc])

theorem fsswLookup_wider (fstype : Bytes) (mount : FsswopMount (FuseData B))
    (hmount : fsswLookup h fstype = some mount) (source : Bytes) (flags : ℕ) (tocover : Option Pno) :
    Moves Wider (mount source flags fstype tocover) := by
  have release : ∀ i, Moves Wider (iRele (fuseEnv h) i) := wider_acts.iRele
  have pbGone := pbGone_moves wider_outside release
  refine fsswLookup_moves (sysioFuseMountInit_acts wider_inos pbGone fun k f rooti flags tocover => ?_)
    fstype mount hmount source flags tocover
  refine moves_bind (pbNew_moves wider_outside release _ _ _) fun rootpb => ?_
  cases rootpb with
  | none => exact mountInitError_acts wider_inos pbGone _ _ _ _ _
  | some rootpb =>
    exact moves_bind (doMount_moves wider_outside release wider_acts.lookup _ _ _ _) fun res =>
      moves_ite (fun _ => mountInitError_acts wider_inos pbGone _ _ _ _ _) fun _ => moves_pure _

theorem step_wider (call : Call) : Moves Wider (step (fuseLibrary h) call) := by
  have fsopGone : ∀ f, Moves OffInodes ((fuseEnv h).ops.fsopGone f) := fun f =>
    (fuseFsopGone_driver f).mono fun _ _ k => k.off
  exact InodeMoves.step_moves (fun s t ic drv names => names) wider_acts fsswLookup_wider
    (fun f => (fsRele_off fuseEnv_off.gone fsopGone f).mono wider_off) call

/-- In every state that a program can come to, there may be as many names as at first. -/
theorem reached_wide {b : B} {ok : Sys (FuseData B) → Call → Prop} (run : FuseReached h b ok s) :
    2 * NAMES_TABLE_LEN ≤ s.nc.maxNames := by
  rcases run with ⟨s₀, boot, run⟩
  refine run.invariant (I := fun s => 2 * NAMES_TABLE_LEN ≤ s.nc.maxNames) ?_ ?_
  · intro s call a t hs _ last
    exact Nat.le_trans hs (step_wider call s a t last)
  · exact sysioMountRoot_moves (R := Wider) fsswLookup_wider
      (fun _ _ => moves_write fun _ => Nat.le_refl _) (outside_pRef wider_outside) [] fuseTypeName 2
      _ _ _ boot

/-- In a well-formed forest that is not empty, `p_reclaim` ends; every node it comes to is live; no
record of a path node is changed and no referenced node destroyed; and in the end the names are down
to half of what there may be, or there may be more. So a node in whose directory `_sysio_pb_new` makes
a new base node survives while it is referenced. -/
theorem reclaim_specification (h : Host B) (formed : WellFormed Served s)
    (queue : s.nc.pnodes ≠ []) (wide : 2 ≤ s.nc.maxNames) :
    (∃ t, pReclaim (fuseEnv h) s = .ok ((), t) ∧ Reclaimed (fuseEnv h) s t ∧
      (t.nc.nNames ≤ s.nc.maxNames / 2 ∨ s.nc.maxNames < t.nc.maxNames)) ∧
    ∀ p ∈ s.nc.pnodes, (s.nc.pnode p).ref ≠ 0 → ∀ (name : Qstr) (ino : Option InoId),
      (name.name ≠ [] → name.hashval ≠ 0) →
      ∃ made t, sysioPbNew (fuseEnv h) name (some (s.nc.pnode p).base) ino s = .ok (made, t) ∧
        Extended s p made t := by
  constructor
  · rcases pReclaim_returns (@fuse_releases B h) formed queue with ⟨_, t, run, -, reclaimed⟩
    refine ⟨t, run, reclaimed, ?_⟩
    rcases reclaimed.room with few | more
    · exact Or.inl few
    · exact Or.inr (by omega)
  · intro p live held name ino hashed
    exact sysioPbNew_returns (@fuse_releases B h) formed live held hashed ino

/-- The directories "d" and "e" are made beside the file "f" that is open. -/
def besideFile : List Call :=
  .mkdir [98, 98, 58, 47, 98, 47, 101] 0o755 :: .mkdir [98, 98, 58, 47, 98, 47, 100] 0o755 ::
    Dispatch.fileOpen

theorem besideFile_reached : FuseReached calmHost () (fun _ _ => True) (calmRun besideFile) := by
  have run : runCalls (fuseLibrary calmHost) fuseTypeName besideFile (initState (initData ())) =
      .ok ((), calmRun besideFile) := ok_of_value (by decide +kernel)
  exact runCalls_reached run

theorem besideFile_formed : WellFormed Served (calmRun besideFile) := by
  have covered : ∀ p ∈ (calmRun besideFile).nc.pnodes,
      ((calmRun besideFile).nc.pnode p).cover ≠ none →
        ((calmRun besideFile).nc.pnode p).ref ≠ 0 := by
    decide +kernel
  exact formed_of_reached besideFile_reached covered (by decide +kernel) (by decide +kernel)

/-- There are six names, and there may be five. -/
def fullState : Sys (FuseData Unit) := { calmRun besideFile with nc.maxNames := 5 }

/-- The three nodes without a reference go, the other three stay, and the limit is raised. -/
theorem reclaim_specification_full :
    (fullState.nc.pnodes = [107, 106, 110, 109, 108, 105] ∧
      ((pReclaim (fuseEnv calmHost)).final fullState).nc.pnodes = [110, 109, 108]) ∧
    (∃ t, pReclaim (fuseEnv calmHost) fullState = .ok ((), t) ∧
      Reclaimed (fuseEnv calmHost) fullState t ∧
      (t.nc.nNames ≤ 5 / 2 ∨ 5 < t.nc.maxNames)) ∧
    ∀ p ∈ fullState.nc.pnodes, (fullState.nc.pnode p).ref ≠ 0 → ∀ (name : Qstr) (ino : Option InoId),
      (name.name ≠ [] → name.hashval ≠ 0) →
      ∃ made t, sysioPbNew (fuseEnv calmHost) name (some (fullState.nc.pnode p).base) ino fullState =
          .ok (made, t) ∧ Extended fullState p made t := by
  have nodes : fullState.nc.pnodes = [107, 106, 110, 109, 108, 105] := by decide +kernel
  have left : ((pReclaim (fuseEnv calmHost)).final fullState).nc.pnodes = [110, 109, 108] := by
    decide +kernel
  have formed : WellFormed Served fullState :=
    formed_limit (@fuse_releases Unit calmHost) besideFile_formed 5
  have queue : fullState.nc.pnodes ≠ [] := by
    rw [nodes]
    exact List.cons_ne_nil _ _
  have wide : 2 ≤ fullState.nc.maxNames := by decide
  exact ⟨⟨nodes, left⟩, reclaim_specification calmHost formed queue wide⟩

end Fuse

end Reclaim
