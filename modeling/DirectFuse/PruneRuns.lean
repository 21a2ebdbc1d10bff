import DirectFuse.InodeAccounts
import DirectFuse.Lineage
import DirectFuse.Returning

/-! Pruning returns. In a well-formed state no assertion on the way fails, no list is left while it
is walked through, and what goes lies on one mount, at or below the node the run started from. -/
namespace PruneRuns

open ExecLogic Returning SysioState SysioInode CoreMoves FuseMoves Tally InodeRefs InodeAccounts
open NameForest PruneForest FusePlain WalkForest Lineage

variable {D : Type}

/-- A driver whose inodes can be released in every state that meets `J`. -/
structure Releases (J : Sys D → Prop) (e : Env D) : Prop where
  gone : ∀ i, Moves DriverOnly (e.ops.gone i)
  outside : ∀ s t : Sys D, t.ic = s.ic → t.drv = s.drv → J s → J t
  iRele : ∀ i s r, J s → s.ic.inode i = some r → r.ref ≠ 0 → s.ic.nInodes ≠ 0 →
    Returns (iRele e i) s fun _ => J

/-- The path nodes, the mounts on them and the inodes under them are in order: a node with a mount
on it is referenced, and an inode has a reference for each of its names. -/
structure WellFormed (J : Sys D → Prop) (s : Sys D) : Prop where
  sound : Sound s
  covered : ∀ p ∈ s.nc.pnodes, (s.nc.pnode p).cover ≠ none → (s.nc.pnode p).ref ≠ 0
  books : Books True (fun _ => 0) s
  driver : J s

variable {J : Sys D → Prop}

theorem WellFormed.of_kept {s t : Sys D} (h : WellFormed J s) (k : Kept (isRoot s.mt) s t)
    (books : Books True (fun _ => 0) t) (driver : J t) : WellFormed J t where
  sound := h.sound.of_kept k
  covered := by
    rw [k.pruned.pnode]
    exact fun p hp => h.covered p (k.pruned.pnodes.subset hp)
  books := books
  driver := driver

/-- Pruning has led from `s` to `t`, and what is gone lies on the mount `m` and within `W`. -/
structure Trimmed (J : Sys D → Prop) (m : MntId) (W : PbId → Prop) (s t : Sys D) : Prop where
  formed : WellFormed J t
  kept : Kept (isRoot s.mt) s t
  nodes : ∀ p ∈ s.nc.pnodes, p ∉ t.nc.pnodes → (s.nc.pnode p).mount = m ∧ W (s.nc.pnode p).base
  bases : ∀ b r, s.nc.base b = some r → t.nc.base b = none → W b

section Trimmed

variable {m : MntId} {W W' : PbId → Prop} {s t u : Sys D} {b c c' : PbId}

theorem Trimmed.refl (h : WellFormed J s) : Trimmed J m W s s where
  formed := h
  kept := Kept.refl h.sound.forest
  nodes _ live gone := absurd live gone
  bases b r hr gone := by
    rw [hr] at gone
    cases gone

theorem Trimmed.trans (h : Trimmed J m W s t) (k : Trimmed J m W t u) : Trimmed J m W s u where
  formed := k.formed
  kept := h.kept.trans (h.kept.mt ▸ k.kept)
  nodes p live gone := by
    by_cases mid : p ∈ t.nc.pnodes
    · have := k.nodes p mid gone
      rw [h.kept.pruned.pnode] at this
      exact this
    · exact h.nodes p live mid
  bases b r hr gone := by
    cases mid : t.nc.base b with
    | none => exact h.bases b r hr mid
    | some r' => exact k.bases b r' mid gone

theorem Trimmed.widen (h : Trimmed J m W s t) (wider : ∀ b, W b → W' b) : Trimmed J m W' s t where
  formed := h.formed
  kept := h.kept
  nodes p live gone := ⟨(h.nodes p live gone).1, wider _ (h.nodes p live gone).2⟩
  bases b r hr gone := wider b (h.bases b r hr gone)

/-- A base node outside stays in its directory. -/
theorem Trimmed.parentOf (h : Trimmed J m W s t) (hc : ParentOf s.nc c b) (off : ¬ W c) :
    ParentOf t.nc c b := by
  obtain ⟨r, hr, hb⟩ := hc
  cases ht : t.nc.base c with
  | none => exact absurd (h.bases c r hr ht) off
  | some r' =>
    obtain ⟨r₀, hr₀, -, -, parent⟩ := h.kept.pruned.base c r' ht
    obtain rfl : r = r₀ := Option.some.inj (hr.symm.trans hr₀)
    exact ⟨r', ht, parent.trans hb⟩

theorem Trimmed.base_stays (h : Trimmed J m W s t) (hb : s.nc.base b ≠ none) (off : ¬ W b) :
    t.nc.base b ≠ none := by
  intro ht
  obtain ⟨r, hr⟩ := Option.ne_none_iff_exists'.mp hb
  exact off (h.bases b r hr ht)

/-- A run below one child of `b`, as part of a run strictly below `b`. -/
theorem Trimmed.child (h : Trimmed J m (StrictlyBelow s.nc · b) s t)
    (k : Trimmed J m (AtOrBelow t.nc · c) t u) (hc : ParentOf t.nc c b) :
    Trimmed J m (StrictlyBelow s.nc · b) s u := by
  refine h.trans (k.widen fun x below => ?_)
  have child : ParentOf s.nc c b := by
    obtain ⟨r', hr', parent'⟩ := hc
    obtain ⟨r, hr, -, -, parent⟩ := h.kept.pruned.base c r' hr'
    exact ⟨r, hr, parent ▸ parent'⟩
  exact Relation.TransGen.tail' (below.of_pruned h.kept.pruned) child

/-- What is left of the children of `b` when those in front of `l` have been gone through. -/
structure Remain (b : PbId) (l : List PbId) (s : Sys D) : Prop where
  nodup : l.Nodup
  child : ∀ c ∈ l, ParentOf s.nc c b
  top : s.nc.base b ≠ none

theorem Remain.next {l : List PbId} (h : Remain b (c :: l) s) (formed : WellFormed J s)
    (k : Trimmed J m (AtOrBelow s.nc · c) s t) : Remain b l t := by
  obtain ⟨front, rest⟩ := List.nodup_cons.mp h.nodup
  have hc := h.child c (List.mem_cons_self ..)
  constructor
  · exact rest
  · intro c' hc'
    refine k.parentOf (h.child c' (List.mem_cons_of_mem _ hc')) ?_
    refine not_atOrBelow_sibling formed.sound.forest hc (h.child c' (List.mem_cons_of_mem _ hc')) ?_
    rintro rfl
    exact front hc'
  · exact k.base_stays h.top (not_atOrBelow_child formed.sound.forest hc)

theorem remain_children {r : PnodeBase} (formed : WellFormed J s) (hr : s.nc.base b = some r) :
    Remain b r.children s where
  nodup := formed.sound.forest.childNodup b r hr
  child c hc := (formed.sound.forest.child b r hr c).mp hc
  top := by
    rw [hr]
    exact Option.some_ne_none r

end Trimmed

section Bases

variable {e : Env D} (d : Releases J e) {m : MntId} {s : Sys D} {b : PbId} {r : PnodeBase}

/-- An inode with a name is there and has a reference. -/
theorem named_held {i : InoId} (books : Books True (fun _ => 0) s) (hr : s.nc.base b = some r)
    (hi : r.ino = some i) : ∃ n, s.ic.inode i = some n ∧ n.ref ≠ 0 ∧ s.ic.nInodes ≠ 0 := by
  obtain ⟨tables, leak, -, balance⟩ := books
  have named : 0 < baseHolders s i :=
    tally_pos (tables.lt_nextBase hr) hr (beq_iff_eq.mpr hi)
  have count := balance i
  cases hn : s.ic.inode i with
  | none =>
    simp only [refOf, hn, Option.elim_none, holders] at count
    omega
  | some n =>
    refine ⟨n, rfl, ?_, ?_⟩
    · simp only [refOf, hn, Option.elim_some, holders] at count
      omega
    · have listed : i ∈ s.ic.inodes := by
        rw [tables.inodes, hn]
        exact Option.some_ne_none n
      rw [tables.nInodes]
      exact Nat.ne_of_gt (List.length_pos_of_mem listed)

theorem pbDestroy_returns {root : Pno → Prop} (forest : Forest root s.nc)
    (hr : s.nc.base b = some r) (bare : r.aliases = []) (leaf : r.children = [])
    (free : r.ino = none) : Returns (pbDestroy b) s fun _ _ => True := by
  have counted : s.nc.nNames ≠ 0 := by
    rw [forest.nNames]
    exact Nat.ne_of_gt (tally_pos (forest.lt_nextBase hr) hr rfl)
  refine returns_bind <| returns_check (decide_eq_true counted) <| returns_bind <| returns_write <|
    returns_bind <| returns_deref hr <| returns_bind <| returns_check (by simp [bare]) <|
    returns_bind <| returns_check (by simp [leaf]) <| returns_bind <|
    returns_check (by simp [free]) <| returns_bind ?_
  have rest : ∀ u : Sys D, u.nc.base = s.nc.base → Returns (do
      ifSome r.parent fun q => modBase q fun rq => { rq with children := rq.children.erase b }
      Exec.write fun s => { s with nc.base := Function.update s.nc.base b none }) u
      fun _ _ => True := by
    intro u hu
    cases hq : r.parent with
    | none => exact returns_bind <| returns_pure <| returns_write trivial
    | some q =>
      obtain ⟨-, rq, hrq⟩ := forest.parent b r q hr hq
      have here : u.nc.base q = some rq := by
        rw [hu]
        exact hrq
      exact returns_bind <| returns_bind <| returns_deref here <| returns_write <|
        returns_write trivial
  exact returns_when (fun _ => returns_write (rest _ rfl)) fun _ => rest _ rfl

include d

theorem sysioPbGone_returns (formed : WellFormed J s) (hr : s.nc.base b = some r)
    (bare : r.aliases = []) (leaf : r.children = []) :
    Returns (sysioPbGone e b) s fun _ t => Trimmed J m (AtOrBelow s.nc · b) s t := by
  have off : ∀ i, Moves OffInodes (e.ops.gone i) := fun i => (d.gone i).mono fun _ _ h => h.off
  have release : Returns (ifSome r.ino (iRele e)) s fun _ u => OffInodes s u ∧ J u := by
    cases hi : r.ino with
    | none => exact returns_pure ⟨Std.Refl.refl s, formed.driver⟩
    | some i =>
      obtain ⟨n, hn, held, counted⟩ := named_held formed.books hr hi
      refine returns_mono (d.iRele i s n formed.driver hn held counted) fun x u run hu => ⟨?_, hu⟩
      exact PruneForest.iRele_off off i s x u run
  have run : Returns (sysioPbGone e b) s fun _ => J := by
    refine returns_bind <| returns_deref hr <| returns_bind <| returns_mono release ?_
    rintro _ u - ⟨hu, ju⟩
    have here : u.nc.base b = some r := by
      rw [hu.nc]
      exact hr
    refine returns_bind <| returns_bind <| returns_deref here <| returns_write ?_
    have shape : SameShape u.nc { u.nc with
        base := Function.update u.nc.base b (some { r with ino := none }) } := by
      refine ⟨fun _ => rfl, fun c => ?_, List.Perm.refl _, rfl, rfl, rfl, rfl, rfl⟩
      by_cases hc : c = b
      · subst hc
        simp [here, unbound]
      · simp [hc]
    have forest : Forest (isRoot s.mt) u.nc := by
      rw [hu.nc]
      exact formed.sound.forest
    refine returns_mono (pbDestroy_returns (forest.sameShape shape)
      (Function.update_self b _ u.nc.base) bare leaf rfl) fun x t destroyed _ => ?_
    have names := pbDestroy_names b _ x t destroyed
    exact d.outside u t names.ic names.drv ju
  refine returns_mono run fun x t gone jt => ?_
  have kept := sysioPbGone_prunes off b s x t gone formed.sound.forest formed.sound.rooted
  obtain ⟨r', hr', -, -, nc, -⟩ := sysioPbGone_forest off formed.sound.forest gone
  have pnodes : t.nc.pnodes = s.nc.pnodes := by
    rw [nc]
    rfl
  constructor
  case formed => exact formed.of_kept kept (sysioPbGone_keep d.gone b s x t gone _ formed.books) jt
  case kept => exact kept
  case nodes =>
    intro p live lost
    exact absurd (pnodes ▸ live) lost
  case bases =>
    intro c rc hrc lost
    by_cases hc : c = b
    · rw [hc]
      exact Relation.ReflTransGen.refl
    · have stays : (removeBase s.nc b).base c = some (dropChild b rc) :=
        removeBase_some.mpr ⟨hc, rc, hrc, rfl⟩
      rw [← nc, lost] at stays
      cases stays

/-- What the loop over base nodes below `b` does, where `recur` prunes one of them. -/
theorem pruneBases_returns {recur : PbId → Sysio D Unit} (l : List PbId)
    (once : ∀ c u r, Trimmed J m (StrictlyBelow s.nc · b) s u → ParentOf u.nc c b →
      u.nc.base c = some r → r.aliases = [] →
      Returns (recur c) u fun _ t => Trimmed J m (AtOrBelow u.nc · c) u t) {u : Sys D}
    (hu : Trimmed J m (StrictlyBelow s.nc · b) s u) (left : Remain b l u) :
    Returns (pruneBases e recur l) u fun _ t =>
      Trimmed J m (StrictlyBelow s.nc · b) s t ∧ t.nc.base b ≠ none := by
  induction l generalizing u with
  | nil => exact returns_pure ⟨hu, left.top⟩
  | cons c l ih =>
    have hc := left.child c (List.mem_cons_self ..)
    obtain ⟨r, hr, -⟩ := id hc
    have step : Returns (Exec.when (r.aliases = [])
        (if r.children ≠ [] then recur c else sysioPbGone e c)) u fun _ t =>
        Trimmed J m (AtOrBelow u.nc · c) u t := by
      refine returns_when (fun bare => returns_ite (fun _ => once c u r hu hc hr bare) fun leaf => ?_)
        fun _ => Trimmed.refl hu.formed
      exact sysioPbGone_returns d hu.formed hr bare (not_not.mp leaf)
    refine returns_bind <| returns_deref hr <| returns_bind <| returns_mono step ?_
    exact fun _ t _ trimmed => ih (hu.child trimmed hc) (left.next hu.formed trimmed)

/-- The children of a base node have greater numbers, so the recursion has room for them. -/
theorem sysioPrune_returns (fuel b : ℕ) {s : Sys D} {r : PnodeBase} (formed : WellFormed J s)
    (hr : s.nc.base b = some r) (bare : r.aliases = []) (enough : s.nc.nextBase ≤ b + fuel) :
    Returns (sysioPrune e fuel b) s fun _ t => Trimmed J m (AtOrBelow s.nc · b) s t := by
  induction fuel generalizing b s r with
  | zero =>
    have := formed.sound.forest.lt_nextBase hr
    omega
  | succ fuel ih =>
    have loop : Returns (pruneBases e (sysioPrune e fuel) r.children) s fun _ t =>
        Trimmed J m (StrictlyBelow s.nc · b) s t ∧ t.nc.base b ≠ none := by
      apply pruneBases_returns d r.children _ (Trimmed.refl formed) (remain_children formed hr)
      intro c u rc hu hc hrc barec
      have older := parentOf_lt hu.formed.sound.forest hc
      have same := hu.kept.pruned.nextBase
      exact ih c hu.formed hrc barec (by omega)
    refine returns_bind <| returns_deref hr <| returns_bind <| returns_mono loop ?_
    rintro _ u - ⟨hu, top⟩
    have below : Trimmed J m (AtOrBelow s.nc · b) s u :=
      hu.widen fun x below => below.to_reflTransGen
    obtain ⟨r', hr'⟩ := Option.ne_none_iff_exists'.mp top
    refine returns_bind <| returns_deref hr' <| returns_ite (fun _ => returns_pure below) fun leaf => ?_
    -- a base node gets no aliases on the way
    have bare' : r'.aliases = [] := by
      apply List.eq_nil_iff_forall_not_mem.mpr
      intro p hp
      obtain ⟨live, base⟩ := (hu.kept.forest.alias_ b r' hr' p).mp hp
      rw [hu.kept.pruned.pnode] at base
      have old := (formed.sound.forest.alias_ b r hr p).mpr ⟨hu.kept.pruned.pnodes.subset live, base⟩
      rw [bare] at old
      cases old
    refine returns_mono (sysioPbGone_returns (m := m) d hu.formed hr' bare' (not_not.mp leaf)) ?_
    exact fun _ t _ gone => below.trans (gone.widen fun x way => way.of_pruned hu.kept.pruned)

end Bases

section Nodes

variable {e : Env D} (d : Releases J e) {m : MntId} {s t u : Sys D} {p : Pno}

/-- Something that hangs on `p` may not go: it is referenced, or it is the root of a mount. -/
def Tied (s : Sys D) (p : Pno) : Prop := ∃ q ∈ s.nc.pnodes,
  Hangs (isRoot s.mt) s.nc.pnode q p ∧ ((s.nc.pnode q).ref ≠ 0 ∨ isRoot s.mt q)

theorem tied_self (live : p ∈ s.nc.pnodes) (held : (s.nc.pnode p).ref ≠ 0 ∨ isRoot s.mt p) :
    Tied s p := ⟨p, live, Relation.ReflTransGen.refl, held⟩

theorem Tied.of_kept (k : Kept (isRoot s.mt) s t) (h : Tied t p) : Tied s p := by
  obtain ⟨q, live, way, held⟩ := h
  rw [k.pruned.pnode, k.mt] at way held
  exact ⟨q, k.pruned.pnodes.subset live, way, held⟩

/-- A run that prunes leaves what is tied, and what it hangs on. -/
theorem Tied.live (k : Kept (isRoot s.mt) s t) (h : Tied s p) : p ∈ t.nc.pnodes := by
  obtain ⟨q, live, way, held⟩ := h
  have stays : q ∈ t.nc.pnodes := by
    by_contra lost
    obtain ⟨free, -, off⟩ := k.pruned.gone q live lost
    rcases held with held | root
    · exact held free
    · exact off root
  rw [← k.pruned.pnode] at way
  exact (way.live k.forest stays).1

/-- A node of the mount whose base node is in the directory of `p` hangs on `p`. -/
theorem hangs_child {q : Pno} (sound : Sound s) (live : p ∈ s.nc.pnodes) (child : q ∈ s.nc.pnodes)
    (mount : (s.nc.pnode q).mount = (s.nc.pnode p).mount)
    (under : ParentOf s.nc (s.nc.pnode q).base (s.nc.pnode p).base) :
    Hangs (isRoot s.mt) s.nc.pnode q p :=
  hangs_of_below sound child live mount (Relation.ReflTransGen.single under)

include d

/-- An idle node that nothing hangs on goes, and its base node with it when it was the last alias. -/
theorem sysioPGone_returns (formed : WellFormed J s) (live : p ∈ s.nc.pnodes)
    (idle : (s.nc.pnode p).ref = 0) (off : ¬ isRoot s.mt p)
    (leaf : ∀ c ∈ s.nc.pnodes, ¬ isRoot s.mt c → (s.nc.pnode c).parent ≠ p) :
    Returns (sysioPGone e p) s fun _ t =>
      Trimmed J (s.nc.pnode p).mount (AtOrBelow s.nc · (s.nc.pnode p).base) s t := by
  have gone : ∀ i, Moves OffInodes (e.ops.gone i) := fun i => (d.gone i).mono fun _ _ h => h.off
  have bare : (s.nc.pnode p).cover = none := by
    by_contra covered
    exact formed.covered p live covered idle
  obtain ⟨rb, hrb⟩ := formed.sound.forest.based p live
  have run : Returns (sysioPGone e p) s fun _ => J := by
    refine returns_bind <| returns_read <| returns_bind <| returns_check (decide_eq_true idle) <|
      returns_bind <| returns_check (by rw [bare]; rfl) <| returns_bind <|
      returns_check (decide_eq_true live) <| returns_bind <| returns_write <| returns_bind ?_
    have cut : Returns (modBase (s.nc.pnode p).base fun r => { r with aliases := r.aliases.erase p })
        ({ s with nc.pnodes := s.nc.pnodes.erase p } : Sys D) fun _ v =>
        v = { s with nc := cutAlias s.nc p rb } :=
      returns_bind <| returns_deref hrb <| returns_write rfl
    refine returns_mono cut ?_
    rintro _ v runv rfl
    -- the links are in order before the base node goes
    have kept : Kept (isRoot s.mt) s ({ s with nc := cutAlias s.nc p rb } : Sys D) := by
      have pruned := pruned_removePnode idle bare off
      rw [cutAlias_eq formed.sound.forest hrb]
      refine ⟨?_, ⟨pruned.pnode, pruned.pnodes, pruned.gone, pruned.base, pruned.nextPnode,
        pruned.nextBase, pruned.maxNames⟩, rfl, rfl, rfl, rfl⟩
      rw [← cutAlias_eq formed.sound.forest hrb]
      exact forest_cutAlias formed.sound.forest hrb live leaf
    have off_lists : Books True (fun _ => 0) ({ s with nc.pnodes := s.nc.pnodes.erase p } : Sys D) :=
      formed.books.aside ⟨rfl, rfl, rfl, rfl, rfl, rfl, rfl, rfl, rfl, rfl, rfl, rfl⟩
    have cuts : Moves (Keep True) (modBase (s.nc.pnode p).base fun r =>
        { r with aliases := r.aliases.erase p } : Sysio D Unit) := modBase_keep _ fun _ => rfl
    have books := cuts _ _ _ runv _ off_lists
    have formed' : WellFormed J ({ s with nc := cutAlias s.nc p rb } : Sys D) :=
      formed.of_kept kept books (d.outside s _ rfl rfl formed.driver)
    have here : (cutAlias s.nc p rb).base (s.nc.pnode p).base = some (dropAlias p rb) :=
      Function.update_self ..
    refine returns_bind <| returns_deref here <| returns_bind <| returns_when (fun empty => ?_)
      fun _ => returns_write (d.outside s _ rfl rfl formed.driver)
    refine returns_mono (sysioPbGone_returns (m := (s.nc.pnode p).mount) d formed' here empty.1 empty.2) ?_
    exact fun _ w _ trimmed => returns_write (d.outside w _ rfl rfl trimmed.formed.driver)
  refine returns_mono run fun x t ran jt => ?_
  obtain ⟨kept, -⟩ := sysioPGone_kept gone formed.sound.forest off leaf ran
  obtain ⟨-, -, -, nc, -⟩ := sysioPGone_forest gone formed.sound.forest leaf ran
  constructor
  case formed => exact formed.of_kept kept (sysioPGone_keep d.gone p s x t ran _ formed.books) jt
  case kept => exact kept
  case nodes =>
    intro q hq lost
    rw [nc, dropNode_pnodes] at lost
    have same : q = p := by
      by_contra other
      exact lost ((List.mem_erase_of_ne other).mpr hq)
    rw [same]
    exact ⟨rfl, Relation.ReflTransGen.refl⟩
  case bases =>
    intro b r hr lost
    by_cases hb : b = (s.nc.pnode p).base
    · rw [hb]
      exact Relation.ReflTransGen.refl
    · have stays : (dropNode s.nc p).base b ≠ none := by
        have first : (removePnode s.nc p).base b = some (dropAlias p r) :=
          removePnode_some.mpr ⟨r, hr, rfl⟩
        unfold dropNode
        split
        · rw [first]
          exact Option.some_ne_none _
        · split
          · rw [removeBase_some.mpr ⟨hb, _, first, rfl⟩]
            exact Option.some_ne_none _
          · rw [first]
            exact Option.some_ne_none _
      rw [← nc] at stays
      exact absurd lost stays

/-- What pruning at a node leads to: a count other than 0 says that it is tied. -/
def Counted (J : Sys D → Prop) (p : Pno) (s : Sys D) (k : ℕ) (t : Sys D) : Prop :=
  Trimmed J (s.nc.pnode p).mount (AtOrBelow s.nc · (s.nc.pnode p).base) s t ∧ (k ≠ 0 → Tied s p)

omit d in
theorem formed_aliases {c : PbId} {r : PnodeBase} (formed : WellFormed J s)
    (hr : s.nc.base c = some r) : ∀ q ∈ r.aliases, q ∈ s.nc.pnodes ∧ (s.nc.pnode q).base = c :=
  fun q hq => (formed.sound.forest.alias_ c r hr q).mp hq

omit d in
theorem mountAt_root (sound : Sound s) (live : p ∈ s.nc.pnodes) : ∃ r,
    s.mt.mount (s.nc.pnode p).mount = some r ∧ (r.root = some p ↔ isRoot s.mt p) := by
  obtain ⟨r, hr⟩ := sound.mounted p live
  exact ⟨r, hr, fun root => ⟨_, r, hr, root⟩, fun root => sound.rooted p live root r hr⟩

theorem pruneAlias_returns {recur : Pno → Sysio D ℕ} (formed : WellFormed J s)
    (live : p ∈ s.nc.pnodes) (deeper : Returns (recur p) s (Counted J p s)) :
    Returns (pruneAlias e recur p (s.nc.pnode p)) s (Counted J p s) := by
  obtain ⟨r, hr⟩ := formed.sound.forest.based p live
  obtain ⟨m, hm, root⟩ := mountAt_root formed.sound live
  refine returns_bind <| returns_deref hr <| returns_ite (fun _ => deeper) fun childless => ?_
  refine returns_ite (fun held => returns_pure ⟨Trimmed.refl formed, fun _ => ?_⟩) fun idle => ?_
  · exact tied_self live (Or.inl held)
  have bare : (s.nc.pnode p).cover = none := by
    by_contra covered
    exact formed.covered p live covered (not_not.mp idle)
  have hashed : (r.name.name.isEmpty || decide (r.name.hashval ≠ 0)) = true := by
    by_cases empty : r.name.name = []
    · rw [empty]
      rfl
    · rw [decide_eq_true (formed.sound.forest.hashed _ r hr empty).2, Bool.or_true]
  refine returns_bind <| returns_check (by rw [bare]; rfl) <| returns_bind <| returns_check hashed <|
    returns_bind <| returns_deref hm <| returns_ite (fun top => ?_) fun off => ?_
  · exact returns_pure ⟨Trimmed.refl formed, fun _ => tied_self live (Or.inr (root.mp top))⟩
  · have leaf := leaf_of_base formed.sound.forest hr (by simp [not_not.mp childless])
    refine returns_bind <| returns_mono (sysioPGone_returns d formed live (not_not.mp idle)
      (fun top => off (root.mpr top)) leaf) ?_
    exact fun _ t _ trimmed => returns_pure ⟨trimmed, fun more => absurd rfl more⟩

/-- The aliases of one base node: at most one of them lies on the mount. -/
theorem pruneAliases_returns {recur : Pno → Sysio D ℕ} {c : PbId} (l : List Pno) (once : l.Nodup)
    (deeper : ∀ q u, Trimmed J m (AtOrBelow s.nc · c) s u → q ∈ u.nc.pnodes →
      (s.nc.pnode q).base = c → (s.nc.pnode q).mount = m → Returns (recur q) u (Counted J q u))
    (bases : ∀ q ∈ l, (s.nc.pnode q).base = c) {u : Sys D}
    (hu : Trimmed J m (AtOrBelow s.nc · c) s u)
    (here : ∀ q ∈ l, (s.nc.pnode q).mount = m → q ∈ u.nc.pnodes) :
    Returns (pruneAliases e recur m l) u fun k t => Trimmed J m (AtOrBelow s.nc · c) s t ∧
      (k ≠ 0 → ∃ q ∈ l, (s.nc.pnode q).mount = m ∧ Tied s q) := by
  induction l generalizing u with
  | nil => exact returns_pure ⟨hu, fun more => absurd rfl more⟩
  | cons q l ih =>
    obtain ⟨front, rest⟩ := List.nodup_cons.mp once
    have node := hu.kept.pruned.pnode
    have mem := List.mem_cons_self (a := q) (l := l)
    have step : Returns (if (u.nc.pnode q).mount ≠ m then pure 0
        else pruneAlias e recur q (u.nc.pnode q)) u fun k t =>
        Trimmed J m (AtOrBelow s.nc · c) s t ∧
        (k ≠ 0 → (s.nc.pnode q).mount = m ∧ Tied s q) ∧
        ∀ q' ∈ l, (s.nc.pnode q').mount = m → q' ∈ t.nc.pnodes := by
      refine returns_ite (fun _ => ?_) fun on => ?_
      · refine returns_pure ⟨hu, fun more => absurd rfl more, fun q' hq' => ?_⟩
        exact here q' (List.mem_cons_of_mem _ hq')
      · have on : (s.nc.pnode q).mount = m := by
          rw [← node]
          exact not_not.mp on
        have live := here q mem on
        refine returns_mono (pruneAlias_returns d hu.formed live (deeper q u hu live (bases q mem) on)) ?_
        rintro k t - ⟨trimmed, tied⟩
        rw [node, on, bases q mem] at trimmed
        refine ⟨hu.trans (trimmed.widen fun x way => way.of_pruned hu.kept.pruned),
          fun more => ⟨on, (tied more).of_kept hu.kept⟩, fun q' hq' on' => ?_⟩
        -- another alias on the mount would be the same node
        have live' := here q' (List.mem_cons_of_mem _ hq') on'
        have one := alias_one hu.formed.sound live' live
          (by rw [node, bases q mem, bases q' (List.mem_cons_of_mem _ hq')]) (by rw [node, on, on'])
        exact absurd (one ▸ hq') front
    refine returns_bind <| returns_read <| returns_bind <| returns_mono step ?_
    rintro k₁ v - ⟨hv, tied, here'⟩
    refine returns_bind <| returns_mono (ih rest (fun q' hq' => bases q' (List.mem_cons_of_mem _ hq'))
      hv here') ?_
    rintro k₂ t - ⟨ht, tied'⟩
    refine returns_pure ⟨ht, fun more => ?_⟩
    by_cases first : k₁ ≠ 0
    · obtain ⟨on, knot⟩ := tied first
      exact ⟨q, mem, on, knot⟩
    · obtain ⟨q', hq', on, knot⟩ := tied' (by omega)
      exact ⟨q', List.mem_cons_of_mem _ hq', on, knot⟩

theorem pruneChildren_returns {recBase : PbId → Sysio D Unit} {recur : Pno → Sysio D ℕ} {b : PbId}
    (l : List PbId)
    (once : ∀ c u r, Trimmed J m (StrictlyBelow s.nc · b) s u → ParentOf u.nc c b →
      u.nc.base c = some r → r.aliases = [] →
      Returns (recBase c) u fun _ t => Trimmed J m (AtOrBelow u.nc · c) u t)
    (deeper : ∀ q u, Trimmed J m (StrictlyBelow s.nc · b) s u → q ∈ u.nc.pnodes →
      ParentOf u.nc (u.nc.pnode q).base b → (u.nc.pnode q).mount = m →
      Returns (recur q) u (Counted J q u)) {u : Sys D}
    (hu : Trimmed J m (StrictlyBelow s.nc · b) s u) (left : Remain b l u) :
    Returns (pruneChildren e recBase recur m l) u fun k t =>
      Trimmed J m (StrictlyBelow s.nc · b) s t ∧ (k ≠ 0 → ∃ q ∈ s.nc.pnodes,
        (s.nc.pnode q).mount = m ∧ ParentOf s.nc (s.nc.pnode q).base b ∧ Tied s q) := by
  induction l generalizing u with
  | nil => exact returns_pure ⟨hu, fun more => absurd rfl more⟩
  | cons c l ih =>
    have hc := left.child c (List.mem_cons_self ..)
    obtain ⟨r, hr, hb⟩ := id hc
    have node := hu.kept.pruned.pnode
    have step : Returns (if r.aliases = [] then (do recBase c; pure 0)
        else pruneAliases e recur m r.aliases) u fun k t =>
        Trimmed J m (AtOrBelow u.nc · c) u t ∧ (k ≠ 0 → ∃ q ∈ s.nc.pnodes,
        (s.nc.pnode q).mount = m ∧ ParentOf s.nc (s.nc.pnode q).base b ∧ Tied s q) := by
      refine returns_ite (fun bare => ?_) fun _ => ?_
      · refine returns_bind <| returns_mono (once c u r hu hc hr bare) ?_
        exact fun _ t _ trimmed => returns_pure ⟨trimmed, fun more => absurd rfl more⟩
      · have aliases := formed_aliases hu.formed hr
        refine returns_mono (pruneAliases_returns (s := u) d r.aliases
          (hu.formed.sound.forest.aliasNodup c r hr) (fun q v hv live base on => ?_)
          (fun q hq => (aliases q hq).2) (Trimmed.refl hu.formed) fun q hq _ => (aliases q hq).1) ?_
        · rw [← base] at hc hv
          have hv' := hu.child hv hc
          have same := hv.kept.pruned.pnode
          refine deeper q v hv' live ?_ (by rw [same]; exact on)
          obtain ⟨r', hr'⟩ := hv.kept.forest.based q live
          obtain ⟨r₀, hr₀, -, -, parent⟩ := hv.kept.pruned.base _ r' hr'
          rw [same] at hr₀ hr'
          obtain ⟨r₁, hr₁, hb⟩ := hc
          obtain rfl : r₁ = r₀ := Option.some.inj (hr₁.symm.trans hr₀)
          rw [same]
          exact ⟨r', hr', parent.trans hb⟩
        · rintro k t - ⟨trimmed, tied⟩
          refine ⟨trimmed, fun more => ?_⟩
          obtain ⟨q, hq, on, knot⟩ := tied more
          obtain ⟨live, base⟩ := aliases q hq
          rw [node] at on base
          refine ⟨q, hu.kept.pruned.pnodes.subset live, on, ?_, knot.of_kept hu.kept⟩
          obtain ⟨r₀, hr₀, -, -, parent⟩ := hu.kept.pruned.base c r hr
          exact ⟨r₀, base ▸ hr₀, parent ▸ hb⟩
    refine returns_bind <| returns_deref hr <| returns_bind <| returns_mono step ?_
    rintro k₁ v - ⟨hv, tied⟩
    refine returns_bind <| returns_mono (ih (hu.child hv hc) (left.next hu.formed hv)) ?_
    rintro k₂ t - ⟨ht, tied'⟩
    refine returns_pure ⟨ht, fun more => ?_⟩
    by_cases first : k₁ ≠ 0
    · exact tied first
    · exact tied' (by omega)

/-- The children of a node have greater numbers, so there is room for the recursion. -/
theorem children_returns (fuel : ℕ) {r : PnodeBase} (formed : WellFormed J s)
    (hr : s.nc.base (s.nc.pnode p).base = some r)
    (enough : s.nc.nextBase ≤ (s.nc.pnode p).base + (fuel + 1))
    (deeper : ∀ q u, WellFormed J u → q ∈ u.nc.pnodes →
      u.nc.nextBase ≤ (u.nc.pnode q).base + fuel → Returns (pPrune e fuel q) u (Counted J q u)) :
    Returns (pruneChildren e (sysioPrune e fuel) (pPrune e fuel) (s.nc.pnode p).mount r.children) s
      fun k t => Trimmed J (s.nc.pnode p).mount (StrictlyBelow s.nc · (s.nc.pnode p).base) s t ∧
        (k ≠ 0 → ∃ q ∈ s.nc.pnodes, (s.nc.pnode q).mount = (s.nc.pnode p).mount ∧
          ParentOf s.nc (s.nc.pnode q).base (s.nc.pnode p).base ∧ Tied s q) := by
  apply pruneChildren_returns d r.children _ _ (Trimmed.refl formed) (remain_children formed hr)
  · intro c u rc hu hc hrc bare
    have older := parentOf_lt hu.formed.sound.forest hc
    have same := hu.kept.pruned.nextBase
    exact sysioPrune_returns d fuel c hu.formed hrc bare (by omega)
  · intro q u hu live hc _
    have older := parentOf_lt hu.formed.sound.forest hc
    have same := hu.kept.pruned.nextBase
    exact deeper q u hu.formed live (by omega)

/-- Pruning at a node, with room for the recursion. -/
theorem pPrune_returns (fuel : ℕ) (p : Pno) {s : Sys D} (formed : WellFormed J s)
    (live : p ∈ s.nc.pnodes) (enough : s.nc.nextBase ≤ (s.nc.pnode p).base + fuel) :
    Returns (pPrune e fuel p) s (Counted J p s) := by
  have gone : ∀ i, Moves OffInodes (e.ops.gone i) := fun i => (d.gone i).mono fun _ _ h => h.off
  induction fuel generalizing p s with
  | zero =>
    obtain ⟨r, hr⟩ := formed.sound.forest.based p live
    exact absurd enough (Nat.not_le.mpr (formed.sound.forest.lt_nextBase hr))
  | succ fuel ih =>
    obtain ⟨r, hr⟩ := formed.sound.forest.based p live
    have loop := children_returns d fuel formed hr enough fun q u => ih q
    refine returns_bind <| returns_read <| returns_bind <| returns_deref hr <| returns_bind <|
      returns_mono loop ?_
    rintro count v runv ⟨hv, tied⟩
    have below : Trimmed J (s.nc.pnode p).mount (AtOrBelow s.nc · (s.nc.pnode p).base) s v :=
      hv.widen fun x below => below.to_reflTransGen
    have node := hv.kept.pruned.pnode
    have stays : p ∈ v.nc.pnodes := by
      by_contra lost
      have circle := (hv.nodes p live lost).2
      exact Nat.lt_irrefl _ (strictlyBelow_lt formed.sound.forest circle)
    refine returns_bind <| returns_read <| returns_ite (fun more => ?_) fun none => ?_
    · refine returns_pure ⟨below, fun _ => ?_⟩
      obtain ⟨q, hq, mount, under, a, alive, way, held⟩ := tied more
      exact ⟨a, alive, way.trans (hangs_child formed.sound live hq mount under), held⟩
    rw [node]
    refine returns_ite (fun held => returns_pure ⟨below, fun _ => ?_⟩) fun idle => ?_
    · exact tied_self live (Or.inl held)
    obtain ⟨m, hm, root⟩ := mountAt_root formed.sound live
    have hm' : v.mt.mount (s.nc.pnode p).mount = some m := by
      rw [hv.kept.mt]
      exact hm
    refine returns_bind <| returns_deref hm' <| returns_ite (fun top => ?_) fun off => ?_
    · exact returns_pure ⟨below, fun _ => tied_self live (Or.inr (root.mp top))⟩
    · obtain ⟨-, goes⟩ := pruneChildren_removes gone (pPrune_removes gone fuel) fuel _ _ runv
        formed.sound.forest formed.sound.rooted
      have leaf := leaf_of_goes formed.sound.forest hv.kept hr (goes (not_not.mp none))
      have off' : ¬ isRoot v.mt p := by
        rw [hv.kept.mt]
        exact fun top => off (root.mpr top)
      rw [← hv.kept.mt] at leaf
      refine returns_bind <| returns_mono (sysioPGone_returns d hv.formed stays
        (by rw [node]; exact not_not.mp idle) off' leaf) ?_
      rintro _ t - trimmed
      rw [node] at trimmed
      refine returns_pure ⟨?_, fun more => absurd rfl more⟩
      exact below.trans (trimmed.widen fun x way => way.of_pruned hv.kept.pruned)

theorem sysioPPrune_returns (formed : WellFormed J s) (live : p ∈ s.nc.pnodes) :
    Returns (sysioPPrune e p) s (Counted J p s) :=
  returns_bind <| returns_read <| pPrune_returns d _ p formed live (Nat.le_add_left _ _)

end Nodes

end PruneRuns
