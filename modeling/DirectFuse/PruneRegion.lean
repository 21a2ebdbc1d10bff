import DirectFuse.Lineage

/-! Where pruning takes from: a run at a node takes nothing that is not at or below it. -/
namespace PruneRegion

open ExecLogic SysioState SysioInode CoreMoves NameForest PruneForest Lineage

variable {D : Type} {root : Pno → Prop} {W : PbId → Prop}

/-- The base nodes that are gone were in `W`. -/
def LostIn (W : PbId → Prop) (s t : Sys D) : Prop :=
  ∀ b, t.nc.base b = none → s.nc.base b ≠ none → W b

instance : IsPreorder (Sys D) (LostIn W) where
  refl _ _ gone here := absurd gone here
  trans s t u h k b gone here := by
    by_cases mid : t.nc.base b = none
    · exact h b mid here
    · exact k b gone mid

/-- With a directory, all that is in it belongs to `W`. -/
def Downward (W : PbId → Prop) (nc : NameCache) : Prop := ∀ c b, ParentOf nc c b → W b → W c

/-- What a run that takes from `W` starts from. -/
structure Region (root : Pno → Prop) (W : PbId → Prop) (s : Sys D) : Prop where
  forest : Forest root s.nc
  rooted : Rooted root s
  downward : Downward W s.nc

section Region

variable {s t : Sys D} {b : PbId} {r : PnodeBase}

theorem Region.of_kept (h : Region root W s) (k : Kept root s t) : Region root W t where
  forest := k.forest
  rooted := k.rooted h.rooted
  downward c b parent hb := by
    obtain ⟨r', hr', hp'⟩ := parent
    obtain ⟨r, hr, -, -, hp⟩ := k.pruned.base c r' hr'
    exact h.downward c b ⟨r, hr, hp ▸ hp'⟩ hb

theorem Region.children (h : Region root W s) (hr : s.nc.base b = some r) (hb : W b) :
    ∀ c ∈ r.children, W c := by
  intro c hc
  exact h.downward c b ((h.forest.child b r hr c).mp hc) hb

theorem Region.aliases (h : Region root W s) (hr : s.nc.base b = some r) (hb : W b) :
    ∀ p ∈ r.aliases, W (s.nc.pnode p).base := by
  intro p hp
  rw [((h.forest.alias_ b r hr p).mp hp).2]
  exact hb

/-- What is at or below a base node is such a set. -/
theorem downward_atOrBelow (nc : NameCache) (b : PbId) : Downward (AtOrBelow nc · b) nc :=
  fun _ _ parent below => Relation.ReflTransGen.head parent below

end Region

section Bases

variable {e : Env D} (gone : ∀ i, Moves OffInodes (e.ops.gone i))

theorem modBase_lost (b : PbId) (f : PnodeBase → PnodeBase) :
    Moves (LostIn W) (modBase b f : Sysio D Unit) := by
  intro s u t run c lost here
  obtain ⟨r, hr, rfl⟩ := modBase_ok run
  change Function.update s.nc.base b (some (f r)) c = none at lost
  by_cases hc : c = b
  · rw [hc, Function.update_self] at lost
    cases lost
  · rw [Function.update_of_ne hc] at lost
    exact absurd lost here

theorem write_lost {f : Sys D → Sys D} (h : ∀ s, (f s).nc.base = s.nc.base) :
    Moves (LostIn W) (Exec.write f : Sysio D Unit) := by
  refine moves_write fun s c lost here => ?_
  rw [h s] at lost
  exact absurd lost here

include gone

theorem sysioPbGone_lost {b : PbId} (hb : W b) : Moves (LostIn W) (sysioPbGone e b) := by
  have destroy : Moves (LostIn W) (pbDestroy b : Sysio D Unit) := by
    refine moves_bind (moves_check _ _) fun _ => moves_bind (write_lost fun _ => rfl) fun _ =>
      moves_bind (baseAt_moves b) fun r => moves_bind (assert_moves _) fun _ =>
      moves_bind (assert_moves _) fun _ => moves_bind (assert_moves _) fun _ =>
      moves_bind (moves_when fun _ => write_lost fun _ => rfl) fun _ =>
      moves_bind (ifSome_moves fun q _ => modBase_lost q _) fun _ => moves_write fun s c lost here => ?_
    by_cases hc : c = b
    · rw [hc]
      exact hb
    · exact absurd ((Function.update_of_ne hc _ _).symm.trans lost) here
  have released : ∀ i, Moves (LostIn W) (iRele e i) := fun i =>
    (iRele_off gone i).mono fun s t off c lost here => absurd (off.nc ▸ lost) here
  exact moves_bind (baseAt_moves b) fun r => moves_bind (ifSome_moves fun i _ => released i) fun _ =>
    moves_bind (modBase_lost b _) fun _ => destroy

theorem sysioPGone_lost {p : Pno} {s t : Sys D} {u : Unit} (hb : W (s.nc.pnode p).base)
    (run : sysioPGone e p s = .ok (u, t)) : LostIn W s t := by
  have behind : ∀ n : Pnode, W n.base → Moves (LostIn W) (do
      assert (decide (n.ref = 0))
      assert n.cover.isNone
      Exec.check .wild fun s => decide (p ∈ s.nc.pnodes)
      Exec.write fun s => { s with nc.pnodes := s.nc.pnodes.erase p }
      modBase n.base fun r => { r with aliases := r.aliases.erase p }
      let r ← baseAt n.base
      Exec.when (r.aliases = [] ∧ r.children = []) (sysioPbGone e n.base)
      Exec.write fun s => { s with nc.freePnodes := p :: s.nc.freePnodes } : Sysio D Unit) := by
    intro n hn
    exact moves_bind (assert_moves _) fun _ => moves_bind (assert_moves _) fun _ =>
      moves_bind (moves_check _ _) fun _ => moves_bind (write_lost fun _ => rfl) fun _ =>
      moves_bind (modBase_lost _ _) fun _ => moves_bind (baseAt_moves _) fun r =>
      moves_bind (moves_when fun _ => sysioPbGone_lost gone hn) fun _ => write_lost fun _ => rfl
  obtain ⟨n, _, hread, h1⟩ := bind_ok.mp run
  obtain ⟨rfl, rfl⟩ := read_ok.mp hread
  exact behind _ hb _ _ _ h1

/-- The loop over base nodes of the set takes from it, if what it does for each of them does. -/
theorem pruneBases_lost {rec : PbId → Sysio D Unit} (l : List PbId)
    (deeper : ∀ b s u t, rec b s = .ok (u, t) → Region root W s → W b →
      Kept root s t ∧ LostIn W s t)
    {s t : Sys D} {u : Unit} (run : pruneBases e rec l s = .ok (u, t)) (region : Region root W s)
    (inside : ∀ b ∈ l, W b) : Kept root s t ∧ LostIn W s t := by
  induction l generalizing s with
  | nil =>
    obtain ⟨-, rfl⟩ := pure_ok.mp run
    exact ⟨Kept.refl region.forest, Std.Refl.refl s⟩
  | cons b l ih =>
    obtain ⟨r, _, hread, h1⟩ := bind_ok.mp run
    obtain ⟨-, rfl⟩ := deref_ok.mp hread
    obtain ⟨_, v, hv, h2⟩ := bind_ok.mp h1
    have hb := inside b List.mem_cons_self
    have head : Kept root s v ∧ LostIn W s v := by
      rcases when_ok.mp hv with ⟨-, hv⟩ | ⟨-, rfl⟩
      · by_cases hch : r.children ≠ []
        · rw [if_pos hch] at hv
          exact deeper b s _ v hv region hb
        · rw [if_neg hch] at hv
          exact ⟨sysioPbGone_prunes gone b _ _ _ hv region.forest region.rooted,
            sysioPbGone_lost gone hb _ _ _ hv⟩
      · exact ⟨Kept.refl region.forest, Std.Refl.refl s⟩
    obtain ⟨kept, lost⟩ := head
    obtain ⟨kept', lost'⟩ := ih h2 (region.of_kept kept) fun c hc => inside c (List.mem_cons_of_mem _ hc)
    exact ⟨kept.trans kept', IsTrans.trans s v t lost lost'⟩

theorem sysioPrune_lost (fuel : ℕ) (b : PbId) {s t : Sys D} {u : Unit}
    (run : sysioPrune e fuel b s = .ok (u, t)) (region : Region root W s) (hb : W b) :
    Kept root s t ∧ LostIn W s t := by
  induction fuel generalizing b s t with
  | zero => exact (fault_ok.mp run).elim
  | succ fuel ih =>
    obtain ⟨r, _, hread, h1⟩ := bind_ok.mp run
    obtain ⟨hr, rfl⟩ := deref_ok.mp hread
    obtain ⟨_, v, hv, h2⟩ := bind_ok.mp h1
    obtain ⟨kept, lost⟩ := pruneBases_lost gone r.children
      (fun c s u t run region hc => @ih c s t run region hc) hv region (region.children hr hb)
    obtain ⟨r', _, hread, h3⟩ := bind_ok.mp h2
    obtain ⟨-, rfl⟩ := deref_ok.mp hread
    by_cases hch : r'.children ≠ []
    · rw [if_pos hch] at h3
      obtain ⟨-, rfl⟩ := pure_ok.mp h3
      exact ⟨kept, lost⟩
    · rw [if_neg hch] at h3
      have region' := region.of_kept kept
      exact ⟨kept.trans (sysioPbGone_prunes gone b _ _ _ h3 region'.forest region'.rooted),
        IsTrans.trans s v t lost (sysioPbGone_lost gone hb _ _ _ h3)⟩

end Bases

section Nodes

variable {e : Env D} (gone : ∀ i, Moves OffInodes (e.ops.gone i))

/-- A run at a node of the set takes from the set. -/
def Takes (root : Pno → Prop) (W : PbId → Prop) (rec : Pno → Sysio D ℕ) : Prop :=
  ∀ p s k t, rec p s = .ok (k, t) → Region root W s → W (s.nc.pnode p).base → LostIn W s t

include gone

theorem pruneAlias_lost {rec : Pno → Sysio D ℕ} (deeper : Takes root W rec) {p : Pno} {s t : Sys D}
    {k : ℕ} (run : pruneAlias e rec p (s.nc.pnode p) s = .ok (k, t)) (region : Region root W s)
    (hb : W (s.nc.pnode p).base) : LostIn W s t := by
  obtain ⟨r, _, hread, h1⟩ := bind_ok.mp run
  obtain ⟨-, rfl⟩ := deref_ok.mp hread
  by_cases hch : r.children ≠ []
  · rw [if_pos hch] at h1
    exact deeper p s k t h1 region hb
  · rw [if_neg hch] at h1
    by_cases href : (s.nc.pnode p).ref ≠ 0
    · rw [if_pos href] at h1
      obtain ⟨-, rfl⟩ := pure_ok.mp h1
      exact Std.Refl.refl s
    rw [if_neg href] at h1
    obtain ⟨_, _, has, h2⟩ := bind_ok.mp h1
    obtain rfl : s = _ := assert_moves (R := Eq) _ _ _ _ has
    obtain ⟨_, _, has, h3⟩ := bind_ok.mp h2
    obtain rfl : s = _ := assert_moves (R := Eq) _ _ _ _ has
    obtain ⟨m, _, hread, h4⟩ := bind_ok.mp h3
    obtain ⟨-, rfl⟩ := deref_ok.mp hread
    by_cases hroot : m.root = some p
    · rw [if_pos hroot] at h4
      obtain ⟨-, rfl⟩ := pure_ok.mp h4
      exact Std.Refl.refl s
    · rw [if_neg hroot] at h4
      obtain ⟨_, v, hv, h5⟩ := bind_ok.mp h4
      obtain ⟨-, rfl⟩ := pure_ok.mp h5
      exact sysioPGone_lost gone hb hv

variable {rec : Pno → Sysio D ℕ} (removes : ∀ p, Removes root (rec p) fun t => p ∉ t.nc.pnodes)
  (deeper : Takes root W rec)

include removes deeper

theorem pruneAliases_lost (mnt : MntId) (l : List Pno) {s t : Sys D} {k : ℕ}
    (run : pruneAliases e rec mnt l s = .ok (k, t)) (region : Region root W s)
    (inside : ∀ p ∈ l, W (s.nc.pnode p).base) : LostIn W s t := by
  induction l generalizing s k with
  | nil =>
    obtain ⟨-, rfl⟩ := pure_ok.mp run
    exact Std.Refl.refl s
  | cons p l ih =>
    obtain ⟨n, _, hread, h1⟩ := bind_ok.mp run
    obtain ⟨rfl, rfl⟩ := read_ok.mp hread
    obtain ⟨k₁, v, hv, h2⟩ := bind_ok.mp h1
    obtain ⟨k₂, w, hw, h3⟩ := bind_ok.mp h2
    obtain ⟨-, rfl⟩ := pure_ok.mp h3
    have head : Kept root s v ∧ LostIn W s v := by
      by_cases hm : (s.nc.pnode p).mount ≠ mnt
      · rw [if_pos hm] at hv
        obtain ⟨-, rfl⟩ := pure_ok.mp hv
        exact ⟨Kept.refl region.forest, Std.Refl.refl s⟩
      · rw [if_neg hm] at hv
        exact ⟨(pruneAlias_removes gone (removes p) hv region.forest region.rooted).1,
          pruneAlias_lost gone deeper hv region (inside p List.mem_cons_self)⟩
    obtain ⟨kept, lost⟩ := head
    refine IsTrans.trans s v w lost (ih hw (region.of_kept kept) fun q hq => ?_)
    rw [kept.pruned.pnode]
    exact inside q (List.mem_cons_of_mem _ hq)

theorem pruneChildren_lost (fuel : ℕ) (mnt : MntId) (l : List PbId) {s t : Sys D} {k : ℕ}
    (run : pruneChildren e (sysioPrune e fuel) rec mnt l s = .ok (k, t)) (region : Region root W s)
    (inside : ∀ b ∈ l, W b) : LostIn W s t := by
  induction l generalizing s k with
  | nil =>
    obtain ⟨-, rfl⟩ := pure_ok.mp run
    exact Std.Refl.refl s
  | cons b l ih =>
    obtain ⟨r, _, hread, h1⟩ := bind_ok.mp run
    obtain ⟨hr, rfl⟩ := deref_ok.mp hread
    obtain ⟨k₁, v, hv, h2⟩ := bind_ok.mp h1
    obtain ⟨k₂, w, hw, h3⟩ := bind_ok.mp h2
    obtain ⟨-, rfl⟩ := pure_ok.mp h3
    have hb := inside b List.mem_cons_self
    have head : Kept root s v ∧ LostIn W s v := by
      by_cases hal : r.aliases = []
      · rw [if_pos hal] at hv
        obtain ⟨_, x, hx, h4⟩ := bind_ok.mp hv
        obtain ⟨-, rfl⟩ := pure_ok.mp h4
        exact sysioPrune_lost gone fuel b hx region hb
      · rw [if_neg hal] at hv
        exact ⟨(pruneAliases_removes gone removes mnt r.aliases hv region.forest region.rooted).1,
          pruneAliases_lost gone removes deeper mnt r.aliases hv region (region.aliases hr hb)⟩
    obtain ⟨kept, lost⟩ := head
    exact IsTrans.trans s v w lost
      (ih hw (region.of_kept kept) fun c hc => inside c (List.mem_cons_of_mem _ hc))

omit removes deeper in
theorem pPrune_lost (fuel : ℕ) : Takes root W (pPrune e fuel) := by
  induction fuel with
  | zero =>
    intro p s k t run
    exact (fault_ok.mp run).elim
  | succ fuel ih =>
    intro p s k t run region hb
    obtain ⟨n, _, hread, h1⟩ := bind_ok.mp run
    obtain ⟨rfl, rfl⟩ := read_ok.mp hread
    obtain ⟨r, _, hread, h2⟩ := bind_ok.mp h1
    obtain ⟨hr, rfl⟩ := deref_ok.mp hread
    obtain ⟨count, v, hv, h3⟩ := bind_ok.mp h2
    have removes : ∀ q, Removes root (pPrune e fuel q) fun t => q ∉ t.nc.pnodes :=
      pPrune_removes gone fuel
    have kept := (pruneChildren_removes gone removes fuel _ _ hv region.forest region.rooted).1
    have lost := pruneChildren_lost gone removes ih fuel _ _ hv region (region.children hr hb)
    obtain ⟨n', _, hread, h4⟩ := bind_ok.mp h3
    obtain ⟨rfl, rfl⟩ := read_ok.mp hread
    by_cases hcount : count ≠ 0
    · rw [if_pos hcount] at h4
      obtain ⟨-, rfl⟩ := pure_ok.mp h4
      exact lost
    rw [if_neg hcount] at h4
    by_cases href : (v.nc.pnode p).ref ≠ 0
    · rw [if_pos href] at h4
      obtain ⟨-, rfl⟩ := pure_ok.mp h4
      exact lost
    rw [if_neg href] at h4
    obtain ⟨m, _, hread, h5⟩ := bind_ok.mp h4
    obtain ⟨-, rfl⟩ := deref_ok.mp hread
    by_cases hroot : m.root = some p
    · rw [if_pos hroot] at h5
      obtain ⟨-, rfl⟩ := pure_ok.mp h5
      exact lost
    rw [if_neg hroot] at h5
    obtain ⟨_, w, hw, h6⟩ := bind_ok.mp h5
    obtain ⟨-, rfl⟩ := pure_ok.mp h6
    refine IsTrans.trans s v w lost (sysioPGone_lost gone ?_ hw)
    rw [kept.pruned.pnode]
    exact hb

omit removes deeper in
/-- Pruning at a node that is referenced takes what is strictly below it, and of that only what no
path node in use stands for. -/
theorem sysioPPrune_lost {p : Pno} {s t : Sys D} {k : ℕ} (forest : Forest root s.nc)
    (rooted : Rooted root s) (live : p ∈ s.nc.pnodes) (held : (s.nc.pnode p).ref ≠ 0)
    (run : sysioPPrune e p s = .ok (k, t)) {b : PbId} (here : s.nc.base b ≠ none)
    (lost : t.nc.base b = none) : StrictlyBelow s.nc b (s.nc.pnode p).base ∧
      ∀ q ∈ s.nc.pnodes, (s.nc.pnode q).base = b →
        (s.nc.pnode q).ref = 0 ∧ (s.nc.pnode q).cover = none ∧ ¬ root q := by
  have kept : Kept root s t := sysioPPrune_prunes gone p s k t run forest rooted
  have missing : ∀ q ∈ s.nc.pnodes, (s.nc.pnode q).base = b → q ∉ t.nc.pnodes := by
    intro q _ hq stays
    obtain ⟨r, hr⟩ := kept.forest.based q stays
    rw [kept.pruned.pnode, hq, lost] at hr
    cases hr
  constructor
  · obtain ⟨depth, _, hread, h1⟩ := bind_ok.mp run
    obtain ⟨rfl, rfl⟩ := read_ok.mp hread
    have below : AtOrBelow s.nc b (s.nc.pnode p).base :=
      pPrune_lost gone _ p s k t h1
        ⟨forest, rooted, downward_atOrBelow s.nc (s.nc.pnode p).base⟩ Relation.ReflTransGen.refl b lost
        here
    rcases Relation.reflTransGen_iff_eq_or_transGen.mp below with same | strict
    · exact absurd (kept.pruned.gone p live (missing p live same)).1 held
    · exact strict
  · intro q hq hbase
    exact kept.pruned.gone q hq (missing q hq hbase)

end Nodes

end PruneRegion
