import DirectFuse.FuseMoves
import DirectFuse.WalkRules
import Mathlib.Data.List.Nodup
import Mathlib.Data.List.Range

/-! The reference counts of path nodes over a path walk. A walk is described by the references
it owns: the counts in a state are those of the caller plus one for each owned node. -/
namespace PathRefs

open ExecLogic SysioState SysioInode SysioNamei CoreMoves WalkRules

variable {D : Type}

/-- The reference count of a path node; a node that is on no tree has no references. -/
def refs (s : Sys D) (p : Pno) : ℤ := if p ∈ s.nc.pnodes then (s.nc.pnode p).ref else 0

/-- The two node lists share nothing and hold no node twice. -/
structure NodeLists (s : Sys D) : Prop where
  nodup : s.nc.pnodes.Nodup
  freeNodup : s.nc.freePnodes.Nodup
  disjoint : ∀ p ∈ s.nc.freePnodes, p ∉ s.nc.pnodes
  bound : ∀ p : ℕ, p ∈ s.nc.pnodes → p < s.nc.nextPnode
  freeBound : ∀ p : ℕ, p ∈ s.nc.freePnodes → p < s.nc.nextPnode

/-- The path nodes and their lists are the same. -/
structure Quiet (s t : Sys D) : Prop where
  pnode : t.nc.pnode = s.nc.pnode
  pnodes : t.nc.pnodes = s.nc.pnodes
  freePnodes : t.nc.freePnodes = s.nc.freePnodes
  nextPnode : t.nc.nextPnode = s.nc.nextPnode

instance : IsPreorder (Sys D) Quiet where
  refl _ := ⟨rfl, rfl, rfl, rfl⟩
  trans _ _ _ h k :=
    ⟨k.pnode.trans h.pnode, k.pnodes.trans h.pnodes, k.freePnodes.trans h.freePnodes,
      k.nextPnode.trans h.nextPnode⟩

theorem Still.quiet (s t : Sys D) (h : Still s t) : Quiet s t :=
  ⟨h.pnode, h.pnodes, h.freePnodes, h.nextPnode⟩

/-- Nodes may come and go, but no reference count changes. -/
def Neutral (s t : Sys D) : Prop := NodeLists s → NodeLists t ∧ ∀ q, refs t q = refs s q

instance : IsPreorder (Sys D) Neutral where
  refl _ h := ⟨h, fun _ => rfl⟩
  trans _ _ _ h k hs :=
    ⟨(k (h hs).1).1, fun q => ((k (h hs).1).2 q).trans ((h hs).2 q)⟩

theorem Quiet.neutral (s t : Sys D) (h : Quiet s t) : Neutral s t := by
  intro hs
  refine ⟨⟨?_, ?_, ?_, ?_, ?_⟩, fun q => ?_⟩
  · rw [h.pnodes]; exact hs.nodup
  · rw [h.freePnodes]; exact hs.freeNodup
  · rw [h.pnodes, h.freePnodes]; exact hs.disjoint
  · rw [h.pnodes, h.nextPnode]; exact hs.bound
  · rw [h.freePnodes, h.nextPnode]; exact hs.freeBound
  · simp only [refs, h.pnodes, h.pnode]

/-- The counts of `s` are those of `r` plus the references in `own`. -/
structure Held (r : Pno → ℤ) (own : List Pno) (s : Sys D) : Prop where
  lists : NodeLists s
  count : ∀ q, refs s q = r q + own.count q

theorem Held.perm {r : Pno → ℤ} {own own' : List Pno} {s : Sys D} (h : Held r own s)
    (hp : own.Perm own') : Held r own' s :=
  ⟨h.lists, fun q => by rw [h.count q, hp.count_eq]⟩

theorem Held.of_refs {r : Pno → ℤ} {own : List Pno} {s t : Sys D} (hs : Held r own s)
    (lists : NodeLists t) (same : ∀ q, refs t q = refs s q) : Held r own t :=
  ⟨lists, fun q => (same q).trans (hs.count q)⟩

theorem Held.neutral {r : Pno → ℤ} {own : List Pno} {α : Type} {m : Sysio D α}
    (hm : Moves Neutral m) : Triple (Held r own) m fun _ => Held r own := by
  intro s hs a t h
  obtain ⟨hl, hr⟩ := hm s a t h hs.lists
  exact ⟨hl, fun q => (hr q).trans (hs.count q)⟩

theorem refs_nonneg (s : Sys D) (q : Pno) : 0 ≤ refs s q := by
  unfold refs
  split <;> omega

theorem refs_pos_mem {s : Sys D} {p : Pno} (h : 0 < refs s p) : p ∈ s.nc.pnodes := by
  by_contra hp
  simp [refs, hp] at h

section Counting

variable {r : Pno → ℤ} {own : List Pno}

theorem pRef_held (p : Pno) :
    Triple (Held r own) (pRef p : Sysio D Unit) fun _ => Held r (p :: own) := by
  intro s hs a t h
  obtain ⟨_, _, hc, hw⟩ := bind_ok.mp h
  obtain ⟨hmem, rfl⟩ := check_ok.mp hc
  obtain rfl := write_ok.mp hw
  have hmem : p ∈ s.nc.pnodes := of_decide_eq_true hmem
  have mem : ∀ q, q ∈ s.nc.pnodes.erase p ++ [p] ↔ q ∈ s.nc.pnodes := by
    intro q
    rw [List.mem_append, hs.lists.nodup.mem_erase_iff, List.mem_singleton]
    by_cases hq : q = p
    · simp [hq, hmem]
    · simp [hq]
  refine ⟨⟨?_, hs.lists.freeNodup, fun q hq => ?_, fun q hq => ?_, hs.lists.freeBound⟩,
    fun q => ?_⟩
  · refine List.nodup_append.mpr ⟨hs.lists.nodup.erase p, List.nodup_singleton p, ?_⟩
    intro a ha b hb
    rw [List.mem_singleton.mp hb]
    exact (hs.lists.nodup.mem_erase_iff.mp ha).1
  · rw [mem]; exact hs.lists.disjoint q hq
  · rw [mem] at hq; exact hs.lists.bound q hq
  · have hq := hs.count q
    simp only [refs, mem] at hq ⊢
    by_cases hqp : q = p
    · subst hqp
      simp only [hmem, if_true, Function.update_self, List.count_cons_self] at hq ⊢
      push_cast
      omega
    · rw [Function.update_of_ne hqp, List.count_cons_of_ne (Ne.symm hqp)]
      exact hq

/-- An owned reference can be given back: the node is still on its tree. -/
theorem pRele_held (hr : ∀ q, 0 ≤ r q) (p : Pno) :
    Triple (Held r (p :: own)) (pRele p : Sysio D Unit) fun _ => Held r own := by
  intro s hs a t h
  obtain ⟨_, _, hc, hw⟩ := bind_ok.mp h
  obtain ⟨hne, rfl⟩ := check_ok.mp hc
  obtain rfl := write_ok.mp hw
  have hne : (s.nc.pnode p).ref ≠ 0 := of_decide_eq_true hne
  have hmem : p ∈ s.nc.pnodes := by
    apply refs_pos_mem (s := s)
    have := hs.count p
    have := hr p
    rw [List.count_cons_self] at *
    omega
  refine ⟨⟨hs.lists.nodup, hs.lists.freeNodup, hs.lists.disjoint, hs.lists.bound,
    hs.lists.freeBound⟩, fun q => ?_⟩
  have hq := hs.count q
  simp only [refs] at hq ⊢
  by_cases hqp : q = p
  · subst hqp
    simp only [hmem, if_true, Function.update_self, List.count_cons_self] at hq ⊢
    omega
  · rw [Function.update_of_ne hqp]
    rw [List.count_cons_of_ne (Ne.symm hqp)] at hq
    exact hq

end Counting

section Eviction

variable {e : Env D} (ops : OpsMove Quiet e)

include ops

theorem sysioPbGone_quiet (b : PbId) : Moves Quiet (sysioPbGone e b) :=
  sysioPbGone_moves Still.quiet ops.gone b

/-- Only a node without references goes to the free list. -/
theorem sysioPGone_neutral (p : Pno) : Moves Neutral (sysioPGone e p) := by
  intro s a t h hs
  simp only [sysioPGone, pnodeAt, assert, bind_ok, read_ok, check_ok, write_ok] at h
  obtain ⟨n, _, ⟨rfl, rfl⟩, _, _, ⟨href, rfl⟩, _, _, ⟨-, rfl⟩, _, _, ⟨hmem, rfl⟩, _, u, rfl, h⟩ := h
  obtain ⟨_, v, hv, r, _, hb, _, w, hw, rfl⟩ := h
  have hmem : p ∈ s.nc.pnodes := of_decide_eq_true hmem
  have href : (s.nc.pnode p).ref = 0 := of_decide_eq_true href
  obtain ⟨-, rfl⟩ := deref_ok.mp hb
  have hq : Quiet { s with nc.pnodes := s.nc.pnodes.erase p } w :=
    IsTrans.trans _ _ _ (modBase_moves Still.quiet _ _ _ _ _ hv)
      (moves_when (fun _ => sysioPbGone_quiet ops _) _ _ _ hw)
  have hfree : p ∉ s.nc.freePnodes := fun hf => hs.disjoint p hf hmem
  refine ⟨⟨?_, ?_, ?_, ?_, ?_⟩, fun q => ?_⟩
  · simpa only [hq.pnodes] using hs.nodup.erase p
  · simpa only [hq.freePnodes] using List.nodup_cons.mpr ⟨hfree, hs.freeNodup⟩
  · intro q hf
    simp only [hq.freePnodes, List.mem_cons] at hf
    simp only [hq.pnodes, hs.nodup.mem_erase_iff, not_and]
    rcases hf with rfl | hf
    · intro hne
      exact (hne rfl).elim
    · intro _
      exact hs.disjoint q hf
  · intro q hl
    simp only [hq.pnodes, hq.nextPnode] at hl ⊢
    exact hs.bound q (List.mem_of_mem_erase hl)
  · intro q hf
    simp only [hq.freePnodes, hq.nextPnode, List.mem_cons] at hf ⊢
    rcases hf with rfl | hf
    · exact hs.bound q hmem
    · exact hs.freeBound q hf
  · simp only [refs, hq.pnodes, hq.pnode, hs.nodup.mem_erase_iff]
    by_cases hqp : q = p
    · simp [hqp, hmem, href]
    · simp [hqp]

theorem sysioPPrune_neutral (p : Pno) : Moves Neutral (sysioPPrune e p) :=
  sysioPPrune_moves (fun b => (sysioPbGone_quiet ops b).mono Quiet.neutral)
    (sysioPGone_neutral ops) p

/-- The reference `p_reclaim` takes without requeueing the node is given back before it looks
further. A node that is on no tree has no count to begin with. -/
theorem pReclaimNode_neutral (p : Pno) : Moves Neutral (pReclaimNode e p) := by
  intro s a t h
  simp only [pReclaimNode, pnodeAt, bind_ok, read_ok] at h
  obtain ⟨n, _, ⟨rfl, rfl⟩, h⟩ := h
  by_cases href : (s.nc.pnode p).ref ≠ 0
  · rw [if_pos href] at h
    obtain ⟨-, rfl⟩ := read_ok.mp h
    exact Std.Refl.refl s
  rw [if_neg href] at h
  simp only [setPnode, bind_ok, write_ok, read_ok] at h
  obtain ⟨_, u, rfl, _, v, hv, next, _, ⟨-, rfl⟩, _, w, hw, n', _, ⟨-, rfl⟩, h⟩ := h
  have hend : Neutral w t := by
    refine moves_ite (fun _ => moves_pure _) (fun _ => ?_) _ _ _ h
    exact moves_bind (sysioPPrune_neutral ops p) fun _ => moves_pure _
  refine IsTrans.trans _ _ _ ?_ hend
  intro hs
  set n : Pnode := { s.nc.pnode p with ref := (s.nc.pnode p).ref + 1 }
  set u : Sys D := { s with nc.pnode := Function.update s.nc.pnode p n } with hu
  have hus : NodeLists u := ⟨hs.nodup, hs.freeNodup, hs.disjoint, hs.bound, hs.freeBound⟩
  obtain ⟨hvl, hvr⟩ := sysioPPrune_neutral ops p u _ v hv hus
  by_cases hmem : p ∈ s.nc.pnodes
  · have hheld : Held (refs s) [p] u := by
      refine ⟨hus, fun q => ?_⟩
      simp only [refs, hu]
      by_cases hqp : q = p
      · subst hqp
        simp [hmem, n]
      · simp [hqp, List.count_cons_of_ne (Ne.symm hqp)]
    have hheld' : Held (refs s) [p] v := ⟨hvl, fun q => (hvr q).trans (hheld.count q)⟩
    have hw' := pRele_held (refs_nonneg s) p v hheld' _ w hw
    exact ⟨hw'.lists, fun q => by simpa using hw'.count q⟩
  · obtain ⟨_, _, hc, hww⟩ := bind_ok.mp hw
    obtain ⟨hne, rfl⟩ := check_ok.mp hc
    obtain rfl := write_ok.mp hww
    have hne : (v.nc.pnode p).ref ≠ 0 := of_decide_eq_true hne
    have hpv : p ∉ v.nc.pnodes := by
      intro hp
      have h0 := hvr p
      simp only [refs, hp, hu, hmem, if_true, if_false] at h0
      omega
    refine ⟨⟨hvl.nodup, hvl.freeNodup, hvl.disjoint, hvl.bound, hvl.freeBound⟩, fun q => ?_⟩
    have h0 := hvr q
    simp only [refs, hu] at h0 ⊢
    by_cases hqp : q = p
    · simp [hqp, hpv, hmem]
    · simpa [Function.update_of_ne hqp] using h0

theorem pReclaim_neutral : Moves Neutral (pReclaim e) :=
  pReclaim_moves (pReclaimNode_neutral ops) fun _ _ hs =>
    ⟨⟨hs.nodup, hs.freeNodup, hs.disjoint, hs.bound, hs.freeBound⟩, fun _ => rfl⟩

theorem sysioPbNew_neutral (name : Qstr) (parent : Option PbId) (ino : Option InoId) :
    Moves Neutral (sysioPbNew e name parent ino) := by
  have quiet : ∀ f : Sys D → Sys D, (∀ s, Still s (f s)) →
      Moves Neutral (Exec.write f : Sysio D Unit) :=
    fun f hf => moves_write fun s => Quiet.neutral _ _ (Still.quiet _ _ (hf s))
  have still : ∀ s t : Sys D, Still s t → Neutral s t :=
    fun s t h => Quiet.neutral s t (Still.quiet s t h)
  refine moves_bind (moves_read _) fun nc => moves_bind (moves_when fun _ => pReclaim_neutral ops)
    fun _ => moves_bind (malloc_moves fun s t h => still s t h.still) fun ok => moves_ite (fun _ => moves_pure _) fun _ =>
    moves_bind (moves_read _) fun b => moves_bind (moves_when fun _ => moves_bind (assert_moves _)
    fun _ => quiet _ fun s => ?_) fun _ =>
    moves_bind (ifSome_moves fun q _ => modBase_moves still q _) fun _ =>
    moves_bind (quiet _ fun s => ?_) fun _ => moves_pure _
  all_goals exact ⟨rfl, rfl, rfl, rfl, rfl, rfl, rfl, rfl⟩

end Eviction

section Aliases

variable {e : Env D} {r : Pno → ℤ} {own : List Pno}

theorem morePnodes_neutral : Moves Neutral (morePnodes e) := by
  refine moves_bind (malloc_moves fun s t h => Quiet.neutral s t (Still.quiet s t h.still)) fun ok =>
    moves_ite (fun _ => moves_write fun s hs => ⟨⟨hs.nodup, ?_, ?_, ?_, ?_⟩, fun q => rfl⟩)
      fun _ => moves_pure _
  · rw [List.nodup_append]
    refine ⟨List.nodup_reverse.mpr (List.nodup_range.map fun _ _ h => Nat.add_left_cancel h), hs.freeNodup, ?_⟩
    rintro _ ha b hb rfl
    have hlt := hs.freeBound _ hb
    simp only [List.mem_reverse, List.mem_map, List.mem_range] at ha
    obtain ⟨k, -, rfl⟩ := ha
    omega
  · intro q hq hl
    have hlt := hs.bound q hl
    simp only [List.mem_append, List.mem_reverse, List.mem_map, List.mem_range] at hq
    rcases hq with ⟨k, -, rfl⟩ | hq
    · omega
    · exact hs.disjoint q hq hl
  · intro q hl
    exact Nat.lt_add_right _ (hs.bound q hl)
  · intro q hq
    simp only [List.mem_append, List.mem_reverse, List.mem_map, List.mem_range] at hq ⊢
    rcases hq with ⟨k, hk, rfl⟩ | hq
    · exact Nat.add_lt_add_left hk _
    · exact Nat.lt_add_right _ (hs.freeBound q hq)

/-- A new alias comes from the free list with one reference, the caller's. -/
theorem sysioPNewAlias_held (parent : Option Pno) (b : PbId) (mnt : MntId) :
    Triple (Held r own) (sysioPNewAlias e parent b mnt) fun o => Held r (o.toList ++ own) := by
  refine triple_bind (Held.neutral (baseAt_moves b)) fun rb =>
    triple_bind (Held.neutral (assert_moves _)) fun _ =>
    triple_bind (Held.neutral (moves_read _)) fun _ =>
    triple_bind (Held.neutral (moves_when fun _ => morePnodes_neutral)) fun _ => ?_
  intro s hs a t h
  obtain ⟨free, _, hf, h⟩ := bind_ok.mp h
  obtain ⟨rfl, rfl⟩ := read_ok.mp hf
  cases hfree : s.nc.freePnodes with
  | nil =>
    simp only [hfree] at h
    obtain ⟨rfl, rfl⟩ := pure_ok.mp h
    simpa using hs
  | cons p rest =>
    simp only [hfree] at h
    obtain ⟨_, u, hu, h⟩ := bind_ok.mp h
    obtain rfl := write_ok.mp hu
    obtain ⟨_, v, hv, h⟩ := bind_ok.mp h
    obtain ⟨rfl, rfl⟩ := pure_ok.mp h
    refine Held.neutral ((modBase_moves Still.quiet b _).mono Quiet.neutral) _ ?_ _ _ hv
    have hnodup := hs.lists.freeNodup
    rw [hfree, List.nodup_cons] at hnodup
    have hp : p ∉ s.nc.pnodes := hs.lists.disjoint p (by simp [hfree])
    have hsub : ∀ q ∈ rest, q ∈ s.nc.freePnodes := fun q hq => by simp [hfree, hq]
    refine ⟨⟨?_, hnodup.2, fun q hq => ?_, fun q hq => ?_, fun q hq => ?_⟩, fun q => ?_⟩
    · refine List.nodup_append.mpr ⟨hs.lists.nodup, List.nodup_singleton p, fun a ha b hb => ?_⟩
      rw [List.mem_singleton.mp hb]
      exact fun h => hp (h ▸ ha)
    · have hqp : q ≠ p := fun h => hnodup.1 (h ▸ hq)
      simpa [hqp] using hs.lists.disjoint q (hsub q hq)
    · rcases List.mem_append.mp hq with hq | hq
      · exact hs.lists.bound q hq
      · rw [List.mem_singleton.mp hq]
        exact hs.lists.freeBound p (by simp [hfree])
    · exact hs.lists.freeBound q (hsub q hq)
    · have hq := hs.count q
      simp only [refs] at hq ⊢
      by_cases hqp : q = p
      · subst hqp
        simp only [hp, if_false] at hq
        simp
        omega
      · simpa [hqp, List.count_cons_of_ne (Ne.symm hqp)] using hq

theorem sysioPFindAlias_held (ops : OpsMove Quiet e) (parent : Pno) (name : Qstr) :
    Triple (Held r own) (sysioPFindAlias e parent name)
      fun res s => Held r (res.2.toList ++ own) s ∧ (res.1 = 0 → res.2.isSome) ∧
        (res.1 ≠ 0 → res.2 = none) := by
  have findBase_neutral : ∀ b, Moves Neutral (findBase e b name) := by
    intro b
    refine moves_bind (nameChain_moves b name) fun chain =>
      moves_bind (findNamed_moves _ _ _) fun found => ?_
    cases found with
    | none => exact sysioPbNew_neutral ops _ _ _
    | some b => exact moves_pure _
  have failed : Triple (Held r own) (pure (-ENOMEM, none) : Sysio D (ℤ × Option Pno))
      fun res s => Held r (res.2.toList ++ own) s ∧ (res.1 = 0 → res.2.isSome) ∧
        (res.1 ≠ 0 → res.2 = none) :=
    triple_pure fun s hs => ⟨by simpa using hs, by simp [ENOMEM], fun _ => rfl⟩
  refine triple_bind (Held.neutral (pnodeAt_moves parent)) fun n =>
    triple_bind (Held.neutral (findBase_neutral _)) fun found => ?_
  cases found with
  | none => exact failed
  | some b =>
    refine triple_bind (Held.neutral (baseAt_moves b)) fun rb =>
      triple_bind (Held.neutral (findAliasOf_moves _ _)) fun known => ?_
    cases known with
    | some p =>
      refine triple_bind (pRef_held p) fun _ => triple_pure fun s hs => ?_
      exact ⟨by simpa using hs, fun _ => rfl, fun h => (h rfl).elim⟩
    | none =>
      refine triple_bind (Held.neutral (pnodeAt_moves parent)) fun n =>
        triple_bind (sysioPNewAlias_held _ _ _) fun made => ?_
      cases made with
      | none => exact failed
      | some p =>
        exact triple_pure fun s hs => ⟨by simpa using hs, fun _ => rfl, fun h => (h rfl).elim⟩

end Aliases

theorem held_rules {e : Env D} (ops : OpsMove Quiet e) {r : Pno → ℤ} (hr : ∀ q, 0 ≤ r q) :
    Rules e fun _ own => Held r own where
  perm hp h := h.perm hp
  fewer h := h
  scratch k h := by
    obtain ⟨hl, hc⟩ := Quiet.neutral _ _ (Still.quiet _ _ k.still) h.lists
    exact ⟨hl, fun q => (hc q).trans (h.count q)⟩
  pRef _ _ p := pRef_held p
  pRele _ _ p := pRele_held hr p
  readlink _ _ i p n := Held.neutral ((ops.readlink i p n).mono Quiet.neutral)
  validate _ _ p intnt path :=
    Held.neutral ((sysioPValidate_moves Still.quiet ops p intnt path).mono Quiet.neutral)
  findAlias _ _ parent name _ _ := sysioPFindAlias_held ops parent name
  link h _ _ _ := h

/-- A successful walk adds one reference, on the node it returns; a failed one returns no node
and leaves every count as it was. -/
theorem sysioPathWalk_references {e : Env D} (ops : OpsMove Quiet e) {s t : Sys D}
    (hs : NodeLists s) (parent : Option Pno) (nd : Nameidata) {err : ℤ} {found : Option Pno}
    (h : sysioPathWalk e parent nd s = .ok ((err, found), t)) :
    (err = 0 → ∃ p, found = some p ∧ ∀ q, refs t q = refs s q + if q = p then 1 else 0) ∧
      (err ≠ 0 → found = none ∧ ∀ q, refs t q = refs s q) := by
  have start : Held (refs s) [] s := ⟨hs, fun q => by simp⟩
  obtain ⟨hheld, hsome⟩ := sysioPathWalk_rule (n := 0) (held_rules ops (refs_nonneg s)) parent nd s
    start (err, found) t h
  rw [List.append_nil] at hheld
  refine ⟨fun herr => ?_, fun herr => ?_⟩
  · obtain ⟨p, rfl⟩ := Option.isSome_iff_exists.mp (hsome.mp herr)
    refine ⟨p, rfl, fun q => ?_⟩
    have hq := hheld.count q
    simp only [Option.toList_some, List.count_singleton] at hq
    rw [hq]
    by_cases hqp : q = p
    · simp [hqp]
    · simp [hqp, Ne.symm hqp]
  · have hnone : found = none := by simpa [herr] using hsome
    subst hnone
    exact ⟨rfl, fun q => by simpa using hheld.count q⟩

theorem fuseEnv_quiet {B : Type} {h : FuseDriver.Host B} : OpsMove Quiet (FuseDriver.fuseEnv h) where
  lookup i p o intnt path := (FuseMoves.fuseEnv_still.lookup i p o intnt path).mono Still.quiet
  readlink i p n := (FuseMoves.fuseEnv_still.readlink i p n).mono Still.quiet
  gone i := (FuseMoves.fuseEnv_still.gone i).mono Still.quiet

/-- A file system of type "bb" on "/b", with a file "f" made in it. -/
def fileMade : Sys (FuseDriver.FuseData Unit) :=
  FuseSystem.calmRun [.open_ ⟨none, none⟩ [98, 98, 58, 47, 98, 47, 102] 0o102 0o644,
    .mount [] [47, 98] [98, 98] 2]

def walkFile : Sysio (FuseDriver.FuseData Unit) (ℤ × Option Pno) :=
  sysioPathWalk (FuseDriver.fuseEnv FuseSystem.calmHost) none
    { flags := 0, path := some [47, 98, 47, 102], root := fileMade.mt.root, intent := none }

theorem sysioPathWalk_references_fileMade :
    NodeLists fileMade ∧ ∃ p, ∀ q,
      refs (walkFile.final fileMade) q = refs fileMade q + if q = p then 1 else 0 := by
  have lists : NodeLists fileMade :=
    ⟨by decide +kernel, by decide +kernel, by decide +kernel, by decide +kernel, by decide +kernel⟩
  have run : walkFile fileMade = .ok ((0, some 107), walkFile.final fileMade) :=
    ok_of_value (by decide +kernel)
  obtain ⟨p, -, hp⟩ := (sysioPathWalk_references fuseEnv_quiet lists none _ run).1 rfl
  exact ⟨lists, p, hp⟩

end PathRefs
