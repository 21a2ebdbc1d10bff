import DirectFuse.WalkEnds
import DirectFuse.NoFollow

/-! Path resolution ends, however the symbolic links of the name space lead to one another: a walk
nests no deeper than the links it may follow, and gives up where following them never ends. -/
namespace LinkCircles

open ExecLogic SysioState SysioInode SysioNamei CoreMoves WalkRules PathRefs Sparing RankedNames
open WalkPairs WalkEnds

variable {D : Type} {I : Sys D → Prop} {e : Env D} (d : Prompt I e)

/-- `_sysio_path_walk` as it calls itself, with the count of links in `slicnt`, where a call that
nests deeper than `depth` does not come back. -/
def nestedWalk (e : Env D) : ℕ → ℕ → Option Pno → Nameidata → Sysio D (ℤ × Option Pno)
  | 0, _, _, _ => Exec.fault .diverge
  | depth + 1, slicnt, parent, nd =>
    walkFrom e
      (if slicnt < MAX_SYMLINK then some fun p nd => nestedWalk e depth (slicnt + 1) (some p) nd
        else none) parent nd

/-- The walk without MAX_SYMLINK, as far as it nests no deeper than `depth`, where the walk over the
text of a link gets from `pass` its flags. -/
def unlimitedWalk (e : Env D) (pass : ℕ → ℕ) : ℕ → Option Pno → Nameidata → Sysio D (ℤ × Option Pno)
  | 0, _, _ => Exec.fault .diverge
  | depth + 1, parent, nd =>
    walkFrom e (some fun p nd => unlimitedWalk e pass depth (some p) { nd with flags := pass nd.flags })
      parent nd

/-- The flags without ND_NOFOLLOW. -/
def following (flags : ℕ) : ℕ := flags - (flags &&& ND_NOFOLLOW)

/-- Following the links the walk comes to, each to its end, never ends. -/
def Circles (e : Env D) (parent : Option Pno) (nd : Nameidata) (s : Sys D) : Prop :=
  ∀ depth, unlimitedWalk e following depth parent nd s = .error .diverge

/-- Following the links the walk comes to never ends, although ND_NOFOLLOW, if it is set, keeps off
those that are named last in the text of another as well. -/
def CirclesWithin (e : Env D) (parent : Option Pno) (nd : Nameidata) (s : Sys D) : Prop :=
  ∀ depth, unlimitedWalk e id depth parent nd s = .error .diverge

theorem nestedWalk_eq (budget : ℕ) (h : budget ≤ MAX_SYMLINK) (parent : Option Pno)
    (nd : Nameidata) : nestedWalk e (budget + 1) (MAX_SYMLINK - budget) parent nd =
      walkBudget e budget parent nd := by
  induction budget generalizing parent nd with
  | zero => rfl
  | succ budget ih =>
    have hlt : MAX_SYMLINK - (budget + 1) < MAX_SYMLINK := by omega
    have hnext : MAX_SYMLINK - (budget + 1) + 1 = MAX_SYMLINK - budget := by omega
    unfold nestedWalk walkBudget
    rw [if_pos hlt, hnext]
    simp only [ih (by omega)]

section Flags

variable {f g : Follow D} {nd : Nameidata} (same : ∀ p sub, sub.flags = nd.flags → f p sub = g p sub)

include same

theorem followLink_congr (last : Bool) (cur : Pno) (i : InoId) :
    followLink e (some f) nd last cur i = followLink e (some g) nd last cur i := by
  have sub : ∀ p path root intent,
      f p ⟨nd.flags, path, root, intent⟩ = g p ⟨nd.flags, path, root, intent⟩ :=
    fun p path root intent => same p _ rfl
  simp only [followLink, sub]

theorem walkLoop_congr (comps : List Component) (path : Option Bytes) (cur : Pno) :
    walkLoop e (some f) nd comps path cur = walkLoop e (some g) nd comps path cur := by
  induction comps generalizing path cur with
  | nil =>
    unfold walkLoop
    simp only [followLink_congr same]
  | cons this rest ih =>
    unfold walkLoop
    simp only [followLink_congr same, ih]

theorem walkFrom_congr (parent : Option Pno) :
    walkFrom e (some f) parent nd = walkFrom e (some g) parent nd := by
  simp only [walkFrom, walkLoop_congr same]

omit same in
/-- Where ND_NOFOLLOW is not set, every link is followed to its end. -/
theorem unlimitedWalk_following (depth : ℕ) (parent : Option Pno) {nd : Nameidata}
    (unset : nd.flags &&& ND_NOFOLLOW = 0) :
    unlimitedWalk e following depth parent nd = unlimitedWalk e id depth parent nd := by
  induction depth generalizing parent nd with
  | zero => rfl
  | succ depth ih =>
    refine walkFrom_congr (fun p sub hsub => ?_) parent
    have kept : following sub.flags = sub.flags := by rw [following, hsub, unset, Nat.sub_zero]
    rw [kept]
    exact ih (some p) (by rw [hsub]; exact unset)

end Flags

section Turning

variable {r : Pno → ℤ} {own : List Pno} (hr : ∀ q, 0 ≤ r q)

/-- The walk gives up with the value `a`, and holds what it is to hold. -/
def Turned {α : Type} (r : Pno → ℤ) (own : List Pno) (a : α) (res : Except Fault (α × Sys D)) :
    Prop :=
  ∃ t, res = .ok (a, t) ∧ Held r own t

include hr in
theorem walkExit_turned {cur : Pno} {s : Sys D} (held : Held r (cur :: own) s) :
    Turned r own (-ELOOP, none) (walkExit (-ELOOP) (some cur) none s) := by
  have hne : (s.nc.pnode cur).ref ≠ 0 := by
    intro h0
    have hcount := held.count cur
    have hpos := hr cur
    rw [List.count_cons_self] at hcount
    simp only [refs, h0] at hcount
    split at hcount <;> omega
  obtain ⟨t, ht⟩ : ∃ t, pRele cur s = .ok ((), t) :=
    ⟨_, bind_ok.mpr ⟨(), s, check_ok.mpr ⟨decide_eq_true hne, rfl⟩, rfl⟩⟩
  refine ⟨t, bind_ok.mpr ⟨_, s, rfl, bind_ok.mpr ⟨(), s, rfl, ?_⟩⟩, pRele_held hr cur s held () t ht⟩
  exact bind_ok.mpr ⟨(), t, ht, rfl⟩

/-- Where following a link by `F` does not end, following it by `G` gives up; where the one comes
to a node, the other comes to the same. -/
def Turns (I : Sys D → Prop) (e : Env D) (F G : Option (Follow D)) : Prop :=
  ∀ r : Pno → ℤ, (∀ q, 0 ≤ r q) → ∀ own nd last cur i s, Ready I s → Held r (cur :: own) s →
    (followLink e F nd last cur i s = .error .diverge →
      Turned r (cur :: own) (-ELOOP, cur) (followLink e G nd last cur i s)) ∧
    ∀ p t, followLink e F nd last cur i s = .ok ((0, p), t) →
      followLink e G nd last cur i s = .ok ((0, p), t)

end Turning

theorem quiet (d : Prompt I e) : OpsMove Quiet e where
  lookup i p o intnt path := (d.off.lookup i p o intnt path).mono fun _ _ k => Still.quiet _ _ k.still
  readlink i p n := (d.off.readlink i p n).mono fun _ _ k => Still.quiet _ _ k.still
  gone i := (d.off.gone i).mono fun _ _ k => Still.quiet _ _ k.still

section Circling

variable {F G : Option (Follow D)} (turn : Turns I e F G) (ends : Followed I G)
  (rule : FollowRule e G) {r : Pno → ℤ} {own : List Pno} (hr : ∀ q, 0 ≤ r q)

include d turn ends rule hr

/-- The head of a round of the walk. -/
theorem linkBranch_turned (nd : Nameidata) (last : Bool) (cur : Pno) {c : Inode → Prop}
    [∀ r, Decidable (c r)] {k k' : ℤ × Pno → Sysio D (ℤ × Option Pno)} {s : Sys D}
    (h : Ready I s) (held : Held r (cur :: own) s)
    (run : (do
      let i ← nonNull (← inoOf cur)
      let ri ← inodeAt i
      let res ← (if ri.stbuf.isLnk ∧ c ri then followLink e F nd last cur i else pure (0, cur))
      k res : Sysio D (ℤ × Option Pno)) s = .error .diverge)
    (up : ∀ t, Held r (cur :: own) t → Turned r own (-ELOOP, none) (k' (-ELOOP, cur) t))
    (fails : ∀ err p t, err ≠ 0 → k (err, p) t ≠ .error .diverge)
    (rest : ∀ p t, Ready I t → Held r (p :: own) t → k (0, p) t = .error .diverge →
      Turned r own (-ELOOP, none) (k' (0, p) t)) :
    Turned r own (-ELOOP, none) ((do
      let i ← nonNull (← inoOf cur)
      let ri ← inodeAt i
      let res ← (if ri.stbuf.isLnk ∧ c ri then followLink e G nd last cur i else pure (0, cur))
      k' res : Sysio D (ℤ × Option Pno)) s) := by
  refine bind_turn (Q := fun _ t => t = s) (inoOf_ends fun _ _ => rfl) run fun ino t _ ht run1 => ?_
  subst ht
  refine bind_turn (Q := fun _ u => u = t) (nonNull_ends fun _ _ => rfl) run1 fun i u _ hu run2 => ?_
  subst hu
  refine bind_turn (Q := fun _ v => v = u) (inodeAt_ends fun _ _ => rfl) run2 fun ri v _ hv run3 => ?_
  subst hv
  by_cases hc : ri.stbuf.isLnk ∧ c ri
  · simp only [if_pos hc] at run3 ⊢
    obtain ⟨circles, comes⟩ := turn r hr own nd last cur i v h held
    cases hf : followLink e F nd last cur i v with
    | error d =>
      rw [bind_error hf] at run3
      obtain rfl : d = .diverge := Except.error.inj run3
      obtain ⟨t, ht, held'⟩ := circles hf
      rw [bind_run ht]
      exact up t held'
    | ok res =>
      obtain ⟨⟨err, p⟩, t⟩ := res
      rw [bind_run hf] at run3
      by_cases herr : err = 0
      · subst herr
        have hg := comes p t hf
        have ready := (followLink_ends d ends nd last cur i h).2 _ t hg
        have held' := followLink_rule (held_rules (quiet d) hr) rule nd last cur i v
          (fun _ => held) _ t hg 0
        rw [bind_run hg]
        exact rest p t ready held' run3
      · exact absurd run3 (fails err p t herr)
  · simp only [if_neg hc] at run3 ⊢
    exact rest cur v h held run3

theorem walkLoop_turned (nd : Nameidata) (comps : List Component)
    (hashed : ∀ c ∈ comps, Hashed c.qstr) (path : Option Bytes) (cur : Pno) {s : Sys D}
    (h : Ready I s) (held : Held r (cur :: own) s)
    (run : walkLoop e F nd comps path cur s = .error .diverge) :
    Turned r own (-ELOOP, none) (walkLoop e G nd comps path cur s) := by
  have up : ∀ {m : Sysio D (ℤ × Option Pno)} cur t, Held r (cur :: own) t →
      Turned r own (-ELOOP, none) ((if (-ELOOP : ℤ) ≠ 0 then walkExit (-ELOOP) (some cur) none else m) t) := by
    intro m cur t ht
    rw [if_pos (by decide)]
    exact walkExit_turned hr ht
  have fails : ∀ {m : Sysio D (ℤ × Option Pno)} (err : ℤ) p t, err ≠ 0 →
      (if err ≠ 0 then walkExit err (some p) none else m) t ≠ .error .diverge := by
    intro m err p t herr
    rw [if_pos herr]
    exact walkExit_avoids err (some p) none t
  induction comps generalizing path cur s with
  | nil =>
    unfold walkLoop at run ⊢
    exact linkBranch_turned d turn ends rule hr nd _ cur h held run (fun t ht => up cur t ht)
      (fun err p t herr => fails err p t herr)
      fun p t _ _ run => absurd run (walkExit_avoids 0 (some p) none t)
  | cons this rest ih =>
    unfold walkLoop at run ⊢
    refine linkBranch_turned d turn ends rule hr nd _ cur h held run (fun t ht => up cur t ht)
      (fun err p t herr => fails err p t herr) fun cur t ready held run => ?_
    refine bind_turn (Q := fun _ u => u = t) (inoOf_ends fun _ _ => rfl) run fun ino u _ hu run1 => ?_
    subst hu
    cases ino with
    | none => exact absurd run1 (walkExit_avoids _ _ _ _)
    | some i =>
      refine bind_turn (Q := fun _ v => v = u) (inodeAt_ends fun _ _ => rfl) run1
        fun ri v _ hv run2 => ?_
      subst hv
      refine ite_turn run2 (fun _ run3 => absurd run3 (walkExit_avoids _ _ _ _)) fun _ run3 => ?_
      refine bind_turn (lookup_ends d _ _ _ _ _ ready) run3 fun res w hw ready' run4 => ?_
      obtain ⟨err, found⟩ := res
      have held' := (lookup_rule (held_rules (quiet d) hr) (n := 0) cur (List.mem_cons_self ..) _
        (hashed this (List.mem_cons_self ..)) _ _ _ v held _ w hw).1
      refine ite_turn run4 (fun _ run5 => ?_) fun _ run5 => ?_
      · exact absurd run5 ((avoids_ite (fun _ => walkExit_avoids _ _ _) fun _ =>
          walkExit_avoids _ _ _) w)
      refine bind_turn (Q := fun p x => x = w ∧ found = some p) (nonNull_ends fun _ hp => ⟨rfl, hp⟩)
        run5 fun p x _ hx run6 => ?_
      obtain ⟨rfl, rfl⟩ := hx
      refine bind_turn (Q := fun _ y => y = x) (pnodeAt_ends rfl) run6 fun nc y _ hy run7 => ?_
      subst hy
      refine bind_turn (Q := fun _ z => z = y) (pnodeAt_ends rfl) run7 fun np z _ hz run8 => ?_
      subst hz
      refine bind_turn (Q := fun _ y => y = z) (mountAt_ends fun _ _ => rfl) run8
        fun mc y _ hy run9 => ?_
      subst hy
      refine bind_turn (Q := fun _ z => z = y) (mountAt_ends fun _ _ => rfl) run9
        fun mp z _ hz run10 => ?_
      subst hz
      refine bind_turn (pRele_ends d cur ready') run10 fun u y hy ready'' run11 => ?_
      have held'' := pRele_held hr cur z (held'.perm (List.Perm.swap _ _ _)) u y hy
      exact ih (fun c hc => hashed c (List.mem_cons_of_mem _ hc)) _ p ready''.1 held'' run11

theorem walkFrom_turned (parent : Option Pno) (nd : Nameidata) {s : Sys D} (h : Ready I s)
    (held : Held r own s) (run : walkFrom e F parent nd s = .error .diverge) :
    Turned r own (-ELOOP, none) (walkFrom e G parent nd s) := by
  obtain ⟨flags, path, root, intent⟩ := nd
  rcases path with _ | (_ | ⟨c, l⟩)
  · exact absurd run (avoids_pure _ s)
  · exact absurd run (avoids_pure _ s)
  · refine bind_turn (Q := fun _ t => t = s) (nonNull_ends fun _ _ => rfl) run
      fun start t _ ht run1 => ?_
    subst ht
    refine bind_turn (sysioPValidate_ends d start none none h) run1 fun err u hu ready run2 => ?_
    have held' := (held_rules (quiet d) hr).validate 0 own start none none t held err u hu
    refine ite_turn run2 (fun _ run3 => absurd run3 (avoids_pure _ u)) fun _ run3 => ?_
    refine bind_turn (pRef_ends d start ready) run3 fun a v hv ready' run4 => ?_
    exact walkLoop_turned d turn ends rule hr _ _ (components_hashed _) _ start ready'.1
      (pRef_held start u held' a v hv) run4

end Circling

section Circles

include d

/-- Where a walk nests a link, so does the other. -/
theorem turns_of_walks {f g : Follow D}
    (circles : ∀ r : Pno → ℤ, (∀ q, 0 ≤ r q) → ∀ own p nd s, Ready I s → Held r own s →
      f p nd s = .error .diverge → Turned r own (-ELOOP, none) (g p nd s))
    (comes : ∀ p nd s q t, f p nd s = .ok ((0, q), t) → g p nd s = .ok ((0, q), t)) :
    Turns I e (some f) (some g) := by
  intro r hr own nd last cur i s h held
  have rules := held_rules (quiet d) hr
  constructor
  · intro run
    refine bind_turn (malloc_ends d h) run fun ok u hok ready run1 => ?_
    have held1 := malloc_rule rules (n := 0) s held ok u hok
    refine ite_turn run1 (fun _ run2 => absurd run2 (avoids_pure _ u)) fun _ run2 => ?_
    refine bind_turn (readlink_ends d i cur 4096 ready) run2 fun text v htext ready' run3 => ?_
    have held2 := rules.readlink 0 _ i cur 4096 u held1 text v htext
    refine ite_turn run3 (fun _ run4 => absurd run4 (avoids_pure _ v)) fun _ run4 => ?_
    refine bind_turn (Q := fun _ w => w = v) (pnodeAt_ends rfl) run4 fun n w _ hw run5 => ?_
    subst hw
    cases hf : f n.parent ⟨nd.flags, some ((text.2.take text.1.toNat).takeWhile (· != 0)), nd.root,
        if last then nd.intent else none⟩ w with
    | error x =>
      rw [bind_error hf] at run5
      obtain rfl : x = .diverge := Except.error.inj run5
      obtain ⟨t, ht, held3⟩ := circles r hr _ _ _ w ready' held2 hf
      exact ⟨t, (bind_run ht).trans rfl, held3⟩
    | ok res =>
      obtain ⟨res, x⟩ := res
      rw [bind_run hf] at run5
      exact absurd run5 ((avoids_ite (fun _ => avoids_pure _) fun _ => avoids_bind (avoids_bind
        (avoids_check (by decide) _) fun _ => avoids_write _) fun _ =>
        avoids_bind (avoids_deref (by decide) _) fun _ => avoids_pure _) x)
  · intro p t run
    refine (bind_or (P := False) run fun ok u _ h1 => ite_or h1 (fun _ h => Or.inl h) fun _ h2 =>
      bind_or h2 fun text v _ h3 => ite_or h3 (fun _ h => Or.inl h) fun _ h4 =>
      bind_or h4 fun n w _ h5 => ?_).resolve_right id
    obtain ⟨⟨err, found⟩, x, hf, h6⟩ := bind_ok.mp h5
    by_cases herr : err = 0
    · subst herr
      exact Or.inl (bind_ok.mpr ⟨_, x, comes _ _ _ _ _ hf, h6⟩)
    · change (if err ≠ 0 then (pure (err, cur) : Sysio D (ℤ × Pno)) else _) x = _ at h6
      rw [if_pos herr] at h6
      obtain ⟨hres, -⟩ := pure_ok.mp h6
      exact absurd (congrArg Prod.fst hres) herr

omit d in
/-- Where the walk without MAX_SYMLINK comes to a node, so does the one that may follow as many
links as this has nested. -/
theorem unlimitedWalk_comes (depth : ℕ) (parent : Option Pno) (nd : Nameidata) {s t : Sys D}
    {q : Option Pno} (run : unlimitedWalk e id (depth + 1) parent nd s = .ok ((0, q), t)) :
    walkBudget e depth parent nd s = .ok ((0, q), t) := by
  have settle : ∀ {m : Prop}, m ∨ Parts (fun _ => True) nd.flags nd.flags (0, q) t → m := by
    rintro m (h | ⟨h0, -⟩ | ⟨hf, hg, -⟩)
    · exact h
    · exact absurd rfl h0
    · exact absurd hg hf
  induction depth generalizing parent nd s t q with
  | zero =>
    have leads : Leads (D := D) (fun _ => True) nd.flags nd.flags
        (some fun p nd => unlimitedWalk e id 0 (some p) nd) none :=
      ⟨fun _ _ => trivial, fun _ _ _ _ _ h => by cases h⟩
    exact settle (walkFrom_leads leads (Agree.refl _) run)
  | succ depth ih =>
    have leads : Leads (D := D) (fun _ => True) nd.flags nd.flags
        (some fun p nd => unlimitedWalk e id (depth + 1) (some p) nd)
        (some fun p nd => walkBudget e depth (some p) nd) := by
      intro p path root intent s res t h
      obtain ⟨err, q⟩ := res
      by_cases herr : err = 0
      · subst herr
        refine Or.inl (ih _ _ h ?_)
        rintro m (h | ⟨h0, -⟩ | ⟨hf, hg, -⟩)
        · exact h
        · exact absurd rfl h0
        · exact absurd hg hf
      · exact Or.inr (Or.inl ⟨herr, trivial⟩)
    exact settle (walkFrom_leads leads (Agree.refl _) run)

/-- Where the walk without MAX_SYMLINK nests deeper than `depth`, the one that may follow as many
links gives up. -/
theorem unlimitedWalk_turned (depth : ℕ) {r : Pno → ℤ} (hr : ∀ q, 0 ≤ r q) {own : List Pno}
    (parent : Option Pno) (nd : Nameidata) {s : Sys D} (h : Ready I s) (held : Held r own s)
    (run : unlimitedWalk e id (depth + 1) parent nd s = .error .diverge) :
    Turned r own (-ELOOP, none) (walkBudget e depth parent nd s) := by
  induction depth generalizing r own parent nd s with
  | zero =>
    have turn : Turns I e (some fun p nd => unlimitedWalk e id 0 (some p) nd) none := by
      intro r _ own nd last cur i s _ held
      refine ⟨fun _ => ⟨s, rfl, held⟩, fun p t run => ?_⟩
      exact absurd rfl (followLink_fails (fun _ _ _ _ _ h => by cases h) nd last cur i s trivial _ t run)
    exact walkFrom_turned d turn (fun _ h => by cases h) (fun _ h => by cases h) hr parent nd h held
      run
  | succ depth ih =>
    have turn : Turns I e (some fun p nd => unlimitedWalk e id (depth + 1) (some p) nd)
        (some fun p nd => walkBudget e depth (some p) nd) :=
      turns_of_walks d (fun r hr own p nd s h held run => ih hr (some p) nd h held run)
        fun p nd s q t run => unlimitedWalk_comes depth (some p) nd run
    refine walkFrom_turned d turn (fun walk hw p nd s h => ?_) (followRule depth) hr parent nd h held
      run
    obtain rfl := Option.some.inj hw
    exact walkBudget_ends d depth (some p) nd h

end Circles

/-- Path resolution ends: the walk nests no deeper than one call for each of MAX_SYMLINK links and
one more, each of these comes to its end, and where following the links it comes to never ends it
returns -ELOOP; under ND_NOFOLLOW it does where links named last have no part in that. -/
theorem path_walk_ends (d : Prompt I e) {s : Sys D} (h : Ready I s) (parent : Option Pno)
    (nd : Nameidata) :
    nestedWalk e (MAX_SYMLINK + 1) 0 parent nd = sysioPathWalk e parent nd ∧
      sysioPathWalk e parent nd s ≠ .error .diverge ∧
      (nd.flags &&& ND_NOFOLLOW = 0 → Circles e parent nd s →
        ∃ t, sysioPathWalk e parent nd s = .ok ((-ELOOP, none), t)) ∧
      (CirclesWithin e parent nd s →
        ∃ t, sysioPathWalk e parent nd s = .ok ((-ELOOP, none), t)) := by
  have within : CirclesWithin e parent nd s →
      ∃ t, sysioPathWalk e parent nd s = .ok ((-ELOOP, none), t) := by
    intro circles
    have held : Held (refs s) [] s := ⟨h.ranked.lists, fun q => by simp⟩
    obtain ⟨t, ht, -⟩ := unlimitedWalk_turned d MAX_SYMLINK (refs_nonneg s) parent nd h held
      (circles (MAX_SYMLINK + 1))
    exact ⟨t, ht⟩
  refine ⟨nestedWalk_eq MAX_SYMLINK (Nat.le_refl _) parent nd,
    (walkBudget_ends d MAX_SYMLINK parent nd h).1, fun unset circles => within fun depth => ?_, within⟩
  rw [← unlimitedWalk_following depth parent unset]
  exact circles depth

section Circle

open NoFollow

/-- Every link of this driver has the text `c`. -/
def circleEnv : Env Unit :=
  { chainEnv with ops := { chainOps with readlink := fun _ _ _ => return (1, [99]) } }

/-- The name of the link. -/
def circleName : Qstr := ⟨[99], nameHash [99]⟩

/-- The root of the name space, with `k` references. -/
def rootNode (k : ℕ) : Pnode := { ref := k, parent := 0, base := 0, mount := 0, cover := some 0 }
/-- The link `c` in it, with `k` references. -/
def linkNode (k : ℕ) : Pnode := { ref := k, parent := 0, base := 1, mount := 0, cover := none }

def circleNodes (k m : ℕ) : Pno → Pnode := fun p =>
  if p = 1 then linkNode m else if p = 0 then rootNode k
  else { ref := 0, parent := p, base := 0, mount := 0, cover := none }

/-- The library with that name space, the link being in the cache. -/
def circleState (k m j : ℕ) (queue : List Pno) : Sys Unit where
  nc :=
    { pnode := circleNodes k m
      base := fun b =>
        if b = 0 then
          some { name := ⟨[], 0⟩, ino := some 0, children := [1], aliases := [0], parent := none }
        else if b = 1 then
          some { name := circleName, ino := some 1, children := [], aliases := [1], parent := some 0 }
        else none
      pnodes := queue
      freePnodes := []
      names := fun n => if n = circleName.hashval % NAMES_TABLE_LEN then [1] else []
      nNames := 2
      maxNames := 2 * NAMES_TABLE_LEN
      nextPnode := 2
      nextBase := 2 }
  ic :=
    { inode := fun i =>
        if i = 0 then some ⟨true, false, 1, ⟨0, 1, S_IFDIR ||| 0o755, 2, 0, 0, 0⟩, 0, 1, 0⟩
        else if i = 1 then some ⟨false, false, 1, ⟨0, 2, S_IFLNK ||| 0o777, 1, 0, 0, 1⟩, 0, 2, 0⟩
        else none
      filesys := fun _ => none
      inodes := [0, 1]
      nInodes := 2
      maxInodes := MAX_INODES_MULTIPLIER * NAMES_TABLE_LEN
      nextInode := 2
      nextFs := 1 }
  mt :=
    { mount := fun m => if m = 0 then some ⟨0, 0, some 0, some 0⟩ else none
      mounts := [0]
      nextMount := 1
      root := some 0
      cwd := some 0 }
  ft := { file := fun _ => none, oftab := [], nextFile := 0 }
  aio :=
    { ioctx := fun _ => none
      aioq := []
      nextIoctx := 0
      frees := fun _ => 0
      nextVec := 0
      ran := [] }
  umask := 0
  gidslen := 0
  mallocs := j
  drv := ()

def toCircle : Nameidata :=
  { flags := ND_NOPERMCHECK, path := some [99], root := some 0, intent := none }

/-- A name behind the link, under ND_NOFOLLOW. -/
def behindCircle : Nameidata := noFollow { toCircle with path := some [99, 47, 102] }

/-- The walks of the two paths, with what there is behind the link. -/
inductive Route : Nameidata → Bytes → List Component → Prop where
  | circle : Route toCircle [] []
  | behind : Route behindCircle [47, 102] [⟨⟨[102], nameHash [102]⟩, [102], []⟩]

variable (k m j : ℕ)

theorem circleNodes_link (n : ℕ) :
    Function.update (circleNodes k m) 1 (linkNode n) = circleNodes k n := by
  funext p
  by_cases hp : p = 1
  · rw [hp, Function.update_self]
    rfl
  · rw [Function.update_of_ne hp, circleNodes, circleNodes, if_neg hp, if_neg hp]

theorem circleNodes_root (n : ℕ) :
    Function.update (circleNodes k m) 0 (rootNode n) = circleNodes n m := by
  funext p
  by_cases hp : p = 0
  · rw [hp, Function.update_self]
    rfl
  · rw [Function.update_of_ne hp, circleNodes, circleNodes, if_neg hp, if_neg hp]

theorem circleState_nodes {f : Pno → Pnode} {k' m' : ℕ} (queue : List Pno)
    (h : f = circleNodes k' m') :
    ({ circleState k m j queue with nc.pnode := f } : Sys Unit) = circleState k' m' j queue := by
  subst h
  rfl

theorem pRef_root :
    pRef 0 (circleState k m j [0, 1]) = .ok ((), circleState (k + 1) m j [1, 0]) := by
  rw [← circleState_nodes k m j [1, 0] (circleNodes_root k m (k + 1))]
  rfl

theorem pRef_link :
    pRef 1 (circleState k m j [1, 0]) = .ok ((), circleState k (m + 1) j [0, 1]) := by
  rw [← circleState_nodes k m j [0, 1] (circleNodes_link k m (m + 1))]
  rfl

theorem pRele_root :
    pRele 0 (circleState (k + 1) m j [0, 1]) = .ok ((), circleState k m j [0, 1]) := by
  rw [← circleState_nodes (k + 1) m j [0, 1] (circleNodes_root (k + 1) m k)]
  rfl


theorem lookup_link (path : Option Bytes) :
    lookup circleEnv 0 circleName none path false (circleState k m j [1, 0]) =
    .ok ((0, some 1), circleState k (m + 1) j [0, 1]) := by
  have found : sysioPFindAlias circleEnv 0 circleName (circleState k m j [1, 0]) =
      .ok ((0, some 1), circleState k (m + 1) j [0, 1]) :=
    bind_ok.mpr ⟨_, _, rfl, bind_ok.mpr ⟨some 1, _, rfl, bind_ok.mpr ⟨_, _, rfl,
      bind_ok.mpr ⟨some 1, _, rfl, bind_ok.mpr ⟨(), _, pRef_link k m j, rfl⟩⟩⟩⟩⟩
  exact bind_ok.mpr ⟨_, _, rfl, bind_ok.mpr ⟨0, _, rfl, bind_ok.mpr ⟨_, _, found, rfl⟩⟩⟩

/-- From the link the walk comes to the link again, nested one deeper. -/
theorem circle_round {F : Follow Unit} {nd : Nameidata} {tail : Bytes} {rest : List Component}
    (route : Route nd tail rest)
    (h : F 0 { nd with path := some [99] } (circleState k (m + 1) (j + 1) [0, 1]) =
      .error .diverge) :
    walkFrom circleEnv (some F) (some 0) nd (circleState k m j [0, 1]) = .error .diverge := by
  have atLink : walkLoop circleEnv (some F) nd rest none 1 (circleState k (m + 1) j [0, 1]) =
      .error .diverge := by
    have follow : followLink circleEnv (some F) nd rest.isEmpty 1 1
        (circleState k (m + 1) j [0, 1]) = .error .diverge := by
      cases route
      all_goals
        refine (bind_run rfl).trans ?_
        refine (bind_run rfl).trans ?_
        refine (bind_run rfl).trans ?_
        exact bind_error h
    cases route
    all_goals
      refine (bind_run rfl).trans ?_
      refine (bind_run rfl).trans ?_
      refine (bind_run rfl).trans ?_
      exact bind_error follow
  have atRoot : walkLoop circleEnv (some F) nd (⟨circleName, 99 :: tail, tail⟩ :: rest)
      (some (99 :: tail)) 0 (circleState (k + 1) m j [1, 0]) = .error .diverge := by
    cases route
    all_goals
      refine (bind_run rfl).trans ?_
      refine (bind_run rfl).trans ?_
      refine (bind_run rfl).trans ?_
      refine (bind_run rfl).trans ?_
      refine (bind_run rfl).trans ?_
      refine (bind_run rfl).trans ?_
      refine (bind_run (lookup_link (k + 1) m j _)).trans ?_
      refine (bind_run rfl).trans ?_
      refine (bind_run rfl).trans ?_
      refine (bind_run rfl).trans ?_
      refine (bind_run rfl).trans ?_
      refine (bind_run rfl).trans ?_
      exact (bind_run (pRele_root k (m + 1) j)).trans atLink
  cases route
  all_goals
    refine (bind_run rfl).trans ?_
    refine (bind_run rfl).trans ?_
    exact (bind_run (pRef_root k m j)).trans atRoot

theorem circle_nested (depth m j : ℕ) : unlimitedWalk circleEnv following depth (some 0) toCircle
    (circleState 2 m j [0, 1]) = .error .diverge := by
  induction depth generalizing m j with
  | zero => rfl
  | succ depth ih => exact circle_round 2 m j .circle (ih (m + 1) (j + 1))

theorem circle_circles : Circles circleEnv (some 0) toCircle (circleState 2 0 0 [0, 1]) :=
  fun depth => circle_nested depth 0 0

/-- Under ND_NOFOLLOW the walk comes back with the link, although following it never ends. -/
theorem nofollow_at_circle : ¬ ∀ nd : Nameidata,
    Circles circleEnv (some 0) nd (circleState 2 0 0 [0, 1]) →
    ∃ t, sysioPathWalk circleEnv (some 0) (noFollow nd) (circleState 2 0 0 [0, 1]) =
      .ok ((-ELOOP, none), t) := by
  intro claim
  obtain ⟨t, gaveUp⟩ := claim toCircle circle_circles
  have found : sysioPathWalk circleEnv (some 0) (noFollow toCircle) (circleState 2 0 0 [0, 1]) =
      .ok ((0, some 1), _) := ok_of_value (by decide +kernel)
  rw [found] at gaveUp
  obtain ⟨hret, -⟩ := Prod.mk.inj (Except.ok.inj gaveUp)
  exact absurd (congrArg Prod.fst hret) (by decide)

/-- In front of another name the walk comes to the circle even under ND_NOFOLLOW, but then takes the
link, which is named last in its own text, for what that leads to. -/
theorem nofollow_behind_circle : Circles circleEnv (some 0) behindCircle (circleState 2 0 0 [0, 1]) ∧
    ∃ t, sysioPathWalk circleEnv (some 0) behindCircle (circleState 2 0 0 [0, 1]) =
      .ok ((-ENOTDIR, none), t) := by
  constructor
  · intro depth
    cases depth with
    | zero => rfl
    | succ depth => exact circle_round 2 0 0 .behind (circle_nested depth 1 1)
  · exact ⟨_, ok_of_value (by decide +kernel)⟩

theorem circle_ready : Ready (fun _ => True) (circleState 2 0 0 [0, 1]) := by
  have base : ∀ (b : ℕ) r, (circleState 2 0 0 [0, 1]).nc.base b = some r →
      (b = 0 ∧ r.children = [1] ∧ r.aliases = [0]) ∨ (b = 1 ∧ r.children = [] ∧ r.aliases = [1]) := by
    rintro (_ | _ | b) r hr
    · obtain rfl := Option.some.inj hr
      exact Or.inl ⟨rfl, rfl, rfl⟩
    · obtain rfl := Option.some.inj hr
      exact Or.inr ⟨rfl, rfl, rfl⟩
    · cases hr
  refine ⟨⟨⟨by decide, List.nodup_nil, fun p hp => ?_, fun p hp => ?_, fun p hp => ?_⟩,
    fun b r hr => ?_, fun b r c hr hc => ?_, fun b r p hr hp => ?_, fun b r hr => ?_, fun p => ?_,
    fun p c hc hne => ?_⟩, trivial, by decide, by decide⟩
  · cases hp
  · have : ∀ p ∈ [0, 1], p < 2 := by decide
    exact this p hp
  · cases hp
  · rcases base b r hr with ⟨rfl, -⟩ | ⟨rfl, -⟩ <;> decide
  · rcases base b r hr with ⟨rfl, hchild, -⟩ | ⟨rfl, hchild, -⟩
    · rw [hchild, List.mem_singleton] at hc
      rw [hc]
      decide
    · rw [hchild] at hc
      cases hc
  · rcases base b r hr with ⟨rfl, -, halias⟩ | ⟨rfl, -, halias⟩
    · rw [halias, List.mem_singleton] at hp
      subst hp
      exact ⟨by decide, rfl⟩
    · rw [halias, List.mem_singleton] at hp
      subst hp
      exact ⟨by decide, rfl⟩
  · rcases base b r hr with ⟨-, -, halias⟩ | ⟨-, -, halias⟩
    · rw [halias]
      exact List.nodup_singleton 0
    · rw [halias]
      exact List.nodup_singleton 1
  · refine Or.inl ?_
    change (circleNodes 2 0 p).mount = 0
    unfold circleNodes
    split
    · rfl
    · split <;> rfl
  · change (circleNodes 2 0 p).cover = some c at hc
    unfold circleNodes at hc
    split at hc
    · cases hc
    · split at hc
      · rename_i hp
        exact absurd ((Option.some.inj hc).symm.trans hp.symm) hne
      · cases hc

/-- The driver needs nothing of the state to answer. -/
theorem circle_prompt : Prompt (fun _ => True) circleEnv where
  off :=
    { lookup := fun i p o _ _ => by
        cases o with
        | some i => exact moves_pure _
        | none =>
          refine moves_bind (pnodeAt_moves p) fun n => moves_bind (baseAt_moves _) fun r =>
            moves_bind (inoOf_moves _) fun dir => ?_
          cases chainEntry dir r.name.name with
          | none => exact moves_pure _
          | some i => exact moves_bind (iRef_moves (fun _ _ k => k) i) fun _ => moves_pure _
      readlink := fun _ _ _ => moves_pure _
      gone := fun _ => moves_pure _ }
  outside _ _ _ _ _ := trivial
  lookup i p o _ _ s _ := by
    refine Avoids.spares ?_ fun _ _ _ => trivial
    cases o with
    | some i => exact avoids_pure _
    | none =>
      refine avoids_bind (avoids_read _) fun n => avoids_bind (avoids_deref (by decide) _) fun r =>
        avoids_bind (inoOf_avoids _) fun dir => ?_
      cases chainEntry dir r.name.name with
      | none => exact avoids_pure _
      | some i =>
        exact avoids_bind (avoids_bind (avoids_deref (by decide) _) fun _ => avoids_write _)
          fun _ => avoids_pure _
  readlink _ _ _ _ _ := spares_pure trivial
  iRele i s _ := (iRele_avoids (fun _ => avoids_pure _) i).spares fun _ _ _ => trivial

theorem path_walk_ends_circle :
    sysioPathWalk circleEnv (some 0) toCircle (circleState 2 0 0 [0, 1]) ≠ .error .diverge ∧
      ∃ t, sysioPathWalk circleEnv (some 0) toCircle (circleState 2 0 0 [0, 1]) =
        .ok ((-ELOOP, none), t) := by
  obtain ⟨-, ends, gaveUp, -⟩ := path_walk_ends circle_prompt circle_ready (some 0) toCircle
  exact ⟨ends, gaveUp (by decide) circle_circles⟩

end Circle

end LinkCircles
