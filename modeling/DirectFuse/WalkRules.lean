import DirectFuse.CoreMoves

/-! A rule for path walks. `H n own` describes a state in which the walk owns the references in
`own` and may still make `n` names; from what the steps of a walk do to it follows what a whole walk
does. -/
namespace WalkRules

open ExecLogic SysioState SysioInode SysioNamei CoreMoves

variable {D : Type}

/-- A component's name: not empty, and with the hash of its bytes. -/
def Hashed (name : Qstr) : Prop := name.name ≠ [] ∧ name.hashval = nameHash name.name

structure Rules (e : Env D) (H : ℕ → List Pno → Sys D → Prop) : Prop where
  perm : ∀ {n own own' s}, own.Perm own' → H n own s → H n own' s
  fewer : ∀ {n own s}, H (n + 1) own s → H n own s
  scratch : ∀ {n own s t}, Scratch s t → H n own s → H n own t
  pRef : ∀ n own p, Triple (H n own) (pRef p : Sysio D Unit) fun _ => H n (p :: own)
  pRele : ∀ n own p, Triple (H n (p :: own)) (pRele p : Sysio D Unit) fun _ => H n own
  readlink : ∀ n own i p k, Triple (H n own) (e.ops.readlink i p k) fun _ => H n own
  validate : ∀ n own p intnt path,
    Triple (H n own) (sysioPValidate e p intnt path) fun _ => H n own
  findAlias : ∀ n own parent name, parent ∈ own → Hashed name →
    Triple (H (n + 1) own) (sysioPFindAlias e parent name) fun res s =>
      H n (res.2.toList ++ own) s ∧ (res.1 = 0 → res.2.isSome) ∧ (res.1 ≠ 0 → res.2 = none)
  /-- Where a symbolic link can be followed, the number of names is of no account. -/
  link : ∀ {n own s i r}, H n own s → s.ic.inode i = some r → r.stbuf.isLnk = true →
    ∀ m, H m own s

theorem components_hashed (path : Bytes) : ∀ c ∈ components path, Hashed c.qstr := by
  have aux : ∀ (fuel : ℕ) (path : Bytes), ∀ c ∈ componentsAux fuel path, Hashed c.qstr := by
    intro fuel
    induction fuel with
    | zero =>
      intro path c hc
      cases hc
    | succ fuel ih =>
      intro path c hc
      unfold componentsAux at hc
      split at hc
      rename_i next after heq
      by_cases hn : next.name = []
      · rw [if_pos hn] at hc
        cases hc
      · rw [if_neg hn] at hc
        rcases List.mem_cons.mp hc with rfl | hc
        · refine ⟨hn, ?_⟩
          simp only [sysioNextComponent, Prod.mk.injEq] at heq
          obtain ⟨rfl, -⟩ := heq
          rfl
        · exact ih after c hc
  exact aux _ path

/-- What a walk ends with: one reference on the node found, or none. -/
def Found (H : ℕ → List Pno → Sys D → Prop) (n : ℕ) (own : List Pno) (res : ℤ × Option Pno)
    (s : Sys D) : Prop :=
  H n (res.2.toList ++ own) s ∧ (res.1 = 0 ↔ res.2.isSome)

theorem triple_same {α : Type} {P : Sys D → Prop} {m : Sysio D α} (hm : Moves Eq m) :
    Triple P m fun _ => P := by
  intro s hs a t run
  rw [← hm s a t run]
  exact hs

section Walk

variable {e : Env D} {H : ℕ → List Pno → Sys D → Prop}

theorem Rules.le (w : Rules e H) {n m : ℕ} {own : List Pno} {s : Sys D} (h : H n own s)
    (hm : m ≤ n) : H m own s := by
  induction n with
  | zero =>
    obtain rfl : m = 0 := by omega
    exact h
  | succ n ih =>
    by_cases he : m = n + 1
    · subst he
      exact h
    · exact ih (w.fewer h) (by omega)

/-- Rules that hold whatever the number of names hold for all numbers at once. -/
theorem Rules.all (w : Rules e H) : Rules e fun _ own s => ∀ m, H m own s where
  perm hp h m := w.perm hp (h m)
  fewer h := h
  scratch k h m := w.scratch k (h m)
  pRef _ own p s h u t run m := w.pRef m own p s (h m) u t run
  pRele _ own p s h u t run m := w.pRele m own p s (h m) u t run
  readlink _ own i p k s h u t run m := w.readlink m own i p k s (h m) u t run
  validate _ own p intnt path s h u t run m := w.validate m own p intnt path s (h m) u t run
  findAlias _ own parent name hp hn s h res t run := by
    have at_ : ∀ m, H m (res.2.toList ++ own) t ∧ _ := fun m =>
      w.findAlias m own parent name hp hn s (h (m + 1)) res t run
    exact ⟨fun m => (at_ m).1, (at_ 0).2⟩
  link h _ _ _ := h

variable (w : Rules e H) {n : ℕ} {own : List Pno}

include w

theorem malloc_rule : Triple (H n own) (malloc e) fun _ => H n own :=
  fun s h a t run => w.scratch (malloc_moves (fun _ _ k => k) s a t run) h

theorem sysioPermitted_rule (p : Pno) (amode : ℕ) :
    Triple (H n own) (sysioPermitted e p amode) fun _ => H n own :=
  fun s h a t run => w.scratch (sysioPermitted_moves (fun _ _ k => k) p amode s a t run) h

/-- The cover loop hands its one reference on. -/
theorem toTopCover_rule (fuel : ℕ) (p : Pno) :
    Triple (H n (p :: own)) (toTopCover fuel p : Sysio D Pno) fun q => H n (q :: own) := by
  induction fuel generalizing p with
  | zero => exact triple_fault
  | succ fuel ih =>
    refine triple_bind (triple_same (pnodeAt_moves p)) fun np => ?_
    cases np.cover with
    | none => exact triple_pure fun s hs => hs
    | some c =>
      refine triple_ite (fun _ => triple_pure fun s hs => hs) fun _ => ?_
      refine triple_bind (w.pRef n _ c) fun _ => triple_bind ?_ fun _ => ih c
      exact triple_weaken (w.pRele n _ p) (fun s hs => w.perm (List.Perm.swap _ _ _) hs)
        fun _ _ h => h

theorem lookupNode_rule (parent : Pno) (hp : parent ∈ own) (name : Qstr) (hn : Hashed name) :
    Triple (H (n + 1) own) (lookupNode e parent name)
      fun res s => H n (res.2.toList ++ own) s ∧ (res.1 = 0 → res.2.isSome) ∧
        (res.1 ≠ 0 → res.2 = none) := by
  refine triple_ite (fun _ => ?_) fun _ => triple_ite (fun _ => ?_) fun _ =>
    w.findAlias n own parent name hp hn
  · refine triple_bind (w.pRef _ _ parent) fun _ => triple_pure fun s hs => ?_
    exact ⟨w.fewer hs, fun _ => rfl, fun h => (h rfl).elim⟩
  · refine triple_bind (triple_same (pnodeAt_moves parent)) fun np =>
      triple_bind (w.pRef _ _ np.parent) fun _ => triple_pure fun s hs => ?_
    exact ⟨w.fewer hs, fun _ => rfl, fun h => (h rfl).elim⟩

/-- A component keeps the references owned and adds one on the node it returns, which it may
return with an error. -/
theorem lookup_rule (parent : Pno) (hp : parent ∈ own) (name : Qstr) (hn : Hashed name)
    (intnt : Option Intent) (path : Option Bytes) (check : Bool) :
    Triple (H (n + 1) own) (lookup e parent name intnt path check)
      fun res s => H n (res.2.toList ++ own) s ∧ (res.1 = 0 → res.2.isSome) := by
  have node := lookupNode_rule w (n := n) parent hp name hn
  have permitted : Triple (H (n + 1) own)
      (if check then sysioPermitted e parent X_OK else pure 0) fun _ => H (n + 1) own :=
    triple_ite (fun _ => sysioPermitted_rule w _ _) fun _ => triple_pure fun _ hs => hs
  refine triple_bind (triple_same (inoOf_moves parent)) fun ino => triple_ite
    (fun _ => triple_pure fun s hs => ⟨w.fewer hs, by simp [ENOTDIR]⟩) fun _ =>
    triple_bind permitted fun err => triple_ite
    (fun herr => triple_pure fun s hs => ⟨w.fewer hs, fun h => (herr h).elim⟩)
    fun _ => triple_bind node fun res => ?_
  obtain ⟨err, found⟩ := res
  refine triple_ite (fun herr => triple_pure fun s hs => ?_) fun herr => ?_
  · obtain ⟨hs, -, hnone⟩ := hs
    obtain rfl := hnone herr
    exact ⟨hs, fun h => (herr h).elim⟩
  · refine triple_weaken (triple_nonNull fun p hp => ?_) (fun s hs => hs.1) fun _ _ h => h
    subst hp
    exact triple_bind (triple_same (moves_read _)) fun depth =>
      triple_bind (toTopCover_rule w _ p) fun q =>
      triple_bind (w.validate _ _ q intnt path) fun err => triple_pure fun s hs => ⟨hs, fun _ => rfl⟩

theorem walkExit_rule (err : ℤ) (cur parent : Option Pno) :
    Triple (H n (cur.toList ++ (parent.toList ++ own))) (walkExit err cur parent : Sysio D _)
      (Found H n own) := by
  have result : Triple (H n (cur.toList ++ (parent.toList ++ own)))
      (walkResult err cur parent : Sysio D _)
      fun res => H n (res.2.2.toList ++ (res.2.1 :: own)) := by
    cases cur with
    | some p =>
      have front : (p :: (parent.toList ++ own)).Perm (parent.toList ++ (p :: own)) :=
        List.perm_middle.symm
      exact triple_pure fun s hs => w.perm front hs
    | none =>
      refine triple_nonNull fun p hp => ?_
      subst hp
      refine triple_ite (fun _ => triple_pure fun s hs => hs) fun _ => ?_
      exact triple_bind (triple_same (inoOf_moves p)) fun ino => triple_nonNull fun i _ =>
        triple_bind (triple_same (inodeAt_moves i)) fun ri => triple_pure fun s hs => hs
  refine triple_bind result fun res => ?_
  obtain ⟨err', p, up⟩ := res
  have released : Triple (H n (up.toList ++ (p :: own))) (ifSome up pRele : Sysio D Unit)
      fun _ => H n (p :: own) := by
    cases up with
    | none => exact triple_pure fun s hs => hs
    | some q => exact w.pRele n _ q
  refine triple_bind released fun _ => triple_ite (fun herr => ?_) fun herr => ?_
  · exact triple_bind (w.pRele n _ p) fun _ => triple_pure fun s hs => ⟨hs, by simpa using herr⟩
  · exact triple_pure fun s hs => ⟨hs, by simpa using herr⟩

/-- What is known of the walk over the text of a link. -/
def FollowRule (e : Env D) (follow : Option (Follow D)) : Prop :=
  ∀ walk, follow = some walk → ∀ H, Rules e H → ∀ own p nd,
    Triple (fun s => ∀ m, H m own s) (walk p nd) (Found (fun _ own s => ∀ m, H m own s) 0 own)

/-- Following a link moves the reference from the link to its target. -/
theorem followLink_rule {follow : Option (Follow D)} (hf : FollowRule e follow) (nd : Nameidata)
    (last : Bool) (cur : Pno) (i : InoId) :
    Triple (fun s => ∀ m, H m (cur :: own) s) (followLink e follow nd last cur i)
      fun res s => ∀ m, H m (res.2 :: own) s := by
  have wa := w.all
  cases follow with
  | none => exact triple_pure fun s hs => hs
  | some walk =>
    refine triple_bind (malloc_rule wa (n := 0)) fun ok =>
      triple_ite (fun _ => triple_pure fun s hs => hs) fun _ =>
      triple_bind (wa.readlink 0 _ i cur _) fun text => ?_
    obtain ⟨cc, lpath⟩ := text
    refine triple_ite (fun _ => triple_pure fun s hs => hs) fun _ =>
      triple_bind (triple_same (pnodeAt_moves cur)) fun np =>
      triple_bind (hf walk rfl H w _ _ _) fun res => ?_
    obtain ⟨err, found⟩ := res
    refine triple_ite (fun herr => triple_pure fun s hs => ?_) fun herr s hs => ?_
    · obtain ⟨hs, hsome⟩ := hs
      have hnone : found = none := by simpa [herr] using hsome
      subst hnone
      exact hs
    · obtain ⟨hs, hsome⟩ := hs
      obtain ⟨p, rfl⟩ : ∃ p, found = some p :=
        Option.isSome_iff_exists.mp (hsome.mp (not_not.mp herr))
      have hswap : ∀ m, H m (cur :: p :: own) s := fun m => w.perm (List.Perm.swap _ _ _) (hs m)
      exact triple_bind (wa.pRele 0 _ cur) (fun _ => triple_nonNull fun p' hp' =>
        triple_pure fun s hs => by
          obtain rfl := Option.some.inj hp'
          exact hs) s hswap

/-- The head of a round of the walk: a link may be followed. -/
theorem linkBranch_rule {follow : Option (Follow D)} (hf : FollowRule e follow) (nd : Nameidata)
    (last : Bool) (cur : Pno) {α : Type} {k : ℤ × Pno → Sysio D α} {Q : α → Sys D → Prop}
    {c : Inode → Prop} [∀ r, Decidable (c r)]
    (hk : ∀ res : ℤ × Pno, Triple (H n (res.2 :: own)) (k res) Q) :
    Triple (H n (cur :: own)) (do
      let i ← nonNull (← inoOf cur)
      let r ← inodeAt i
      let res ← (if r.stbuf.isLnk ∧ c r then followLink e follow nd last cur i else pure (0, cur))
      k res) Q := by
  refine triple_bind (triple_same (inoOf_moves cur)) fun ino => triple_nonNull fun i _ => ?_
  intro s hs a t run
  obtain ⟨r, _, hread, run⟩ := bind_ok.mp run
  obtain ⟨hr, rfl⟩ := deref_ok.mp hread
  obtain ⟨res, v, hv, run⟩ := bind_ok.mp run
  refine hk res v ?_ a t run
  by_cases hc : r.stbuf.isLnk ∧ c r
  · rw [if_pos hc] at hv
    exact followLink_rule w hf nd last cur i s (w.link hs hr hc.1) res v hv n
  · rw [if_neg hc] at hv
    obtain ⟨rfl, rfl⟩ := pure_ok.mp hv
    exact hs

theorem walkLoop_rule {follow : Option (Follow D)} (hf : FollowRule e follow) (nd : Nameidata)
    (comps : List Component) (hc : ∀ c ∈ comps, Hashed c.qstr) (path : Option Bytes) (cur : Pno) :
    Triple (H (n + comps.length) (cur :: own)) (walkLoop e follow nd comps path cur)
      (Found H n own) := by
  induction comps generalizing path cur with
  | nil =>
    unfold walkLoop
    refine linkBranch_rule w hf nd _ cur fun res => ?_
    obtain ⟨err, cur⟩ := res
    exact triple_ite (fun _ => walkExit_rule w err (some cur) none)
      fun _ => walkExit_rule w 0 (some cur) none
  | cons this rest ih =>
    unfold walkLoop
    refine linkBranch_rule w hf nd _ cur fun res => ?_
    obtain ⟨err, cur⟩ := res
    have leave : ∀ err, Triple (H (n + (this :: rest).length) (cur :: own))
        (walkExit err (some cur) none : Sysio D _) (Found H n own) := fun err =>
      triple_weaken (walkExit_rule w err (some cur) none) (fun s hs => w.le hs (by omega))
        fun _ _ h => h
    refine triple_ite (fun _ => leave err) fun _ =>
      triple_bind (triple_same (inoOf_moves cur)) fun ino => ?_
    cases ino with
    | none => exact leave _
    | some i =>
      refine triple_bind (triple_same (inodeAt_moves i)) fun ri => triple_ite
        (fun _ => triple_weaken (walkExit_rule w _ none (some cur)) (fun s hs => w.le hs (by omega))
          fun _ _ h => h) fun _ => ?_
      rw [List.length_cons, ← Nat.add_assoc]
      refine triple_bind (lookup_rule w cur (List.mem_cons_self ..) _
        (hc this (List.mem_cons_self ..)) _ _ _) fun res => ?_
      obtain ⟨err, found⟩ := res
      have exits : ∀ err, Triple (H (n + rest.length) (found.toList ++ (cur :: own)))
          (walkExit err found (some cur) : Sysio D _) (Found H n own) := fun err =>
        triple_weaken (walkExit_rule w err found (some cur)) (fun s hs => w.le hs (by omega))
          fun _ _ h => h
      refine triple_weaken (triple_ite (fun _ => triple_ite (fun _ => exits 0) fun _ => exits err)
        fun _ => triple_nonNull fun p hp => ?_) (fun s hs => hs.1) fun _ _ h => h
      subst hp
      refine triple_bind (triple_same (pnodeAt_moves cur)) fun nc =>
        triple_bind (triple_same (pnodeAt_moves p)) fun np =>
        triple_bind (triple_same (mountAt_moves _)) fun mc =>
        triple_bind (triple_same (mountAt_moves _)) fun mp => triple_bind ?_ fun _ =>
        ih (fun c h => hc c (List.mem_cons_of_mem _ h)) _ p
      exact triple_weaken (w.pRele _ _ cur) (fun s hs => w.perm (List.Perm.swap _ _ _) hs)
        fun _ _ h => h

/-- How many names a walk over the path may make. -/
def names (path : Option Bytes) : ℕ := (path.elim [] components).length

theorem walkFrom_rule {follow : Option (Follow D)} (hf : FollowRule e follow) (parent : Option Pno)
    (nd : Nameidata) :
    Triple (H (n + names nd.path) own) (walkFrom e follow parent nd) (Found H n own) := by
  have fails : ∀ err : ℤ, err ≠ 0 → Triple (H (n + names nd.path) own)
      (pure (err, none) : Sysio D (ℤ × Option Pno)) (Found H n own) := fun err herr =>
    triple_pure fun s hs => ⟨w.le hs (Nat.le_add_right _ _), by simpa using herr⟩
  unfold walkFrom
  split
  · exact fails _ (by simp [EFAULT])
  · exact fails _ (by simp [ENOENT])
  · rename_i c l hpath
    refine triple_nonNull fun start _ => triple_bind (w.validate _ _ start none none) fun err =>
      triple_ite (fun herr => fails err herr) fun _ => ?_
    rw [hpath]
    exact triple_bind (w.pRef _ _ start) fun _ =>
      walkLoop_rule w hf nd _ (components_hashed _) _ start

omit w in
theorem followRule (budget : ℕ) :
    FollowRule e (some fun p nd => walkBudget e budget (some p) nd) := by
  have all : ∀ H, Rules e H → ∀ {follow : Option (Follow D)}, FollowRule e follow →
      ∀ own parent nd, Triple (fun s => ∀ m, H m own s) (walkFrom e follow parent nd)
        (Found (fun _ own s => ∀ m, H m own s) 0 own) := fun H w _ hf own parent nd =>
    walkFrom_rule (H := fun _ own s => ∀ m, H m own s) (n := 0) w.all hf parent nd
  induction budget with
  | zero =>
    intro walk hw H w own p nd
    obtain rfl := Option.some.inj hw
    exact all H w (fun _ h => by simp at h) own (some p) nd
  | succ budget ih =>
    intro walk hw H w own p nd
    obtain rfl := Option.some.inj hw
    exact all H w ih own (some p) nd

theorem sysioPathWalk_rule (parent : Option Pno) (nd : Nameidata) :
    Triple (H (n + names nd.path) own) (sysioPathWalk e parent nd) (Found H n own) :=
  walkFrom_rule w (followRule (MAX_SYMLINK - 1)) parent nd

theorem sysioNamei_rule (parent : Option Pno) (path : Option Bytes) (flags : ℕ)
    (intnt : Option Intent) :
    Triple (H (n + names path) own) (sysioNamei e parent path flags intnt) (Found H n own) :=
  triple_bind (triple_same (moves_read _)) fun root => sysioPathWalk_rule w parent
    { flags := flags, path := path, root := root, intent := intnt }

end Walk

end WalkRules
