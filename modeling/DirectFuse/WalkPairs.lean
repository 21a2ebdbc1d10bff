import DirectFuse.OtherOps

/-! Two walks side by side, which differ in their flags and in what they do at a symbolic link. They
stay together until the first gives up at a link or stops at one the second follows. -/
namespace WalkPairs

open ExecLogic SysioState SysioInode SysioNamei CoreMoves OtherOps

variable {D : Type}

/-- The node stands for a symbolic link. -/
def IsLink (p : Pno) (s : Sys D) : Prop :=
  ∃ b i r, s.nc.base (s.nc.pnode p).base = some b ∧ b.ino = some i ∧ s.ic.inode i = some r ∧
    r.stbuf.isLnk = true

/-- Where the first way to follow a link returns, the second returns the same, unless the first has
given up with an error in `E`, or has stopped at another link, which is no directory. A second that
follows no link is for a first that comes to no node. -/
def Leads (E : ℤ → Prop) (f g : ℕ) : Option (Follow D) → Option (Follow D) → Prop
  | none, none => True
  | none, some _ => E (-ELOOP)
  | some F, none => (∀ err, err ≠ 0 → E err) ∧ ∀ p nd s q t, F p nd s ≠ .ok ((0, q), t)
  | some F, some G => ∀ p path root intent s res t,
    F p ⟨f, path, root, intent⟩ s = .ok (res, t) →
      G p ⟨g, path, root, intent⟩ s = .ok (res, t) ∨ (res.1 ≠ 0 ∧ E res.1) ∨
        (f &&& ND_NOFOLLOW ≠ 0 ∧ E (-ENOTDIR) ∧ ∃ q, res = (0, some q) ∧ IsLink q t)

/-- How a walk with the flags `f` may part from one with the flags `g`: by an error in `E`, or at
the end of its path, at a link only the other follows. -/
def Parts (E : ℤ → Prop) (f g : ℕ) (res : ℤ × Option Pno) (t : Sys D) : Prop :=
  (res.1 ≠ 0 ∧ E res.1) ∨
    (f &&& ND_NOFOLLOW ≠ 0 ∧ g &&& ND_NOFOLLOW = 0 ∧ ∃ q, res = (0, some q) ∧ IsLink q t)

/-- The flags agree but for the links at the end of a path, which the second follows at least where
the first does. -/
structure Agree (f g : ℕ) : Prop where
  negok : g &&& ND_NEGOK = f &&& ND_NEGOK
  perm : g &&& ND_NOPERMCHECK = f &&& ND_NOPERMCHECK
  more : f &&& ND_NOFOLLOW = 0 → g &&& ND_NOFOLLOW = 0

theorem Agree.refl (f : ℕ) : Agree f f := ⟨rfl, rfl, fun h => h⟩

section Alternatives

variable {α β σ ε : Type} {P : Prop} {s t : σ}

/-- Two computations that begin alike, where the second may fall short of the first. -/
theorem bind_or {m : Exec σ ε α} {k k' : α → Exec σ ε β} {b : β}
    (run : (m >>= k) s = .ok (b, t))
    (rest : ∀ a u, m s = .ok (a, u) → k a u = .ok (b, t) → k' a u = .ok (b, t) ∨ P) :
    (m >>= k') s = .ok (b, t) ∨ P := by
  obtain ⟨a, u, hm, hk⟩ := bind_ok.mp run
  rw [bind_run hm]
  exact rest a u hm hk

theorem ite_or {c : Prop} [Decidable c] {m m' n n' : Exec σ ε α} {a : α}
    (run : (if c then m else n) s = .ok (a, t))
    (yes : c → m s = .ok (a, t) → m' s = .ok (a, t) ∨ P)
    (no : ¬ c → n s = .ok (a, t) → n' s = .ok (a, t) ∨ P) :
    (if c then m' else n') s = .ok (a, t) ∨ P := by
  by_cases h : c
  · rw [if_pos h] at run ⊢
    exact yes h run
  · rw [if_neg h] at run ⊢
    exact no h run

end Alternatives

section Walk

variable {e : Env D} {E : ℤ → Prop} {f g : ℕ} {F G : Option (Follow D)}

/-- A walk that leaves with an error returns it. -/
theorem walkExit_error {err : ℤ} (herr : err ≠ 0) {cur : Pno} {s t : Sys D}
    {res : ℤ × Option Pno} (run : walkExit err (some cur) none s = .ok (res, t)) :
    res = (err, none) := by
  simp only [walkExit, walkResult, pure_bind, ifSome, if_pos herr] at run
  obtain ⟨_, u, -, h1⟩ := bind_ok.mp run
  obtain ⟨rfl, -⟩ := pure_ok.mp h1
  rfl

/-- A walk does not go on below a link. -/
theorem walkExit_below {err : ℤ} (herr : err ≠ 0) {cur : Pno} {s t : Sys D}
    {res : ℤ × Option Pno} (run : walkExit err none (some cur) s = .ok (res, t)) :
    res = (err, none) := by
  have result : (walkResult err none (some cur) : Sysio D _) s = .ok ((err, cur, none), s) := by
    change (if err ≠ 0 then pure (err, cur, none) else _ : Sysio D (ℤ × Pno × Option Pno)) s = _
    rw [if_pos herr]
    rfl
  unfold walkExit at run
  rw [bind_run result] at run
  simp only [ifSome, pure_bind, if_pos herr] at run
  obtain ⟨_, u, -, h1⟩ := bind_ok.mp run
  obtain ⟨rfl, -⟩ := pure_ok.mp h1
  rfl

theorem isDir_of_isLnk {st : Stat} (h : st.isLnk = true) : st.isDir = false := by
  simp only [Stat.isLnk, Stat.isDir, beq_iff_eq] at h ⊢
  rw [h]
  decide

theorem IsLink.pRele {q p : Pno} {s t : Sys D} {u : Unit} (h : IsLink q s)
    (run : pRele p s = .ok (u, t)) : IsLink q t := by
  obtain ⟨_, _, hc, hw⟩ := bind_ok.mp run
  obtain ⟨-, rfl⟩ := check_ok.mp hc
  obtain rfl := write_ok.mp hw
  obtain ⟨b, i, r, hb, hi, hr, hlnk⟩ := h
  refine ⟨b, i, r, ?_, hi, hr, hlnk⟩
  by_cases hqp : q = p
  · subst hqp
    simpa using hb
  · simpa [Function.update_of_ne hqp] using hb

/-- A link that leads nowhere is an error. -/
theorem followLink_fails {walk : Follow D} (never : ∀ p nd s q t, walk p nd s ≠ .ok ((0, q), t))
    (nd : Nameidata) (last : Bool) (cur : Pno) (i : InoId) :
    Triple (fun _ => True) (followLink e (some walk) nd last cur i) fun res _ => res.1 ≠ 0 := by
  have any : ∀ {α : Type} (m : Sysio D α), Triple (fun _ => True) m fun _ _ => True :=
    fun m s _ a t _ => trivial
  refine triple_bind (any _) fun ok => triple_ite (fun _ => triple_pure fun _ _ => by simp [ENOMEM])
    fun _ => triple_bind (any _) fun text => triple_ite (fun hcc => triple_pure fun _ _ =>
    Int.ne_of_lt hcc) fun _ =>
    triple_bind (any _) fun n => ?_
  intro s _ res t run
  obtain ⟨⟨err, found⟩, u, hu, h1⟩ := bind_ok.mp run
  have herr : err ≠ 0 := by
    rintro rfl
    exact never _ _ _ _ _ hu
  change (if err ≠ 0 then (pure (err, cur) : Sysio D (ℤ × Pno)) else _) u = _ at h1
  rw [if_pos herr] at h1
  obtain ⟨rfl, -⟩ := pure_ok.mp h1
  exact herr

theorem followLink_leads (leads : Leads E f g F G) {path : Option Bytes} {root : Option Pno}
    {intent : Option Intent} {last : Bool} {cur : Pno} {i : InoId} {s t : Sys D} {res : ℤ × Pno}
    (run : followLink e F ⟨f, path, root, intent⟩ last cur i s = .ok (res, t)) :
    followLink e G ⟨g, path, root, intent⟩ last cur i s = .ok (res, t) ∨ (res.1 ≠ 0 ∧ E res.1) ∨
      (f &&& ND_NOFOLLOW ≠ 0 ∧ E (-ENOTDIR) ∧ res.1 = 0 ∧ IsLink res.2 t) := by
  cases F with
  | none =>
    cases G with
    | none => exact Or.inl run
    | some G =>
      obtain ⟨rfl, -⟩ := pure_ok.mp run
      exact Or.inr (Or.inl ⟨by simp [ELOOP], leads⟩)
  | some F =>
    cases G with
    | none =>
      obtain ⟨every, never⟩ := leads
      refine Or.inr (Or.inl ?_)
      have hne := followLink_fails never _ last cur i s trivial res t run
      exact ⟨hne, every _ hne⟩
    | some G =>
      refine bind_or run fun ok u _ h1 => ite_or h1 (fun _ h2 => Or.inl h2) fun _ h2 =>
        bind_or h2 fun text v _ h3 => ite_or h3 (fun _ h4 => Or.inl h4) fun _ h4 =>
        bind_or h4 fun n w _ h5 => ?_
      obtain ⟨⟨err, found⟩, x, hx, h6⟩ := bind_ok.mp h5
      rcases leads _ _ _ _ _ _ _ hx with same | ⟨hne, he⟩ | ⟨hf, he, q, hq, hlink⟩
      · exact Or.inl (bind_ok.mpr ⟨(err, found), x, same, h6⟩)
      · change (if err ≠ 0 then (pure (err, cur) : Sysio D (ℤ × Pno)) else _) x = _ at h6
        rw [if_pos hne] at h6
        obtain ⟨rfl, -⟩ := pure_ok.mp h6
        exact Or.inr (Or.inl ⟨hne, he⟩)
      · obtain ⟨rfl, rfl⟩ := Prod.mk.inj hq
        obtain ⟨_, y, hy, h7⟩ := bind_ok.mp h6
        obtain ⟨rfl, rfl⟩ := pure_ok.mp h7
        exact Or.inr (Or.inr ⟨hf, he, rfl, hlink.pRele hy⟩)

/-- The head of a round: both follow a link, or neither does, or the second only. -/
theorem head_leads (leads : Leads E f g F G) {path : Option Bytes} {root : Option Pno}
    {intent : Option Intent} {last : Bool} {cur : Pno} {c c' : Prop} [Decidable c] [Decidable c']
    {k k' : ℤ × Pno → Sysio D (ℤ × Option Pno)} {s t : Sys D} {res : ℤ × Option Pno}
    (run : (do
      let i ← nonNull (← inoOf cur)
      let r ← inodeAt i
      let out ← (if r.stbuf.isLnk ∧ c then followLink e F ⟨f, path, root, intent⟩ last cur i
        else pure (0, cur))
      k out) s = .ok (res, t))
    (hc : c → c')
    (same : ∀ out u, k out u = .ok (res, t) → k' out u = .ok (res, t) ∨ Parts E f g res t)
    (failed : ∀ out u, out.1 ≠ 0 → k out u = .ok (res, t) → res.1 = out.1)
    (linked : c → f &&& ND_NOFOLLOW ≠ 0 → ∀ q u, IsLink q u → k (0, q) u = .ok (res, t) →
      res.1 = -ENOTDIR)
    (skipped : ¬ c → c' → IsLink cur s → k (0, cur) s = .ok (res, t) → Parts E f g res t) :
    (do
      let i ← nonNull (← inoOf cur)
      let r ← inodeAt i
      let out ← (if r.stbuf.isLnk ∧ c' then followLink e G ⟨g, path, root, intent⟩ last cur i
        else pure (0, cur))
      k' out) s = .ok (res, t) ∨ Parts E f g res t := by
  refine bind_or run fun ino u hino h1 => bind_or h1 fun i v hi h2 => bind_or h2 fun r w hr h3 => ?_
  obtain rfl : s = u := inoOf_moves _ _ _ _ hino
  obtain ⟨rfl, rfl⟩ := deref_ok.mp hi
  obtain ⟨hri, rfl⟩ := deref_ok.mp hr
  cases hlnk : r.stbuf.isLnk with
  | false =>
    simp only [hlnk, Bool.false_eq_true, false_and, if_false, pure_bind] at h3 ⊢
    exact same _ _ h3
  | true =>
    simp only [hlnk, true_and] at h3 ⊢
    by_cases h : c
    · rw [if_pos h] at h3
      rw [if_pos (hc h)]
      obtain ⟨out, u, hu, h4⟩ := bind_ok.mp h3
      rcases followLink_leads leads hu with hG | ⟨hne, he⟩ | ⟨hf, he, h0, hlink⟩
      · rw [bind_run hG]
        exact same out u h4
      · refine Or.inr (Or.inl ?_)
        rw [failed out u hne h4]
        exact ⟨hne, he⟩
      · obtain ⟨err, q⟩ := out
        obtain rfl : err = 0 := h0
        refine Or.inr (Or.inl ?_)
        rw [linked h hf q u hlink h4]
        exact ⟨by simp [ENOTDIR], he⟩
    · rw [if_neg h, pure_bind] at h3
      by_cases h' : c'
      · refine Or.inr (skipped h h' ?_ h3)
        obtain ⟨b, hb, hi, -⟩ := inoOf_ok.mp hino
        exact ⟨b, i, r, hb, hi, hri, hlnk⟩
      · rw [if_neg h', pure_bind]
        exact same _ _ h3

/-- What both do behind the look-up of a component. -/
theorem walkLoop_leads (leads : Leads E f g F G) (agree : Agree f g) {npath : Option Bytes}
    {root : Option Pno} {intent : Option Intent} (comps : List Component) {path : Option Bytes}
    {cur : Pno} {s t : Sys D} {res : ℤ × Option Pno}
    (run : walkLoop e F ⟨f, npath, root, intent⟩ comps path cur s = .ok (res, t)) :
    walkLoop e G ⟨g, npath, root, intent⟩ comps path cur s = .ok (res, t) ∨ Parts E f g res t := by
  induction comps generalizing path cur s with
  | nil =>
    unfold walkLoop at run ⊢
    refine head_leads leads run (fun h => h.imp id agree.more) ?_ ?_ ?_ ?_
    · rintro ⟨err, p⟩ u h
      exact Or.inl h
    · rintro ⟨err, p⟩ u hne h
      dsimp only at h
      rw [if_pos hne] at h
      rw [walkExit_error hne h]
    · intro h hf
      exact absurd (h.resolve_left fun h => h rfl) hf
    · intro h h' hlink hk
      simp only [ne_eq, not_true_eq_false, if_false, walkExit, walkResult, pure_bind, ifSome] at hk
      obtain ⟨rfl, rfl⟩ := pure_ok.mp hk
      refine Or.inr ⟨fun hf => h (Or.inr hf), h'.resolve_left fun h => h rfl, cur, rfl, hlink⟩
  | cons this rest ih =>
    unfold walkLoop at run ⊢
    refine head_leads leads run (fun _ => Or.inl (List.cons_ne_nil _ _)) ?_ ?_ ?_ fun h =>
      absurd (Or.inl (List.cons_ne_nil _ _)) h
    rotate_left
    · rintro ⟨err, p⟩ u hne h
      dsimp only at h
      rw [if_pos hne] at h
      rw [walkExit_error hne h]
    · rintro - - q u ⟨b, i, r, hb, hi, hr, hlnk⟩ h
      have hino : inoOf q u = .ok (some i, u) := inoOf_ok.mpr ⟨b, hb, hi, rfl⟩
      have hread : inodeAt i u = .ok (r, u) := deref_ok.mpr ⟨hr, rfl⟩
      simp only [ne_eq, not_true_eq_false, if_false] at h
      rw [bind_run hino] at h
      change (inodeAt i >>= _) u = _ at h
      rw [bind_run hread, if_pos (by rw [isDir_of_isLnk hlnk]; rfl)] at h
      rw [walkExit_below (by simp [ENOTDIR]) h]
    rintro ⟨err, p⟩ u h
    refine ite_or h (fun _ h1 => Or.inl h1) fun _ h1 => bind_or h1 fun ino v _ h2 => ?_
    cases ino with
    | none => exact Or.inl h2
    | some i =>
      refine bind_or h2 fun r w _ h3 => ite_or h3 (fun _ h4 => Or.inl h4) fun _ h4 => ?_
      simp only [agree.perm, agree.negok]
      refine bind_or h4 fun out x _ h5 => ?_
      obtain ⟨err, found⟩ := out
      exact ite_or h5 (fun _ h6 => Or.inl h6) fun _ h6 => bind_or h6 fun q y _ h7 =>
        bind_or h7 fun nc _ _ h8 => bind_or h8 fun np _ _ h9 => bind_or h9 fun mc _ _ h10 =>
        bind_or h10 fun mp _ _ h11 => bind_or h11 fun _ z _ h12 => ih h12

theorem walkFrom_leads (leads : Leads E f g F G) (agree : Agree f g) {parent root : Option Pno}
    {npath : Option Bytes} {intent : Option Intent} {s t : Sys D} {res : ℤ × Option Pno}
    (run : walkFrom e F parent ⟨f, npath, root, intent⟩ s = .ok (res, t)) :
    walkFrom e G parent ⟨g, npath, root, intent⟩ s = .ok (res, t) ∨ Parts E f g res t := by
  unfold walkFrom at run ⊢
  cases npath with
  | none => exact Or.inl run
  | some path =>
    cases path with
    | nil => exact Or.inl run
    | cons c l =>
      exact bind_or run fun start u _ h1 => bind_or h1 fun err v _ h2 =>
        ite_or h2 (fun _ h3 => Or.inl h3) fun _ h3 => bind_or h3 fun _ w _ h4 =>
        walkLoop_leads leads agree _ h4

end Walk

end WalkPairs
