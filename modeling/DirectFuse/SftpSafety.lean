import DirectFuse.SftpRequests

/-! What holds in every state that the threads of the sftp driver lead to: a request is freed once, by
the one that is left with it, and with its own answer. -/
namespace SftpRequests

open ExecLogic SysioState

section Safety

variable {s t : Client} {r f : Rid} {q : Request} {max : ℕ}

theorem reqAt_run {q : Request} (h : s.req r = some q) : reqAt r s = .ok (q, s) := by
  simp only [reqAt, Exec.deref, h]

theorem keys_filter {l : List (ℕ × Rid)} {p : ℕ × Rid → Bool} (h : (l.map Prod.fst).Nodup) :
    ((l.filter p).map Prod.fst).Nodup :=
  h.sublist (List.filter_sublist.map _)

/-- A step that is nothing to the lock. -/
theorem Sound.still (sound : Sound s) (running : t.running = s.running)
    (cleaning : t.cleaning = s.cleaning) (hand : t.hand = s.hand) : Locked t := by
  constructor
  · rw [running, cleaning]
    exact sound.locked.stopped
  · rw [cleaning, hand]
    exact sound.locked.cleans

/-- Who has the lock finds no request that is being cleaned. -/
theorem Sound.uncleaned (sound : Sound s) (free : s.cleaning = false) {held : Held}
    (hand : s.hand = some (r, held)) : ¬ (held = .error ∨ held = .wanted ∧ q.wantReply = true) := by
  obtain ⟨f, rfl⟩ := sound.locked.cleans free r held hand
  simp

/-- A step that leaves the table alone. -/
theorem Sound.concerns (sound : Sound s) (next : t.next = s.next) (tab : t.reqtab = s.reqtab)
    (wire : ∀ m ∈ t.wire, m ∈ s.wire ∨ m ∈ s.back) (back : ∀ m ∈ t.back, m ∈ s.wire ∨ m ∈ s.back)
    (thread : ∀ x, x ≠ r → t.thread x = s.thread x) (req : ∀ x, x ≠ r → t.req x = s.req x)
    (ended : ∀ x, x ≠ r → t.ended x = s.ended x)
    (hand : ∀ x, x ≠ r → ∀ f, t.hand = some (x, f) ↔ s.hand = some (x, f))
    (id : (t.thread r).id = (s.thread r).id)
    (named : ∀ q, t.req r = some q → q.id = (s.thread r).id)
    (forward : Sent (s.thread r).stage → Sent (t.thread r).stage) : Concerns s t r where
  next := next
  thread := thread
  req := req
  ended := ended
  tab x hx := by simp only [Listed, thread x hx, tab]
  hand := hand
  id := id
  named := named
  forward := forward
  frames m hm := Or.inl (hm.elim (wire m) (back m))
  entries e he := Or.inl (tab ▸ he)
  keys := tab ▸ sound.keys

/-- A step that takes the request out of the table. -/
theorem Sound.concerns_remove (sound : Sound s) (use : InUse s r) (next : t.next = s.next)
    (tab : t.reqtab = s.reqtab.filter fun e => e.1 != (s.thread r).id)
    (wire : ∀ m ∈ t.wire, m ∈ s.wire) (back : ∀ m ∈ t.back, m ∈ s.back)
    (thread : ∀ x, x ≠ r → t.thread x = s.thread x) (req : ∀ x, x ≠ r → t.req x = s.req x)
    (ended : ∀ x, x ≠ r → t.ended x = s.ended x)
    (hand : ∀ x, x ≠ r → ∀ f, t.hand = some (x, f) ↔ s.hand = some (x, f))
    (id : (t.thread r).id = (s.thread r).id)
    (named : ∀ q, t.req r = some q → q.id = (s.thread r).id)
    (forward : Sent (s.thread r).stage → Sent (t.thread r).stage) : Concerns s t r where
  next := next
  thread := thread
  req := req
  ended := ended
  tab x hx := sound.listed_filter use hx (by rw [thread x hx]) tab
  hand := hand
  id := id
  named := named
  forward := forward
  frames m hm := Or.inl (hm.imp (wire m) (back m))
  entries e he := Or.inl (List.mem_filter.mp (tab ▸ he)).1
  keys := tab ▸ keys_filter sound.keys

/-- The state in which `sftp_request_send` has put the request into the table. -/
def entered (s : Client) (r : Rid) : Client :=
  { s with
    reqtab := ((s.thread r).id, r) :: s.reqtab.filter fun e => e.1 != (s.thread r).id
    thread := Function.update s.thread r { s.thread r with stage := .writing } }

theorem Sound.entered_concerns (sound : Sound s) (use : InUse s r)
    (stage : (s.thread r).stage = .waiting) : Concerns s (entered s r) r := by
  constructor
  · rfl
  · intro x hx
    exact Function.update_of_ne hx _ _
  · intro x _
    rfl
  · intro x _
    rfl
  · intro x hx
    have kept : Listed { s with reqtab := s.reqtab.filter fun e => e.1 != (s.thread r).id } x ↔
      Listed s x := sound.listed_filter use hx rfl rfl
    simp only [Listed, entered, Function.update_of_ne hx, List.mem_cons, Prod.mk.injEq, hx,
      and_false, false_or]
    exact kept
  · intro x _ f
    rfl
  · simp [entered]
  · intro p hp
    exact (sound.stored r p hp).2
  · intro sent
    simp [stage, Sent] at sent
  · intro m hm
    exact Or.inl hm
  · intro e he
    rcases List.mem_cons.mp he with rfl | he
    · exact Or.inr rfl
    · exact Or.inl (List.mem_filter.mp he).1
  · exact List.nodup_cons.mpr ⟨by simp, keys_filter sound.keys⟩

/-- What a thread that waits has of its request. -/
theorem Sound.waits (sound : Sound s) (bound : r < s.next)
    (stage : (s.thread r).stage = .waiting) : ∃ q, s.req r = some q ∧ ¬ Listed s r ∧
      (∀ f, s.hand ≠ some (r, f)) ∧ s.ended r = [] ∧ Blank q ∧
      q.wantReply = (s.thread r).want := by
  cases sound.place r bound with
  | waiting q stored unlisted aside pending blank _ same =>
    exact ⟨q, stored, unlisted, aside, pending, blank, same⟩
  | listed _ _ _ _ _ _ wants => simp [Wants, stage] at wants
  | taken _ _ _ _ _ _ wants => simp [Wants, stage] at wants
  | marked _ _ _ _ _ _ _ wants => simp [Wants, stage] at wants
  | posted _ _ _ _ _ _ wants => simp [Wants, stage] at wants
  | failed _ _ _ _ _ stage' => simp [stage] at stage'
  | gone _ _ _ _ _ _ left => simp [Gone, stage] at left

theorem enterReq_sound (sound : Sound s) (bound : r < s.next)
    (stage : (s.thread r).stage = .waiting) : ∃ t, enterReq r s = .ok ((), t) ∧ Sound t := by
  obtain ⟨q, stored, unlisted, aside, pending, blank, same⟩ := sound.waits bound stage
  have use : InUse s r := ⟨bound, Or.inl (by simp [stored])⟩
  refine ⟨entered s r, rfl, ?_⟩
  apply sound.change use (sound.entered_concerns use stage) (sound.still rfl rfl rfl)
  refine .listed q stored ?_ aside pending blank ?_
  · simp [Listed, entered]
  · simpa [Wants, entered] using same

theorem writtenReq_sound (sound : Sound s) (bound : r < s.next)
    (stage : (s.thread r).stage = .writing) (running : s.running = true) (whole : Bool) :
    ∃ t, writtenReq r whole s = .ok ((), t) ∧ Sound t := by
  refine ⟨_, rfl, ?_⟩
  apply sound.change ⟨bound, Or.inr (Or.inl stage)⟩
  · constructor
    · rfl
    · intro x hx
      exact Function.update_of_ne hx _ _
    · intro x _
      rfl
    · intro x _
      rfl
    · intro x hx
      simp only [Listed, Function.update_of_ne hx]
    · intro x _ f
      rfl
    · simp
    · intro q hq
      exact (sound.stored r q hq).2
    · simp [Sent]
    · intro m hm
      rcases hm with hm | hm
      · simp only at hm
        split at hm
        · rcases List.mem_append.mp hm with old | new
          · exact Or.inl (Or.inl old)
          · refine Or.inr ⟨List.mem_singleton.mp new, by simp [Sent]⟩
        · exact Or.inl (Or.inl hm)
      · exact Or.inl (Or.inr hm)
    · intro e he
      exact Or.inl he
    · exact sound.keys
  · exact sound.still rfl rfl rfl
  · cases sound.place r bound with
    | waiting _ _ _ _ _ _ stage' => simp [stage] at stage'
    | listed q stored entry aside pending blank wants =>
      refine .listed q stored ?_ aside pending blank ?_
      · simpa [Listed] using entry
      · simpa [Wants, stage] using wants
    | taken _ _ _ _ _ _ _ sent => simp [Sent, stage] at sent
    | marked _ _ _ _ hand _ _ _ cleans =>
      have free : s.cleaning = false := by
        rw [← Bool.not_eq_true]
        intro cleaning
        rw [sound.locked.stopped cleaning] at running
        cases running
      exact absurd cleans (sound.uncleaned free hand)
    | posted q stored unlisted aside pending ready wants want answered =>
      refine .posted q stored ?_ aside pending ready ?_ want answered
      · simpa [Listed] using unlisted
      · simpa [Wants, stage] using wants
    | failed _ _ _ _ _ stage' => simp [stage] at stage'
    | gone o freed unlisted aside once good left =>
      refine .gone o freed ?_ aside once good ?_
      · simpa [Listed] using unlisted
      · simpa [Gone, stage] using left

/-- Whether `g_hash_table_remove` finds a request that is in use. -/
theorem Sound.removed_iff (sound : Sound s) (use : InUse s r) :
    (s.reqtab.lookup (s.thread r).id).isSome = true ↔ Listed s r := by
  constructor
  · intro found
    obtain ⟨y, hy⟩ := Option.isSome_iff_exists.mp found
    have entry := sound.listed_of_mem (mem_of_lookup hy)
    have id : (s.thread y).id = (s.thread r).id := (sound.entries _ (mem_of_lookup hy)).2
    rw [← sound.unique y r (sound.inUse_of_listed entry.2) use id]
    exact entry.2
  · intro entry
    rw [(sound.lookup_iff use).mpr entry]
    rfl

/-- The state after `sftp_request_send` could not write a request that the other thread has freed. -/
def dropped (s : Client) (r : Rid) : Client :=
  { s with
    torn := true
    reqtab := s.reqtab.filter fun e => e.1 != (s.thread r).id
    thread := Function.update s.thread r { s.thread r with stage := .done } }

/-- The state after `sftp_request_send` could not write a request that is still there. -/
def broken (s : Client) (r : Rid) (q : Request) : Client :=
  { s with
    torn := true
    reqtab := s.reqtab.filter fun e => e.1 != (s.thread r).id
    leaked := if (s.reqtab.lookup (s.thread r).id).isSome = true ∧ s.epoch r = s.connver
      then s.leaked + q.len else s.leaked
    req := Function.update s.req r (some { q with error := true })
    thread := Function.update s.thread r { s.thread r with stage := .failed } }

theorem writeFailed_freed (missing : (s.reqtab.lookup (s.thread r).id).isSome = false)
    (want : (s.thread r).want = false) : writeFailed r s = .ok ((), dropped s r) := by
  simp [writeFailed, bind, Exec.andThen, Exec.read, Exec.write, removeReq, pure, Exec.ret, missing,
    want, setStage, dropped]

theorem writeFailed_kept {q : Request} (stored : s.req r = some q)
    (h : (s.reqtab.lookup (s.thread r).id).isSome = true ∨ (s.thread r).want = true) :
    writeFailed r s = .ok ((), broken s r q) := by
  cases found : (s.reqtab.lookup (s.thread r).id).isSome with
  | true =>
    simp [writeFailed, bind, Exec.andThen, Exec.read, Exec.write, removeReq, pure, Exec.ret, found,
      setStage, setReq, reqAt, Exec.deref, stored, Exec.when, broken]
  | false =>
    have want : (s.thread r).want = true := by simpa [found] using h
    simp [writeFailed, bind, Exec.andThen, Exec.read, Exec.write, removeReq, pure, Exec.ret, found,
      setStage, setReq, reqAt, Exec.deref, stored, Exec.when, want, broken]

theorem Sound.dropped_concerns (sound : Sound s) (use : InUse s r) :
    Concerns s (dropped s r) r := by
  apply sound.concerns_remove use
  · rfl
  · rfl
  · exact fun m hm => hm
  · exact fun m hm => hm
  · intro x hx
    exact Function.update_of_ne hx _ _
  · intro x _
    rfl
  · intro x _
    rfl
  · intro x _ f
    rfl
  · simp [dropped]
  · intro q hq
    exact (sound.stored r q hq).2
  · simp [Sent, dropped]

theorem Sound.broken_concerns (sound : Sound s) (use : InUse s r)
    (stage : (s.thread r).stage = .writing) {q : Request} (stored : s.req r = some q) :
    Concerns s (broken s r q) r := by
  apply sound.concerns_remove use
  · rfl
  · rfl
  · exact fun m hm => hm
  · exact fun m hm => hm
  · intro x hx
    exact Function.update_of_ne hx _ _
  · intro x hx
    exact Function.update_of_ne hx _ _
  · intro x _
    rfl
  · intro x _ f
    rfl
  · simp [broken]
  · intro p hp
    simp only [broken, Function.update_self, Option.some.injEq] at hp
    rw [← hp]
    exact (sound.stored r q stored).2
  · simp [stage, Sent]

/-- What a thread whose frame is on its way has of its request, unless that is freed. -/
theorem Sound.writes (sound : Sound s) (bound : r < s.next)
    (stage : (s.thread r).stage = .writing) (free : s.cleaning = false) :
    (∃ q, s.req r = some q ∧ (∀ f, s.hand ≠ some (r, f)) ∧ s.ended r = [] ∧
      (Listed s r ∨ (s.thread r).want = true)) ∨
    s.req r = none ∧ ¬ Listed s r ∧ (∀ f, s.hand ≠ some (r, .answer f)) ∧
      (s.thread r).want = false ∧
      ∃ o, s.ended r = [o] ∧ (o = .error ∨ o = .answer r) := by
  cases sound.place r bound with
  | waiting _ _ _ _ _ _ stage' => simp [stage] at stage'
  | listed q stored entry aside pending => exact Or.inl ⟨q, stored, aside, pending, Or.inl entry⟩
  | taken _ _ _ _ _ _ _ sent => simp [Sent, stage] at sent
  | marked _ _ _ _ hand _ _ _ cleans => exact absurd cleans (sound.uncleaned free hand)
  | posted q stored _ aside pending _ wants want =>
    refine Or.inl ⟨q, stored, aside, pending, Or.inr ?_⟩
    simp only [Wants, stage] at wants
    rw [← wants, want]
  | failed _ _ _ _ _ stage' => simp [stage] at stage'
  | gone o freed unlisted aside once good left =>
    refine Or.inr ⟨freed, unlisted, aside, ?_, o, once, good⟩
    simpa [Gone, stage] using left

theorem writeFailed_sound (sound : Sound s) (bound : r < s.next)
    (stage : (s.thread r).stage = .writing) (free : s.cleaning = false) :
    ∃ t, writeFailed r s = .ok ((), t) ∧ Sound t := by
  have use : InUse s r := ⟨bound, Or.inr (Or.inl stage)⟩
  have removed := sound.removed_iff use
  rcases sound.writes bound stage free with
    ⟨q, stored, aside, pending, kept⟩ | ⟨freed, unlisted, aside, want, o, once, good⟩
  · refine ⟨_, writeFailed_kept stored (kept.imp_left removed.mpr), ?_⟩
    apply sound.change use (sound.broken_concerns use stage stored) (sound.still rfl rfl rfl)
    apply At.failed { q with error := true }
    · simp [broken]
    · simp [Listed, broken]
    · exact aside
    · exact pending
    · exact Or.inl (by simp [broken])
    · rfl
  · have missing : (s.reqtab.lookup (s.thread r).id).isSome = false := by
      rw [← Bool.not_eq_true]
      exact removed.not.mpr unlisted
    refine ⟨_, writeFailed_freed missing want, ?_⟩
    apply sound.change use (sound.dropped_concerns use) (sound.still rfl rfl rfl)
    refine .gone o freed ?_ aside once good ?_
    · simp [Listed, dropped]
    · simp [Gone, dropped]

theorem receiveReply_unknown {id : ℕ} {rest : List (ℕ × Rid)} (back : s.back = (id, f) :: rest)
    (missing : s.reqtab.lookup id = none) :
    receiveReply max s = .ok ((), { s with back := rest }) := by
  simp [receiveReply, bind, Exec.andThen, Exec.read, Exec.write, pure, Exec.ret, back, missing]

/-- The state in which `process_one_request` has taken the request out of the table. -/
def taken (max : ℕ) (s : Client) (id : ℕ) (r f : Rid) (rest : List (ℕ × Rid)) (q : Request) :
    Client :=
  { s with
    back := rest
    outstandingLen := sub32 s.outstandingLen q.len
    credited := if s.epoch r = s.connver then s.credited else s.credited + q.len
    signalled := if max < s.outstandingLen ∧ sub32 s.outstandingLen q.len ≤ max
      then fun _ => true else s.signalled
    reqtab := s.reqtab.filter fun e => e.1 != id
    hand := some (r, .answer f) }

theorem receiveReply_known {id : ℕ} {rest : List (ℕ × Rid)} {q : Request}
    (back : s.back = (id, f) :: rest) (found : s.reqtab.lookup id = some r)
    (stored : s.req r = some q) :
    receiveReply max s = .ok ((), taken max s id r f rest q) := by
  by_cases wakes : max < s.outstandingLen ∧ sub32 s.outstandingLen q.len ≤ max
  · simp [receiveReply, bind, Exec.andThen, Exec.read, Exec.write, pure, Exec.ret, back, found,
      removeReq, reqAt, Exec.deref, stored, Exec.when, broadcast, wakes.1, wakes.2, taken]
  · have quiet : max < s.outstandingLen → ¬ sub32 s.outstandingLen q.len ≤ max :=
      fun high under => wakes ⟨high, under⟩
    by_cases high : max < s.outstandingLen
    · simp [receiveReply, bind, Exec.andThen, Exec.read, Exec.write, pure, Exec.ret, back, found,
        removeReq, reqAt, Exec.deref, stored, Exec.when, high, quiet high, taken]
    · simp [receiveReply, bind, Exec.andThen, Exec.read, Exec.write, pure, Exec.ret, back, found,
        removeReq, reqAt, Exec.deref, stored, Exec.when, high, taken]

/-- The reply that the table sends to a request is the reply to that request. -/
theorem Sound.answered (sound : Sound s) {id : ℕ} {rest : List (ℕ × Rid)}
    (back : s.back = (id, f) :: rest) (found : s.reqtab.lookup id = some r) :
    r = f ∧ InUse s f ∧ Listed s f ∧ Sent (s.thread f).stage ∧ (s.thread f).id = id := by
  have arrives : (id, f) ∈ s.back := back ▸ List.mem_cons_self
  obtain ⟨bound, fid, sent⟩ := sound.frames (id, f) (Or.inr arrives)
  have entry := sound.listed_of_mem (mem_of_lookup found)
  have rid : (s.thread r).id = id := (sound.entries _ (mem_of_lookup found)).2
  have use : InUse s f := by
    refine ⟨bound, Or.inr (Or.inr (Or.inr ?_))⟩
    rw [fid]
    exact arrives
  have same : r = f := sound.unique r f (sound.inUse_of_listed entry.2) use (rid.trans fid.symm)
  subst same
  exact ⟨rfl, use, entry.2, sent, rid⟩

theorem Sound.taken_concerns (sound : Sound s) (max : ℕ) (q : Request) (free : s.hand = none)
    {id : ℕ} {rest : List (ℕ × Rid)} (back : s.back = (id, r) :: rest) (use : InUse s r)
    (rid : (s.thread r).id = id) : Concerns s (taken max s id r r rest q) r := by
  apply sound.concerns_remove use
  · rfl
  · rw [rid]
    rfl
  · exact fun m hm => hm
  · intro m hm
    rw [back]
    exact List.mem_cons_of_mem _ hm
  · intro x _
    rfl
  · intro x _
    rfl
  · intro x _
    rfl
  · intro x hx y
    simp [taken, free, Ne.symm hx]
  · rfl
  · intro p hp
    exact (sound.stored r p hp).2
  · exact fun sent => sent

theorem receiveReply_sound (sound : Sound s) (free : s.hand = none) (some_back : s.back ≠ []) :
    ∃ t, receiveReply max s = .ok ((), t) ∧ Sound t := by
  obtain ⟨⟨id, f⟩, rest, back⟩ := List.exists_cons_of_ne_nil some_back
  have arrives : (id, f) ∈ s.back := back ▸ List.mem_cons_self
  cases found : s.reqtab.lookup id with
  | none =>
    refine ⟨_, receiveReply_unknown back found, ?_⟩
    obtain ⟨bound, fid, -⟩ := sound.frames (id, f) (Or.inr arrives)
    have use : InUse s f := by
      refine ⟨bound, Or.inr (Or.inr (Or.inr ?_))⟩
      rw [fid]
      exact arrives
    apply sound.change use
    · apply sound.concerns
      · rfl
      · rfl
      · intro m hm
        exact Or.inl hm
      · intro m hm
        exact Or.inr (back ▸ List.mem_cons_of_mem _ hm)
      · intro x _
        rfl
      · intro x _
        rfl
      · intro x _
        rfl
      · intro x _ y
        rfl
      · rfl
      · intro q hq
        exact (sound.stored f q hq).2
      · exact fun sent => sent
    · exact sound.still rfl rfl rfl
    · apply (sound.place f bound).congr <;> first | rfl | exact Iff.rfl | exact fun _ => Iff.rfl
  | some r =>
    obtain ⟨rfl, use, entry, sent, rid⟩ := sound.answered back found
    obtain ⟨q, stored, blank, wants, pending, -⟩ :=
      (sound.place r use.1).stored_of_listed entry
    refine ⟨_, receiveReply_known back found stored, ?_⟩
    apply sound.change use (sound.taken_concerns max q free back use rid)
      ⟨sound.locked.stopped, fun _ x held hand => ⟨r, by cases hand; rfl⟩⟩
    refine .taken q stored ?_ rfl pending blank wants sent
    simp [Listed, taken, rid]

/-- Where a request is that the processing thread has in hand. -/
theorem Sound.in_hand (sound : Sound s) {held : Held} (hand : s.hand = some (r, held)) :
    (∃ q, s.req r = some q ∧ ¬ Listed s r ∧ s.ended r = [] ∧ Wants (s.thread r) q ∧
      (held = .answer r ∧ Blank q ∧ Sent (s.thread r).stage ∨
        q.error = true ∧ (held = .error ∨ held = .wanted ∧ q.wantReply = true))) ∨
    s.req r = none ∧ s.ended r ≠ [] ∧ (held = .error ∨ held = .wanted) := by
  cases sound.place r (sound.held r held hand) with
  | taken q stored unlisted hand' pending blank wants sent =>
    rw [hand] at hand'
    cases hand'
    exact Or.inl ⟨q, stored, unlisted, pending, wants, Or.inl ⟨rfl, blank, sent⟩⟩
  | marked q held' stored unlisted hand' pending error wants cleans =>
    rw [hand] at hand'
    cases hand'
    exact Or.inl ⟨q, stored, unlisted, pending, wants, Or.inr ⟨error, cleans⟩⟩
  | gone o freed _ aside once =>
    refine Or.inr ⟨freed, ?_, ?_⟩
    · simp [once]
    · cases held with
      | answer f => exact absurd hand (aside f)
      | error => exact Or.inl rfl
      | wanted => exact Or.inr rfl
  | waiting _ _ _ aside => exact absurd hand (aside held)
  | listed _ _ _ aside => exact absurd hand (aside held)
  | posted _ _ _ aside => exact absurd hand (aside held)
  | failed _ _ _ aside => exact absurd hand (aside held)

theorem settleReq_freed {held : Held} (hand : s.hand = some (r, held)) (freed : s.req r = none) :
    ∃ fault, settleReq s = .error fault := by
  cases held <;>
    simp [settleReq, bind, Exec.andThen, Exec.deref, Exec.write, hand, deliverReply, cleanReq, postReq,
      reqAt, freed]

/-- The state in which the processing thread is through with the request in hand, of which it leaves
what is given. -/
def settled (s : Client) (r : Rid) (left : Option Request) (ends : List Outcome) : Client :=
  { s with
    hand := none
    ended := Function.update s.ended r (ends ++ s.ended r)
    req := Function.update s.req r left }

theorem settleReq_answered {q : Request} (hand : s.hand = some (r, .answer f))
    (stored : s.req r = some q) :
    settleReq s = .ok ((), if q.wantReply = true
      then settled s r (some { q with reply := some f, ready := q.ready + 1 }) []
      else settled s r none [outcomeOf { q with reply := some f }]) := by
  cases want : q.wantReply <;>
    simp [settleReq, bind, Exec.andThen, Exec.deref, Exec.write, hand, deliverReply, reqAt, stored,
      setReq, want, endReq, settled]

theorem settleReq_wanted {q : Request} (hand : s.hand = some (r, .error)) (stored : s.req r = some q)
    (want : q.wantReply = true) :
    settleReq s = .ok ((), { s with hand := some (r, .wanted) }) := by
  simp [settleReq, bind, Exec.andThen, Exec.deref, Exec.write, hand, cleanReq, reqAt, stored, want]

theorem settleReq_unwanted {q : Request} (hand : s.hand = some (r, .error))
    (stored : s.req r = some q) (want : q.wantReply = false) :
    settleReq s = .ok ((), settled s r none [outcomeOf q]) := by
  simp [settleReq, bind, Exec.andThen, Exec.deref, Exec.write, hand, cleanReq, reqAt, stored, want,
    endReq, settled]

theorem settleReq_post {q : Request} (hand : s.hand = some (r, .wanted)) (stored : s.req r = some q) :
    settleReq s = .ok ((), settled s r (some { q with ready := q.ready + 1 }) []) := by
  simp [settleReq, bind, Exec.andThen, Exec.deref, Exec.write, hand, postReq, reqAt, stored, setReq,
    settled]

/-- A freed request was not wanted, unless its thread is about to look at it again. -/
theorem Wants.gone {t : Thread} {q : Request} (wants : Wants t q) (want : q.wantReply = false) :
    Gone t := by
  obtain ⟨w, id, stage⟩ := t
  cases stage <;> simp_all [Wants, Gone]

/-- The processing thread may leave a request to its thread, or end it. -/
theorem settled_sound (sound : Sound s) {held : Held} (hand : s.hand = some (r, held))
    {left : Option Request} {ends : List Outcome} (stored : s.req r = some q)
    (id : ∀ p, left = some p → p.id = q.id) (place : At (settled s r left ends) r) :
    Sound (settled s r left ends) := by
  have use : InUse s r := ⟨sound.held r held hand, Or.inl (by simp [stored])⟩
  refine sound.change use ?_ ⟨sound.locked.stopped, ?_⟩ place
  · apply sound.concerns
    · rfl
    · rfl
    · exact fun m hm => Or.inl hm
    · exact fun m hm => Or.inr hm
    · intro x _
      rfl
    · intro x hx
      exact Function.update_of_ne hx _ _
    · intro x hx
      exact Function.update_of_ne hx _ _
    · intro x hx y
      simp [settled, hand, Ne.symm hx]
    · rfl
    · intro p hp
      simp only [settled, Function.update_self] at hp
      rw [id p hp]
      exact (sound.stored r q stored).2
    · exact fun sent => sent
  · intro _ x held' none_
    simp [settled] at none_

theorem posted_sound (sound : Sound s) {held : Held} (hand : s.hand = some (r, held)) {p : Request}
    (stored : s.req r = some q) (unlisted : ¬ Listed s r) (pending : s.ended r = [])
    (wants : Wants (s.thread r) q) (want : q.wantReply = true) (id : p.id = q.id)
    (want' : p.wantReply = q.wantReply) (ready : 0 < p.ready)
    (answered : p.error = true ∨ p.reply = some r) : Sound (settled s r (some p) []) := by
  apply settled_sound sound hand stored
  · rintro _ ⟨⟩
    exact id
  · apply At.posted p
    · simp [settled]
    · exact unlisted
    · intro y
      simp [settled]
    · simp [settled, pending]
    · exact ready
    · have same : Wants (s.thread r) p := by
        unfold Wants at wants ⊢
        rwa [want']
      exact same
    · exact want'.trans want
    · exact answered

theorem ended_sound (sound : Sound s) {held : Held} (hand : s.hand = some (r, held)) {o : Outcome}
    (stored : s.req r = some q) (unlisted : ¬ Listed s r) (pending : s.ended r = [])
    (wants : Wants (s.thread r) q) (want : q.wantReply = false) (good : o = .error ∨ o = .answer r) :
    Sound (settled s r none [o]) := by
  apply settled_sound sound hand stored
  · rintro p ⟨⟩
  · apply At.gone o
    · simp [settled]
    · exact unlisted
    · intro y
      simp [settled]
    · simp [settled, pending]
    · exact good
    · exact wants.gone want

theorem wanted_sound (sound : Sound s) (hand : s.hand = some (r, .error)) (stored : s.req r = some q)
    (unlisted : ¬ Listed s r) (pending : s.ended r = []) (wants : Wants (s.thread r) q)
    (want : q.wantReply = true) (error : q.error = true) :
    Sound { s with hand := some (r, .wanted) } := by
  have use : InUse s r := ⟨sound.held r .error hand, Or.inl (by simp [stored])⟩
  refine sound.change use ?_ ⟨sound.locked.stopped, ?_⟩ ?_
  · apply sound.concerns
    · rfl
    · rfl
    · exact fun m hm => Or.inl hm
    · exact fun m hm => Or.inr hm
    · intro x _
      rfl
    · intro x _
      rfl
    · intro x _
      rfl
    · intro x hx y
      simp [hand, Ne.symm hx]
    · rfl
    · intro p hp
      exact (sound.stored r p hp).2
    · exact fun sent => sent
  · intro free
    obtain ⟨f, answer⟩ := sound.locked.cleans free r .error hand
    cases answer
  · exact .marked q .wanted stored unlisted rfl pending error wants (Or.inr ⟨rfl, want⟩)

/-- What the processing thread does with the request in hand returns, unless the thread that waits for
the request has freed it. -/
theorem settleReq_sound (sound : Sound s) (held : s.hand ≠ none) :
    (∃ t, settleReq s = .ok ((), t) ∧ Sound t) ∨ (∃ fault, settleReq s = .error fault) ∧
      ∃ r held, s.hand = some (r, held) ∧ s.ended r ≠ [] := by
  obtain ⟨⟨r, held⟩, hand⟩ := Option.ne_none_iff_exists'.mp held
  rcases sound.in_hand hand with ⟨q, stored, unlisted, pending, wants, here⟩ | ⟨freed, ended, -⟩
  · left
    rcases here with ⟨rfl, blank, -⟩ | ⟨error, rfl | ⟨rfl, want⟩⟩
    · refine ⟨_, settleReq_answered hand stored, ?_⟩
      cases want : q.wantReply with
      | true =>
        exact posted_sound sound hand stored unlisted pending wants want rfl want.symm
          (Nat.succ_pos _) (Or.inr rfl)
      | false =>
        apply ended_sound sound hand stored unlisted pending wants want
        right
        simp [outcomeOf, blank.2.1]
    · cases want : q.wantReply with
      | true =>
        refine ⟨_, settleReq_wanted hand stored want, ?_⟩
        exact wanted_sound sound hand stored unlisted pending wants want error
      | false =>
        refine ⟨_, settleReq_unwanted hand stored want, ?_⟩
        apply ended_sound sound hand stored unlisted pending wants want
        left
        simp [outcomeOf, error]
    · refine ⟨_, settleReq_post hand stored, ?_⟩
      exact posted_sound sound hand stored unlisted pending wants want rfl rfl (Nat.succ_pos _)
        (Or.inl error)
  · exact Or.inr ⟨settleReq_freed hand freed, r, held, hand, ended⟩

/-- The state in which `clean_req` has set the error of a request. -/
def marked (s : Client) (r : Rid) (q : Request) : Client :=
  { s with
    req := Function.update s.req r (some { q with error := true })
    reqtab := s.reqtab.filter fun e => e.1 != (s.thread r).id
    hand := some (r, .error)
    leaked := if s.epoch r = s.connver then s.leaked + q.len else s.leaked }

theorem markReq_run (sound : Sound s) {q : Request} (stored : s.req r = some q) :
    markReq r s = .ok ((), marked s r q) := by
  simp [markReq, bind, Exec.andThen, Exec.read, Exec.write, reqAt, Exec.deref, stored, setReq,
    removeReq, pure, Exec.ret, (sound.stored r q stored).2, marked]

theorem Sound.marked_concerns (sound : Sound s) (use : InUse s r) (free : s.hand = none) {q : Request}
    (stored : s.req r = some q) : Concerns s (marked s r q) r := by
  apply sound.concerns_remove use
  · rfl
  · rfl
  · exact fun m hm => hm
  · exact fun m hm => hm
  · intro x _
    rfl
  · intro x hx
    exact Function.update_of_ne hx _ _
  · intro x _
    rfl
  · intro x hx y
    simp [marked, free, Ne.symm hx]
  · rfl
  · intro p hp
    simp only [marked, Function.update_self, Option.some.injEq] at hp
    rw [← hp]
    exact (sound.stored r q stored).2
  · exact fun sent => sent

theorem markReq_sound (sound : Sound s) (cleaning : s.cleaning = true) (free : s.hand = none)
    (entry : Listed s r) : ∃ t, markReq r s = .ok ((), t) ∧ Sound t := by
  have use := sound.inUse_of_listed entry
  obtain ⟨q, stored, blank, wants, pending, -⟩ := (sound.place r use.1).stored_of_listed entry
  refine ⟨_, markReq_run sound stored, ?_⟩
  refine sound.change use (sound.marked_concerns use free stored) ⟨sound.locked.stopped, ?_⟩ ?_
  · intro open_
    have closed : s.cleaning = false := open_
    rw [cleaning] at closed
    cases closed
  · apply At.marked { q with error := true } .error
    · simp [marked]
    · simp [Listed, marked]
    · rfl
    · exact pending
    · rfl
    · exact wants
    · exact Or.inl rfl

theorem loseConnection_sound (sound : Sound s) :
    ∃ t, loseConnection s = .ok ((), t) ∧ Sound t := by
  refine ⟨_, rfl, ?_⟩
  constructor
  · exact sound.entries
  · exact sound.keys
  · intro m hm
    simp at hm
  · rintro x y ⟨hx, usex⟩ ⟨hy, usey⟩ same
    apply sound.unique x y ⟨hx, ?_⟩ ⟨hy, ?_⟩ same
    · simpa [or_assoc] using Or.inl usex
    · simpa [or_assoc] using Or.inl usey
  · exact sound.stored
  · exact sound.held
  · refine ⟨fun _ => rfl, ?_⟩
    rintro ⟨⟩
  · intro x hx
    apply (sound.place x hx).congr <;> first | rfl | exact Iff.rfl | exact fun _ => Iff.rfl

theorem connectionLost_sound (sound : Sound s) (free : s.hand = none) :
    ∃ t, connectionLost s = .ok ((), t) ∧ Sound t := by
  refine ⟨_, rfl, ?_⟩
  constructor
  · exact sound.entries
  · exact sound.keys
  · exact sound.frames
  · exact sound.unique
  · exact sound.stored
  · exact sound.held
  · constructor
    · rintro ⟨⟩
    intro _ x held hand
    have hand : s.hand = some (x, held) := hand
    rw [free] at hand
    cases hand
  · intro x hx
    apply (sound.place x hx).congr <;> first | rfl | exact Iff.rfl | exact fun _ => Iff.rfl

theorem finishReq_run {q : Request} (stored : s.req r = some q) :
    finishReq r s = .ok ((), { s with
      ended := Function.update s.ended r (outcomeOf q :: s.ended r)
      req := Function.update s.req r none
      thread := Function.update s.thread r { s.thread r with stage := .done } }) := by
  cases broken : q.error with
  | true =>
    simp [finishReq, bind, Exec.andThen, Exec.write, reqAt, Exec.deref, stored, broken, Exec.when,
      Exec.ret, endReq, setStage]
  | false =>
    simp [finishReq, bind, Exec.andThen, Exec.write, reqAt, Exec.deref, stored, broken, Exec.when,
      endReq, setStage, setReq, outcomeOf]

/-- What a thread that has waited for its request has of it. -/
theorem Sound.finishes (sound : Sound s) (enabled : Enabled max s (.finish r)) :
    ∃ q, s.req r = some q ∧ ¬ Listed s r ∧ (∀ f, s.hand ≠ some (r, .answer f)) ∧ s.ended r = [] ∧
      (q.error = true ∨ q.reply = some r) := by
  obtain ⟨bound, ready⟩ := enabled
  cases sound.place r bound with
  | waiting _ _ _ _ _ _ stage => simp [stage] at ready
  | listed q stored _ _ _ blank wants =>
    rcases ready with stage | ⟨_, _, ready⟩
    · simp [Wants, stage] at wants
    · simpa [blank.1, blank.2.1] using ready q stored
  | taken q stored _ _ _ blank wants =>
    rcases ready with stage | ⟨_, _, ready⟩
    · simp [Wants, stage] at wants
    · simpa [blank.1, blank.2.1] using ready q stored
  | marked q held stored unlisted hand pending error _ cleans =>
    refine ⟨q, stored, unlisted, ?_, pending, Or.inl error⟩
    intro f answer
    rw [hand] at answer
    cases answer
    simp at cleans
  | posted q stored unlisted aside pending _ _ _ answered =>
    exact ⟨q, stored, unlisted, fun f => aside (.answer f), pending, answered⟩
  | failed q stored unlisted aside pending _ error =>
    exact ⟨q, stored, unlisted, fun f => aside (.answer f), pending, Or.inl error⟩
  | gone _ _ _ _ _ _ left =>
    rcases ready with stage | ⟨stage, want, _⟩
    · simp [Gone, stage] at left
    · simp [Gone, stage, want] at left

/-- A step that changes one request and how far its thread is, and nothing else. -/
theorem Sound.stepped (sound : Sound s) (use : InUse s r) (stage : Stage) {req : Rid → Option Request}
    {ended : Rid → List Outcome} (others : ∀ x, x ≠ r → req x = s.req x ∧ ended x = s.ended x)
    (named : ∀ q, req r = some q → q.id = (s.thread r).id)
    (forward : Sent (s.thread r).stage → Sent stage)
    (place : At { s with
      req := req
      ended := ended
      thread := Function.update s.thread r { s.thread r with stage := stage } } r) :
    Sound { s with
      req := req
      ended := ended
      thread := Function.update s.thread r { s.thread r with stage := stage } } := by
  refine sound.change use ?_ ?_ place
  · apply sound.concerns
    · rfl
    · rfl
    · exact fun m hm => Or.inl hm
    · exact fun m hm => Or.inr hm
    · intro x hx
      exact Function.update_of_ne hx _ _
    · exact fun x hx => (others x hx).1
    · exact fun x hx => (others x hx).2
    · intro x _ f
      rfl
    · simp
    · exact named
    · simpa using forward
  · exact sound.still rfl rfl rfl

theorem finishReq_sound (sound : Sound s) (enabled : Enabled max s (.finish r)) :
    ∃ t, finishReq r s = .ok ((), t) ∧ Sound t := by
  obtain ⟨q, stored, unlisted, aside, pending, good⟩ := sound.finishes enabled
  have bound : r < s.next := enabled.1
  refine ⟨_, finishReq_run stored, ?_⟩
  apply sound.stepped ⟨bound, Or.inl (by simp [stored])⟩
  · intro x hx
    exact ⟨Function.update_of_ne hx _ _, Function.update_of_ne hx _ _⟩
  · intro p hp
    simp at hp
  · simp [Sent]
  · apply At.gone (outcomeOf q)
    · simp
    · simpa [Listed] using unlisted
    · exact aside
    · simp [pending]
    · unfold outcomeOf
      split
      · exact Or.inl rfl
      · rename_i sane
        rw [good.resolve_left sane]
        exact Or.inr rfl
    · simp [Gone]

theorem abandonReq_pending {q : Request} (stored : s.req r = some q)
    (found : (s.reqtab.lookup q.id).isSome = true) :
    abandonReq r s = .ok ((), { s with
      req := Function.update s.req r (some { q with wantReply := false })
      thread := Function.update s.thread r { s.thread r with stage := .rechecking } }) := by
  simp [abandonReq, bind, Exec.andThen, Exec.read, Exec.write, reqAt, Exec.deref, stored, found,
    Exec.when, setReq, setStage]

theorem abandonReq_answered {q : Request} (stored : s.req r = some q)
    (missing : (s.reqtab.lookup q.id).isSome = false) :
    abandonReq r s = .ok ((), { s with
      thread := Function.update s.thread r { s.thread r with stage := .rechecking } }) := by
  simp [abandonReq, bind, Exec.andThen, Exec.read, Exec.write, reqAt, Exec.deref, stored, missing,
    Exec.when, Exec.ret, setStage]

theorem abandonReq_sound (sound : Sound s) (enabled : Enabled max s (.abandon r)) :
    ∃ t, abandonReq r s = .ok ((), t) ∧ Sound t := by
  obtain ⟨bound, stage, want, free⟩ := enabled
  -- an answered request keeps want_reply, so nobody else frees it
  have answered : ∀ q, s.req r = some q → ¬ Listed s r →
      At { s with
        thread := Function.update s.thread r { s.thread r with stage := .rechecking } } r →
      ∃ t, abandonReq r s = .ok ((), t) ∧ Sound t := by
    intro q stored unlisted place
    have use : InUse s r := ⟨bound, Or.inl (by simp [stored])⟩
    have missing : (s.reqtab.lookup q.id).isSome = false := by
      rw [← Bool.not_eq_true, (sound.stored r q stored).2]
      exact (sound.removed_iff use).not.mpr unlisted
    refine ⟨_, abandonReq_answered stored missing, ?_⟩
    apply sound.stepped use .rechecking (fun _ _ => ⟨rfl, rfl⟩) _ _ place
    · exact fun p hp => (sound.stored r p hp).2
    · simp [Sent]
  cases sound.place r bound with
  | waiting _ _ _ _ _ _ stage' => simp [stage] at stage'
  | listed q stored entry aside pending blank wants =>
    have use : InUse s r := ⟨bound, Or.inl (by simp [stored])⟩
    have found : (s.reqtab.lookup q.id).isSome = true := by
      rw [(sound.stored r q stored).2]
      exact (sound.removed_iff use).mpr entry
    refine ⟨_, abandonReq_pending stored found, ?_⟩
    apply sound.stepped use .rechecking
    · intro x hx
      exact ⟨Function.update_of_ne hx _ _, rfl⟩
    · intro p hp
      rw [Function.update_self, Option.some.injEq] at hp
      rw [← hp]
      exact (sound.stored r q stored).2
    · simp [Sent]
    · apply At.listed { q with wantReply := false }
      · simp
      · simpa [Listed] using entry
      · exact aside
      · exact pending
      · exact blank
      · simpa [Wants] using want
  | taken q stored unlisted hand pending blank wants sent =>
    apply answered q stored unlisted
    apply At.taken q
    · exact stored
    · simpa [Listed] using unlisted
    · exact hand
    · exact pending
    · exact blank
    · simpa [Wants] using want
    · simp [Sent]
  | marked _ _ _ _ hand _ _ _ cleans => exact absurd cleans (sound.uncleaned free hand)
  | posted q stored unlisted aside pending ready wants want' done =>
    apply answered q stored unlisted
    apply At.posted q
    · exact stored
    · simpa [Listed] using unlisted
    · exact aside
    · exact pending
    · exact ready
    · simpa [Wants] using want
    · exact want'
    · exact done
  | failed _ _ _ _ _ stage' => simp [stage] at stage'
  | gone _ _ _ _ _ _ left => simp [Gone, stage, want] at left

theorem recheckReq_freed (freed : s.req r = none) : recheckReq r s = .error .wild := by
  simp only [recheckReq, bind, Exec.andThen, reqAt, Exec.deref, freed]

theorem recheckReq_run {q : Request} (stored : s.req r = some q) :
    recheckReq r s = .ok ((), { s with
      thread := Function.update s.thread r
        { s.thread r with stage := if q.wantReply then .sent else .left } }) := by
  simp only [recheckReq, bind, Exec.andThen, reqAt, Exec.deref, stored, setStage, Exec.write]

/-- The second look finds the request, unless it has been freed since the first. -/
theorem recheckReq_sound (sound : Sound s) (bound : r < s.next)
    (stage : (s.thread r).stage = .rechecking) {q : Request} (stored : s.req r = some q) :
    Sound { s with
      thread := Function.update s.thread r
        { s.thread r with stage := if q.wantReply then .sent else .left } } := by
  have onward : Sent (if q.wantReply then Stage.sent else .left) := by
    split <;> simp [Sent]
  have settled : Wants (s.thread r) q →
      Wants { s.thread r with stage := if q.wantReply then .sent else .left } q := by
    intro wants
    simp only [Wants, stage] at wants
    cases want : q.wantReply with
    | true => simp [Wants, want, wants]
    | false => simp [Wants, want]
  apply sound.stepped ⟨bound, Or.inl (by simp [stored])⟩ _ fun _ _ => ⟨rfl, rfl⟩
  · exact fun p hp => (sound.stored r p hp).2
  · exact fun _ => onward
  · cases sound.place r bound with
    | waiting _ _ _ _ _ _ stage' => simp [stage] at stage'
    | listed p stored' entry aside pending blank wants =>
      obtain rfl := Option.some.inj (stored.symm.trans stored')
      refine .listed q stored ?_ aside pending blank ?_
      · simpa [Listed] using entry
      · simpa using settled wants
    | taken p stored' unlisted hand pending blank wants sent =>
      obtain rfl := Option.some.inj (stored.symm.trans stored')
      refine .taken q stored ?_ hand pending blank ?_ ?_
      · simpa [Listed] using unlisted
      · simpa using settled wants
      · simpa using onward
    | marked p held stored' unlisted hand pending error wants cleans =>
      obtain rfl := Option.some.inj (stored.symm.trans stored')
      refine .marked q held stored ?_ hand pending error ?_ cleans
      · simpa [Listed] using unlisted
      · simpa using settled wants
    | posted p stored' unlisted aside pending ready wants want answered =>
      obtain rfl := Option.some.inj (stored.symm.trans stored')
      refine .posted q stored ?_ aside pending ready ?_ want answered
      · simpa [Listed] using unlisted
      · simpa using settled wants
    | failed _ _ _ _ _ stage' => simp [stage] at stage'
    | gone _ freed => simp [stored] at freed

theorem serve_sound (sound : Sound s) {m : ℕ × Rid} (sent : m ∈ s.wire) :
    Sound { s with wire := s.wire.erase m, back := s.back ++ [m] } := by
  obtain ⟨bound, id, -⟩ := sound.frames m (Or.inl sent)
  have use : InUse s m.2 := by
    refine ⟨bound, Or.inr (Or.inr (Or.inl ?_))⟩
    rw [id]
    exact sent
  apply sound.change use
  · apply sound.concerns
    · rfl
    · rfl
    · intro k hk
      exact Or.inl (List.mem_of_mem_erase hk)
    · intro k hk
      rcases List.mem_append.mp hk with old | new
      · exact Or.inr old
      · exact Or.inl (List.mem_singleton.mp new ▸ sent)
    · intro x _
      rfl
    · intro x _
      rfl
    · intro x _
      rfl
    · intro x _ f
      rfl
    · rfl
    · intro q hq
      exact (sound.stored m.2 q hq).2
    · exact fun h => h
  · exact sound.still rfl rfl rfl
  · apply (sound.place m.2 bound).congr <;> first | rfl | exact Iff.rfl | exact fun _ => Iff.rfl

/-- The state in which `sftp_request_send` calls `start_processing_thread`. -/
def created (s : Client) (want : Bool) : Client :=
  { s with
    next := s.next + 1
    idctr := (s.idctr + 1) % 2 ^ 32
    req := Function.update s.req s.next (some ⟨want, s.idctr, 0, 0, false, none⟩)
    thread := Function.update s.thread s.next ⟨want, s.idctr, .waiting⟩
    signalled := Function.update s.signalled s.next false
    ended := Function.update s.ended s.next []
    epoch := Function.update s.epoch s.next s.connver }

/-- The state that `start_processing_thread` leaves. -/
def connected (s : Client) (up : Bool) (ids : ℕ) : Client :=
  if s.running then s
  else { s with
    idctr := (s.idctr + ids) % 2 ^ 32
    running := up
    torn := false
    wire := []
    back := [] }

theorem startProcessingThread_run (up : Bool) (ids : ℕ) :
    startProcessingThread up ids s = .ok (s.running || up, connected s up ids) := by
  cases running : s.running <;>
    simp [startProcessingThread, bind, Exec.andThen, Exec.read, Exec.write, pure, Exec.ret, running,
      connected]

/-- The state in which the length of the newest request has been added. -/
def counted (s : Client) (r : Rid) (q : Request) (len : ℕ) : Client :=
  { s with
    req := Function.update s.req r (some { q with len := len + 9 })
    outstandingLen := (s.outstandingLen + (len + 9)) % 2 ^ 32 }

/-- The state after `sftp_request_send` could not connect. -/
def refused (s : Client) (r : Rid) (q : Request) : Client :=
  { s with
    req := Function.update s.req r (some { q with error := true })
    thread := Function.update s.thread r { s.thread r with stage := .failed } }

theorem connected_req (up : Bool) (ids : ℕ) : (connected s up ids).req = s.req := by
  unfold connected
  split <;> rfl

theorem sendReq_run (max : ℕ) (want : Bool) (len : ℕ) (up : Bool) (ids : ℕ) :
    sendReq max want len up ids s =
      let t := connected (created s want) up ids
      let q : Request := ⟨want, s.idctr, 0, 0, false, none⟩
      if s.running || up then
        Exec.when ((counted t s.next q len).outstandingLen ≤ max) (enterReq s.next)
          (counted t s.next q len)
      else .ok ((), refused t s.next q) := by
  have stored : (connected (created s want) up ids).req s.next =
      some ⟨want, s.idctr, 0, 0, false, none⟩ := by
    rw [connected_req]
    simp [created]
  have start := startProcessingThread_run (s := created s want) up ids
  rw [sendReq, bind_run rfl, bind_run rfl, bind_run rfl]
  refine (bind_run start).trans ?_
  have running : (created s want).running = s.running := rfl
  rw [running]
  cases h : s.running || up with
  | false =>
    simp only [Bool.not_false, if_true, Bool.false_eq_true, if_false]
    rw [bind_run (reqAt_run stored)]
    rfl
  | true =>
    simp only [Bool.not_true, Bool.false_eq_true, if_false, if_true]
    rw [bind_run (reqAt_run stored)]
    rfl

theorem created_sound (sound : Sound s) (fresh : ∀ r, InUse s r → (s.thread r).id ≠ s.idctr)
    (want : Bool) : Sound (created s want) := by
  have old : ∀ x, x < s.next → (created s want).thread x = s.thread x :=
    fun x hx => Function.update_of_ne (Nat.ne_of_lt hx) _ _
  have used : ∀ x, InUse (created s want) x → x = s.next ∨ InUse s x := by
    rintro x ⟨bound, h⟩
    rcases Nat.lt_succ_iff_lt_or_eq.mp bound with hx | rfl
    · right
      refine ⟨hx, ?_⟩
      rw [old x hx] at h
      simpa [created, Function.update_of_ne (Nat.ne_of_lt hx)] using h
    · exact Or.inl rfl
  have newest : ((created s want).thread s.next).id = s.idctr := by simp [created]
  constructor
  · intro e he
    obtain ⟨bound, id⟩ := sound.entries e he
    rw [old _ bound]
    exact ⟨Nat.lt_succ_of_lt bound, id⟩
  · exact sound.keys
  · intro m hm
    obtain ⟨bound, id, sent⟩ := sound.frames m hm
    rw [old _ bound]
    exact ⟨Nat.lt_succ_of_lt bound, id, sent⟩
  · intro x y hx hy same
    rcases used x hx with rfl | hx
    · rcases used y hy with rfl | hy
      · rfl
      · rw [newest, old y hy.1] at same
        exact absurd same.symm (fresh y hy)
    · rcases used y hy with rfl | hy
      · rw [newest, old x hx.1] at same
        exact absurd same (fresh x hx)
      · rw [old x hx.1, old y hy.1] at same
        exact sound.unique x y hx hy same
  · intro x q hq
    by_cases hx : x = s.next
    · subst hx
      simp only [created, Function.update_self, Option.some.injEq] at hq
      rw [newest, ← hq]
      exact ⟨Nat.lt_succ_self _, rfl⟩
    · simp only [created, Function.update_of_ne hx] at hq
      obtain ⟨bound, id⟩ := sound.stored x q hq
      rw [old x bound]
      exact ⟨Nat.lt_succ_of_lt bound, id⟩
  · intro x f hx
    exact Nat.lt_succ_of_lt (sound.held x f hx)
  · exact sound.still rfl rfl rfl
  · intro x bound
    rcases Nat.lt_succ_iff_lt_or_eq.mp bound with hx | rfl
    · apply (sound.place x hx).congr (old x hx)
      · simp [created, Function.update_of_ne (Nat.ne_of_lt hx)]
      · simp [created, Function.update_of_ne (Nat.ne_of_lt hx)]
      · simp only [Listed, old x hx]
        exact Iff.rfl
      · intro f
        rfl
    · apply At.waiting ⟨want, s.idctr, 0, 0, false, none⟩
      · simp [created]
      · intro entry
        exact Nat.lt_irrefl _ (sound.entries _ entry).1
      · intro f hand
        exact Nat.lt_irrefl _ (sound.held _ _ hand)
      · simp [created]
      · exact ⟨rfl, rfl, rfl⟩
      · simp [created]
      · simp [created]

theorem connected_sound (sound : Sound s) (free : s.cleaning = false) (up : Bool) (ids : ℕ) :
    Sound (connected s up ids) := by
  unfold connected
  split
  · exact sound
  · constructor
    · exact sound.entries
    · exact sound.keys
    · intro m hm
      simp at hm
    · rintro x y ⟨hx, usex⟩ ⟨hy, usey⟩ same
      apply sound.unique x y ⟨hx, ?_⟩ ⟨hy, ?_⟩ same
      · simpa [or_assoc] using Or.inl usex
      · simpa [or_assoc] using Or.inl usey
    · exact sound.stored
    · exact sound.held
    · refine ⟨?_, sound.locked.cleans⟩
      intro closed
      have closed : s.cleaning = true := closed
      rw [free] at closed
      cases closed
    · intro x hx
      apply (sound.place x hx).congr <;> first | rfl | exact Iff.rfl | exact fun _ => Iff.rfl

/-- Changing a request that waits, and its thread at most to the failed ones. -/
theorem Sound.waiting_change (sound : Sound s) (stage : Stage) {q : Request} (q' : Request)
    (bound : r < s.next)
    (waits : (s.thread r).stage = .waiting) (stored : s.req r = some q) (id : q'.id = q.id)
    (next : t.next = s.next) (tab : t.reqtab = s.reqtab) (wire : t.wire = s.wire)
    (back : t.back = s.back) (hand : t.hand = s.hand) (ended : t.ended = s.ended)
    (running : t.running = s.running) (cleaning : t.cleaning = s.cleaning)
    (req : t.req = Function.update s.req r (some q'))
    (thread : t.thread = Function.update s.thread r { s.thread r with stage := stage })
    (place : At t r) : Sound t := by
  apply sound.change ⟨bound, Or.inl (by simp [stored])⟩ _ (sound.still running cleaning hand) place
  apply sound.concerns next tab
  · rw [wire]
    exact fun m hm => Or.inl hm
  · rw [back]
    exact fun m hm => Or.inr hm
  · intro x hx
    rw [thread, Function.update_of_ne hx]
  · intro x hx
    rw [req, Function.update_of_ne hx]
  · intro x _
    rw [ended]
  · intro x _ f
    rw [hand]
  · simp [thread]
  · intro p hp
    rw [req, Function.update_self, Option.some.injEq] at hp
    rw [← hp, id]
    exact (sound.stored r q stored).2
  · simp [waits, Sent]

theorem counted_sound (sound : Sound s) {q : Request} (bound : r < s.next)
    (waits : (s.thread r).stage = .waiting) (stored : s.req r = some q) (len : ℕ) :
    Sound (counted s r q len) := by
  cases sound.place r bound with
  | waiting p stored' unlisted aside pending blank _ same =>
    obtain rfl := Option.some.inj (stored.symm.trans stored')
    apply sound.waiting_change .waiting { q with len := len + 9 } bound waits stored
    case id => rfl
    case next => rfl
    case tab => rfl
    case wire => rfl
    case back => rfl
    case hand => rfl
    case ended => rfl
    case running => rfl
    case cleaning => rfl
    case req => rfl
    case thread =>
      rw [← waits, Function.update_eq_self]
      rfl
    case place =>
      refine .waiting { q with len := len + 9 } ?_ unlisted aside pending blank waits same
      simp [counted]
  | listed _ _ _ _ _ _ wants => simp [Wants, waits] at wants
  | taken _ _ _ _ _ _ wants => simp [Wants, waits] at wants
  | marked _ _ _ _ _ _ _ wants => simp [Wants, waits] at wants
  | posted _ _ _ _ _ _ wants => simp [Wants, waits] at wants
  | failed _ _ _ _ _ stage => simp [waits] at stage
  | gone _ _ _ _ _ _ left => simp [Gone, waits] at left

theorem refused_sound (sound : Sound s) {q : Request} (bound : r < s.next)
    (waits : (s.thread r).stage = .waiting) (stored : s.req r = some q) :
    Sound (refused s r q) := by
  cases sound.place r bound with
  | waiting p stored' unlisted aside pending blank _ same =>
    apply sound.waiting_change .failed { q with error := true } bound waits stored
    case id => rfl
    case next => rfl
    case tab => rfl
    case wire => rfl
    case back => rfl
    case hand => rfl
    case ended => rfl
    case running => rfl
    case cleaning => rfl
    case req => rfl
    case thread => rfl
    case place =>
      apply At.failed { q with error := true }
      · simp [refused]
      · simpa [Listed, refused] using unlisted
      · exact aside
      · exact pending
      · exact Or.inl (by simp [refused])
      · rfl
  | listed _ _ _ _ _ _ wants => simp [Wants, waits] at wants
  | taken _ _ _ _ _ _ wants => simp [Wants, waits] at wants
  | marked _ _ _ _ _ _ _ wants => simp [Wants, waits] at wants
  | posted _ _ _ _ _ _ wants => simp [Wants, waits] at wants
  | failed _ _ _ _ _ stage => simp [waits] at stage
  | gone _ _ _ _ _ _ left => simp [Gone, waits] at left

theorem connected_thread (up : Bool) (ids : ℕ) : (connected s up ids).thread = s.thread := by
  unfold connected
  split <;> rfl

theorem connected_next (up : Bool) (ids : ℕ) : (connected s up ids).next = s.next := by
  unfold connected
  split <;> rfl

theorem sendReq_sound (sound : Sound s) (fresh : ∀ r, InUse s r → (s.thread r).id ≠ s.idctr)
    (free : s.cleaning = false) (want : Bool) (len : ℕ) (up : Bool) (ids : ℕ) :
    ∃ t, sendReq max want len up ids s = .ok ((), t) ∧ Sound t := by
  have base := connected_sound (created_sound sound fresh want) free up ids
  have bound : s.next < (connected (created s want) up ids).next := by
    rw [connected_next]
    exact Nat.lt_succ_self _
  have waits : ((connected (created s want) up ids).thread s.next).stage = .waiting := by
    rw [connected_thread]
    simp [created]
  have stored : (connected (created s want) up ids).req s.next =
      some ⟨want, s.idctr, 0, 0, false, none⟩ := by
    rw [connected_req]
    simp [created]
  rw [sendReq_run]
  dsimp only
  split
  · have ready := counted_sound base bound waits stored len
    unfold Exec.when
    split
    · exact enterReq_sound ready bound waits
    · exact ⟨_, rfl, ready⟩
  · exact ⟨_, rfl, refused_sound base bound waits stored⟩

theorem initial_sound : Sound initial := by
  constructor
  · intro e he
    simp [initial] at he
  · simp [initial]
  · intro m hm
    simp [initial] at hm
  · intro x y hx
    exact absurd hx.1 (Nat.not_lt_zero x)
  · intro x q hq
    simp [initial] at hq
  · intro x f hx
    simp [initial] at hx
  · constructor
    · rintro ⟨⟩
    · rintro - x held ⟨⟩
  · intro x hx
    exact absurd hx (Nat.not_lt_zero x)

theorem Sound.ended_cases (sound : Sound s) (bound : r < s.next) :
    (s.req r ≠ none ∧ s.ended r = []) ∨
      s.req r = none ∧ ∃ o, s.ended r = [o] ∧ (o = .error ∨ o = .answer r) := by
  cases sound.place r bound with
  | waiting q stored _ _ pending => exact Or.inl ⟨by simp [stored], pending⟩
  | listed q stored _ _ pending => exact Or.inl ⟨by simp [stored], pending⟩
  | taken q stored _ _ pending => exact Or.inl ⟨by simp [stored], pending⟩
  | marked q _ stored _ _ pending => exact Or.inl ⟨by simp [stored], pending⟩
  | posted q stored _ _ pending => exact Or.inl ⟨by simp [stored], pending⟩
  | failed q stored _ _ pending => exact Or.inl ⟨by simp [stored], pending⟩
  | gone o freed _ _ once good => exact Or.inr ⟨freed, o, once, good⟩

theorem dropReq_sound (sound : Sound s) (bound : r < s.next) (stage : (s.thread r).stage = .failed) :
    ∃ t, dropReq r s = .ok ((), t) ∧ Sound t := by
  refine ⟨_, rfl, ?_⟩
  cases sound.place r bound with
  | failed q stored unlisted aside pending _ error =>
    apply sound.stepped ⟨bound, Or.inl (by simp [stored])⟩ .dropped fun _ _ => ⟨rfl, rfl⟩
    · exact fun p hp => (sound.stored r p hp).2
    · simp [stage, Sent]
    · refine .failed q stored ?_ aside pending (Or.inr ?_) error
      · simpa [Listed] using unlisted
      · simp
  | waiting _ _ _ _ _ _ stage' => simp [stage] at stage'
  | listed _ _ _ _ _ _ wants => simp [Wants, stage] at wants
  | taken _ _ _ _ _ _ wants => simp [Wants, stage] at wants
  | marked _ _ _ _ _ _ _ wants => simp [Wants, stage] at wants
  | posted _ _ _ _ _ _ wants => simp [Wants, stage] at wants
  | gone _ _ _ _ _ _ left => simp [Gone, stage] at left

/-- The steps that touch a request that has been freed: the second look of `sftp_readdir_async`, and
`clean_req` behind setting the error, which the thread that waits for the request may see and free it. -/
def Touches (s : Client) (e : Event) : Prop :=
  (∃ r, e = .recheck r ∧ s.ended r ≠ []) ∨
    e = .settle ∧ ∃ r held, s.hand = some (r, held) ∧ s.ended r ≠ []

/-- A step that a thread can take returns, unless it touches a request that has been freed. -/
theorem step_sound (sound : Sound s) (e : Event) (enabled : Enabled max s e) (fresh : Fresh s e) :
    (∃ t, step max e s = .ok ((), t) ∧ Sound t) ∨
      (∃ fault, step max e s = .error fault) ∧ Touches s e := by
  cases e with
  | send want len up ids => exact Or.inl (sendReq_sound sound fresh enabled want len up ids)
  | wake r => exact Or.inl (enterReq_sound sound enabled.1 enabled.2.1)
  | rewait r =>
    refine Or.inl ⟨_, rfl, ?_⟩
    exact ⟨sound.entries, sound.keys, sound.frames, sound.unique, sound.stored, sound.held,
      sound.still rfl rfl rfl,
      fun x hx => (sound.place x hx).congr rfl rfl rfl Iff.rfl fun _ => Iff.rfl⟩
  | written r whole =>
    exact Or.inl (writtenReq_sound sound enabled.1 enabled.2.1 enabled.2.2 whole)
  | writeFails r => exact Or.inl (writeFailed_sound sound enabled.1 enabled.2.1 enabled.2.2)
  | serve m => exact Or.inl ⟨_, rfl, serve_sound sound enabled⟩
  | receive => exact Or.inl (receiveReply_sound sound enabled.2.1 enabled.2.2)
  | settle =>
    rcases settleReq_sound sound enabled with returned | ⟨faulted, freed⟩
    · exact Or.inl returned
    · exact Or.inr ⟨faulted, Or.inr ⟨rfl, freed⟩⟩
  | lose => exact Or.inl (loseConnection_sound sound)
  | mark r => exact Or.inl (markReq_sound sound enabled.1 enabled.2.1 enabled.2.2)
  | lost => exact Or.inl (connectionLost_sound sound enabled.2.1)
  | finish r => exact Or.inl (finishReq_sound sound enabled)
  | abandon r => exact Or.inl (abandonReq_sound sound enabled)
  | recheck r =>
    rcases sound.ended_cases enabled.1 with ⟨kept, -⟩ | ⟨freed, o, once, -⟩
    · obtain ⟨q, stored⟩ := Option.ne_none_iff_exists'.mp kept
      exact Or.inl ⟨_, recheckReq_run stored, recheckReq_sound sound enabled.1 enabled.2 stored⟩
    · refine Or.inr ⟨⟨_, recheckReq_freed freed⟩, Or.inl ⟨r, rfl, ?_⟩⟩
      simp [once]
  | drop r => exact Or.inl (dropReq_sound sound enabled.1 enabled.2.1)

theorem Reached.sound (run : Reached max s) : Sound s := by
  refine Steps.invariant ?_ run initial_sound
  intro s e a t sound allowed moved
  rcases step_sound sound e allowed.1 allowed.2 with ⟨u, returned, sound'⟩ | ⟨⟨_, faulted⟩, -⟩
  · rw [returned] at moved
    cases moved
    exact sound'
  · rw [faulted] at moved
    cases moved

/-- A request whose thread is through with it is freed, listed or in hand. -/
theorem Sound.through (sound : Sound s) (bound : r < s.next)
    (stage : (s.thread r).stage = .done ∨ (s.thread r).stage = .left) :
    s.req r = none ∨ (s.thread r).stage = .left ∧ (Listed s r ∨ ∃ held, s.hand = some (r, held)) := by
  cases sound.place r bound with
  | waiting _ _ _ _ _ _ stage' => simp [stage'] at stage
  | listed q _ entry _ _ _ wants =>
    rcases stage with stage | stage
    · simp [Wants, stage] at wants
    · exact Or.inr ⟨stage, Or.inl entry⟩
  | taken q _ _ hand _ _ wants =>
    rcases stage with stage | stage
    · simp [Wants, stage] at wants
    · exact Or.inr ⟨stage, Or.inr ⟨_, hand⟩⟩
  | marked q held _ _ hand _ _ wants =>
    rcases stage with stage | stage
    · simp [Wants, stage] at wants
    · exact Or.inr ⟨stage, Or.inr ⟨held, hand⟩⟩
  | posted q _ _ _ _ _ wants want =>
    rcases stage with stage | stage
    · simp [Wants, stage] at wants
    · simp [Wants, stage, want] at wants
  | failed _ _ _ _ _ stage' =>
    rcases stage' with stage' | stage' <;> simp [stage'] at stage
  | gone _ freed => exact Or.inl freed

/-- A request that `sftp_readdir_async` has dropped stays, and nobody has it any more. -/
theorem Sound.left_over (sound : Sound s) (bound : r < s.next)
    (stage : (s.thread r).stage = .dropped) :
    s.req r ≠ none ∧ ¬ Listed s r ∧ ∀ held, s.hand ≠ some (r, held) := by
  cases sound.place r bound with
  | failed q stored unlisted aside => exact ⟨by simp [stored], unlisted, aside⟩
  | waiting _ _ _ _ _ _ stage' => simp [stage] at stage'
  | listed _ _ _ _ _ _ wants => simp [Wants, stage] at wants
  | taken _ _ _ _ _ _ wants => simp [Wants, stage] at wants
  | marked _ _ _ _ _ _ _ wants => simp [Wants, stage] at wants
  | posted _ _ _ _ _ _ wants => simp [Wants, stage] at wants
  | gone _ _ _ _ _ _ left => simp [Gone, stage] at left

theorem Sound.touches (sound : Sound s) {e : Event} (enabled : Enabled max s e)
    (touches : Touches s e) : ∃ fault, step max e s = .error fault := by
  rcases touches with ⟨r, rfl, ended⟩ | ⟨rfl, r, held, hand, ended⟩
  · rcases sound.ended_cases enabled.1 with ⟨_, pending⟩ | ⟨freed, _⟩
    · exact absurd pending ended
    · exact ⟨_, recheckReq_freed freed⟩
  · rcases sound.ended_cases (sound.held r held hand) with ⟨_, pending⟩ | ⟨freed, _⟩
    · exact absurd pending ended
    · exact settleReq_freed hand freed

/-- The state after some steps. -/
def played (max : ℕ) : List Event → Client
  | [] => initial
  | e :: l => (step max e).final (played max l)

theorem fresh_of_ids (h : ∀ x < s.next, (s.thread x).id ≠ s.idctr) (e : Event) : Fresh s e := by
  cases e with
  | send w l u i => exact fun x use => h x use.1
  | _ => trivial

theorem Reached.play {l : List Event} {e : Event} (run : Reached max (played max l))
    (enabled : Enabled max (played max l) e)
    (ids : ∀ x < (played max l).next, ((played max l).thread x).id ≠ (played max l).idctr)
    (returns : (step max e).value (played max l) = some ()) : Reached max (played max (e :: l)) :=
  Steps.snoc run ⟨enabled, fresh_of_ids ids e⟩ (ok_of_value returns)

end Safety

end SftpRequests
