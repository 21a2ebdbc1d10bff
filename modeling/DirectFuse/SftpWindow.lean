import DirectFuse.SftpSafety
import Mathlib.Algebra.Order.BigOperators.Group.Finset

/-! The bytes of requests under way: what `outstanding_len` of the sftp driver counts in any order of
the steps, how far it bounds what is sent, and which threads it keeps waiting. -/
namespace SftpRequests

open ExecLogic SysioState

section Window

variable {s t : Client} {r f x : Rid} {q : Request} {max : ℕ}

instance : Decidable (Listed s r) := inferInstanceAs (Decidable (_ ∈ _))

/-- What a request that waits or is listed adds to the count of its connection. -/
def weight (s : Client) (r : Rid) : ℕ :=
  if s.epoch r = s.connver ∧ ((s.thread r).stage = .waiting ∨ Listed s r) then
    (s.req r).elim 0 Request.len
  else 0

def load (s : Client) : ℕ := ∑ r ∈ Finset.range s.next, weight s r

/-- The part of it that is listed: what the server has not answered. -/
def flight (s : Client) : ℕ := ∑ r ∈ Finset.range s.next, if Listed s r then weight s r else 0

theorem flight_le_load (s : Client) : flight s ≤ load s := by
  apply Finset.sum_le_sum
  intro r _
  split
  · exact Nat.le_refl _
  · exact Nat.zero_le _

/-- Of two sums that differ in one term. -/
theorem sum_change {n : ℕ} {v w : ℕ → ℕ} (bound : r < n) (others : ∀ x, x ≠ r → w x = v x) :
    (∑ x ∈ Finset.range n, w x) + v r = (∑ x ∈ Finset.range n, v x) + w r := by
  have member := Finset.mem_range.mpr bound
  rw [← Finset.add_sum_erase _ w member, ← Finset.add_sum_erase _ v member]
  have rest : ∑ x ∈ (Finset.range n).erase r, w x = ∑ x ∈ (Finset.range n).erase r, v x := by
    apply Finset.sum_congr rfl
    intro x hx
    exact others x (Finset.ne_of_mem_erase hx)
  rw [rest]
  omega

theorem weight_congr (epoch : t.epoch x = s.epoch x) (connver : t.connver = s.connver)
    (stage : (t.thread x).stage = .waiting ↔ (s.thread x).stage = .waiting)
    (tab : Listed t x ↔ Listed s x)
    (len : (s.thread x).stage = .waiting ∨ Listed s x →
      (t.req x).elim 0 Request.len = (s.req x).elim 0 Request.len) : weight t x = weight s x := by
  unfold weight
  simp only [epoch, connver, stage, tab]
  split
  · rename_i h
    exact len h.2
  · rfl

theorem weight_idle (stage : (s.thread x).stage ≠ .waiting) (unlisted : ¬ Listed s x) :
    weight s x = 0 := by
  simp [weight, stage, unlisted]

/-- A step leaves what is counted, and who was signalled, as it was. -/
structure Kept (s t : Client) : Prop where
  next : t.next = s.next
  idctr : t.idctr = s.idctr
  connver : t.connver = s.connver
  epoch : t.epoch = s.epoch
  outstanding : t.outstandingLen = s.outstandingLen
  credited : t.credited = s.credited
  leaked : t.leaked = s.leaked
  signalled : t.signalled = s.signalled
  running : t.running = s.running

/-- A step that is nothing to the count. -/
structure Quiet (s t : Client) : Prop extends Kept s t where
  ids : ∀ x, (t.thread x).id = (s.thread x).id
  waiting : ∀ x, (t.thread x).stage = .waiting ↔ (s.thread x).stage = .waiting
  tab : ∀ x, Listed t x ↔ Listed s x
  empty : s.reqtab = [] → t.reqtab = []
  len : ∀ x, (s.thread x).stage = .waiting ∨ Listed s x →
    (t.req x).elim 0 Request.len = (s.req x).elim 0 Request.len

theorem Quiet.weight (quiet : Quiet s t) (x : Rid) : weight t x = weight s x :=
  weight_congr (by rw [quiet.epoch]) quiet.connver (quiet.waiting x) (quiet.tab x) (quiet.len x)

/-- What a step does to the count. -/
inductive Effect (max : ℕ) (s : Client) : Event → Client → Prop where
  | quiet {e : Event} {t : Client} (h : Quiet s t) : Effect max s e t
  | refused {want : Bool} {len : ℕ} {up : Bool} {ids : ℕ} (free : s.cleaning = false)
      (down : (s.running || up) = false) :
      Effect max s (.send want len up ids)
        (refused (connected (created s want) up ids) s.next ⟨want, s.idctr, 0, 0, false, none⟩)
  | waits {want : Bool} {len : ℕ} {up : Bool} {ids : ℕ} (free : s.cleaning = false)
      (runs : (s.running || up) = true) (high : max < (s.outstandingLen + (len + 9)) % 2 ^ 32) :
      Effect max s (.send want len up ids)
        (counted (connected (created s want) up ids) s.next ⟨want, s.idctr, 0, 0, false, none⟩ len)
  | enters {want : Bool} {len : ℕ} {up : Bool} {ids : ℕ} (free : s.cleaning = false)
      (runs : (s.running || up) = true) (fits : (s.outstandingLen + (len + 9)) % 2 ^ 32 ≤ max) :
      Effect max s (.send want len up ids)
        (entered (counted (connected (created s want) up ids) s.next
          ⟨want, s.idctr, 0, 0, false, none⟩ len) s.next)
  | wakes {r : Rid} (bound : r < s.next) (stage : (s.thread r).stage = .waiting)
      (fits : s.outstandingLen ≤ max) : Effect max s (.wake r) (entered s r)
  | rewaits {r : Rid} (high : max < s.outstandingLen) :
      Effect max s (.rewait r) { s with signalled := Function.update s.signalled r false }
  | breaks {r : Rid} {q : Request} (use : InUse s r) (stage : (s.thread r).stage = .writing)
      (stored : s.req r = some q) (entry : Listed s r) : Effect max s (.writeFails r) (broken s r q)
  | takes {r : Rid} {rest : List (ℕ × Rid)} {q : Request} (use : InUse s r) (free : s.hand = none)
      (back : s.back = ((s.thread r).id, r) :: rest) (stored : s.req r = some q)
      (entry : Listed s r) (stage : (s.thread r).stage ≠ .waiting) :
      Effect max s .receive (taken max s (s.thread r).id r r rest q)
  | stops : Effect max s .lose { s with running := false, cleaning := true, wire := [], back := [] }
  | marks {r : Rid} {q : Request} (closed : s.cleaning = true) (free : s.hand = none)
      (use : InUse s r) (stored : s.req r = some q) (entry : Listed s r)
      (stage : (s.thread r).stage ≠ .waiting) : Effect max s (.mark r) (marked s r q)
  | loses {t : Client} (closed : s.cleaning = true) (next : t.next = s.next)
      (connver : t.connver = s.connver + 1) (epoch : t.epoch = s.epoch)
      (outstanding : t.outstandingLen = 0) (credited : t.credited = 0) (leaked : t.leaked = 0)
      (signalled : ∀ x, t.signalled x = true) (tab : t.reqtab = []) (idctr : t.idctr = s.idctr)
      (thread : t.thread = s.thread) : Effect max s .lost t

/-- A thread that does not wait goes on, and leaves the table alone. -/
theorem Kept.quiet (kept : Kept s t) (stage : Stage) (tab : t.reqtab = s.reqtab)
    (thread : t.thread = Function.update s.thread r { s.thread r with stage := stage })
    (before : (s.thread r).stage ≠ .waiting) (after : stage ≠ .waiting)
    (len : ∀ x, (s.thread x).stage = .waiting ∨ Listed s x →
      (t.req x).elim 0 Request.len = (s.req x).elim 0 Request.len) : Quiet s t := by
  refine ⟨kept, ?_, ?_, ?_, ?_, len⟩
  · intro x
    rw [thread]
    by_cases hx : x = r
    · rw [hx, Function.update_self]
    · rw [Function.update_of_ne hx]
  · intro x
    rw [thread]
    by_cases hx : x = r
    · subst hx
      simp [before, after]
    · rw [Function.update_of_ne hx]
  · intro x
    unfold Listed
    rw [thread, tab]
    by_cases hx : x = r
    · subst hx
      simp
    · rw [Function.update_of_ne hx]
  · intro empty
    rw [tab, empty]

/-- So does a request that is neither counted nor listed. -/
theorem Kept.quiet_of_idle (kept : Kept s t) (stage : Stage) (tab : t.reqtab = s.reqtab)
    (thread : t.thread = Function.update s.thread r { s.thread r with stage := stage })
    (before : (s.thread r).stage ≠ .waiting) (after : stage ≠ .waiting) (unlisted : ¬ Listed s r)
    (req : ∀ x, x ≠ r → t.req x = s.req x) : Quiet s t := by
  apply kept.quiet stage tab thread before after
  intro x counted
  rw [req x]
  rintro rfl
  exact counted.elim before unlisted

theorem writtenReq_quiet {whole : Bool} (stage : (s.thread r).stage = .writing)
    (moved : writtenReq r whole s = .ok ((), t)) : Quiet s t := by
  cases moved
  refine Kept.quiet (r := r) ⟨rfl, rfl, rfl, rfl, rfl, rfl, rfl, rfl, rfl⟩
    .sent rfl rfl ?_ ?_ ?_
  · simp [stage]
  · simp
  · intro x _
    rfl

theorem serve_quiet {m : ℕ × Rid} :
    Quiet s { s with wire := s.wire.erase m, back := s.back ++ [m] } where
  toKept := ⟨rfl, rfl, rfl, rfl, rfl, rfl, rfl, rfl, rfl⟩
  ids _ := rfl
  waiting _ := Iff.rfl
  tab _ := Iff.rfl
  empty h := h
  len _ _ := rfl

theorem Wants.goes_on {t : Thread} (wants : Wants t q) : t.stage ≠ .waiting := by
  intro stage
  simp [Wants, stage] at wants

theorem settled_quiet (unlisted : ¬ Listed s r) (before : (s.thread r).stage ≠ .waiting)
    {left : Option Request} {ends : List Outcome} : Quiet s (settled s r left ends) := by
  refine Kept.quiet_of_idle (r := r) ⟨rfl, rfl, rfl, rfl, rfl, rfl, rfl, rfl, rfl⟩
    (s.thread r).stage rfl ?_ before before unlisted ?_
  · exact (Function.update_eq_self r s.thread).symm
  · intro x hx
    exact Function.update_of_ne hx _ _

theorem settleReq_quiet (sound : Sound s) (held : s.hand ≠ none)
    (moved : settleReq s = .ok ((), t)) : Quiet s t := by
  obtain ⟨⟨r, held⟩, hand⟩ := Option.ne_none_iff_exists'.mp held
  rcases sound.in_hand hand with ⟨q, stored, unlisted, -, wants, here⟩ | ⟨freed, -⟩
  · have quiet := fun left ends => @settled_quiet s r unlisted wants.goes_on left ends
    rcases here with ⟨rfl, -⟩ | ⟨-, rfl | ⟨rfl, -⟩⟩
    · rw [settleReq_answered hand stored] at moved
      cases moved
      split
      · exact quiet _ _
      · exact quiet _ _
    · cases want : q.wantReply with
      | true =>
        rw [settleReq_wanted hand stored want] at moved
        cases moved
        exact ⟨⟨rfl, rfl, rfl, rfl, rfl, rfl, rfl, rfl, rfl⟩, fun _ => rfl, fun _ => Iff.rfl,
          fun _ => Iff.rfl, fun h => h, fun _ _ => rfl⟩
      | false =>
        rw [settleReq_unwanted hand stored want] at moved
        cases moved
        exact quiet _ _
    · rw [settleReq_post hand stored] at moved
      cases moved
      exact quiet _ _
  · obtain ⟨fault, faulted⟩ := settleReq_freed hand freed
    rw [faulted] at moved
    cases moved

theorem finishReq_quiet (sound : Sound s) (enabled : Enabled max s (.finish r))
    (moved : finishReq r s = .ok ((), t)) : Quiet s t := by
  obtain ⟨q, stored, unlisted, -⟩ := sound.finishes enabled
  rw [finishReq_run stored] at moved
  cases moved
  refine Kept.quiet_of_idle (r := r) ⟨rfl, rfl, rfl, rfl, rfl, rfl, rfl, rfl, rfl⟩ .done
    rfl rfl ?_ ?_ ?_ ?_
  · rcases enabled.2 with stage | ⟨stage, -⟩ <;> simp [stage]
  · simp
  · exact unlisted
  · intro x hx
    exact Function.update_of_ne hx _ _

theorem abandonReq_quiet (stage : (s.thread r).stage = .sent)
    (moved : abandonReq r s = .ok ((), t)) : Quiet s t := by
  have before : (s.thread r).stage ≠ .waiting := by simp [stage]
  cases stored : s.req r with
  | none =>
    rw [abandonReq, bind_error (e := .wild)] at moved
    · cases moved
    · simp only [reqAt, Exec.deref, stored]
  | some q =>
    cases found : (s.reqtab.lookup q.id).isSome with
    | true =>
      rw [abandonReq_pending stored found] at moved
      cases moved
      refine Kept.quiet (r := r) ⟨rfl, rfl, rfl, rfl, rfl, rfl, rfl, rfl, rfl⟩
        .rechecking rfl rfl before ?_ ?_
      · simp
      · intro x _
        by_cases hx : x = r
        · subst hx
          simp [stored]
        · simp [Function.update_of_ne hx]
    | false =>
      rw [abandonReq_answered stored found] at moved
      cases moved
      refine Kept.quiet (r := r) ⟨rfl, rfl, rfl, rfl, rfl, rfl, rfl, rfl, rfl⟩
        .rechecking rfl rfl before ?_ ?_
      · simp
      · intro x _
        rfl

theorem recheckReq_quiet (stage : (s.thread r).stage = .rechecking)
    (moved : recheckReq r s = .ok ((), t)) : Quiet s t := by
  cases stored : s.req r with
  | none =>
    rw [recheckReq_freed stored] at moved
    cases moved
  | some q =>
    rw [recheckReq_run stored] at moved
    cases moved
    refine Kept.quiet (r := r) ⟨rfl, rfl, rfl, rfl, rfl, rfl, rfl, rfl, rfl⟩
      (if q.wantReply then .sent else .left) rfl rfl ?_ ?_ ?_
    · simp [stage]
    · split <;> simp
    · intro x _
      rfl

/-- Taking an unlisted request out of the table takes nothing out. -/
theorem Sound.filter_unlisted (sound : Sound s) (use : InUse s r) (unlisted : ¬ Listed s r) :
    s.reqtab.filter (fun e => e.1 != (s.thread r).id) = s.reqtab := by
  rw [List.filter_eq_self]
  intro e he
  have entry := sound.listed_of_mem he
  have id := (sound.entries e he).2
  rw [bne_iff_ne]
  intro same
  apply unlisted
  rw [← sound.unique e.2 r (sound.inUse_of_listed entry.2) use (id.trans same)]
  exact entry.2

theorem writeFailed_effect (sound : Sound s) (bound : r < s.next)
    (stage : (s.thread r).stage = .writing) (free : s.cleaning = false) (moved : writeFailed r s = .ok ((), t)) :
    Effect max s (.writeFails r) t := by
  have use : InUse s r := ⟨bound, Or.inr (Or.inl stage)⟩
  have removed := sound.removed_iff use
  have before : (s.thread r).stage ≠ .waiting := by simp [stage]
  rcases sound.writes bound stage free with
    ⟨q, stored, aside, pending, kept⟩ | ⟨freed, unlisted, aside, want, -⟩
  · rw [writeFailed_kept stored (kept.imp_left removed.mpr)] at moved
    cases moved
    by_cases entry : Listed s r
    · exact .breaks use stage stored entry
    · apply Effect.quiet
      have leaked : (broken s r q).leaked = s.leaked := by
        simp [broken, removed.not.mpr entry]
      refine Kept.quiet_of_idle (r := r) ⟨rfl, rfl, rfl, rfl, rfl, rfl, leaked, rfl, rfl⟩
        .failed (sound.filter_unlisted use entry) rfl before ?_ ?_ ?_
      · simp
      · exact entry
      · intro x hx
        exact Function.update_of_ne hx _ _
  · have missing : (s.reqtab.lookup (s.thread r).id).isSome = false := by
      rw [← Bool.not_eq_true]
      exact removed.not.mpr unlisted
    rw [writeFailed_freed missing want] at moved
    cases moved
    apply Effect.quiet
    refine Kept.quiet_of_idle (r := r) ⟨rfl, rfl, rfl, rfl, rfl, rfl, rfl, rfl, rfl⟩ .done
      (sound.filter_unlisted use unlisted) rfl before ?_ ?_ ?_
    · simp
    · exact unlisted
    · intro x _
      rfl

theorem receiveReply_effect (sound : Sound s) (free : s.hand = none) (some_back : s.back ≠ [])
    (moved : receiveReply max s = .ok ((), t)) : Effect max s .receive t := by
  obtain ⟨⟨id, f⟩, rest, back⟩ := List.exists_cons_of_ne_nil some_back
  cases found : s.reqtab.lookup id with
  | none =>
    rw [receiveReply_unknown back found] at moved
    cases moved
    exact .quiet ⟨⟨rfl, rfl, rfl, rfl, rfl, rfl, rfl, rfl, rfl⟩, fun _ => rfl, fun _ => Iff.rfl,
      fun _ => Iff.rfl, fun h => h, fun _ _ => rfl⟩
  | some r =>
    obtain ⟨rfl, use, entry, sent, rid⟩ := sound.answered back found
    obtain ⟨q, stored, -⟩ := (sound.place r use.1).stored_of_listed entry
    rw [receiveReply_known back found stored] at moved
    cases moved
    rw [← rid] at back ⊢
    apply Effect.takes use free back stored entry
    intro stage
    simp [stage, Sent] at sent

theorem sendReq_effect (free : s.cleaning = false) (want : Bool) (len : ℕ) (up : Bool) (ids : ℕ)
    (moved : sendReq max want len up ids s = .ok ((), t)) :
    Effect max s (.send want len up ids) t := by
  have counts : (counted (connected (created s want) up ids) s.next
      ⟨want, s.idctr, 0, 0, false, none⟩ len).outstandingLen =
      (s.outstandingLen + (len + 9)) % 2 ^ 32 := by
    unfold counted connected
    split <;> rfl
  rw [sendReq_run] at moved
  dsimp only at moved
  split at moved
  · rename_i runs
    rcases when_ok.mp moved with ⟨fits, moved⟩ | ⟨high, rfl⟩
    · cases moved
      exact .enters free runs (counts ▸ fits)
    · exact .waits free runs (counts ▸ Nat.lt_of_not_le high)
  · rename_i down
    cases moved
    exact .refused free (Bool.not_eq_true _ ▸ down)

theorem markReq_effect (sound : Sound s) (closed : s.cleaning = true) (free : s.hand = none)
    (entry : Listed s r) (moved : markReq r s = .ok ((), t)) : Effect max s (.mark r) t := by
  have use := sound.inUse_of_listed entry
  obtain ⟨q, stored, -, wants, -⟩ := (sound.place r use.1).stored_of_listed entry
  rw [markReq_run sound stored] at moved
  cases moved
  exact .marks closed free use stored entry wants.goes_on

theorem dropReq_quiet (stage : (s.thread r).stage = .failed) (moved : dropReq r s = .ok ((), t)) :
    Quiet s t := by
  cases moved
  refine Kept.quiet (r := r) ⟨rfl, rfl, rfl, rfl, rfl, rfl, rfl, rfl, rfl⟩ .dropped rfl rfl ?_ ?_ ?_
  · simp [stage]
  · simp
  · intro x _
    rfl

theorem step_effect (sound : Sound s) (e : Event) (enabled : Enabled max s e)
    (moved : step max e s = .ok ((), t)) : Effect max s e t := by
  cases e with
  | send want len up ids => exact sendReq_effect enabled want len up ids moved
  | wake r =>
    cases moved
    exact .wakes enabled.1 enabled.2.1 enabled.2.2.1
  | rewait r =>
    cases moved
    exact .rewaits enabled.2.2.1
  | written r whole => exact .quiet (writtenReq_quiet enabled.2.1 moved)
  | writeFails r => exact writeFailed_effect sound enabled.1 enabled.2.1 enabled.2.2 moved
  | serve m =>
    cases moved
    exact .quiet serve_quiet
  | receive => exact receiveReply_effect sound enabled.2.1 enabled.2.2 moved
  | settle => exact .quiet (settleReq_quiet sound enabled moved)
  | lose =>
    cases moved
    exact .stops
  | mark r => exact markReq_effect sound enabled.1 enabled.2.1 enabled.2.2 moved
  | lost =>
    cases moved
    exact .loses enabled.1 rfl rfl rfl rfl rfl rfl (fun _ => rfl) enabled.2.2 rfl rfl
  | finish r => exact .quiet (finishReq_quiet sound enabled moved)
  | abandon r => exact .quiet (abandonReq_quiet enabled.2.1 moved)
  | recheck r => exact .quiet (recheckReq_quiet enabled.2 moved)
  | drop r => exact .quiet (dropReq_quiet enabled.2.1 moved)

theorem Quiet.load (quiet : Quiet s t) : load t = load s := by
  unfold SftpRequests.load
  rw [quiet.next]
  exact Finset.sum_congr rfl fun x _ => quiet.weight x

theorem load_change (next : t.next = s.next) (bound : r < s.next)
    (others : ∀ x, x ≠ r → weight t x = weight s x) :
    load t + weight s r = load s + weight t r := by
  unfold load
  rw [next]
  exact sum_change bound others

theorem Concerns.weight (concerns : Concerns s t r) (epoch : t.epoch = s.epoch)
    (connver : t.connver = s.connver) (hx : x ≠ r) : weight t x = weight s x := by
  apply weight_congr (by rw [epoch]) connver
  · rw [concerns.thread x hx]
  · exact concerns.tab x hx
  · intro _
    rw [concerns.req x hx]

theorem load_created (want : Bool) : load (created s want) = load s := by
  have newest : weight (created s want) s.next = 0 := by
    simp [weight, created]
  unfold load
  have next : (created s want).next = s.next + 1 := rfl
  rw [next, Finset.sum_range_succ, newest, Nat.add_zero]
  apply Finset.sum_congr rfl
  intro x hx
  have apart : x ≠ s.next := Nat.ne_of_lt (Finset.mem_range.mp hx)
  apply weight_congr
  · exact Function.update_of_ne apart _ _
  · rfl
  · simp only [created, Function.update_of_ne apart]
  · simp only [Listed, created, Function.update_of_ne apart]
  · intro _
    simp only [created, Function.update_of_ne apart]

theorem weight_connected (up : Bool) (ids : ℕ) : weight (connected s up ids) x = weight s x := by
  unfold connected
  split <;> rfl

theorem load_connected (up : Bool) (ids : ℕ) : load (connected s up ids) = load s := by
  unfold load
  rw [connected_next]
  exact Finset.sum_congr rfl fun x _ => weight_connected up ids

theorem load_counted (bound : r < s.next) (waits : (s.thread r).stage = .waiting)
    (epoch : s.epoch r = s.connver) (zero : weight s r = 0) (len : ℕ) :
    load (counted s r q len) = load s + (len + 9) := by
  have change : load (counted s r q len) + weight s r =
      load s + weight (counted s r q len) r := by
    refine load_change rfl bound ?_
    intro x hx
    refine weight_congr rfl rfl Iff.rfl Iff.rfl ?_
    intro _
    simp only [counted, Function.update_of_ne hx]
  have newest : weight (counted s r q len) r = len + 9 := by
    simp [weight, counted, epoch, waits]
  rw [zero, newest] at change
  exact change

theorem load_refused (bound : r < s.next) (zero : weight s r = 0) (unlisted : ¬ Listed s r) :
    load (refused s r q) = load s := by
  have change : load (refused s r q) + weight s r = load s + weight (refused s r q) r := by
    refine load_change rfl bound ?_
    intro x hx
    refine weight_congr rfl rfl ?_ ?_ ?_
    · simp only [refused, Function.update_of_ne hx]
    · simp only [Listed, refused, Function.update_of_ne hx]
    · intro _
      simp only [refused, Function.update_of_ne hx]
  have idle : weight (refused s r q) r = 0 := by
    apply weight_idle
    · simp [refused]
    · simpa [Listed, refused] using unlisted
  rw [zero, idle] at change
  exact change

theorem weight_entered (waits : (s.thread r).stage = .waiting) :
    weight (entered s r) r = weight s r := by
  simp [weight, entered, Listed, waits]

theorem load_entered (sound : Sound s) (bound : r < s.next)
    (waits : (s.thread r).stage = .waiting) : load (entered s r) = load s := by
  obtain ⟨q, stored, -⟩ := sound.waits bound waits
  have use : InUse s r := ⟨bound, Or.inl (by simp [stored])⟩
  have concerns := sound.entered_concerns use waits
  have change := load_change (s := s) (t := entered s r) rfl bound
    fun x hx => concerns.weight rfl rfl hx
  rw [weight_entered waits] at change
  exact Nat.add_right_cancel change

theorem load_broken (sound : Sound s) (use : InUse s r) (stage : (s.thread r).stage = .writing)
    (stored : s.req r = some q) : load (broken s r q) + weight s r = load s := by
  have concerns := sound.broken_concerns use stage stored
  have change := load_change (s := s) (t := broken s r q) rfl use.1
    fun x hx => concerns.weight rfl rfl hx
  have idle : weight (broken s r q) r = 0 := by
    apply weight_idle
    · simp [broken]
    · simp [Listed, broken]
  rw [idle] at change
  exact change

theorem load_taken (max : ℕ) (q : Request) (sound : Sound s) (use : InUse s r) (free : s.hand = none)
    {rest : List (ℕ × Rid)} (back : s.back = ((s.thread r).id, r) :: rest)
    (stage : (s.thread r).stage ≠ .waiting) :
    load (taken max s (s.thread r).id r r rest q) + weight s r = load s := by
  have concerns := sound.taken_concerns max q free back use rfl
  have change := load_change (s := s) (t := taken max s (s.thread r).id r r rest q) rfl
    use.1 fun x hx => concerns.weight rfl rfl hx
  have idle : weight (taken max s (s.thread r).id r r rest q) r = 0 := by
    apply weight_idle
    · exact stage
    · simp [Listed, taken]
  rw [idle] at change
  exact change

theorem load_marked (sound : Sound s) (use : InUse s r) (free : s.hand = none)
    (stored : s.req r = some q) (stage : (s.thread r).stage ≠ .waiting) :
    load (marked s r q) + weight s r = load s := by
  have concerns := sound.marked_concerns use free stored
  have change := load_change (s := s) (t := marked s r q) rfl use.1
    fun x hx => concerns.weight rfl rfl hx
  have idle : weight (marked s r q) r = 0 := by
    apply weight_idle
    · exact stage
    · simp [Listed, marked]
  rw [idle] at change
  exact change

theorem weight_listed (entry : Listed s r) (stored : s.req r = some q) :
    weight s r = if s.epoch r = s.connver then q.len else 0 := by
  simp [weight, entry, stored]

theorem connected_kept (up : Bool) (ids : ℕ) :
    (connected s up ids).outstandingLen = s.outstandingLen ∧
    (connected s up ids).credited = s.credited ∧ (connected s up ids).leaked = s.leaked ∧
    (connected s up ids).connver = s.connver ∧ (connected s up ids).epoch = s.epoch ∧
    (connected s up ids).signalled = s.signalled ∧ (connected s up ids).reqtab = s.reqtab := by
  unfold connected
  split <;> simp

/-- The state `b` in which `sftp_request_send` has made its request and is connected. -/
structure Prepared (s b : Client) (want : Bool) : Prop where
  sound : Sound b
  next : b.next = s.next + 1
  stored : b.req s.next = some ⟨want, s.idctr, 0, 0, false, none⟩
  waits : (b.thread s.next).stage = .waiting
  unlisted : ¬ Listed b s.next
  epoch : b.epoch s.next = b.connver
  weightless : weight b s.next = 0
  load : load b = load s
  outstanding : b.outstandingLen = s.outstandingLen
  credited : b.credited = s.credited
  leaked : b.leaked = s.leaked
  connver : b.connver = s.connver
  tab : b.reqtab = s.reqtab
  others : ∀ x, x < s.next → b.epoch x = s.epoch x ∧ b.signalled x = s.signalled x ∧
    b.thread x = s.thread x ∧ b.req x = s.req x

theorem prepared (sound : Sound s) (free : s.cleaning = false) (want : Bool) (up : Bool) (ids : ℕ)
    (fresh : ∀ r, InUse s r → (s.thread r).id ≠ s.idctr) :
    Prepared s (connected (created s want) up ids) want := by
  have made := created_sound sound fresh want
  obtain ⟨outstanding, credited, leaked, connver, epoch, signalled, tab⟩ :=
    connected_kept (s := created s want) up ids
  have unlisted : ¬ Listed (connected (created s want) up ids) s.next := by
    unfold Listed
    rw [tab]
    intro entry
    exact Nat.lt_irrefl _ (sound.entries _ entry).1
  constructor
  · exact connected_sound made free up ids
  · rw [connected_next]
    rfl
  · rw [connected_req]
    simp [created]
  · rw [connected_thread]
    simp [created]
  · exact unlisted
  · rw [epoch, connver]
    simp [created]
  · rw [weight_connected]
    simp [weight, created]
  · rw [load_connected, load_created]
  · exact outstanding
  · exact credited
  · exact leaked
  · exact connver
  · exact tab
  · intro x hx
    have apart := Nat.ne_of_lt hx
    rw [epoch, signalled, connected_thread, connected_req]
    refine ⟨?_, ?_, ?_, ?_⟩ <;> exact Function.update_of_ne apart _ _

/-- What `outstanding_len` counts. -/
structure Accounts (s : Client) : Prop where
  counted : (s.outstandingLen + s.credited) % 2 ^ 32 = (load s + s.leaked) % 2 ^ 32
  bounded : s.outstandingLen < 2 ^ 32
  epochs : ∀ r < s.next, s.epoch r ≤ s.connver

theorem initial_accounts : Accounts initial := by
  constructor
  · rfl
  · simp [initial]
  · intro r hr
    exact absurd hr (Nat.not_lt_zero r)

theorem Prepared.epochs {b : Client} {want : Bool} (prep : Prepared s b want)
    (accounts : Accounts s) (bound : x < b.next) : b.epoch x ≤ b.connver := by
  rw [prep.next] at bound
  rcases Nat.lt_succ_iff_lt_or_eq.mp bound with hx | rfl
  · rw [(prep.others x hx).1, prep.connver]
    exact accounts.epochs x hx
  · exact Nat.le_of_eq prep.epoch

theorem Prepared.load_counted {b : Client} {want : Bool} (prep : Prepared s b want) (len : ℕ) :
    SftpRequests.load (counted b s.next ⟨want, s.idctr, 0, 0, false, none⟩ len) =
      SftpRequests.load s + (len + 9) := by
  have bound : s.next < b.next := prep.next ▸ Nat.lt_succ_self _
  rw [SftpRequests.load_counted bound prep.waits prep.epoch prep.weightless, prep.load]

theorem Prepared.counted_accounts {b : Client} {want : Bool} (prep : Prepared s b want)
    (accounts : Accounts s) (len : ℕ) :
    Accounts (counted b s.next ⟨want, s.idctr, 0, 0, false, none⟩ len) := by
  constructor
  · rw [prep.load_counted]
    have old := accounts.counted
    have sum : (counted b s.next ⟨want, s.idctr, 0, 0, false, none⟩ len).outstandingLen =
        (s.outstandingLen + (len + 9)) % 2 ^ 32 := by
      rw [← prep.outstanding]
      rfl
    have credited : (counted b s.next ⟨want, s.idctr, 0, 0, false, none⟩ len).credited =
        s.credited := prep.credited
    have leaked : (counted b s.next ⟨want, s.idctr, 0, 0, false, none⟩ len).leaked = s.leaked :=
      prep.leaked
    rw [sum, credited, leaked]
    omega
  · exact Nat.mod_lt _ (by decide)
  · intro x hx
    exact prep.epochs accounts hx

theorem Accounts.entered (accounts : Accounts s) (sound : Sound s) (bound : r < s.next)
    (waits : (s.thread r).stage = .waiting) : Accounts (entered s r) := by
  constructor
  · rw [load_entered sound bound waits]
    exact accounts.counted
  · exact accounts.bounded
  · exact accounts.epochs

theorem sub32_add (a b : ℕ) : (sub32 a b + b) % 2 ^ 32 = a % 2 ^ 32 := by
  unfold sub32
  omega

theorem sub32_of_le {a b : ℕ} (h : b ≤ a) (bounded : a < 2 ^ 32) : sub32 a b = a - b := by
  unfold sub32
  omega

/-- Nothing is counted on a new connection. -/
theorem load_lost (next : t.next = s.next) (connver : t.connver = s.connver + 1)
    (epoch : t.epoch = s.epoch) (older : ∀ r < s.next, s.epoch r ≤ s.connver) : load t = 0 := by
  apply Finset.sum_eq_zero
  intro x hx
  have bound : x < s.next := next ▸ Finset.mem_range.mp hx
  have past : t.epoch x ≠ t.connver := by
    rw [epoch, connver]
    exact Nat.ne_of_lt (Nat.lt_succ_of_le (older x bound))
  simp [weight, past]

/-- A listed request leaves the table and its length stays in the count. -/
theorem Accounts.leaks (accounts : Accounts s) (entry : Listed s r) (stored : s.req r = some q)
    (less : load t + weight s r = load s) (outstanding : t.outstandingLen = s.outstandingLen)
    (credited : t.credited = s.credited)
    (leaked : t.leaked = if s.epoch r = s.connver then s.leaked + q.len else s.leaked)
    (next : t.next = s.next) (epoch : t.epoch = s.epoch) (connver : t.connver = s.connver) :
    Accounts t := by
  constructor
  · have old := accounts.counted
    rw [weight_listed entry stored] at less
    rw [outstanding, credited, old, leaked, ← less]
    by_cases here : s.epoch r = s.connver
    · rw [if_pos here, if_pos here]
      congr 1
      omega
    · rw [if_neg here, if_neg here, Nat.add_zero]
  · exact outstanding ▸ accounts.bounded
  · intro x hx
    rw [epoch, connver]
    exact accounts.epochs x (next ▸ hx)

/-- Every step keeps the accounts. -/
theorem effect_accounts {e : Event} (effect : Effect max s e t) (sound : Sound s)
    (fresh : Fresh s e) (accounts : Accounts s) : Accounts t := by
  cases effect with
  | quiet h =>
    constructor
    · rw [h.load, h.outstanding, h.credited, h.leaked]
      exact accounts.counted
    · rw [h.outstanding]
      exact accounts.bounded
    · intro x hx
      rw [h.epoch, h.connver]
      exact accounts.epochs x (h.next ▸ hx)
  | @refused want len up ids free down =>
    have prep := prepared sound free want up ids fresh
    have bound : s.next < (connected (created s want) up ids).next := prep.next ▸ Nat.lt_succ_self _
    have same := load_refused (q := ⟨want, s.idctr, 0, 0, false, none⟩) bound prep.weightless
      prep.unlisted
    constructor
    · have outstanding : (refused (connected (created s want) up ids) s.next
          ⟨want, s.idctr, 0, 0, false, none⟩).outstandingLen = s.outstandingLen := prep.outstanding
      have credited : (refused (connected (created s want) up ids) s.next
          ⟨want, s.idctr, 0, 0, false, none⟩).credited = s.credited := prep.credited
      have leaked : (refused (connected (created s want) up ids) s.next
          ⟨want, s.idctr, 0, 0, false, none⟩).leaked = s.leaked := prep.leaked
      rw [same, prep.load, outstanding, credited, leaked]
      exact accounts.counted
    · exact prep.outstanding ▸ accounts.bounded
    · intro x hx
      exact prep.epochs accounts hx
  | @waits want len up ids free runs high =>
    exact (prepared sound free want up ids fresh).counted_accounts accounts len
  | @enters want len up ids free runs fits =>
    have prep := prepared sound free want up ids fresh
    have bound : s.next < (connected (created s want) up ids).next := prep.next ▸ Nat.lt_succ_self _
    exact (prep.counted_accounts accounts len).entered
      (counted_sound prep.sound bound prep.waits prep.stored len) bound prep.waits
  | wakes bound stage fits => exact accounts.entered sound bound stage
  | rewaits high => exact ⟨accounts.counted, accounts.bounded, accounts.epochs⟩
  | @breaks r q use stage stored entry =>
    have found : (s.reqtab.lookup (s.thread r).id).isSome = true := (sound.removed_iff use).mpr entry
    apply accounts.leaks entry stored (load_broken sound use stage stored) rfl rfl ?_ rfl rfl rfl
    simp [broken, found]
  | @takes r rest q use free back stored entry stage =>
    have less := load_taken max q sound use free back stage
    have old := accounts.counted
    rw [← less, weight_listed entry stored] at old
    constructor
    · generalize load (taken max s (s.thread r).id r r rest q) = rest_load at old
      simp only [taken]
      split
      · rename_i here
        rw [if_pos here] at old
        have undone := sub32_add s.outstandingLen q.len
        omega
      · rename_i earlier
        rw [if_neg earlier] at old
        have undone := sub32_add s.outstandingLen q.len
        omega
    · exact Nat.mod_lt _ (by decide)
    · exact accounts.epochs
  | stops => exact ⟨accounts.counted, accounts.bounded, accounts.epochs⟩
  | @marks r q closed free use stored entry stage =>
    exact accounts.leaks entry stored (load_marked sound use free stored stage) rfl rfl rfl rfl rfl rfl
  | loses closed next connver epoch outstanding credited leaked signalled tab =>
    have none := load_lost next connver epoch accounts.epochs
    constructor
    · rw [none, outstanding, credited, leaked]
    · rw [outstanding]
      decide
    · intro x hx
      rw [epoch, connver]
      exact Nat.le_succ_of_le (accounts.epochs x (next ▸ hx))

theorem step_keeps (sound : Sound s) {e : Event} (enabled : Enabled max s e) (fresh : Fresh s e)
    (moved : step max e s = .ok ((), t)) : Sound t ∧ Effect max s e t := by
  rcases step_sound sound e enabled fresh with ⟨u, returned, sound'⟩ | ⟨⟨_, faulted⟩, -⟩
  · rw [returned] at moved
    cases moved
    exact ⟨sound', step_effect sound e enabled returned⟩
  · rw [faulted] at moved
    cases moved

/-- The identifiers that a step takes are not beyond the last of 32 bits. -/
def Few (s : Client) : Event → Prop
  | .send _ _ _ ids => s.idctr + 1 + ids < 2 ^ 32
  | _ => True

theorem connected_idctr (want up : Bool) {ids : ℕ} (few : s.idctr + 1 + ids < 2 ^ 32) :
    s.idctr < (connected (created s want) up ids).idctr := by
  unfold connected created
  dsimp only
  split
  · rw [Nat.mod_eq_of_lt (by omega)]
    exact Nat.lt_succ_self _
  · dsimp only
    rw [Nat.mod_eq_of_lt (by omega : s.idctr + 1 < 2 ^ 32), Nat.mod_eq_of_lt few]
    omega

theorem created_id (want up : Bool) {ids : ℕ} (few : s.idctr + 1 + ids < 2 ^ 32)
    (old : ∀ x < s.next, (s.thread x).id < s.idctr) (bound : x < s.next + 1) :
    ((connected (created s want) up ids).thread x).id < (connected (created s want) up ids).idctr := by
  have more := connected_idctr want up few
  rw [connected_thread]
  rcases Nat.lt_succ_iff_lt_or_eq.mp bound with older | rfl
  · have kept : (created s want).thread x = s.thread x :=
      Function.update_of_ne (Nat.ne_of_lt older) _ _
    rw [kept]
    exact (old x older).trans more
  · have newest : ((created s want).thread s.next).id = s.idctr := by simp [created]
    rw [newest]
    exact more

theorem effect_ids {e : Event} (effect : Effect max s e t) (few : Few s e)
    (old : ∀ x < s.next, (s.thread x).id < s.idctr) : ∀ x < t.next, (t.thread x).id < t.idctr := by
  have staged : ∀ (c : Client) (y : Rid) (stage : Stage) (x : Rid),
      (Function.update c.thread y { c.thread y with stage := stage } x).id = (c.thread x).id := by
    intro c y stage x
    by_cases here : x = y
    · rw [here, Function.update_self]
    · rw [Function.update_of_ne here]
  cases effect with
  | quiet h =>
    intro x hx
    rw [h.ids, h.idctr]
    exact old x (h.next ▸ hx)
  | @refused want len up ids free down =>
    intro x hx
    have hx : x < (connected (created s want) up ids).next := hx
    rw [connected_next] at hx
    exact (staged _ _ _ _).trans_lt (created_id want up few old hx)
  | @waits want len up ids free runs high =>
    intro x hx
    have hx : x < (connected (created s want) up ids).next := hx
    rw [connected_next] at hx
    exact created_id want up few old hx
  | @enters want len up ids free runs fits =>
    intro x hx
    have hx : x < (connected (created s want) up ids).next := hx
    rw [connected_next] at hx
    exact (staged _ _ _ _).trans_lt (created_id want up few old hx)
  | wakes bound stage fits => exact fun x hx => (staged _ _ _ _).trans_lt (old x hx)
  | breaks use stage stored entry => exact fun x hx => (staged _ _ _ _).trans_lt (old x hx)
  | rewaits | stops | marks | takes => exact old
  | loses closed next connver epoch outstanding credited leaked signalled tab idctr thread =>
    intro x hx
    rw [thread, idctr]
    exact old x (next ▸ hx)

/-- No identifier comes round to a request that still lasts while fewer than 2^32 of them are taken. -/
theorem Reached.of_few (run : Steps (step max) (fun s e => Enabled max s e ∧ Few s e) initial s) :
    Reached max s := by
  have all : Reached max s ∧ ∀ x < s.next, (s.thread x).id < s.idctr := by
    refine Steps.invariant
      (I := fun s => Reached max s ∧ ∀ x < s.next, (s.thread x).id < s.idctr) ?_ run
      ⟨Steps.refl initial, fun x hx => absurd hx (Nat.not_lt_zero x)⟩
    rintro s e a t ⟨reached, old⟩ ⟨enabled, few⟩ moved
    have fresh : Fresh s e := fresh_of_ids (fun x hx => Nat.ne_of_lt (old x hx)) e
    refine ⟨Steps.snoc reached ⟨enabled, fresh⟩ moved, ?_⟩
    exact effect_ids (step_keeps reached.sound enabled fresh moved).2 few old
  exact all.1

theorem Reached.accounts (run : Reached max s) : Sound s ∧ Accounts s := by
  refine Steps.invariant (I := fun s => Sound s ∧ Accounts s) ?_ run
    ⟨initial_sound, initial_accounts⟩
  rintro s e a t ⟨sound, accounts⟩ ⟨enabled, fresh⟩ moved
  obtain ⟨sound', effect⟩ := step_keeps sound enabled fresh moved
  exact ⟨sound', effect_accounts effect sound fresh accounts⟩

/-- The count does not run over, and no thread goes on that has waited since an earlier connection. -/
def Roomy (s : Client) : Event → Prop
  | .send _ len _ _ => s.outstandingLen + (len + 9) < 2 ^ 32
  | .wake r => s.epoch r = s.connver
  | _ => True

/-- What holds between the steps of such runs. -/
structure Ledger (max : ℕ) (s : Client) : Prop where
  counted : s.outstandingLen = load s + s.leaked
  epochs : ∀ r < s.next, s.epoch r ≤ s.connver
  present : ∀ r, Listed s r → s.epoch r = s.connver
  window : flight s ≤ max
  signalled : s.outstandingLen ≤ max → ∀ r < s.next, (s.thread r).stage = .waiting →
    s.signalled r = true

theorem flight_mono (h : ∀ x < t.next, Listed t x →
    x < s.next ∧ Listed s x ∧ weight t x = weight s x) : flight t ≤ flight s := by
  have below : flight t ≤
      ∑ x ∈ Finset.range t.next, if x < s.next ∧ Listed s x then weight s x else 0 := by
    apply Finset.sum_le_sum
    intro x hx
    split
    · rename_i entry
      obtain ⟨bound, entry', same⟩ := h x (Finset.mem_range.mp hx) entry
      rw [if_pos ⟨bound, entry'⟩, same]
    · exact Nat.zero_le _
  refine below.trans ?_
  refine (Finset.sum_le_sum_of_ne_zero (t := Finset.range s.next) ?_).trans ?_
  · intro x _ nonzero
    have both := (ite_ne_right_iff.mp nonzero).1
    exact Finset.mem_range.mpr both.1
  · apply Finset.sum_le_sum
    intro x hx
    simp only [Finset.mem_range.mp hx, true_and]
    exact Nat.le_refl _

theorem Prepared.listed {b : Client} {want : Bool} (prep : Prepared s b want) (entry : Listed b x) :
    x < s.next ∧ Listed s x := by
  have bound : x < b.next := (prep.sound.entries _ entry).1
  rw [prep.next] at bound
  rcases Nat.lt_succ_iff_lt_or_eq.mp bound with hx | rfl
  · refine ⟨hx, ?_⟩
    unfold Listed at entry
    rw [prep.tab, (prep.others x hx).2.2.1] at entry
    exact entry
  · exact absurd entry prep.unlisted

theorem Prepared.weight_old {b : Client} {want : Bool} (prep : Prepared s b want)
    (bound : x < s.next) : SftpRequests.weight b x = SftpRequests.weight s x := by
  obtain ⟨epoch, -, thread, req⟩ := prep.others x bound
  apply weight_congr epoch prep.connver
  · rw [thread]
  · unfold Listed
    rw [prep.tab, thread]
  · intro _
    rw [req]

theorem Prepared.weight_counted {b : Client} {want : Bool} (prep : Prepared s b want) (len : ℕ)
    (bound : x < s.next) :
    SftpRequests.weight (counted b s.next ⟨want, s.idctr, 0, 0, false, none⟩ len) x =
      SftpRequests.weight s x := by
  rw [← prep.weight_old bound]
  refine weight_congr rfl rfl Iff.rfl Iff.rfl ?_
  intro _
  simp only [counted, Function.update_of_ne (Nat.ne_of_lt bound)]

theorem initial_ledger (max : ℕ) : Ledger max initial := by
  constructor
  · rfl
  · intro r hr
    exact absurd hr (Nat.not_lt_zero r)
  · intro r entry
    simp [Listed, initial] at entry
  · exact Nat.zero_le max
  · intro _ r hr
    exact absurd hr (Nat.not_lt_zero r)

theorem Ledger.quiet (ledger : Ledger max s) (quiet : Quiet s t) : Ledger max t := by
  constructor
  · rw [quiet.load, quiet.outstanding, quiet.leaked]
    exact ledger.counted
  · intro x hx
    rw [quiet.epoch, quiet.connver]
    exact ledger.epochs x (quiet.next ▸ hx)
  · intro x entry
    rw [quiet.epoch, quiet.connver]
    exact ledger.present x ((quiet.tab x).mp entry)
  · refine (flight_mono ?_).trans ledger.window
    intro x hx entry
    exact ⟨quiet.next ▸ hx, (quiet.tab x).mp entry, quiet.weight x⟩
  · intro fits x hx waits
    rw [quiet.signalled]
    exact ledger.signalled (quiet.outstanding ▸ fits) x (quiet.next ▸ hx) ((quiet.waiting x).mp waits)

theorem Ledger.refused {b : Client} {want : Bool} (ledger : Ledger max s)
    (prep : Prepared s b want) :
    Ledger max (refused b s.next ⟨want, s.idctr, 0, 0, false, none⟩) := by
  have bound : s.next < b.next := prep.next ▸ Nat.lt_succ_self _
  have listed : ∀ x, Listed (SftpRequests.refused b s.next ⟨want, s.idctr, 0, 0, false, none⟩) x →
      Listed b x := by
    intro x entry
    by_cases hx : x = s.next
    · subst hx
      simpa [Listed, SftpRequests.refused] using entry
    · simpa only [Listed, SftpRequests.refused, Function.update_of_ne hx] using entry
  constructor
  · rw [load_refused bound prep.weightless prep.unlisted, prep.load]
    exact prep.outstanding.trans (ledger.counted.trans (congrArg (load s + ·) prep.leaked.symm))
  · intro x hx
    have hx : x < b.next := hx
    rw [prep.next] at hx
    rcases Nat.lt_succ_iff_lt_or_eq.mp hx with hx | rfl
    · have older := ledger.epochs x hx
      rw [← (prep.others x hx).1, ← prep.connver] at older
      exact older
    · exact Nat.le_of_eq prep.epoch
  · intro x entry
    obtain ⟨hx, entry⟩ := prep.listed (listed x entry)
    have present := ledger.present x entry
    rw [← (prep.others x hx).1, ← prep.connver] at present
    exact present
  · refine (flight_mono ?_).trans ledger.window
    intro x _ entry
    obtain ⟨hx, entry'⟩ := prep.listed (listed x entry)
    refine ⟨hx, entry', ?_⟩
    rw [← prep.weight_old hx]
    have apart := Nat.ne_of_lt hx
    refine weight_congr rfl rfl ?_ ?_ ?_
    · simp only [SftpRequests.refused, Function.update_of_ne apart]
    · simp only [Listed, SftpRequests.refused, Function.update_of_ne apart]
    · intro _
      simp only [SftpRequests.refused, Function.update_of_ne apart]
  · intro fits x hx waits
    have hx : x < b.next := hx
    rw [prep.next] at hx
    rcases Nat.lt_succ_iff_lt_or_eq.mp hx with hx | rfl
    · have apart := Nat.ne_of_lt hx
      simp only [SftpRequests.refused, Function.update_of_ne apart, (prep.others x hx).2.2.1] at waits
      have fits : b.outstandingLen ≤ max := fits
      rw [prep.outstanding] at fits
      exact (prep.others x hx).2.1.trans (ledger.signalled fits x hx waits)
    · simp [SftpRequests.refused] at waits

/-- What adding the length of a new request keeps, whether it enters or waits. -/
theorem Ledger.counted_parts {b : Client} {want : Bool} {len : ℕ} (ledger : Ledger max s)
    (prep : Prepared s b want) (room : s.outstandingLen + (len + 9) < 2 ^ 32) :
    let c := SftpRequests.counted b s.next ⟨want, s.idctr, 0, 0, false, none⟩ len
    c.outstandingLen = s.outstandingLen + (len + 9) ∧ c.outstandingLen = load c + c.leaked ∧
      (∀ r < c.next, c.epoch r ≤ c.connver) ∧ (∀ r, Listed c r → c.epoch r = c.connver) ∧
      flight c ≤ max := by
  dsimp only
  have bound : s.next < b.next := prep.next ▸ Nat.lt_succ_self _
  have sum : (SftpRequests.counted b s.next ⟨want, s.idctr, 0, 0, false, none⟩ len).outstandingLen =
      s.outstandingLen + (len + 9) := by
    have plain : (SftpRequests.counted b s.next ⟨want, s.idctr, 0, 0, false, none⟩
        len).outstandingLen = (b.outstandingLen + (len + 9)) % 2 ^ 32 := rfl
    rw [plain, prep.outstanding, Nat.mod_eq_of_lt room]
  refine ⟨sum, ?_, ?_, ?_, ?_⟩
  · have leaked : (SftpRequests.counted b s.next ⟨want, s.idctr, 0, 0, false, none⟩ len).leaked =
        s.leaked := prep.leaked
    rw [sum, prep.load_counted, leaked, ledger.counted]
    omega
  · intro x hx
    have hx : x < b.next := hx
    rw [prep.next] at hx
    rcases Nat.lt_succ_iff_lt_or_eq.mp hx with hx | rfl
    · have older := ledger.epochs x hx
      rw [← (prep.others x hx).1, ← prep.connver] at older
      exact older
    · exact Nat.le_of_eq prep.epoch
  · intro x entry
    obtain ⟨hx, entry⟩ := prep.listed entry
    have present := ledger.present x entry
    rw [← (prep.others x hx).1, ← prep.connver] at present
    exact present
  · refine (flight_mono ?_).trans ledger.window
    intro x _ entry
    obtain ⟨hx, entry'⟩ := prep.listed entry
    exact ⟨hx, entry', prep.weight_counted len hx⟩

/-- A thread that goes on was counted and fits. -/
theorem Ledger.enters (sound : Sound s) (bound : r < s.next) (waits : (s.thread r).stage = .waiting)
    (counted : s.outstandingLen = load s + s.leaked) (epochs : ∀ r < s.next, s.epoch r ≤ s.connver)
    (present : ∀ r, Listed s r → s.epoch r = s.connver) (here : s.epoch r = s.connver)
    (fits : s.outstandingLen ≤ max)
    (signalled : ∀ x < s.next, x ≠ r → (s.thread x).stage = .waiting → s.signalled x = true) :
    Ledger max (entered s r) := by
  obtain ⟨q, stored, -⟩ := sound.waits bound waits
  have use : InUse s r := ⟨bound, Or.inl (by simp [stored])⟩
  have concerns := sound.entered_concerns use waits
  have same := load_entered sound bound waits
  constructor
  · rw [same]
    exact counted
  · exact epochs
  · intro x entry
    by_cases hx : x = r
    · rw [hx]
      exact here
    · exact present x ((concerns.tab x hx).mp entry)
  · have all : load (entered s r) ≤ s.outstandingLen := by
      rw [same, counted]
      exact Nat.le_add_right _ _
    exact (flight_le_load _).trans (all.trans fits)
  · intro _ x hx waits'
    by_cases same : x = r
    · subst same
      simp [entered] at waits'
    · rw [concerns.thread x same] at waits'
      exact signalled x hx same waits'

/-- What leaving the table keeps, where the length stays in the count. -/
theorem Ledger.leaks (ledger : Ledger max s) (concerns : Concerns s t r) (entry : Listed s r)
    (stored : s.req r = some q) (unlisted : ¬ Listed t r) (less : load t + weight s r = load s)
    (outstanding : t.outstandingLen = s.outstandingLen) (leaked : t.leaked = s.leaked + q.len)
    (epoch : t.epoch = s.epoch) (connver : t.connver = s.connver) (signalled : t.signalled = s.signalled)
    (goes : (t.thread r).stage ≠ .waiting) : Ledger max t := by
  have here := ledger.present r entry
  rw [weight_listed entry stored, if_pos here] at less
  have listed : ∀ x, Listed t x → x ≠ r ∧ Listed s x := by
    intro x entry'
    have apart : x ≠ r := by
      rintro rfl
      exact unlisted entry'
    exact ⟨apart, (concerns.tab x apart).mp entry'⟩
  constructor
  · rw [outstanding, leaked, ledger.counted, ← less]
    omega
  · intro x hx
    rw [epoch, connver]
    exact ledger.epochs x (concerns.next ▸ hx)
  · intro x entry'
    rw [epoch, connver]
    exact ledger.present x (listed x entry').2
  · refine (flight_mono ?_).trans ledger.window
    intro x hx entry'
    exact ⟨concerns.next ▸ hx, (listed x entry').2, concerns.weight epoch connver (listed x entry').1⟩
  · intro fits x hx waits
    have apart : x ≠ r := by
      rintro rfl
      exact goes waits
    rw [concerns.thread x apart] at waits
    rw [signalled]
    exact ledger.signalled (outstanding ▸ fits) x (concerns.next ▸ hx) waits

/-- An answer to a listed request takes its length off the count. -/
theorem Ledger.takes {rest : List (ℕ × Rid)} {q : Request} (ledger : Ledger max s) (sound : Sound s)
    (bounded : s.outstandingLen < 2 ^ 32) (use : InUse s r) (free : s.hand = none)
    (back : s.back = ((s.thread r).id, r) :: rest) (stored : s.req r = some q) (entry : Listed s r)
    (stage : (s.thread r).stage ≠ .waiting) :
    Ledger max (taken max s (s.thread r).id r r rest q) := by
  have concerns := sound.taken_concerns max q free back use rfl
  have less := load_taken max q sound use free back stage
  have here := ledger.present r entry
  rw [weight_listed entry stored, if_pos here] at less
  have rest_sum : sub32 s.outstandingLen q.len = s.outstandingLen - q.len :=
    sub32_of_le (by rw [ledger.counted]; omega) bounded
  have outstanding : (taken max s (s.thread r).id r r rest q).outstandingLen =
      s.outstandingLen - q.len := rest_sum
  have unlisted : ¬ Listed (taken max s (s.thread r).id r r rest q) r := by simp [Listed, taken]
  have listed : ∀ x, Listed (taken max s (s.thread r).id r r rest q) x → x ≠ r ∧ Listed s x := by
    intro x entry'
    have apart : x ≠ r := by
      rintro rfl
      exact unlisted entry'
    exact ⟨apart, (concerns.tab x apart).mp entry'⟩
  constructor
  · have leaked : (taken max s (s.thread r).id r r rest q).leaked = s.leaked := rfl
    rw [outstanding, leaked, ledger.counted, ← less]
    omega
  · exact ledger.epochs
  · intro x entry'
    exact ledger.present x (listed x entry').2
  · refine (flight_mono ?_).trans ledger.window
    intro x hx entry'
    exact ⟨hx, (listed x entry').2, concerns.weight rfl rfl (listed x entry').1⟩
  · intro fits x hx waits
    by_cases high : max < s.outstandingLen
    · -- the count went below the limit with this answer, which signalled all
      rw [outstanding] at fits
      simp [taken, high, rest_sum, fits]
    · have before := ledger.signalled (Nat.le_of_not_lt high) x hx waits
      simp [taken, high, before]

theorem effect_ledger {e : Event} (effect : Effect max s e t) (sound : Sound s)
    (bounded : s.outstandingLen < 2 ^ 32) (fresh : Fresh s e) (roomy : Roomy s e)
    (ledger : Ledger max s) : Ledger max t := by
  cases effect with
  | quiet h => exact ledger.quiet h
  | @refused want len up ids free down => exact ledger.refused (prepared sound free want up ids fresh)
  | @waits want len up ids free runs high =>
    obtain ⟨sum, counted, epochs, present, window⟩ :=
      ledger.counted_parts (prepared sound free want up ids fresh) roomy
    refine ⟨counted, epochs, present, window, ?_⟩
    rw [Nat.mod_eq_of_lt roomy, ← sum] at high
    intro fits
    exact absurd fits (Nat.not_le_of_lt high)
  | @enters want len up ids free runs fits =>
    have prep := prepared sound free want up ids fresh
    have bound : s.next < (connected (created s want) up ids).next := prep.next ▸ Nat.lt_succ_self _
    obtain ⟨sum, counted, epochs, present, -⟩ := ledger.counted_parts prep roomy
    rw [Nat.mod_eq_of_lt roomy] at fits
    apply Ledger.enters (counted_sound prep.sound bound prep.waits prep.stored len) bound prep.waits
      counted epochs present prep.epoch (sum ▸ fits)
    intro x hx apart waits
    have hx : x < (connected (created s want) up ids).next := hx
    rw [prep.next] at hx
    have older : x < s.next := Nat.lt_of_le_of_ne (Nat.le_of_lt_succ hx) apart
    have waits : ((connected (created s want) up ids).thread x).stage = .waiting := waits
    rw [(prep.others x older).2.2.1] at waits
    exact (prep.others x older).2.1.trans
      (ledger.signalled ((Nat.le_add_right _ _).trans fits) x older waits)
  | wakes bound stage fits =>
    exact Ledger.enters sound bound stage ledger.counted ledger.epochs ledger.present roomy fits
      fun x hx _ => ledger.signalled fits x hx
  | rewaits high =>
    refine ⟨ledger.counted, ledger.epochs, ledger.present, ledger.window, ?_⟩
    intro fits
    exact absurd fits (Nat.not_le_of_lt high)
  | @breaks r q use stage stored entry =>
    have found : (s.reqtab.lookup (s.thread r).id).isSome = true := (sound.removed_iff use).mpr entry
    apply ledger.leaks (sound.broken_concerns use stage stored) entry stored _
      (load_broken sound use stage stored) rfl _ rfl rfl rfl
    · simp [broken]
    · simp [Listed, broken]
    · simp [broken, found, ledger.present r entry]
  | takes use free back stored entry stage =>
    exact ledger.takes sound bounded use free back stored entry stage
  | stops => exact ⟨ledger.counted, ledger.epochs, ledger.present, ledger.window, ledger.signalled⟩
  | @marks r q closed free use stored entry stage =>
    apply ledger.leaks (sound.marked_concerns use free stored) entry stored _
      (load_marked sound use free stored stage) rfl _ rfl rfl rfl stage
    · simp [Listed, marked]
    · simp [marked, ledger.present r entry]
  | loses closed next connver epoch outstanding credited leaked signalled tab =>
    have none := load_lost next connver epoch ledger.epochs
    constructor
    · rw [none, outstanding, leaked]
    · intro x hx
      rw [epoch, connver]
      exact Nat.le_succ_of_le (ledger.epochs x (next ▸ hx))
    · intro x entry
      simp [Listed, tab] at entry
    · have empty := flight_le_load t
      omega
    · intro _ x _ _
      exact signalled x

/-- Where the count does not run over and no thread goes on that waited through a loss of the
connection, the count is exact, what the server has not answered fits in the limit, and every thread
that waits although it would fit has been signalled. -/
theorem window_kept
    (run : Steps (step max) (fun s e => Enabled max s e ∧ Fresh s e ∧ Roomy s e) initial s) :
    s.outstandingLen = load s + s.leaked ∧ flight s ≤ max ∧
      (s.outstandingLen ≤ max → ∀ r < s.next, (s.thread r).stage = .waiting →
        s.signalled r = true) := by
  have all : Sound s ∧ Accounts s ∧ Ledger max s := by
    refine Steps.invariant (I := fun s => Sound s ∧ Accounts s ∧ Ledger max s) ?_ run
      ⟨initial_sound, initial_accounts, initial_ledger max⟩
    rintro s e a t ⟨sound, accounts, ledger⟩ ⟨enabled, fresh, roomy⟩ moved
    obtain ⟨sound', effect⟩ := step_keeps sound enabled fresh moved
    exact ⟨sound', effect_accounts effect sound fresh accounts,
      effect_ledger effect sound accounts.bounded fresh roomy ledger⟩
  exact ⟨all.2.2.counted, all.2.2.window, all.2.2.signalled⟩

/-- One request on its way and one that waits. -/
theorem window_of_two : ∃ s, flight s ≤ 30 ∧ s.outstandingLen = 40 ∧
    s.outstandingLen = load s + s.leaked := by
  have start : Steps (step 30) (fun s e => Enabled 30 s e ∧ Fresh s e ∧ Roomy s e) initial
      (played 30 []) := Steps.refl initial
  have first : Steps (step 30) (fun s e => Enabled 30 s e ∧ Fresh s e ∧ Roomy s e) initial
      (played 30 [.send true 11 true 0]) :=
    Steps.snoc (c := .send true 11 true 0) start
      ⟨rfl, fresh_of_ids (by decide) _, by unfold Roomy; decide⟩
      (ok_of_value (a := ()) rfl)
  have second : Steps (step 30) (fun s e => Enabled 30 s e ∧ Fresh s e ∧ Roomy s e) initial
      (played 30 [.send true 11 true 0, .send true 11 true 0]) :=
    Steps.snoc (c := .send true 11 true 0) first
      ⟨rfl, fresh_of_ids (by decide) _, by unfold Roomy; decide⟩
      (ok_of_value (a := ()) rfl)
  have kept := window_kept second
  exact ⟨_, kept.2.1, rfl, kept.1⟩

/-- All that was sent on the connection has been answered, and the lengths of what waits alone are
over the limit. -/
structure Stuck (max : ℕ) (s t : Client) : Prop where
  running : t.running = true
  empty : t.reqtab = []
  high : max < t.outstandingLen
  next : s.next ≤ t.next
  old : ∀ r < s.next, (s.thread r).stage = .waiting → (t.thread r).stage = .waiting
  new : ∀ r, s.next ≤ r → r < t.next → (t.thread r).stage = .waiting

theorem Stuck.quiet {u : Client} (stuck : Stuck max s t) (quiet : Quiet t u) : Stuck max s u where
  running := quiet.running.trans stuck.running
  empty := quiet.empty stuck.empty
  high := quiet.outstanding ▸ stuck.high
  next := quiet.next ▸ stuck.next
  old r hr waits := (quiet.waiting r).mpr (stuck.old r hr waits)
  new r hr bound := (quiet.waiting r).mpr (stuck.new r hr (quiet.next ▸ bound))

theorem Stuck.unlisted (stuck : Stuck max s t) : ¬ Listed t r := by
  simp [Listed, stuck.empty]

theorem effect_stuck {u : Client} {e : Event} (stuck : Stuck max s t) (effect : Effect max t e u)
    (sound : Sound t) (fresh : Fresh t e)
    (room : ∀ w l up i, e = .send w l up i → t.outstandingLen + (l + 9) < 2 ^ 32)
    (stays : e ≠ .lose) : Stuck max s u := by
  cases effect with
  | quiet h => exact stuck.quiet h
  | refused free down => simp [stuck.running] at down
  | @waits want len up ids free runs high =>
    have prep := prepared sound free want up ids fresh
    have connects : connected (created t want) up ids = created t want := by
      simp [connected, created, stuck.running]
    constructor
    · rw [connects]
      exact stuck.running
    · exact prep.tab.trans stuck.empty
    · have sum : (counted (connected (created t want) up ids) t.next
          ⟨want, t.idctr, 0, 0, false, none⟩ len).outstandingLen =
          ((connected (created t want) up ids).outstandingLen + (len + 9)) % 2 ^ 32 := rfl
      rw [sum, prep.outstanding]
      exact high
    · exact stuck.next.trans (prep.next ▸ Nat.le_succ t.next)
    · intro r hr waits
      have bound : r < t.next := Nat.lt_of_lt_of_le hr stuck.next
      have kept : (connected (created t want) up ids).thread r = t.thread r :=
        (prep.others r bound).2.2.1
      exact kept ▸ stuck.old r hr waits
    · intro r hr bound
      have bound : r < (connected (created t want) up ids).next := bound
      rw [prep.next] at bound
      rcases Nat.lt_succ_iff_lt_or_eq.mp bound with older | rfl
      · have kept : (connected (created t want) up ids).thread r = t.thread r :=
          (prep.others r older).2.2.1
        exact kept ▸ stuck.new r hr older
      · exact prep.waits
  | @enters want len up ids free runs fits =>
    have high := stuck.high
    rw [Nat.mod_eq_of_lt (room want len up ids rfl)] at fits
    omega
  | wakes bound stage fits => exact absurd fits (Nat.not_le_of_lt stuck.high)
  | rewaits high => exact ⟨stuck.running, stuck.empty, stuck.high, stuck.next, stuck.old, stuck.new⟩
  | breaks use stage stored entry => exact absurd entry stuck.unlisted
  | takes use free back stored entry stage => exact absurd entry stuck.unlisted
  | stops => exact absurd rfl stays
  | marks closed =>
    have stopped := sound.locked.stopped closed
    rw [stuck.running] at stopped
    cases stopped
  | loses closed =>
    have stopped := sound.locked.stopped closed
    rw [stuck.running] at stopped
    cases stopped

/-- When nothing is listed and the lengths of what waits alone are over the limit, no thread that
waits goes on, and every new request waits as well, until the connection is lost. -/
theorem waiters_stuck (reached : Reached max s) (running : s.running = true)
    (empty : s.reqtab = []) (high : max < s.outstandingLen)
    (run : Steps (step max) (fun s e => Enabled max s e ∧ Fresh s e ∧ e ≠ .lose ∧
      ∀ w l up i, e = .send w l up i → s.outstandingLen + (l + 9) < 2 ^ 32) s t) :
    (∀ r < s.next, (s.thread r).stage = .waiting → (t.thread r).stage = .waiting) ∧
      (∀ r, s.next ≤ r → r < t.next → (t.thread r).stage = .waiting) ∧ t.reqtab = [] := by
  have both : Sound t ∧ Stuck max s t := by
    refine Steps.invariant (I := fun t => Sound t ∧ Stuck max s t) ?_ run
      ⟨reached.sound, running, empty, high, Nat.le_refl _, fun _ _ waits => waits,
        fun r low bound => absurd low (Nat.not_le_of_lt bound)⟩
    rintro t e a u ⟨sound, stuck⟩ ⟨enabled, fresh, stays, room⟩ moved
    obtain ⟨sound', effect⟩ := step_keeps sound enabled fresh moved
    exact ⟨sound', effect_stuck stuck effect sound fresh room stays⟩
  exact ⟨both.2.old, both.2.new, both.2.empty⟩

/-- Two threads wait behind a request, the answer to it comes, and they and the next one wait on. -/
theorem two_stuck : ∃ s t : Client, Reached 30 s ∧ s.reqtab = [] ∧
    (s.thread 1).stage = .waiting ∧ (s.thread 2).stage = .waiting ∧ t.reqtab = [] ∧
    (t.thread 1).stage = .waiting ∧ (t.thread 3).stage = .waiting := by
  have start : Reached 30 (played 30 []) := Steps.refl initial
  have first := start.play (e := .send true 11 true 0) rfl (by decide) rfl
  have second := first.play (e := .send true 11 true 0) rfl (by decide) rfl
  have third := second.play (e := .send true 11 true 0) rfl (by decide) rfl
  have written := third.play (e := .written 0 true) ⟨by decide, rfl, rfl⟩ (by decide) rfl
  have served := written.play (e := .serve (0, 0)) (List.mem_singleton.mpr rfl) (by decide) rfl
  have received := served.play (e := .receive) ⟨rfl, rfl, List.cons_ne_nil _ _⟩ (by decide) rfl
  let now := played 30 [.receive, .serve (0, 0), .written 0 true, .send true 11 true 0,
    .send true 11 true 0, .send true 11 true 0]
  have next : Steps (step 30) (fun s e => Enabled 30 s e ∧ Fresh s e ∧ e ≠ .lose ∧
      ∀ w l up i, e = .send w l up i → s.outstandingLen + (l + 9) < 2 ^ 32) now _ :=
    Steps.snoc (c := .send true 11 true 0) (Steps.refl now)
      ⟨rfl, fresh_of_ids (by decide) _, by simp, by rintro w l up i ⟨⟩; decide⟩
      (ok_of_value (a := ()) rfl)
  have stuck := waiters_stuck received rfl rfl (by decide) next
  exact ⟨_, _, received, rfl, rfl, rfl, stuck.2.2, stuck.1 1 (by decide) rfl,
    stuck.2.1 3 (by decide) (by decide)⟩

end Window

end SftpRequests
