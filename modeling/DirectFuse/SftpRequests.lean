import DirectFuse.ExecLogic
import DirectFuse.SysioState
import Mathlib.Algebra.BigOperators.Group.Finset.Basic
import Mathlib.Algebra.Order.Ring.Int

/-! Requests under way on the connection of the sftp driver (drivers/sshfs/sshfs.c): the threads that
send them, the thread that takes the replies, and the loss of the connection, in any order of their
critical sections. The server answers a request at most once, after it has got all of it, and behind
a frame that was cut off it understands nothing. -/
namespace SftpRequests

open ExecLogic SysioState

/-- The address of a `struct request`. Addresses are not used again. -/
abbrev Rid := ℕ

/-- `struct request`. `reply` is the request that the server answered with the reply in it, and
`error` is 0 or -EIO. -/
structure Request where
  wantReply : Bool
  id : ℕ
  len : ℕ
  ready : ℕ
  error : Bool
  reply : Option Rid
  deriving DecidableEq, Repr

/-- How far the thread that sends a request has got: it waits in `pthread_cond_wait`, is in
`sftp_send_iov`, has returned 0 from `sftp_request_send` or an error, is between the two looks at
`want_reply` that `sftp_readdir_async` takes, has left the request to the other thread, has dropped
one that could not be sent, or has freed it. -/
inductive Stage where
  | waiting
  | writing
  | sent
  | failed
  | rechecking
  | left
  | dropped
  | done
  deriving DecidableEq, Repr

/-- Why the processing thread has a request in hand: for a reply that came for it, or in `clean_req`,
which has set its error and, behind that, seen that the reply is wanted. -/
inductive Held where
  | answer (f : Rid)
  | error
  | wanted
  deriving DecidableEq, Repr

/-- The local variables of `sftp_request_send`. -/
structure Thread where
  want : Bool
  id : ℕ
  stage : Stage
  deriving DecidableEq, Repr

/-- What `end_func` finds in a request. -/
inductive Outcome where
  | error
  | answer (r : Rid)
  | nothing
  deriving DecidableEq, Repr

/-- What of `struct sshfs` the requests need, the requests in memory, the threads, and what is on its
way. `signalled` tells whether the condition variable was signalled since a thread began to wait.
`cleaning` tells whether the processing thread is behind its loop, where it has the lock until it is
through, and `hand` is a request that it has taken out of `reqtab`; `wire` and `back` are the frames
the server has not answered and its answers. `ended`, `epoch`, `leaked` and `credited` are history: the
calls of `end_func`, the connection a request was counted on, the lengths that were counted on the
present one and are never taken off, and those taken off though they were not counted on it. -/
structure Client where
  idctr : ℕ
  outstandingLen : ℕ
  reqtab : List (ℕ × Rid)
  running : Bool
  cleaning : Bool
  connver : ℕ
  req : Rid → Option Request
  next : Rid
  thread : Rid → Thread
  signalled : Rid → Bool
  hand : Option (Rid × Held)
  torn : Bool
  wire : List (ℕ × Rid)
  back : List (ℕ × Rid)
  ended : Rid → List Outcome
  epoch : Rid → ℕ
  leaked : ℕ
  credited : ℕ

def initial : Client where
  idctr := 0
  outstandingLen := 0
  reqtab := []
  running := false
  cleaning := false
  connver := 0
  req _ := none
  next := 0
  thread _ := ⟨false, 0, .done⟩
  signalled _ := false
  hand := none
  torn := false
  wire := []
  back := []
  ended _ := []
  epoch _ := 0
  leaked := 0
  credited := 0

abbrev Sftp (α : Type) := Exec Client Fault α

section Steps

/-- A difference of 32-bit numbers. -/
def sub32 (a b : ℕ) : ℕ := (a + (2 ^ 32 - b % 2 ^ 32)) % 2 ^ 32

def reqAt (r : Rid) : Sftp Request := Exec.deref .wild fun s => s.req r

def setReq (r : Rid) (q : Request) : Sftp Unit := Exec.write fun s =>
  { s with req := Function.update s.req r (some q) }

def setStage (r : Rid) (stage : Stage) : Sftp Unit := Exec.write fun s =>
  { s with thread := Function.update s.thread r { s.thread r with stage := stage } }

/-- `pthread_cond_broadcast(&sshfs.outstanding_cond)`. -/
def broadcast : Sftp Unit := Exec.write fun s => { s with signalled := fun _ => true }

/-- `g_hash_table_insert`. -/
def insertReq (id : ℕ) (r : Rid) : Sftp Unit := Exec.write fun s =>
  { s with reqtab := (id, r) :: s.reqtab.filter fun e => e.1 != id }

/-- `g_hash_table_remove`. -/
def removeReq (id : ℕ) : Sftp Bool := do
  let found ← Exec.read fun s => (s.reqtab.lookup id).isSome
  Exec.write fun s => { s with reqtab := s.reqtab.filter fun e => e.1 != id }
  return found

def outcomeOf (q : Request) : Outcome :=
  if q.error then .error
  else
    match q.reply with
    | some f => .answer f
    | none => .nothing

/-- `end_func` and `request_free`. -/
def endReq (r : Rid) : Sftp Unit := do
  let q ← reqAt r
  Exec.write fun s =>
    { s with
      ended := Function.update s.ended r (outcomeOf q :: s.ended r)
      req := Function.update s.req r none }

/-- `start_processing_thread`: `up` tells whether it succeeds where the thread is not running, and
`ids` how many identifiers connecting takes. A new connection is whole. -/
def startProcessingThread (up : Bool) (ids : ℕ) : Sftp Bool := do
  let running ← Exec.read fun s => s.running
  if running then
    return true
  else do
    Exec.write fun s =>
      { s with
        idctr := (s.idctr + ids) % 2 ^ 32
        running := up
        torn := false
        wire := []
        back := [] }
    return up

/-- The part of `sftp_request_send` from where the length fits to where the lock is released. -/
def enterReq (r : Rid) : Sftp Unit := do
  let id ← Exec.read fun s => (s.thread r).id
  insertReq id r
  setStage r .writing

/-- `sftp_request_send` up to where it releases the lock. -/
def sendReq (max : ℕ) (want : Bool) (len : ℕ) (up : Bool) (ids : ℕ) : Sftp Unit := do
  let r ← Exec.read fun s => s.next
  let id ← Exec.read fun s => s.idctr
  Exec.write fun s =>
    { s with
      next := r + 1
      idctr := (s.idctr + 1) % 2 ^ 32
      req := Function.update s.req r (some ⟨want, id, 0, 0, false, none⟩)
      thread := Function.update s.thread r ⟨want, id, .waiting⟩
      signalled := Function.update s.signalled r false
      ended := Function.update s.ended r []
      epoch := Function.update s.epoch r s.connver }
  let started ← startProcessingThread up ids
  if !started then
    let q ← reqAt r
    setReq r { q with error := true }
    setStage r .failed
  else
    let q ← reqAt r
    setReq r { q with len := len + 9 }
    Exec.write fun s => { s with outstandingLen := (s.outstandingLen + (len + 9)) % 2 ^ 32 }
    let outstanding ← Exec.read fun s => s.outstandingLen
    Exec.when (outstanding ≤ max) (enterReq r)

/-- The loop of `sftp_request_send` goes back into `pthread_cond_wait`. -/
def rewait (r : Rid) : Sftp Unit := Exec.write fun s =>
  { s with signalled := Function.update s.signalled r false }

/-- `sftp_send_iov` has written all, though where it is not `whole` a part of that went to an earlier
connection. -/
def writtenReq (r : Rid) (whole : Bool) : Sftp Unit := do
  Exec.write fun s =>
    { s with
      wire := if s.torn = false ∧ whole then s.wire ++ [((s.thread r).id, r)] else s.wire
      torn := s.torn || !whole }
  setStage r .sent

/-- `sftp_send_iov` has failed. -/
def writeFailed (r : Rid) : Sftp Unit := do
  let t ← Exec.read fun s => s.thread r
  Exec.write fun s => { s with torn := true }
  let rmed ← removeReq t.id
  if !rmed && !t.want then
    setStage r .done
  else
    let q ← reqAt r
    Exec.when rmed (Exec.write fun s =>
      { s with leaked := if s.epoch r = s.connver then s.leaked + q.len else s.leaked })
    setReq r { q with error := true }
    setStage r .failed

/-- `process_one_request` up to where it releases the lock. -/
def receiveReply (max : ℕ) : Sftp Unit := do
  let back ← Exec.read fun s => s.back
  match back with
  | [] => Exec.fault .diverge
  | (id, f) :: rest => do
    Exec.write fun s => { s with back := rest }
    let found ← Exec.read fun s => s.reqtab.lookup id
    match found with
    | none => return ()
    | some r => do
      let q ← reqAt r
      let wasOver ← Exec.read fun s => decide (max < s.outstandingLen)
      Exec.write fun s =>
        { s with
          outstandingLen := sub32 s.outstandingLen q.len
          credited := if s.epoch r = s.connver then s.credited else s.credited + q.len }
      let under ← Exec.read fun s => decide (s.outstandingLen ≤ max)
      Exec.when (wasOver ∧ under) broadcast
      let _ ← removeReq id
      Exec.write fun s => { s with hand := some (r, .answer f) }

/-- The rest of `process_one_request`. -/
def deliverReply (r f : Rid) : Sftp Unit := do
  Exec.write fun s => { s with hand := none }
  let q ← reqAt r
  setReq r { q with reply := some f }
  if q.wantReply then
    setReq r { q with reply := some f, ready := q.ready + 1 }
  else
    endReq r

/-- `process_requests` behind its loop, up to the requests that are in the table. -/
def loseConnection : Sftp Unit := Exec.write fun s =>
  { s with running := false, cleaning := true, wire := [], back := [] }

/-- `clean_req` sets the error of a request. That `g_hash_table_foreach_remove` takes the request out
of the table only when `clean_req` has returned is nothing to the others, who do not have the lock. -/
def markReq (r : Rid) : Sftp Unit := do
  let q ← reqAt r
  setReq r { q with error := true }
  let _ ← removeReq q.id
  Exec.write fun s =>
    { s with
      hand := some (r, .error)
      leaked := if s.epoch r = s.connver then s.leaked + q.len else s.leaked }

/-- `clean_req` looks whether the reply is wanted, without which it ends the request. -/
def cleanReq (r : Rid) : Sftp Unit := do
  let q ← reqAt r
  if q.wantReply then
    Exec.write fun s => { s with hand := some (r, .wanted) }
  else
    endReq r
    Exec.write fun s => { s with hand := none }

/-- The `sem_post` of `clean_req`. -/
def postReq (r : Rid) : Sftp Unit := do
  let q ← reqAt r
  setReq r { q with ready := q.ready + 1 }
  Exec.write fun s => { s with hand := none }

/-- What the processing thread does next with the request in hand. -/
def settleReq : Sftp Unit := do
  let (r, held) ← Exec.deref .wild fun s => s.hand
  match held with
  | .answer f => deliverReply r f
  | .error => cleanReq r
  | .wanted => postReq r

/-- The rest of `process_requests`. -/
def connectionLost : Sftp Unit := do
  Exec.write fun s =>
    { s with connver := s.connver + 1, outstandingLen := 0, leaked := 0, credited := 0 }
  broadcast
  Exec.write fun s => { s with cleaning := false }

/-- `sftp_request_wait`. -/
def finishReq (r : Rid) : Sftp Unit := do
  let q ← reqAt r
  Exec.when (q.error = false) (setReq r { q with ready := q.ready - 1 })
  endReq r
  setStage r .done

/-- The first look of `sftp_readdir_async` at a request it has no use for any more. -/
def abandonReq (r : Rid) : Sftp Unit := do
  let q ← reqAt r
  let pending ← Exec.read fun s => (s.reqtab.lookup q.id).isSome
  Exec.when pending (setReq r { q with wantReply := false })
  setStage r .rechecking

/-- The second look, without the lock. -/
def recheckReq (r : Rid) : Sftp Unit := do
  let q ← reqAt r
  setStage r (if q.wantReply then .sent else .left)

/-- `sftp_readdir_async` forgets a request that could not be sent. -/
def dropReq (r : Rid) : Sftp Unit := setStage r .dropped

inductive Event where
  | send (want : Bool) (len : ℕ) (up : Bool) (ids : ℕ)
  | wake (r : Rid)
  | rewait (r : Rid)
  | written (r : Rid) (whole : Bool)
  | writeFails (r : Rid)
  | serve (m : ℕ × Rid)
  | receive
  | settle
  | lose
  | mark (r : Rid)
  | lost
  | finish (r : Rid)
  | abandon (r : Rid)
  | recheck (r : Rid)
  | drop (r : Rid)
  deriving DecidableEq, Repr

def step (max : ℕ) : Event → Sftp Unit
  | .send want len up ids => sendReq max want len up ids
  | .wake r => enterReq r
  | .rewait r => rewait r
  | .written r whole => writtenReq r whole
  | .writeFails r => writeFailed r
  | .serve m => Exec.write fun s => { s with wire := s.wire.erase m, back := s.back ++ [m] }
  | .receive => receiveReply max
  | .settle => settleReq
  | .lose => loseConnection
  | .mark r => markReq r
  | .lost => connectionLost
  | .finish r => finishReq r
  | .abandon r => abandonReq r
  | .recheck r => recheckReq r
  | .drop r => dropReq r

/-- When a thread can take the step. A step with the lock waits until the processing thread is through
with a connection that was lost; `sftp_request_wait`, which ends with an error or a post of the
semaphore, and the second look of `sftp_readdir_async` do without the lock. -/
def Enabled (max : ℕ) (s : Client) : Event → Prop
  | .send _ _ _ _ => s.cleaning = false
  | .wake r => r < s.next ∧ (s.thread r).stage = .waiting ∧ s.outstandingLen ≤ max ∧
      s.cleaning = false
  | .rewait r => r < s.next ∧ (s.thread r).stage = .waiting ∧ max < s.outstandingLen ∧
      s.cleaning = false
  | .written r _ => r < s.next ∧ (s.thread r).stage = .writing ∧ s.running = true
  | .writeFails r => r < s.next ∧ (s.thread r).stage = .writing ∧ s.cleaning = false
  | .serve m => m ∈ s.wire
  | .receive => s.running = true ∧ s.hand = none ∧ s.back ≠ []
  | .settle => s.hand ≠ none
  | .lose => s.running = true ∧ s.hand = none
  | .mark r => s.cleaning = true ∧ s.hand = none ∧ ((s.thread r).id, r) ∈ s.reqtab
  | .lost => s.cleaning = true ∧ s.hand = none ∧ s.reqtab = []
  | .finish r => r < s.next ∧ ((s.thread r).stage = .failed ∨ (s.thread r).stage = .sent ∧
      (s.thread r).want = true ∧ ∀ q, s.req r = some q → q.error = true ∨ 0 < q.ready)
  | .abandon r => r < s.next ∧ (s.thread r).stage = .sent ∧ (s.thread r).want = true ∧
      s.cleaning = false
  | .recheck r => r < s.next ∧ (s.thread r).stage = .rechecking
  | .drop r => r < s.next ∧ (s.thread r).stage = .failed ∧ (s.thread r).want = true

/-- The request or something of it is still about. -/
def InUse (s : Client) (r : Rid) : Prop :=
  r < s.next ∧ (s.req r ≠ none ∨ (s.thread r).stage = .writing ∨
    ((s.thread r).id, r) ∈ s.wire ∨ ((s.thread r).id, r) ∈ s.back)

/-- A step that takes an identifier takes one that nothing about has: no request lasts while 2^32 of
them are taken. -/
def Fresh (s : Client) : Event → Prop
  | .send _ _ _ _ => ∀ r, InUse s r → (s.thread r).id ≠ s.idctr
  | _ => True

/-- States that any order of the steps leads to. -/
def Reached (max : ℕ) (s : Client) : Prop :=
  Steps (step max) (fun s e => Enabled max s e ∧ Fresh s e) initial s

end Steps

section Places

variable {s s' : Client} {r x : Rid} {q : Request}

def Listed (s : Client) (r : Rid) : Prop := ((s.thread r).id, r) ∈ s.reqtab

def Sent : Stage → Prop
  | .sent | .rechecking | .left | .done => True
  | .waiting | .writing | .failed | .dropped => False

/-- Nothing has happened with the request yet. -/
def Blank (q : Request) : Prop := q.ready = 0 ∧ q.error = false ∧ q.reply = none

/-- Who frees a request that is listed or in hand, by how far its thread has got. -/
def Wants (t : Thread) (q : Request) : Prop :=
  match t.stage with
  | .writing | .sent => q.wantReply = t.want
  | .rechecking => t.want = true
  | .left => q.wantReply = false
  | .waiting | .failed | .dropped | .done => False

/-- How far a thread may be whose request is freed. -/
def Gone (t : Thread) : Prop :=
  match t.stage with
  | .writing | .sent => t.want = false
  | .rechecking => t.want = true
  | .left | .done => True
  | .waiting | .failed | .dropped => False

/-- Where a request is. -/
inductive At (s : Client) (r : Rid) : Prop where
  | waiting (q : Request) (stored : s.req r = some q) (unlisted : ¬ Listed s r)
      (aside : ∀ f, s.hand ≠ some (r, f)) (pending : s.ended r = []) (blank : Blank q)
      (stage : (s.thread r).stage = .waiting) (same : q.wantReply = (s.thread r).want)
  | listed (q : Request) (stored : s.req r = some q) (entry : Listed s r)
      (aside : ∀ f, s.hand ≠ some (r, f)) (pending : s.ended r = []) (blank : Blank q)
      (wants : Wants (s.thread r) q)
  | taken (q : Request) (stored : s.req r = some q) (unlisted : ¬ Listed s r)
      (hand : s.hand = some (r, .answer r)) (pending : s.ended r = []) (blank : Blank q)
      (wants : Wants (s.thread r) q) (whole : Sent (s.thread r).stage)
  | marked (q : Request) (held : Held) (stored : s.req r = some q) (unlisted : ¬ Listed s r)
      (hand : s.hand = some (r, held)) (pending : s.ended r = []) (error : q.error = true)
      (wants : Wants (s.thread r) q) (cleans : held = .error ∨ held = .wanted ∧ q.wantReply = true)
  | posted (q : Request) (stored : s.req r = some q) (unlisted : ¬ Listed s r)
      (aside : ∀ f, s.hand ≠ some (r, f)) (pending : s.ended r = []) (ready : 0 < q.ready)
      (wants : Wants (s.thread r) q) (want : q.wantReply = true)
      (answered : q.error = true ∨ q.reply = some r)
  | failed (q : Request) (stored : s.req r = some q) (unlisted : ¬ Listed s r)
      (aside : ∀ f, s.hand ≠ some (r, f)) (pending : s.ended r = [])
      (stage : (s.thread r).stage = .failed ∨ (s.thread r).stage = .dropped) (error : q.error = true)
  | gone (o : Outcome) (freed : s.req r = none) (unlisted : ¬ Listed s r)
      (aside : ∀ f, s.hand ≠ some (r, .answer f)) (once : s.ended r = [o])
      (good : o = .error ∨ o = .answer r) (left : Gone (s.thread r))

/-- Where a request is depends on what concerns that request. -/
theorem At.congr (h : At s x) (thread : s'.thread x = s.thread x) (req : s'.req x = s.req x)
    (ended : s'.ended x = s.ended x) (tab : Listed s' x ↔ Listed s x)
    (hand : ∀ f, s'.hand = some (x, f) ↔ s.hand = some (x, f)) : At s' x := by
  cases h with
  | waiting q stored unlisted aside pending blank stage same =>
    exact .waiting q (req ▸ stored) (tab.not.mpr unlisted) (fun f => (hand f).not.mpr (aside f))
      (ended ▸ pending) blank (thread ▸ stage) (thread ▸ same)
  | listed q stored entry aside pending blank wants =>
    exact .listed q (req ▸ stored) (tab.mpr entry) (fun f => (hand f).not.mpr (aside f))
      (ended ▸ pending) blank (thread ▸ wants)
  | taken q stored unlisted held pending blank wants whole =>
    exact .taken q (req ▸ stored) (tab.not.mpr unlisted) ((hand _).mpr held) (ended ▸ pending) blank
      (thread ▸ wants) (thread ▸ whole)
  | marked q held stored unlisted kept pending error wants cleans =>
    exact .marked q held (req ▸ stored) (tab.not.mpr unlisted) ((hand held).mpr kept)
      (ended ▸ pending) error (thread ▸ wants) cleans
  | posted q stored unlisted aside pending ready wants want answered =>
    exact .posted q (req ▸ stored) (tab.not.mpr unlisted) (fun f => (hand f).not.mpr (aside f))
      (ended ▸ pending) ready (thread ▸ wants) want answered
  | failed q stored unlisted aside pending stage error =>
    exact .failed q (req ▸ stored) (tab.not.mpr unlisted) (fun f => (hand f).not.mpr (aside f))
      (ended ▸ pending) (thread ▸ stage) error
  | gone o freed unlisted aside once good left =>
    exact .gone o (req ▸ freed) (tab.not.mpr unlisted) (fun f => (hand _).not.mpr (aside f))
      (ended ▸ once) good (thread ▸ left)

/-- Who has the lock for good is behind the loop, and only there requests are cleaned. -/
structure Locked (s : Client) : Prop where
  stopped : s.cleaning = true → s.running = false
  cleans : s.cleaning = false → ∀ x held, s.hand = some (x, held) → ∃ f, held = .answer f

/-- What holds between the steps. -/
structure Sound (s : Client) : Prop where
  entries : ∀ e ∈ s.reqtab, e.2 < s.next ∧ (s.thread e.2).id = e.1
  keys : (s.reqtab.map Prod.fst).Nodup
  frames : ∀ m, m ∈ s.wire ∨ m ∈ s.back →
    m.2 < s.next ∧ (s.thread m.2).id = m.1 ∧ Sent (s.thread m.2).stage
  unique : ∀ x y, InUse s x → InUse s y → (s.thread x).id = (s.thread y).id → x = y
  stored : ∀ x q, s.req x = some q → x < s.next ∧ q.id = (s.thread x).id
  held : ∀ x f, s.hand = some (x, f) → x < s.next
  locked : Locked s
  place : ∀ x < s.next, At s x

theorem At.stored_of_listed (h : At s r) (entry : Listed s r) :
    ∃ q, s.req r = some q ∧ Blank q ∧ Wants (s.thread r) q ∧ s.ended r = [] ∧
      ∀ f, s.hand ≠ some (r, f) := by
  cases h with
  | listed q stored entry aside pending blank wants => exact ⟨q, stored, blank, wants, pending, aside⟩
  | waiting _ _ unlisted => exact absurd entry unlisted
  | taken _ _ unlisted => exact absurd entry unlisted
  | marked _ _ _ unlisted => exact absurd entry unlisted
  | posted _ _ unlisted => exact absurd entry unlisted
  | failed _ _ unlisted => exact absurd entry unlisted
  | gone _ _ unlisted => exact absurd entry unlisted

theorem Sound.listed_of_mem (sound : Sound s) {e : ℕ × Rid} (h : e ∈ s.reqtab) :
    e.2 < s.next ∧ Listed s e.2 := by
  obtain ⟨bound, id⟩ := sound.entries e h
  refine ⟨bound, ?_⟩
  unfold Listed
  rw [id]
  exact h

theorem Sound.inUse_of_listed (sound : Sound s) (h : Listed s r) : InUse s r := by
  have bound : r < s.next := (sound.entries _ h).1
  obtain ⟨q, stored, -⟩ := (sound.place r bound).stored_of_listed h
  refine ⟨bound, Or.inl ?_⟩
  rw [stored]
  exact Option.some_ne_none q

theorem mem_of_lookup {l : List (ℕ × Rid)} {id : ℕ} (h : l.lookup id = some r) : (id, r) ∈ l := by
  obtain ⟨front, rest, rfl, -⟩ := List.lookup_eq_some_iff.mp h
  simp

/-- The table holds what is listed. -/
theorem Sound.lookup_iff (sound : Sound s) (use : InUse s r) :
    s.reqtab.lookup (s.thread r).id = some r ↔ Listed s r := by
  constructor
  · intro h
    exact mem_of_lookup h
  · intro h
    cases found : s.reqtab.lookup (s.thread r).id with
    | none =>
      have := List.lookup_eq_none_iff.mp found _ h
      simp at this
    | some y =>
      have entry := sound.listed_of_mem (mem_of_lookup found)
      have id := (sound.entries _ (mem_of_lookup found)).2
      rw [sound.unique y r (sound.inUse_of_listed entry.2) use id]

/-- Taking a request out of the table leaves the others there. -/
theorem Sound.listed_filter (sound : Sound s) (use : InUse s r) (other : x ≠ r)
    (thread : (s'.thread x).id = (s.thread x).id)
    (tab : s'.reqtab = s.reqtab.filter fun e => e.1 != (s.thread r).id) :
    Listed s' x ↔ Listed s x := by
  unfold Listed
  rw [thread, tab, List.mem_filter]
  constructor
  · rintro ⟨entry, -⟩
    exact entry
  · intro entry
    refine ⟨entry, ?_⟩
    have apart : (s.thread x).id ≠ (s.thread r).id := by
      intro same
      exact other (sound.unique x r (sound.inUse_of_listed entry) use same)
    simpa using apart

/-- A step that concerns one request that is in use. -/
structure Concerns (s s' : Client) (r : Rid) : Prop where
  next : s'.next = s.next
  thread : ∀ x, x ≠ r → s'.thread x = s.thread x
  req : ∀ x, x ≠ r → s'.req x = s.req x
  ended : ∀ x, x ≠ r → s'.ended x = s.ended x
  tab : ∀ x, x ≠ r → (Listed s' x ↔ Listed s x)
  hand : ∀ x, x ≠ r → ∀ f, s'.hand = some (x, f) ↔ s.hand = some (x, f)
  id : (s'.thread r).id = (s.thread r).id
  named : ∀ q, s'.req r = some q → q.id = (s.thread r).id
  forward : Sent (s.thread r).stage → Sent (s'.thread r).stage
  frames : ∀ m, m ∈ s'.wire ∨ m ∈ s'.back →
    (m ∈ s.wire ∨ m ∈ s.back) ∨ m = ((s.thread r).id, r) ∧ Sent (s'.thread r).stage
  entries : ∀ e ∈ s'.reqtab, e ∈ s.reqtab ∨ e = ((s.thread r).id, r)
  keys : (s'.reqtab.map Prod.fst).Nodup

theorem Concerns.ids (concerns : Concerns s s' r) (y : Rid) :
    (s'.thread y).id = (s.thread y).id := by
  by_cases same : y = r
  · rw [same, concerns.id]
  · rw [concerns.thread y same]

theorem Concerns.inUse (concerns : Concerns s s' r) (use : InUse s r) (y : Rid)
    (later : InUse s' y) : InUse s y := by
  by_cases same : y = r
  · rw [same]
    exact use
  · obtain ⟨bound, later⟩ := later
    refine ⟨concerns.next ▸ bound, ?_⟩
    rw [concerns.req y same, concerns.thread y same] at later
    have old : ∀ m, m ∈ s'.wire ∨ m ∈ s'.back → m.2 = y → m ∈ s.wire ∨ m ∈ s.back := by
      intro m hm at_y
      rcases concerns.frames m hm with h | ⟨rfl, -⟩
      · exact h
      · exact absurd at_y.symm same
    rcases later with h | h | h | h
    · exact Or.inl h
    · exact Or.inr (Or.inl h)
    · exact Or.inr (Or.inr (old _ (Or.inl h) rfl))
    · exact Or.inr (Or.inr (old _ (Or.inr h) rfl))

theorem Sound.change (sound : Sound s) (use : InUse s r) (concerns : Concerns s s' r)
    (locked : Locked s') (place : At s' r) : Sound s' := by
  have ids := concerns.ids
  constructor
  · intro e he
    rw [concerns.next, ids]
    rcases concerns.entries e he with h | rfl
    · exact sound.entries e h
    · exact ⟨use.1, rfl⟩
  · exact concerns.keys
  · intro m hm
    rw [concerns.next, ids]
    rcases concerns.frames m hm with h | ⟨rfl, sent⟩
    · obtain ⟨bound, id, sent⟩ := sound.frames m h
      refine ⟨bound, id, ?_⟩
      by_cases same : m.2 = r
      · rw [same] at sent ⊢
        exact concerns.forward sent
      · rw [concerns.thread _ same]
        exact sent
    · exact ⟨use.1, rfl, sent⟩
  · intro y z hy hz same
    rw [ids, ids] at same
    exact sound.unique y z (concerns.inUse use y hy) (concerns.inUse use z hz) same
  · intro y q hq
    rw [concerns.next, ids]
    by_cases same : y = r
    · subst same
      exact ⟨use.1, concerns.named q hq⟩
    · rw [concerns.req y same] at hq
      exact sound.stored y q hq
  · intro y f hy
    rw [concerns.next]
    by_cases same : y = r
    · rw [same]
      exact use.1
    · exact sound.held y f ((concerns.hand y same f).mp hy)
  · exact locked
  · intro y hy
    by_cases same : y = r
    · rw [same]
      exact place
    · exact (sound.place y (concerns.next ▸ hy)).congr (concerns.thread y same) (concerns.req y same)
        (concerns.ended y same) (concerns.tab y same) (concerns.hand y same)

end Places

end SftpRequests
