import DirectFuse.SshfsCache

/-! Threads that ask for attributes and write files at the same time, through the cache of
drivers/sshfs/cache.c. Its counter of writes keeps attributes out that were asked for before a
write and would be stored behind it. -/
namespace SshfsRaces

open ExecLogic SysioState KeyedTable SshfsCache

section Threads

/-- What `cache_getattr` and `cache_getdir` ask the driver for. -/
inductive Ask where
  | attr (path : Bytes)
  | dir (path : Bytes) (filler : Filler)

/-- How far a thread is: it has looked into the table in vain, has read the counter, has an answer
of which some is still to be stored, or has written and not yet dropped what is in the table. -/
inductive Stage where
  | idle
  | missed (a : Ask)
  | asking (a : Ask) (wrctr : ℕ)
  | storing (wrctr : ℕ) (found : List (Bytes × Stat)) (dir : Option (Bytes × List Bytes))
  | wrote (path : Bytes)

/-- The cache, the clock, the driver and the threads. `dropped` is how many writes have returned,
and `since` what the driver has had to say of a path from the last of them that was for it. -/
structure State (S : Type) where
  cache : Cache
  now : ℤ
  origin : S
  stage : ℕ → Stage
  dropped : ℕ
  since : Bytes → List Stat

/-- The clock moves, or a thread goes on by one call of the driver or from one lock to the next. -/
inductive Event where
  | tick (now : ℤ)
  | look (t : ℕ) (a : Ask)
  | count (t : ℕ)
  | answer (t : ℕ)
  | store (t : ℕ)
  | write (t : ℕ) (path data : Bytes) (offset : ℤ)
  | drop (t : ℕ)

variable {S : Type} (o : Origin S)

/-- What the driver says of a path. -/
def said (s : S) (path : Bytes) : List Stat :=
  match o.getattr s path with
  | .ok st => [st]
  | .error _ => []

/-- The first half of `cache_getattr` and of `cache_getdir`. -/
def held (now : ℤ) (c : Cache) : Ask → Bool
  | .attr path => (cacheGetAttr now path c).isSome
  | .dir path _ => ((cacheLookup path c).bind fun n => n.dir.filter fun _ => 0 ≤ n.dirValid - now).isSome

/-- The entries of the answer of the driver that the callback takes. -/
def entries (s : S) (path : Bytes) (filler : Filler) : List (Bytes × Stat) :=
  taken filler [] (o.getdir s path).1

/-- The attributes that come with the answer of the driver. -/
def found (s : S) : Ask → List (Bytes × Stat)
  | .attr path => (said o s path).map fun st => (path, st)
  | .dir path filler => ((entries o s path filler).filter fun e =>
      decide (e.2.mode &&& S_IFMT ≠ 0)).map fun e => (fullpath path e.1, e.2)

/-- The names for `cache_add_dir`. -/
def listing (s : S) : Ask → Option (Bytes × List Bytes)
  | .attr _ => none
  | .dir path filler =>
    if (o.getdir s path).2 = 0 then some (path, (entries o s path filler).map Prod.fst) else none

def State.go (s : State S) (t : ℕ) (stage : Stage) : State S :=
  { s with stage := Function.update s.stage t stage }

/-- `cache_write` up to the lock. -/
def written (s : State S) (t : ℕ) (path data : Bytes) (offset : ℤ) : State S :=
  let res := o.change s.origin (.write path data offset)
  { s with
    origin := res.2
    stage := Function.update s.stage t (if 0 ≤ res.1 then .wrote path else .idle)
    since := fun p => said o res.2 p ++ s.since p }

/-- `cache_invalidate_write`. -/
def dropping (s : State S) (t : ℕ) (path : Bytes) : State S :=
  { s with
    cache := cacheInvalidateWrite path s.cache
    stage := Function.update s.stage t .idle
    dropped := s.dropped + 1
    since := Function.update s.since path (said o s.origin path) }

/-- The step of a thread that is not there does nothing. -/
def next (s : State S) : Event → State S
  | .tick now => { s with now := now }
  | .look t a =>
    match s.stage t with
    | .idle => if held s.now s.cache a then s else s.go t (.missed a)
    | _ => s
  | .count t =>
    match s.stage t with
    | .missed a => s.go t (.asking a s.cache.writeCtr)
    | _ => s
  | .answer t =>
    match s.stage t with
    | .asking a wrctr => s.go t (.storing wrctr (found o s.origin a) (listing o s.origin a))
    | _ => s
  | .store t =>
    match s.stage t with
    | .storing wrctr ((path, st) :: l) dir =>
      { s.go t (.storing wrctr l dir) with cache := cacheAddAttr s.now path st wrctr s.cache }
    | .storing _ [] (some (path, dir)) =>
      { s.go t .idle with cache := cacheAddDir s.now path dir s.cache }
    | .storing _ [] none => s.go t .idle
    | _ => s
  | .write t path data offset =>
    match s.stage t with
    | .idle => written o s t path data offset
    | _ => s
  | .drop t =>
    match s.stage t with
    | .wrote path => dropping o s t path
    | _ => s

/-- Time is after the epoch, and the counter has not come round. -/
def Allowed (s : State S) (e : Event) : Prop :=
  s.dropped < 2 ^ 64 ∧ ∀ now, e = .tick now → 0 < now

def step (e : Event) : Exec (State S) Fault Unit := Exec.write fun s => next o s e

/-- Nothing is cached and no thread has begun. -/
structure Initial (s : State S) : Prop where
  on : s.cache.on = true
  empty : s.cache.table = ∅
  count : s.cache.writeCtr = 0
  clock : 0 < s.now
  idle : ∀ t, s.stage t = .idle
  dropped : s.dropped = 0
  since : s.since = said o s.origin

/-- States that the threads can get to, whatever the order of their steps. -/
def Reached (s : State S) : Prop :=
  ∃ s₀, Initial o s₀ ∧ Steps (step o) Allowed s₀ s

/-- A write of the path has reached the driver and not returned. -/
def Underway (s : State S) (path : Bytes) : Prop := ∃ t, s.stage t = .wrote path

end Threads

section Stored

variable {c : Cache} {now : ℤ} {path : Bytes} {good : Bytes → Node → Prop}

theorem cacheClean_every (h : Every good c.table) : Every good (cacheClean now c).table := by
  unfold cacheClean
  split
  · exact h.keep
  · exact h

theorem cacheClean_same : (cacheClean now c).on = c.on ∧ (cacheClean now c).writeCtr = c.writeCtr := by
  unfold cacheClean
  split <;> exact ⟨rfl, rfl⟩

theorem cacheStore_every {f : Node → Node} (h : Every good c.table) (fresh : good path newNode)
    (new : ∀ n, good path n → good path (f n)) : Every good (cacheStore path f c).table := by
  apply h.insert
  apply new
  unfold cacheLookup
  cases stored : c.table.lookup path with
  | none => exact fresh
  | some n => exact h path n stored

theorem cacheAddAttr_same {st : Stat} {wrctr : ℕ} :
    (cacheAddAttr now path st wrctr c).on = c.on ∧
      (cacheAddAttr now path st wrctr c).writeCtr = c.writeCtr := by
  unfold cacheAddAttr
  split
  · exact ⟨rfl, rfl⟩
  · split
    · exact cacheClean_same
    · exact ⟨rfl, rfl⟩

/-- Attributes are stored while the counter is what it was. -/
theorem cacheAddAttr_every {st : Stat} {wrctr : ℕ} (h : Every good c.table)
    (fresh : good path newNode)
    (new : wrctr = c.writeCtr → ∀ n valid all, good path n →
      good path { n with stat := st, statValid := valid, valid := all }) :
    Every good (cacheAddAttr now path st wrctr c).table := by
  unfold cacheAddAttr
  split
  · exact h
  · split
    · rename_i current
      apply cacheClean_every
      exact cacheStore_every h fresh fun n => new current n _ _
    · exact h

theorem cacheAddDir_same {dir : List Bytes} : (cacheAddDir now path dir c).on = c.on ∧
    (cacheAddDir now path dir c).writeCtr = c.writeCtr := cacheClean_same

end Stored

section Invariant

variable {S : Type} {o : Origin S} {s : State S} {t x : ℕ} {path p : Bytes} {st : Stat}

/-- The counter that a thread has read is not ahead. -/
def Behind (n : ℕ) : Stage → Prop
  | .asking _ wrctr | .storing wrctr _ _ => wrctr ≤ n
  | _ => True

/-- What an answer has to say of files was said since the last writes of them. -/
def Recent (since : Bytes → List Stat) (n : ℕ) : Stage → Prop
  | .storing wrctr l _ => wrctr = n → ∀ e ∈ l, Clean e.1 → e.2 ∈ since e.1
  | _ => True

/-- The attributes in a node, if there are any, were said since the last write of the file. -/
def Stored (since : Bytes → List Stat) (path : Bytes) (n : Node) : Prop :=
  Clean path → n.statValid ≠ 0 → n.stat ∈ since path

/-- What holds between the steps. -/
structure Sound (o : Origin S) (s : State S) : Prop where
  on : s.cache.on = true
  clock : 0 < s.now
  count : s.cache.writeCtr = s.dropped % 2 ^ 64
  table : Every (Stored s.since) s.cache.table
  behind : ∀ t, Behind s.dropped (s.stage t)
  recent : ∀ t, Recent s.since s.dropped (s.stage t)
  latest : ∀ p, ∀ st ∈ said o s.origin p, st ∈ s.since p
  settled : ∀ p, Clean p → ∀ st ∈ s.since p, Underway s p ∨ st ∈ said o s.origin p

theorem mem_said : st ∈ said o s.origin path ↔ o.getattr s.origin path = .ok st := by
  unfold said
  cases o.getattr s.origin path with
  | error err => simp
  | ok st' => simp [eq_comm]

theorem newNode_stored {since : Bytes → List Stat} : Stored since path newNode :=
  fun _ valid => absurd rfl valid

theorem initial_sound (h : Initial o s) : Sound o s := by
  constructor
  · exact h.on
  · exact h.clock
  · rw [h.count, h.dropped]
    rfl
  · rw [h.empty]
    exact every_empty
  · intro t
    rw [h.idle t]
    trivial
  · intro t
    rw [h.idle t]
    trivial
  · intro p st hst
    rw [h.since]
    exact hst
  · intro p _ st hst
    rw [h.since] at hst
    exact .inr hst

theorem underway_stays {s' : State S} {stage : Stage} (underway : Underway s p)
    (still : s.stage t ≠ .wrote p) (stages : s'.stage = Function.update s.stage t stage) :
    Underway s' p := by
  rcases underway with ⟨x, hx⟩
  refine ⟨x, ?_⟩
  have apart : x ≠ t := by
    rintro rfl
    exact still hx
  rw [stages, Function.update_of_ne apart]
  exact hx

/-- A thread that goes on without writing. -/
theorem go_sound (sound : Sound o s) {old stage : Stage} (here : s.stage t = old)
    (still : ∀ p, old ≠ .wrote p) (behind : Behind s.dropped stage)
    (recent : Recent s.since s.dropped stage) : Sound o (s.go t stage) := by
  constructor
  · exact sound.on
  · exact sound.clock
  · exact sound.count
  · exact sound.table
  · exact (Function.forall_update_iff _ fun _ => Behind _).mpr ⟨behind, fun x _ => sound.behind x⟩
  · exact (Function.forall_update_iff _ fun _ => Recent _ _).mpr ⟨recent, fun x _ => sound.recent x⟩
  · exact sound.latest
  · intro p clean st hst
    rcases sound.settled p clean st hst with underway | now
    · exact .inl (underway_stays underway (here.trans_ne (still p)) rfl)
    · exact .inr now

/-- Another table that is as good. -/
theorem table_sound (sound : Sound o s) {c : Cache} (on : c.on = s.cache.on)
    (count : c.writeCtr = s.cache.writeCtr) (table : Every (Stored s.since) c.table) :
    Sound o { s with cache := c } :=
  ⟨on.trans sound.on, sound.clock, count.trans sound.count, table, sound.behind, sound.recent,
    sound.latest, sound.settled⟩

theorem taken_sublist {filler : Filler} {handed : List Bytes} {l : List (Bytes × Stat)} :
    (taken filler handed l).Sublist l := by
  induction l generalizing handed with
  | nil => exact List.Sublist.slnil
  | cons e l ih =>
    rw [taken]
    split
    · exact ih.cons_cons e
    · exact ih.cons e

/-- The driver tells of the entries of a directory what it tells of their paths. -/
theorem found_said (laws : Local o) {a : Ask} : ∀ e ∈ found o s.origin a, Clean e.1 →
    e.2 ∈ said o s.origin e.1 := by
  cases a with
  | attr path =>
    intro e he _
    obtain ⟨st, hst, rfl⟩ := List.mem_map.mp he
    exact hst
  | dir path filler =>
    intro e he clean
    obtain ⟨entry, listed, rfl⟩ := List.mem_map.mp he
    obtain ⟨listed, typed⟩ := List.mem_filter.mp listed
    have listed := taken_sublist.subset listed
    exact mem_said.mpr (laws.listed _ _ entry listed (of_decide_eq_true typed) clean)

theorem answer_sound (laws : Local o) (sound : Sound o s) {a : Ask} {wrctr : ℕ}
    (here : s.stage t = .asking a wrctr) :
    Sound o (s.go t (.storing wrctr (found o s.origin a) (listing o s.origin a))) := by
  apply go_sound sound here
  · rintro p ⟨⟩
  · have behind := sound.behind t
    rw [here] at behind
    exact behind
  · intro _ e he clean
    exact sound.latest _ _ (found_said laws e he clean)

theorem storeAttr_sound (sound : Sound o s) (few : s.dropped < 2 ^ 64) {wrctr : ℕ}
    {l : List (Bytes × Stat)} {dir : Option (Bytes × List Bytes)}
    (here : s.stage t = .storing wrctr ((path, st) :: l) dir) :
    Sound o { s.go t (.storing wrctr l dir) with
      cache := cacheAddAttr s.now path st wrctr s.cache } := by
  have behind := sound.behind t
  have recent := sound.recent t
  rw [here] at behind recent
  have gone : Sound o (s.go t (.storing wrctr l dir)) := by
    apply go_sound sound here
    · rintro p ⟨⟩
    · exact behind
    · intro current e he
      exact recent current e (List.mem_cons_of_mem _ he)
  apply table_sound gone
  · exact cacheAddAttr_same.1
  · exact cacheAddAttr_same.2
  · apply cacheAddAttr_every sound.table newNode_stored
    intro current n valid all _ clean _
    rw [sound.count, Nat.mod_eq_of_lt few] at current
    exact recent current _ List.mem_cons_self clean

theorem storeDir_sound (sound : Sound o s) {wrctr : ℕ} {dir : List Bytes}
    (here : s.stage t = .storing wrctr [] (some (path, dir))) :
    Sound o { s.go t .idle with cache := cacheAddDir s.now path dir s.cache } := by
  have gone : Sound o (s.go t .idle) := by
    apply go_sound sound here
    · rintro p ⟨⟩
    · trivial
    · trivial
  apply table_sound gone
  · exact cacheAddDir_same.1
  · exact cacheAddDir_same.2
  · apply cacheClean_every
    exact cacheStore_every sound.table newNode_stored fun n good => good

/-- Behind a write the driver may say more of the path, and of no other. -/
theorem write_sound (laws : Local o) (sound : Sound o s) (here : s.stage t = .idle) {data : Bytes}
    {offset : ℤ} : Sound o (written o s t path data offset) := by
  have more : ∀ p, ∀ st ∈ s.since p, st ∈ (written o s t path data offset).since p := by
    intro p st hst
    exact List.mem_append_right _ hst
  constructor
  · exact sound.on
  · exact sound.clock
  · exact sound.count
  · intro k n stored clean valid
    exact more k _ (sound.table k n stored clean valid)
  · refine (Function.forall_update_iff _ fun _ => Behind _).mpr ⟨?_, fun x _ => sound.behind x⟩
    split <;> trivial
  · refine (Function.forall_update_iff _ fun _ => Recent _ _).mpr ⟨?_, fun x _ => ?_⟩
    · split <;> trivial
    · have recent := sound.recent x
      cases stage : s.stage x with
      | storing wrctr l dir =>
        rw [stage] at recent
        intro current e he clean
        exact more _ _ (recent current e he clean)
      | _ => trivial
  · intro p st hst
    exact List.mem_append_left _ hst
  · intro p clean st hst
    rcases List.mem_append.mp hst with now | old
    · exact .inr now
    rcases sound.settled p clean st old with underway | was
    · refine .inl (underway_stays underway ?_ rfl)
      rw [here]
      rintro ⟨⟩
    · rcases clean with ⟨names, proper, rfl⟩
      by_cases touched : 0 ≤ (o.change s.origin (.write path data offset)).1 ∧ pathTo names = path
      · refine .inl ⟨t, (Function.update_self _ _ _).trans ?_⟩
        rw [if_pos touched.1, touched.2]
      · have kept := laws.kept s.origin (.write path data offset) names proper
          fun done same => touched ⟨of_decide_eq_true done, same⟩
        exact .inr (mem_said.mpr (kept.attr st (mem_said.mp was)))

/-- What was stored for the path goes, and what is still to be stored from before comes too late. -/
theorem drop_sound (sound : Sound o s) (here : s.stage t = .wrote path) :
    Sound o (dropping o s t path) := by
  have elsewhere : ∀ p, p ≠ path → (dropping o s t path).since p = s.since p := by
    intro p apart
    exact Function.update_of_ne apart _ _
  have anew : (dropping o s t path).since path = said o s.origin path := Function.update_self _ _ _
  constructor
  · exact sound.on
  · exact sound.clock
  · change (s.cache.writeCtr + 1) % 2 ^ 64 = (s.dropped + 1) % 2 ^ 64
    rw [sound.count, Nat.mod_add_mod]
  · intro k n stored clean valid
    rcases cachePurge_lookup.mp stored with ⟨apart, stored⟩
    rw [elsewhere k apart]
    exact sound.table k n stored clean valid
  · refine (Function.forall_update_iff _ fun _ => Behind _).mpr ⟨trivial, fun x _ => ?_⟩
    have behind := sound.behind x
    cases stage : s.stage x with
    | asking a wrctr =>
      rw [stage] at behind
      exact Nat.le_succ_of_le behind
    | storing wrctr l dir =>
      rw [stage] at behind
      exact Nat.le_succ_of_le behind
    | _ => trivial
  · refine (Function.forall_update_iff _ fun _ => Recent _ _).mpr ⟨trivial, fun x _ => ?_⟩
    have behind := sound.behind x
    cases stage : s.stage x with
    | storing wrctr l dir =>
      rw [stage] at behind
      intro current
      rw [current] at behind
      exact absurd behind (Nat.not_succ_le_self _)
    | _ => trivial
  · intro p st hst
    by_cases same : p = path
    · subst same
      rw [anew]
      exact hst
    · rw [elsewhere p same]
      exact sound.latest p st hst
  · intro p clean st hst
    by_cases same : p = path
    · subst same
      rw [anew] at hst
      exact .inr hst
    · rw [elsewhere p same] at hst
      rcases sound.settled p clean st hst with underway | now
      · refine .inl (underway_stays underway ?_ rfl)
        rw [here]
        rintro ⟨⟩
        exact same rfl
      · exact .inr now

theorem next_sound (laws : Local o) (sound : Sound o s) {e : Event} (allowed : Allowed s e) :
    Sound o (next o s e) := by
  cases e with
  | tick now =>
    exact ⟨sound.on, allowed.2 now rfl, sound.count, sound.table, sound.behind, sound.recent,
      sound.latest, sound.settled⟩
  | look t a =>
    simp only [next]
    cases here : s.stage t with
    | idle =>
      dsimp only
      split
      · exact sound
      · apply go_sound sound here
        · rintro p ⟨⟩
        · trivial
        · trivial
    | _ => exact sound
  | count t =>
    simp only [next]
    cases here : s.stage t with
    | missed a =>
      apply go_sound sound here
      · rintro p ⟨⟩
      · change s.cache.writeCtr ≤ s.dropped
        rw [sound.count]
        exact Nat.mod_le _ _
      · trivial
    | _ => exact sound
  | answer t =>
    simp only [next]
    cases here : s.stage t with
    | asking a wrctr => exact answer_sound laws sound here
    | _ => exact sound
  | store t =>
    simp only [next]
    cases here : s.stage t with
    | storing wrctr l dir =>
      cases l with
      | nil =>
        cases dir with
        | none =>
          apply go_sound sound here
          · rintro p ⟨⟩
          · trivial
          · trivial
        | some listed => exact storeDir_sound sound here
      | cons e l => exact storeAttr_sound sound allowed.1 here
    | _ => exact sound
  | write t path data offset =>
    simp only [next]
    cases here : s.stage t with
    | idle => exact write_sound laws sound here
    | _ => exact sound
  | drop t =>
    simp only [next]
    cases here : s.stage t with
    | wrote path => exact drop_sound sound here
    | _ => exact sound

theorem reached_sound (laws : Local o) (run : Reached o s) : Sound o s := by
  obtain ⟨s₀, first, run⟩ := run
  refine run.invariant (I := Sound o) ?_ (initial_sound first)
  rintro s e - s' sound allowed ⟨⟩
  exact next_sound laws sound allowed

/-- While threads ask and write in any order, the attributes that the cache answers with are what
the driver has said of the file since the last write of it that has returned. They are what it says
now unless a write is under way. -/
theorem cached_attributes (laws : Local o) (run : Reached o s) (clean : Clean path)
    (hit : cacheGetAttr s.now path s.cache = some st) :
    st ∈ s.since path ∧ (¬ Underway s path → o.getattr s.origin path = .ok st) := by
  have sound := reached_sound laws run
  have recent : st ∈ s.since path := by
    unfold cacheGetAttr cacheLookup at hit
    cases stored : s.cache.table.lookup path with
    | none =>
      rw [stored] at hit
      cases hit
    | some n =>
      rw [stored] at hit
      dsimp only at hit
      by_cases valid : 0 ≤ n.statValid - s.now
      · rw [if_pos valid] at hit
        cases hit
        have set : n.statValid ≠ 0 := by
          have := sound.clock
          omega
        exact sound.table path n stored clean set
      · rw [if_neg valid] at hit
        cases hit
  refine ⟨recent, fun still => ?_⟩
  rcases sound.settled path clean st recent with underway | now
  · exact absurd underway still
  · exact mem_said.mp now

end Invariant

section Runs

variable {S : Type} {o : Origin S} {s : State S}

theorem next_dropped (e : Event) : (next o s e).dropped ≤ s.dropped + 1 := by
  cases e with
  | tick now => exact Nat.le_succ _
  | drop t =>
    simp only [next]
    cases s.stage t with
    | wrote path => exact Nat.le_refl _
    | _ => exact Nat.le_succ _
  | look t a =>
    simp only [next]
    cases s.stage t with
    | idle =>
      dsimp only
      split <;> exact Nat.le_succ _
    | _ => exact Nat.le_succ _
  | store t =>
    simp only [next]
    split <;> exact Nat.le_succ _
  | _ =>
    simp only [next]
    split <;> exact Nat.le_succ _

/-- Any few steps in a row are a run. -/
theorem foldl_reached {l : List Event} (run : Reached o s)
    (clock : ∀ now, .tick now ∈ l → 0 < now) (few : s.dropped + l.length ≤ 2 ^ 64) :
    Reached o (l.foldl (next o) s) := by
  induction l generalizing s with
  | nil => exact run
  | cons e l ih =>
    obtain ⟨s₀, first, run⟩ := run
    rw [List.length_cons] at few
    have allowed : Allowed s e := by
      constructor
      · omega
      · rintro now rfl
        exact clock now List.mem_cons_self
    have counted := @next_dropped S o s e
    apply ih ⟨s₀, first, run.snoc allowed rfl⟩
    · intro now listed
      exact clock now (List.mem_cons_of_mem e listed)
    · change (next o s e).dropped + l.length ≤ 2 ^ 64
      omega

def firstState : State Stat :=
  ⟨⟨true, 20, 20, 20, ∅, 0, 0⟩, 1000, plainFile, fun _ => .idle, 0, said oneFile plainFile⟩

/-- The first thread asks, the second one writes a byte behind the last, and the first one comes
with its answer when that is done. -/
def lateAnswer : List Event :=
  [.look 0 (.attr [47, 97]), .count 0, .answer 0, .write 1 [47, 97] [33] 5, .drop 1, .store 0]

def askedAgain : List Event :=
  [.store 0, .look 0 (.attr [47, 97]), .count 0, .answer 0, .store 0]

/-- The late answer is not stored, the one to the second question is. -/
theorem cached_attributes_late :
    { plainFile with size := 6 } ∈
        ((lateAnswer ++ askedAgain).foldl (next oneFile) firstState).since [47, 97] ∧
      (¬ Underway ((lateAnswer ++ askedAgain).foldl (next oneFile) firstState) [47, 97] →
        oneFile.getattr ((lateAnswer ++ askedAgain).foldl (next oneFile) firstState).origin [47, 97] =
          .ok { plainFile with size := 6 }) := by
  have run : Reached oneFile ((lateAnswer ++ askedAgain).foldl (next oneFile) firstState) := by
    apply foldl_reached
    · exact ⟨firstState, ⟨rfl, rfl, rfl, by decide, fun _ => rfl, rfl, rfl⟩, .refl _⟩
    · intro now listed
      simp [lateAnswer, askedAgain] at listed
    · decide
  exact cached_attributes oneFile_local run oneFile_clean rfl

example : cacheGetAttr 1000 [47, 97] (lateAnswer.foldl (next oneFile) firstState).cache = none := rfl

end Runs

end SshfsRaces
