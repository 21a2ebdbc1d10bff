import DirectFuse.DescriptorTable
import DirectFuse.IoContexts

/-! The file positions that asynchronous calls advance. A context holds a reference on its inode only,
so what keeps the record alive that its callback advances is the descriptor table. -/
namespace FileCompletions

open ExecLogic SysioState SysioInode SysioFile SysioInterface SysioSystem CoreMoves InodeRefs
open FuseDriver FuseSystem IoContexts
open DescriptorTable (Grown fdGrow_ok findFreeFildes_ok getD_append_none)

variable {D : Type}

/-- What closing a file may do on top of what serves a context: open files and contexts stay as they
are. -/
structure ServesFiles (e : Env D) extends Serves e where
  close : ∀ i p, Moves (fun s t => t.ft = s.ft ∧ t.aio = s.aio) (e.ops.close i p)

/-- A queued context is to advance the position of the open file. -/
def Awaited (s : Sys D) (f : FilId) : Prop :=
  ∃ c ∈ s.aio.aioq, ∃ r, s.aio.ioctx c = some r ∧ .fcompletio f ∈ r.cbq

/-- The call takes the last reference off the record of an open file. -/
def Destroys (s : Sys D) (f : FilId) : Call → Prop
  | .close fd => slot s fd = some f ∧ ∃ r, s.ft.file f = some r ∧ r.ref = 1
  | .dup2 oldfd newfd => oldfd ≠ newfd ∧ (slot s oldfd).isSome = true ∧ newfd.toNat + 1 < 2 ^ 31 ∧
      slot s newfd = some f ∧ ∃ r, s.ft.file f = some r ∧ r.ref = 1
  | _ => False

/-- The asynchronous calls, and those that change which descriptors share an open file. -/
def InTraffic (call : Call) : Prop :=
  InSession call ∨ (∃ fd, call = .close fd) ∨ (∃ fd, call = .dup fd) ∨
    ∃ oldfd newfd, call = .dup2 oldfd newfd

/-- The count of a context fits behind the position of each open file it is to advance. -/
def Fits (q : Ioctx) (s : Sys D) : Prop :=
  ∀ f x, .fcompletio f ∈ q.cbq → s.ft.file f = some x → 0 < q.cc →
    -(2 ^ 63) ≤ x.pos + q.cc ∧ x.pos + q.cc < 2 ^ 63

/-- A call that destroys no record that a queued context is to advance, and that does not wait for a
count which takes a position out of the range of offsets. -/
def Careful (e : Env D) (s : Sys D) (call : Call) : Prop :=
  InTraffic call ∧ (∀ f, Destroys s f call → ¬ Awaited s f) ∧
    ∀ c polls u q, call = .iowait c polls → polled e c polls s = .ok ((), u) →
      u.aio.ioctx c = some q → Fits q u

/-- What is to hold after the calls `h`: the records that queued contexts are to advance are there,
the callbacks of a context that the driver is done with run to their end, and each `iowait` has
advanced the records of its context by the count the driver reported, and no others. -/
structure Completions (e : Env D) (h : List (CallEvent D)) (s : Sys D) : Prop where
  live : ∀ f, Awaited s f → ∃ x, s.ft.file f = some x
  returns : ∀ c ∈ s.aio.aioq, ∀ polls u q, polled e c polls s = .ok ((), u) →
    u.aio.ioctx c = some q → Fits q u →
    ∃ v, (setIoctx c { q with cbq := [] } >>= fun _ => runCallbacks c q.cbq) u = .ok ((), v)
  advanced : ∀ ev ∈ h, ∀ c polls, ev.call = .iowait c polls → c ∈ ev.before.aio.aioq →
    ∃ r u q, ev.before.aio.ioctx c = some r ∧ polled e c polls ev.before = .ok ((), u) ∧
      u.aio.ioctx c = some q ∧ (0 ≤ q.cc → ev.result = (q.cc, 0)) ∧
      (∀ f, .fcompletio f ∈ r.cbq → ∃ x, ev.before.ft.file f = some x ∧
        ev.after.ft.file f = some { x with pos := x.pos + max q.cc 0 }) ∧
      ∀ f, .fcompletio f ∉ r.cbq → ev.after.ft.file f = ev.before.ft.file f

/-- The queued contexts are on the heap, and the records they are to advance are there and open on
their inodes. -/
structure Live (s : Sys D) : Prop where
  nodup : s.aio.aioq.Nodup
  bound : ∀ c : ℕ, c ∈ s.aio.aioq → c < s.aio.nextIoctx
  context : ∀ c ∈ s.aio.aioq, ∃ r, s.aio.ioctx c = some r ∧ r.fast = false ∧ r.cbq.Nodup ∧
    ∀ f, .fcompletio f ∈ r.cbq → ∃ x, s.ft.file f = some x ∧ x.ino = r.ino

/-- The record of an open file, if it is there, is still there and open on the same inode. -/
def Kept (s t : Sys D) (f : FilId) : Prop :=
  ∀ x, s.ft.file f = some x → ∃ y, t.ft.file f = some y ∧ y.ino = x.ino

theorem Kept.of_eq {s t : Sys D} {f : FilId} (h : t.ft.file f = s.ft.file f) : Kept s t f :=
  fun x hx => ⟨x, h.trans hx, rfl⟩

theorem Kept.trans {s t u : Sys D} {f : FilId} (h : Kept s t f) (k : Kept t u f) : Kept s u f := by
  intro x hx
  obtain ⟨y, hy, hxy⟩ := h x hx
  obtain ⟨z, hz, hyz⟩ := k y hy
  exact ⟨z, hz, hyz.trans hxy⟩

/-- The contexts and the open files of a state are in place in another. -/
structure Holds (s t : Sys D) : Prop where
  aio : t.aio = s.aio
  files : ∀ f, Awaited s f → Kept s t f

theorem Holds.refl (s : Sys D) : Holds s s := ⟨rfl, fun _ _ => .of_eq rfl⟩

theorem Live.keep {s t : Sys D} (k : Live s) (aioq : t.aio.aioq = s.aio.aioq)
    (next : s.aio.nextIoctx ≤ t.aio.nextIoctx)
    (ioctx : ∀ c ∈ s.aio.aioq, t.aio.ioctx c = s.aio.ioctx c)
    (files : ∀ f, Awaited s f → Kept s t f) : Live t where
  nodup := by
    rw [aioq]
    exact k.nodup
  bound c hc := by
    rw [aioq] at hc
    exact lt_of_lt_of_le (k.bound c hc) next
  context c hc := by
    rw [aioq] at hc
    obtain ⟨r, hr, heap, nodup, live⟩ := k.context c hc
    refine ⟨r, (ioctx c hc).trans hr, heap, nodup, fun f hf => ?_⟩
    obtain ⟨x, hx, hino⟩ := live f hf
    obtain ⟨y, hy, hxy⟩ := files f ⟨c, hc, r, hr, hf⟩ x hx
    exact ⟨y, hy, hxy.trans hino⟩

theorem Live.holds {s t : Sys D} (k : Live s) (m : Holds s t) : Live t :=
  k.keep (by rw [m.aio]) (by rw [m.aio]) (fun _ _ => by rw [m.aio]) m.files

theorem Live.awaited {s : Sys D} (k : Live s) {f : FilId} (h : Awaited s f) :
    ∃ x, s.ft.file f = some x := by
  obtain ⟨c, hc, r, hr, hf⟩ := h
  obtain ⟨q, hq, -, -, live⟩ := k.context c hc
  obtain rfl := Option.some.inj (hr.symm.trans hq)
  obtain ⟨x, hx, -⟩ := live f hf
  exact ⟨x, hx⟩

/-- No context has changed. -/
def SameAio (s t : Sys D) : Prop := t.aio = s.aio

instance : IsPreorder (Sys D) SameAio where
  refl _ := rfl
  trans _ _ _ h k := Eq.trans k h

section Slots

variable {e : Env D} (driver : ServesFiles e) {s t : Sys D}

include driver

omit driver in
/-- Writing a record back with another position, count or flags keeps every record. -/
theorem setFile_kept {f g : FilId} {r r' : File} (hr : s.ft.file f = some r) (ino : r'.ino = r.ino) :
    Kept s { s with ft.file := Function.update s.ft.file f (some r') } g := by
  intro x hx
  by_cases hgf : g = f
  · subst hgf
    obtain rfl := Option.some.inj (hr.symm.trans hx)
    exact ⟨r', Function.update_self .., ino⟩
  · exact ⟨x, (Function.update_of_ne hgf _ _).trans hx, rfl⟩

/-- A release changes the record it is for, which goes with its last reference. -/
theorem fRele_kept {f : FilId} {u : Unit} (run : fRele e f s = .ok (u, t)) :
    t.aio = s.aio ∧ t.ft.oftab = s.ft.oftab ∧ ∃ r, s.ft.file f = some r ∧
      ∀ g, ¬ (g = f ∧ r.ref = 1) → Kept s t g := by
  obtain ⟨r, _, hread, h1⟩ := bind_ok.mp run
  obtain ⟨hr, rfl⟩ := deref_ok.mp hread
  obtain ⟨_, _, hc, h2⟩ := bind_ok.mp h1
  obtain ⟨href, rfl⟩ := check_ok.mp hc
  obtain ⟨_, v, hv, h3⟩ := bind_ok.mp h2
  obtain rfl := write_ok.mp hv
  have href : r.ref ≠ 0 := of_decide_eq_true href
  by_cases hlast : r.ref - 1 = 0
  · rw [if_pos hlast] at h3
    obtain ⟨q, _, hread, h4⟩ := bind_ok.mp h3
    obtain ⟨-, rfl⟩ := deref_ok.mp hread
    obtain ⟨_, _, hc, h5⟩ := bind_ok.mp h4
    obtain ⟨-, rfl⟩ := check_ok.mp hc
    obtain ⟨err, w, hclose, h6⟩ := bind_ok.mp h5
    obtain ⟨ft, aio⟩ := driver.close _ _ _ _ _ hclose
    obtain ⟨_, _, hc, h7⟩ := bind_ok.mp h6
    obtain ⟨-, rfl⟩ := check_ok.mp hc
    obtain ⟨_, x, hrele, h8⟩ := bind_ok.mp h7
    obtain ⟨-, aio', ft'⟩ := iRele_refs driver.toServes hrele
    obtain rfl := write_ok.mp h8
    refine ⟨aio'.trans aio, (congrArg (·.oftab) (ft'.trans ft)), r, hr, fun g hne => .of_eq ?_⟩
    have hgf : g ≠ f := fun h => hne ⟨h, by omega⟩
    change Function.update x.ft.file f none g = s.ft.file g
    rw [Function.update_of_ne hgf, ft', ft]
    exact Function.update_of_ne hgf _ _
  · rw [if_neg hlast] at h3
    obtain ⟨-, rfl⟩ := pure_ok.mp h3
    refine ⟨rfl, rfl, r, hr, fun g _ => ?_⟩
    exact setFile_kept hr rfl

theorem close_holds {fd : ℤ} {n : ℤ} (careful : ∀ f, Destroys s f (.close fd) → ¬ Awaited s f)
    (run : sysioFdClose e fd s = .ok (n, t)) : Holds s t := by
  obtain ⟨o, _, hread, h1⟩ := bind_ok.mp run
  obtain ⟨hslot, rfl⟩ := read_ok.mp hread
  cases o with
  | none =>
    obtain ⟨-, rfl⟩ := pure_ok.mp h1
    exact Holds.refl _
  | some f =>
    obtain ⟨_, _, hset, h2⟩ := bind_ok.mp h1
    obtain rfl := write_ok.mp hset
    obtain ⟨_, v, hrele, h3⟩ := bind_ok.mp h2
    obtain ⟨-, rfl⟩ := pure_ok.mp h3
    obtain ⟨aio, -, r, hr, files⟩ := fRele_kept driver hrele
    refine ⟨aio, fun g awaited => files g ?_⟩
    rintro ⟨rfl, hlast⟩
    exact careful g ⟨hslot, r, hr, hlast⟩ awaited

omit driver in
theorem fdGrow_aio (n : ℕ) : Moves SameAio (fdGrow e n) :=
  moves_ite (fun _ => moves_pure _) fun _ => moves_bind (moves_read _) fun _ =>
    moves_ite (fun _ => moves_pure _) fun _ =>
    moves_bind (malloc_moves fun _ _ k => k.aio) fun _ => moves_ite (fun _ => moves_pure _) fun _ =>
    moves_bind (moves_write fun _ => rfl) fun _ => moves_pure _

omit driver in
theorem findFreeFildes_aio (low : ℕ) : Moves SameAio (findFreeFildes e low) :=
  moves_bind (moves_read _) fun _ => moves_bind (moves_ite (fun _ => fdGrow_aio _) fun _ =>
    moves_pure _) fun _ => moves_pure _

omit driver in
theorem fdGrow_small {n : ℕ} (run : fdGrow e n s = .ok (0, t)) : n < 2 ^ 31 := by
  unfold fdGrow at run
  by_contra hbig
  rw [if_pos (not_lt.mp hbig)] at run
  obtain ⟨herr, -⟩ := pure_ok.mp run
  cases herr

omit driver in
theorem slot_grown {fd : ℤ} (grown : Grown s t) : slot t fd = slot s fd := by
  obtain ⟨k, hk, -⟩ := grown
  unfold slot
  rw [hk]
  simp only [getD_append_none]

/-- Installing a record in a slot releases the record that stood there, if the caller chose the
slot. -/
theorem sysioFdSet_kept {f : FilId} {fd : ℤ} {force : Bool} {n : ℤ}
    (run : sysioFdSet e f fd force s = .ok (n, t)) : t.aio = s.aio ∧
      ∀ g, Kept s t g ∨
        (0 ≤ fd ∧ force = true ∧ fd.toNat + 1 < 2 ^ 31 ∧ slot s fd = some g ∧
          ∃ r, s.ft.file g = some r ∧ r.ref = 1) := by
  obtain ⟨k, u, hu, h1⟩ := bind_ok.mp run
  have found : Grown s u ∧ u.aio = s.aio ∧
      (0 ≤ k → slot u k = none ∨ k = fd ∧ 0 ≤ fd ∧ force = true) := by
    by_cases hfind : fd < 0 ∨ !force
    · rw [if_pos hfind] at hu
      obtain ⟨hgrown, hfree⟩ := findFreeFildes_ok hu
      refine ⟨hgrown, findFreeFildes_aio _ _ _ _ hu, fun hk => Or.inl ?_⟩
      exact (if_neg (not_lt.mpr hk)).trans (hfree hk)
    · rw [if_neg hfind] at hu
      obtain ⟨rfl, rfl⟩ := pure_ok.mp hu
      obtain ⟨hneg, hforce⟩ := not_or.mp hfind
      exact ⟨Grown.refl _, rfl, fun _ => Or.inr ⟨rfl, not_lt.mp hneg, by simpa using hforce⟩⟩
  obtain ⟨grown, aio, chosen⟩ := found
  have files : u.ft.file = s.ft.file := grown.file
  by_cases hneg : k < 0
  · rw [if_pos hneg] at h1
    obtain ⟨-, rfl⟩ := pure_ok.mp h1
    exact ⟨aio, fun g => Or.inl (.of_eq (congrFun files g))⟩
  rw [if_neg hneg] at h1
  obtain ⟨err, v, hv, h2⟩ := bind_ok.mp h1
  obtain ⟨grown', -, -⟩ := fdGrow_ok hv
  have aio' : v.aio = s.aio := (fdGrow_aio _ _ _ _ hv).trans aio
  have files' : v.ft.file = s.ft.file := grown'.file.trans files
  by_cases hfail : err ≠ 0
  · rw [if_pos hfail] at h2
    obtain ⟨-, rfl⟩ := pure_ok.mp h2
    exact ⟨aio', fun g => Or.inl (.of_eq (congrFun files' g))⟩
  rw [if_neg hfail] at h2
  obtain rfl := not_not.mp hfail
  have small := fdGrow_small hv
  obtain ⟨ofil, _, hread, h3⟩ := bind_ok.mp h2
  obtain ⟨hofil, rfl⟩ := read_ok.mp hread
  obtain ⟨_, w, hw, h4⟩ := bind_ok.mp h3
  obtain rfl := write_ok.mp hw
  obtain ⟨_, x, hx, h5⟩ := bind_ok.mp h4
  obtain ⟨-, rfl⟩ := pure_ok.mp h5
  cases ofil with
  | none =>
    obtain ⟨-, rfl⟩ := pure_ok.mp hx
    exact ⟨aio', fun g => Or.inl (.of_eq (congrFun files' g))⟩
  | some o =>
    obtain ⟨aio'', -, r, hr, kept⟩ := fRele_kept driver hx
    have hr' : s.ft.file o = some r := by
      rw [← files']
      exact hr
    refine ⟨aio''.trans aio', fun g => ?_⟩
    by_cases hlast : g = o ∧ r.ref = 1
    · obtain ⟨rfl, hone⟩ := hlast
      have slot_v : slot v k = some g := hofil
      rw [slot_grown grown'] at slot_v
      rcases chosen (not_lt.mp hneg) with hnone | ⟨rfl, hfd, hforce⟩
      · rw [hnone] at slot_v
        cases slot_v
      · rw [slot_grown grown] at slot_v
        exact Or.inr ⟨hfd, hforce, small, slot_v, r, hr', hone⟩
    · exact Or.inl (Kept.trans (.of_eq (congrFun files' g)) (kept g hlast))

theorem dup_holds {oldfd newfd : ℤ} {force : Bool} {n : ℤ}
    (careful : force = true → 0 ≤ newfd → ∀ f, Destroys s f (.dup2 oldfd newfd) → ¬ Awaited s f)
    (run : sysioFdDup e oldfd newfd force s = .ok (n, t)) : Holds s t := by
  unfold sysioFdDup at run
  by_cases hsame : oldfd = newfd ∧ 0 ≤ oldfd
  · rw [if_pos hsame] at run
    obtain ⟨-, rfl⟩ := pure_ok.mp run
    exact Holds.refl _
  rw [if_neg hsame] at run
  obtain ⟨o, _, hread, h1⟩ := bind_ok.mp run
  obtain ⟨hslot, rfl⟩ := read_ok.mp hread
  cases o with
  | none =>
    obtain ⟨-, rfl⟩ := pure_ok.mp h1
    exact Holds.refl _
  | some f =>
    obtain ⟨fd, v, hset, h2⟩ := bind_ok.mp h1
    obtain ⟨_, w, hw, h3⟩ := bind_ok.mp h2
    obtain ⟨-, rfl⟩ := pure_ok.mp h3
    obtain ⟨aio, files⟩ := sysioFdSet_kept driver hset
    have kept : ∀ g, Awaited s g → Kept s v g := by
      intro g awaited
      rcases files g with live | ⟨hfd, hforce, small, hnew, hlast⟩
      · exact live
      · have hne : oldfd ≠ newfd := fun h => hsame ⟨h, h ▸ hfd⟩
        have hold : slot s oldfd = some f := hslot
        exact (careful hforce hfd g ⟨hne, by rw [hold]; rfl, small, hnew, hlast⟩ awaited).elim
    rcases when_ok.mp hw with ⟨-, href⟩ | ⟨-, rfl⟩
    · obtain ⟨r, _, hread, hput⟩ := bind_ok.mp href
      obtain ⟨hr, rfl⟩ := deref_ok.mp hread
      obtain rfl := write_ok.mp hput
      exact ⟨aio, fun g awaited => (kept g awaited).trans (setFile_kept hr rfl)⟩
    · exact ⟨aio, kept⟩

end Slots

theorem registers_nodup (s : Sys D) (call : Call) : (registers s call).Nodup := by
  cases call with
  | iread x wr fd count cc => cases h : slot s fd <;> simp [registers, h]
  | ireadv x wr fd lens cc => cases h : slot s fd <;> simp [registers, h]
  | ipread | ipreadv | ireadx => simp [registers]
  | _ => exact List.nodup_nil

theorem registers_target {s : Sys D} {call : Call} {f : FilId}
    (hf : .fcompletio f ∈ registers s call) : subject s call = some f := by
  cases call with
  | iread x wr fd count cc => cases h : slot s fd <;> simp_all [registers, subject]
  | ireadv x wr fd lens cc => cases h : slot s fd <;> simp_all [registers, subject]
  | ipread | ipreadv | ireadx => simp [registers] at hf
  | _ => cases hf

section Callbacks

variable {c : IocId} {r : Ioctx} {s : Sys D}

/-- A callback returns where the record it advances is there, open on the inode of the context and
with room for the count. -/
theorem runCallback_returns {cb : Callback} (hr : s.aio.ioctx c = some r)
    (ready : ∀ f, cb = .fcompletio f → ∃ x, s.ft.file f = some x ∧ x.ino = r.ino ∧
      (0 < r.cc → -(2 ^ 63) ≤ x.pos + r.cc ∧ x.pos + r.cc < 2 ^ 63)) :
    ∃ t, (runCallback c cb : Sysio D Unit) s = .ok ((), t) := by
  have freed : ∀ o : Option VecId, ∃ t, (ifSome o freeVec : Sysio D Unit) s = .ok ((), t) := by
    intro o
    cases o with
    | none => exact ⟨s, rfl⟩
    | some v => exact ⟨_, rfl⟩
  cases cb with
  | freeIov =>
    obtain ⟨t, ht⟩ := freed r.iov
    exact ⟨_, bind_ok.mpr ⟨r, s, deref_ok.mpr ⟨hr, rfl⟩, bind_ok.mpr ⟨(), t, ht, write_ok.mpr rfl⟩⟩⟩
  | freeXtv =>
    obtain ⟨t, ht⟩ := freed r.xtv
    exact ⟨_, bind_ok.mpr ⟨r, s, deref_ok.mpr ⟨hr, rfl⟩, bind_ok.mpr ⟨(), t, ht, write_ok.mpr rfl⟩⟩⟩
  | fcompletio f =>
    obtain ⟨x, hx, hino, room⟩ := ready f rfl
    have context : (ioctxAt c : Sysio D Ioctx) s = .ok (r, s) := deref_ok.mpr ⟨hr, rfl⟩
    change ∃ t, sysioFcompletio c f s = .ok ((), t)
    unfold sysioFcompletio
    rw [bind_run context]
    by_cases hcc : r.cc ≤ 0
    · rw [if_pos hcc]
      exact ⟨s, rfl⟩
    · obtain ⟨low, high⟩ := room (not_le.mp hcc)
      have sum : SysioReconcile.wrap64 (x.pos + r.cc) = x.pos + r.cc := wrap64_fits low high
      have further : ¬ x.pos + r.cc ≤ x.pos := by omega
      have file : (fileAt f : Sysio D File) s = .ok (x, s) := deref_ok.mpr ⟨hx, rfl⟩
      rw [if_neg hcc, bind_run file]
      refine ⟨_, bind_ok.mpr ⟨(), s, check_ok.mpr ⟨decide_eq_true hino.symm, rfl⟩,
        bind_ok.mpr ⟨(), s, check_ok.mpr ⟨?_, rfl⟩, write_ok.mpr rfl⟩⟩⟩
      simp [sum, further]

theorem runCallbacks_returns {l : List Callback} (hr : s.aio.ioctx c = some r) (nodup : l.Nodup)
    (ready : ∀ f, .fcompletio f ∈ l → ∃ x, s.ft.file f = some x ∧ x.ino = r.ino ∧
      (0 < r.cc → -(2 ^ 63) ≤ x.pos + r.cc ∧ x.pos + r.cc < 2 ^ 63)) :
    ∃ t, (runCallbacks c l : Sysio D Unit) s = .ok ((), t) := by
  induction l generalizing s r with
  | nil => exact ⟨s, rfl⟩
  | cons cb l ih =>
    obtain ⟨once, nodup⟩ := List.nodup_cons.mp nodup
    have first : ∃ u, (runCallback c cb : Sysio D Unit) s = .ok ((), u) :=
      runCallback_returns hr fun f hf => ready f (hf ▸ List.mem_cons_self)
    obtain ⟨u, hu⟩ := first
    obtain ⟨iov, called⟩ := runCallback_ok hr hu
    have own : u.aio.ioctx c = some { r with iov := iov } := by rw [called.ioctx, Function.update_self]
    -- The callbacks of the rest are for other records, which this one has left alone.
    obtain ⟨t, ht⟩ := ih (s := { u with aio.ran := u.aio.ran ++ [(c, cb)] })
      (r := { r with iov := iov }) own nodup fun f hf => by
        obtain ⟨x, hx, rest⟩ := ready f (List.mem_cons_of_mem _ hf)
        have other : [cb].count (.fcompletio f) = 0 :=
          List.count_eq_zero_of_not_mem fun h => once (List.mem_singleton.mp h ▸ hf)
        refine ⟨x, ?_, rest⟩
        change u.ft.file f = some x
        rw [called.files f, other, hx]
        rfl
    exact ⟨t, bind_ok.mpr ⟨(), u, hu, bind_ok.mpr ⟨(), _, write_ok.mpr rfl, ht⟩⟩⟩

end Callbacks

section Steps

variable {lib : Library D} (driver : ServesFiles lib.env) {s t : Sys D} {c : ℕ}

theorem Live.accepted {i : InoId} {cbs : List Callback} (k : Live s) (m : Accepted i cbs s t)
    (nodup : cbs.Nodup)
    (targets : ∀ f, .fcompletio f ∈ cbs → ∃ x, s.ft.file f = some x ∧ x.ino = i) :
    Live t where
  nodup := by
    rw [m.aioq]
    exact List.nodup_cons.mpr ⟨fun h => absurd (k.bound _ h) (lt_irrefl _), k.nodup⟩
  bound d hd := by
    rw [m.aioq] at hd
    rw [m.next]
    rcases List.mem_cons.mp hd with rfl | hd
    · exact Nat.lt_succ_self _
    · exact Nat.lt_succ_of_lt (k.bound d hd)
  context d hd := by
    rw [m.aioq] at hd
    rw [m.ft]
    rcases List.mem_cons.mp hd with rfl | hd
    · obtain ⟨r, hr, heap, rfl, rfl, -⟩ := m.own
      exact ⟨r, hr, heap, nodup, targets⟩
    · rw [m.others d (ne_of_lt (k.bound d hd))]
      exact k.context d hd

theorem Live.served (k : Live s) (m : Served c s t) : Live t where
  nodup := by
    rw [m.aioq]
    exact k.nodup
  bound d hd := by
    rw [m.aioq] at hd
    rw [m.nextIoctx]
    exact k.bound d hd
  context d hd := by
    rw [m.aioq] at hd
    rw [m.ft]
    obtain ⟨r, hr, rest⟩ := k.context d hd
    by_cases hdc : d = c
    · subst hdc
      obtain ⟨done, cc, errno, ht⟩ := m.own r hr
      exact ⟨_, ht, rest⟩
    · exact ⟨r, (m.others d hdc).trans hr, rest⟩

theorem Live.completed {r : Ioctx} (k : Live s) (m : Completed c r s t) : Live t where
  nodup := by
    rw [m.aioq]
    exact k.nodup.erase c
  bound d hd := by
    rw [m.aioq] at hd
    rw [m.nextIoctx]
    exact k.bound d (List.mem_of_mem_erase hd)
  context d hd := by
    rw [m.aioq, k.nodup.mem_erase_iff] at hd
    rw [m.others d hd.1]
    obtain ⟨q, hq, heap, nodup, live⟩ := k.context d hd.2
    refine ⟨q, hq, heap, nodup, fun f hf => ?_⟩
    obtain ⟨x, hx, hino⟩ := live f hf
    refine ⟨{ x with pos := (bump r.cc)^[r.cbq.count (.fcompletio f)] x.pos }, ?_, hino⟩
    rw [m.files f, hx]
    rfl

include driver

/-- What one `iowait` does to the open files. -/
theorem iowait_advances {polls : ℕ} {ret : Ret} (k : Live s) (hmem : c ∈ s.aio.aioq)
    (fits : ∀ u q, polled lib.env c polls s = .ok ((), u) → u.aio.ioctx c = some q → Fits q u)
    (run : interfaceIowait lib.env c polls s = .ok (ret, t)) : Live t ∧
    ∃ r u q, s.aio.ioctx c = some r ∧ polled lib.env c polls s = .ok ((), u) ∧
      u.aio.ioctx c = some q ∧ (0 ≤ q.cc → ret = (q.cc, 0)) ∧
      (∀ f, .fcompletio f ∈ r.cbq → ∃ x, s.ft.file f = some x ∧
        t.ft.file f = some { x with pos := x.pos + max q.cc 0 }) ∧
      ∀ f, .fcompletio f ∉ r.cbq → t.ft.file f = s.ft.file f := by
  obtain ⟨r, hr, heap, nodup, live⟩ := k.context c hmem
  obtain ⟨u, q, hpolled, hq, completed, hret⟩ := iowait_ok driver.toServes hmem hr heap run
  have served : Served c s u := polled_served driver.toServes polls _ _ _ hpolled
  have room := fits u q hpolled hq
  have files := completed.files
  obtain ⟨done, cc, errno, hu⟩ := served.own r hr
  obtain rfl := Option.some.inj (hu.symm.trans hq)
  rw [served.ft] at files
  refine ⟨(k.served served).completed completed, r, u, _, hr, hpolled, hq, hret, fun f hf => ?_,
    fun f hf => ?_⟩
  · obtain ⟨x, hx, -⟩ := live f hf
    refine ⟨x, hx, ?_⟩
    have moved : bump cc x.pos = x.pos + max cc 0 := by
      by_cases hcc : 0 < cc
      · obtain ⟨low, high⟩ := room f x hf (by rw [served.ft]; exact hx) hcc
        exact bump_fits low high
      · rw [bump, if_pos (not_lt.mp hcc), max_eq_right (not_lt.mp hcc), Int.add_zero]
    rw [files f, hx, Option.map_some, List.count_eq_one_of_mem nodup hf, Function.iterate_one, moved]
  · rw [files f, List.count_eq_zero_of_not_mem hf]
    exact (file_same rfl).symm

/-- Once the driver is done with a queued context, its callbacks find what they need. -/
theorem Live.returns {polls : ℕ} {u : Sys D} {q : Ioctx} (k : Live s) (hmem : c ∈ s.aio.aioq)
    (hpolled : polled lib.env c polls s = .ok ((), u)) (hq : u.aio.ioctx c = some q)
    (fits : Fits q u) :
    ∃ v, (setIoctx c { q with cbq := [] } >>= fun _ => runCallbacks c q.cbq) u = .ok ((), v) := by
  have served : Served c s u := polled_served driver.toServes polls _ _ _ hpolled
  have hmem' : c ∈ u.aio.aioq := by
    rw [served.aioq]
    exact hmem
  obtain ⟨r, hr, -, nodup, live⟩ := (k.served served).context c hmem'
  obtain rfl := Option.some.inj (hr.symm.trans hq)
  have run := runCallbacks_returns (l := r.cbq) (r := { r with cbq := [] })
    (s := { u with aio.ioctx := Function.update u.aio.ioctx c (some { r with cbq := [] }) })
    (Function.update_self ..) nodup fun f hf => by
      obtain ⟨x, hx, hino⟩ := live f hf
      exact ⟨x, hx, hino, fits f x hf hx⟩
  obtain ⟨v, hv⟩ := run
  exact ⟨v, bind_ok.mpr ⟨(), _, write_ok.mpr rfl, hv⟩⟩

/-- Every call keeps the records alive that queued contexts are to advance. -/
theorem Live.step {call : Call} {ret : Ret} (k : Live s) (careful : Careful lib.env s call)
    (run : step lib call s = .ok (ret, t)) : Live t := by
  obtain ⟨(post | ⟨c, rfl⟩ | ⟨c, polls, rfl⟩) | ⟨fd, rfl⟩ | ⟨fd, rfl⟩ | ⟨oldfd, newfd, rfl⟩, spared, fits⟩ :=
    careful
  · rcases post_outcome driver.toServes post run with
      ⟨-, refused⟩ | ⟨f, r, hf, hr, -, accepted⟩ | ⟨-, l, took⟩
    · exact k.keep refused.aioq refused.next (fun c hc => refused.others c (k.bound c hc))
        fun f _ => .of_eq (by rw [refused.ft])
    · refine k.accepted accepted (registers_nodup s call) fun g hg => ?_
      obtain rfl := Option.some.inj (hf.symm.trans (registers_target hg))
      exact ⟨r, hr, rfl⟩
    · exact k.keep (by rw [took.aio]) (by rw [took.aio]) (fun _ _ => by rw [took.aio])
        fun f _ => .of_eq (by rw [took.ft])
  · exact k.served (iodone_served driver.toServes run)
  · by_cases hmem : c ∈ s.aio.aioq
    · exact (iowait_advances driver k hmem (fun u q => fits c polls u q rfl) run).1
    · obtain ⟨found, _, hfind, h1⟩ := bind_ok.mp run
      obtain ⟨hfound, rfl⟩ := read_ok.mp hfind
      rw [find_none hmem] at hfound
      subst hfound
      obtain ⟨-, rfl⟩ := pure_ok.mp h1
      exact k
  · obtain ⟨err, u, hclose, h1⟩ := bind_ok.mp run
    obtain ⟨-, rfl⟩ := pure_ok.mp h1
    exact k.holds (close_holds driver spared hclose)
  · obtain ⟨n, u, hdup, h1⟩ := bind_ok.mp run
    obtain ⟨-, rfl⟩ := pure_ok.mp h1
    exact k.holds (dup_holds driver (fun h => by cases h) hdup)
  · change interfaceDup2 lib.env oldfd newfd s = .ok (ret, t) at run
    unfold interfaceDup2 at run
    by_cases hneg : newfd < 0
    · rw [if_pos hneg] at run
      obtain ⟨-, rfl⟩ := pure_ok.mp run
      exact k
    · rw [if_neg hneg] at run
      obtain ⟨n, u, hdup, h1⟩ := bind_ok.mp run
      obtain ⟨-, rfl⟩ := pure_ok.mp h1
      exact k.holds (dup_holds driver (fun _ _ => spared) hdup)

/-- As long as no call destroys a record that a queued context is to advance, and no count takes a
position out of range, completions only touch records that are there and advance each by what was
transferred. -/
theorem file_completions {s₀ : Sys D} {h : List (CallEvent D)} (idle : s₀.aio.aioq = [])
    (run : Traced (SysioSystem.step lib) (Careful lib.env) s₀ h s) : Completions lib.env h s := by
  have start : Live s₀ := by
    refine ⟨by rw [idle]; exact List.nodup_nil, fun c hc => ?_, fun c hc => ?_⟩
    all_goals
      rw [idle] at hc
      cases hc
  have all := run.invariant (I := fun h s => Live s ∧ Completions lib.env h s)
    ⟨start, fun f => start.awaited, fun c hc polls u q => start.returns driver hc,
      fun _ hev => by cases hev⟩ fun h s call ret t k careful last => ?_
  · exact all.2
  have live := k.1.step driver careful last
  refine ⟨live, fun f => live.awaited, fun c hc polls u q => live.returns driver hc,
    List.forall_mem_cons.mpr ⟨fun c polls hcall hmem => ?_, k.2.advanced⟩⟩
  subst hcall
  exact (iowait_advances driver k.1 hmem (fun u q => careful.2.2 c polls u q rfl) last).2

end Steps

theorem promptLibrary_servesFiles : ServesFiles promptLibrary.env where
  toServes := promptLibrary_serves
  close _ p := (FuseMoves.onFile_driver p _).mono fun _ _ k => ⟨k.ft, k.aio⟩

/-- A call on a descriptor that shares its open file with another destroys no record. -/
theorem close_shared {s : Sys D} {fd : ℤ}
    (shared : ((slot s fd).bind s.ft.file).all (fun r => r.ref != 1) = true) :
    ∀ f, Destroys s f (.close fd) → ¬ Awaited s f := by
  rintro f ⟨hslot, r, hr, hone⟩
  rw [hslot, Option.bind_some, hr] at shared
  simp [hone] at shared

/-- The state after the calls of a list, the last one first in the list. -/
def promptRun : List Call → Sys (FuseData Unit)
  | [] => calmRun readyCalls
  | call :: l => (step promptLibrary call).final (promptRun l)

theorem promptRun_cons {ok : Sys (FuseData Unit) → Call → Prop} {l : List Call}
    {h : List (CallEvent (FuseData Unit))} {call : Call} {ret : Ret}
    (run : Traced (step promptLibrary) ok (calmRun readyCalls) h (promptRun l))
    (allowed : ok (promptRun l) call)
    (last : (step promptLibrary call).value (promptRun l) = some ret) :
    Traced (step promptLibrary) ok (calmRun readyCalls)
      (⟨promptRun l, call, ret, promptRun (call :: l)⟩ :: h) (promptRun (call :: l)) :=
  .cons run allowed (ok_of_value last)

/-- The count of a context, if it is there, fits behind the positions it is to advance. -/
def roomy (c : IocId) (s : Sys D) : Bool :=
  (s.aio.ioctx c).all fun q => q.cbq.all fun
    | .fcompletio f => (s.ft.file f).all fun x =>
      decide (-(2 ^ 63) ≤ x.pos + q.cc ∧ x.pos + q.cc < 2 ^ 63)
    | _ => true

/-- Waiting is careful where the polling leaves the context with room. -/
theorem iowait_roomy {e : Env D} {c : IocId} {polls : ℕ} {s : Sys D}
    (room : roomy c ((polled e c polls).final s) = true) : Careful e s (.iowait c polls) := by
  refine ⟨Or.inl (Or.inr (Or.inr ⟨c, polls, rfl⟩)), fun f h => h.elim, ?_⟩
  intro d n u q hcall hpolled hq f x hf hx _
  obtain ⟨rfl, rfl⟩ := Call.iowait.inj hcall
  have left : (polled e c polls).final s = u := by
    unfold Exec.final
    rw [hpolled]
  rw [left, roomy, hq, Option.all_some] at room
  have fits := List.all_eq_true.mp room _ hf
  simp only [hx, Option.all_some, decide_eq_true_eq] at fits
  exact fits

/-- A read is posted; the descriptor is duplicated and closed before the read is waited for. -/
theorem file_completions_shared : ∃ h,
    Traced (step promptLibrary) (Careful promptLibrary.env) (calmRun readyCalls) h
      (promptRun [.iowait 0 1, .close 0, .dup 0, .iread 7 false 0 1 1]) ∧
    h.map (·.result) = [(1, 0), (0, 0), (1, 0), (0, 0)] ∧
    Completions promptLibrary.env h
      (promptRun [.iowait 0 1, .close 0, .dup 0, .iread 7 false 0 1 1]) := by
  have idle : (calmRun readyCalls).aio.aioq = [] := by decide +kernel
  have posted := @promptRun_cons (Careful promptLibrary.env) [] _ (.iread 7 false 0 1 1) (0, 0) .nil
    ⟨Or.inl (Or.inl rfl), fun f h => h.elim, fun _ _ _ _ h => by cases h⟩ (by decide +kernel)
  have duplicated := @promptRun_cons _ _ _ (.dup 0) (1, 0) posted
    ⟨Or.inr (Or.inr (Or.inl ⟨0, rfl⟩)), fun f h => h.elim, fun _ _ _ _ h => by cases h⟩
    (by decide +kernel)
  have closed := @promptRun_cons _ _ _ (.close 0) (0, 0) duplicated
    ⟨Or.inr (Or.inl ⟨0, rfl⟩), close_shared (by decide +kernel), fun _ _ _ _ h => by cases h⟩
    (by decide +kernel)
  have waited := @promptRun_cons _ _ _ (.iowait 0 1) (1, 0) closed
    (iowait_roomy (by decide +kernel)) (by decide +kernel)
  exact ⟨_, waited, rfl, file_completions promptLibrary_servesFiles idle waited⟩

/-- A queued context is to advance a record that is gone. -/
def stale (s : Sys D) : Bool :=
  s.aio.aioq.any fun c => (s.aio.ioctx c).any fun r => r.cbq.any fun
    | .fcompletio f => (s.ft.file f).isNone
    | _ => false

theorem not_live_of_stale {s : Sys D} (h : stale s = true) :
    ¬ ∀ f, Awaited s f → ∃ x, s.ft.file f = some x := by
  intro live
  obtain ⟨c, hc, hany⟩ := List.any_eq_true.mp h
  obtain ⟨r, hr, hany⟩ := (Option.any_eq_true _ _).mp hany
  obtain ⟨cb, hcb, hgone⟩ := List.any_eq_true.mp hany
  cases cb with
  | freeIov | freeXtv => cases hgone
  | fcompletio f =>
    obtain ⟨x, hx⟩ := live f ⟨c, hc, r, hr, hcb⟩
    have gone : (s.ft.file f).isNone = true := hgone
    rw [hx] at gone
    cases gone

/-- A read is posted and its descriptor closed: the record goes, and the callback is still to
come. -/
theorem file_completions_closed : ¬ ∀ (s : Sys (FuseData Unit)) h,
    Traced (step promptLibrary) (fun _ call => InTraffic call) (calmRun readyCalls) h s →
    Completions promptLibrary.env h s := by
  intro all
  have posted := @promptRun_cons (fun _ call => InTraffic call) [] _ (.iread 7 false 0 1 1) (0, 0)
    .nil (Or.inl (Or.inl rfl)) (by decide +kernel)
  have closed := @promptRun_cons _ _ _ (.close 0) (0, 0) posted (Or.inr (Or.inl ⟨0, rfl⟩))
    (by decide +kernel)
  exact not_live_of_stale (by decide +kernel) (all _ _ closed).live

end FileCompletions
