import DirectFuse.FuseAccounts
import Mathlib.Data.List.Pairwise

/-! The life of an I/O context. A post queues it, the driver fills it in, and `iowait` runs its
callbacks and takes it off the queue. -/
namespace IoContexts

open ExecLogic SysioState SysioInode SysioFile SysioInterface SysioSystem CoreMoves InodeRefs
open FuseDriver FuseSystem
open SysioReconcile (toInt wrap64)

variable {D : Type}

/-- What a driver does to serve the context `c`: it may fill in the count, the error and the done
flag. Files, references and the queue stay as they are. -/
structure Served (c : IocId) (s t : Sys D) : Prop where
  ft : t.ft = s.ft
  refs : ∀ i, refOf t i = refOf s i
  aioq : t.aio.aioq = s.aio.aioq
  nextIoctx : t.aio.nextIoctx = s.aio.nextIoctx
  frees : t.aio.frees = s.aio.frees
  nextVec : t.aio.nextVec = s.aio.nextVec
  ran : t.aio.ran = s.aio.ran
  others : ∀ d, d ≠ c → t.aio.ioctx d = s.aio.ioctx d
  own : ∀ r, s.aio.ioctx c = some r →
    ∃ done cc errno, t.aio.ioctx c = some { r with done := done, cc := cc, errno := errno }

instance (c : IocId) : IsPreorder (Sys D) (Served c) where
  refl _ := ⟨rfl, fun _ => rfl, rfl, rfl, rfl, rfl, rfl, fun _ _ => rfl,
    fun r hr => ⟨r.done, r.cc, r.errno, hr⟩⟩
  trans s t u h k := by
    refine ⟨k.ft.trans h.ft, fun i => (k.refs i).trans (h.refs i), k.aioq.trans h.aioq,
      k.nextIoctx.trans h.nextIoctx, k.frees.trans h.frees, k.nextVec.trans h.nextVec,
      k.ran.trans h.ran, fun d hd => (k.others d hd).trans (h.others d hd), fun r hr => ?_⟩
    obtain ⟨_, _, _, ht⟩ := h.own r hr
    obtain ⟨done, cc, errno, hu⟩ := k.own _ ht
    exact ⟨done, cc, errno, hu⟩

/-- What the asynchronous calls need of the drivers. -/
structure Serves (e : Env D) : Prop where
  post : ∀ i p c, Moves (Served c) (e.ops.post i p c)
  iodone : ∀ i c, Moves (Served c) (e.ops.iodone i c)
  gone : ∀ i, Moves DriverOnly (e.ops.gone i)

/-- The vectors that the callbacks of a list free, when they run on a context with these two. -/
def released : List Callback → Option VecId → Option VecId → List VecId
  | [], _, _ => []
  | .freeIov :: l, iov, xtv => iov.toList ++ released l none xtv
  | .freeXtv :: l, _, xtv => xtv.toList ++ released l none xtv
  | .fcompletio _ :: l, iov, xtv => released l iov xtv

/-- Where a completion of `cc` bytes leaves a file position. -/
def bump (cc pos : ℤ) : ℤ := if cc ≤ 0 then pos else wrap64 (pos + cc)

theorem wrap64_fits {x : ℤ} (low : -(2 ^ 63) ≤ x) (high : x < 2 ^ 63) : wrap64 x = x :=
  Int.bmod_eq_of_le (by omega) (by omega)

theorem bump_fits {cc pos : ℤ} (low : -(2 ^ 63) ≤ pos + cc) (high : pos + cc < 2 ^ 63) :
    bump cc pos = pos + max cc 0 := by
  unfold bump
  by_cases hcc : cc ≤ 0
  · rw [if_pos hcc, max_eq_right hcc, Int.add_zero]
  · rw [if_neg hcc, max_eq_left (not_le.mp hcc).le, wrap64_fits low high]

/-- What has happened after the callbacks `l` have run on the context `c` with the record `r`. -/
structure Ran (c : IocId) (l : List Callback) (r : Ioctx) (s t : Sys D) : Prop where
  ic : t.ic = s.ic
  aioq : t.aio.aioq = s.aio.aioq
  nextIoctx : t.aio.nextIoctx = s.aio.nextIoctx
  nextVec : t.aio.nextVec = s.aio.nextVec
  others : ∀ d, d ≠ c → t.aio.ioctx d = s.aio.ioctx d
  frees : ∀ v, t.aio.frees v = s.aio.frees v + (released l r.iov r.xtv).count v
  ran : t.aio.ran = s.aio.ran ++ l.map fun cb => (c, cb)
  oftab : t.ft.oftab = s.ft.oftab
  nextFile : t.ft.nextFile = s.ft.nextFile
  files : ∀ f, t.ft.file f = (s.ft.file f).map fun x =>
    { x with pos := (bump r.cc)^[l.count (.fcompletio f)] x.pos }

section Callbacks

variable {c : IocId} {r : Ioctx} {s t : Sys D}

/-- What one callback does to its context, before it is put on record. -/
structure Called (c : IocId) (cb : Callback) (r r' : Ioctx) (s t : Sys D) : Prop where
  ic : t.ic = s.ic
  aioq : t.aio.aioq = s.aio.aioq
  nextIoctx : t.aio.nextIoctx = s.aio.nextIoctx
  nextVec : t.aio.nextVec = s.aio.nextVec
  ioctx : t.aio.ioctx = Function.update s.aio.ioctx c (some r')
  frees : ∀ v l, t.aio.frees v + (released l r'.iov r'.xtv).count v =
    s.aio.frees v + (released (cb :: l) r.iov r.xtv).count v
  ran : t.aio.ran = s.aio.ran
  cc : r'.cc = r.cc
  oftab : t.ft.oftab = s.ft.oftab
  nextFile : t.ft.nextFile = s.ft.nextFile
  files : ∀ f, t.ft.file f = (s.ft.file f).map fun x =>
    { x with pos := (bump r.cc)^[[cb].count (.fcompletio f)] x.pos }

/-- Freeing the vector a context may have. -/
theorem freeVec_ok {o : Option VecId} {u : Unit}
    (run : (ifSome o freeVec : Sysio D Unit) s = .ok (u, t)) : ∃ frees,
    t = { s with aio.frees := frees } ∧ ∀ v, frees v = s.aio.frees v + o.toList.count v := by
  cases o with
  | none =>
    obtain ⟨-, rfl⟩ := pure_ok.mp run
    exact ⟨_, rfl, fun v => by simp⟩
  | some w =>
    change freeVec w s = .ok (u, t) at run
    obtain rfl := write_ok.mp run
    refine ⟨_, rfl, fun v => ?_⟩
    by_cases hv : v = w
    · simp [hv]
    · simp [hv, Ne.symm hv]

theorem file_same {f : FilId} {cc : ℤ} {n : ℕ} (hn : n = 0) :
    s.ft.file f = (s.ft.file f).map fun x => { x with pos := (bump cc)^[n] x.pos } := by
  subst hn
  simp

theorem runCallback_ok {cb : Callback} {u : Unit} (hr : s.aio.ioctx c = some r)
    (run : (runCallback c cb : Sysio D Unit) s = .ok (u, t)) :
    ∃ iov, Called c cb r { r with iov := iov } s t := by
  cases cb with
  | freeIov =>
    obtain ⟨r', _, hread, h1⟩ := bind_ok.mp run
    obtain ⟨hr', rfl⟩ := deref_ok.mp hread
    obtain rfl : r = r' := Option.some.inj (hr.symm.trans hr')
    obtain ⟨_, w, hfree, h2⟩ := bind_ok.mp h1
    obtain ⟨frees, rfl, hcount⟩ := freeVec_ok hfree
    obtain rfl := write_ok.mp h2
    refine ⟨none, rfl, rfl, rfl, rfl, rfl, fun v l => ?_, rfl, rfl, rfl, rfl,
      fun f => file_same (by simp)⟩
    simp only [hcount, released, List.count_append]
    omega
  | freeXtv =>
    obtain ⟨r', _, hread, h1⟩ := bind_ok.mp run
    obtain ⟨hr', rfl⟩ := deref_ok.mp hread
    obtain rfl : r = r' := Option.some.inj (hr.symm.trans hr')
    obtain ⟨_, w, hfree, h2⟩ := bind_ok.mp h1
    obtain ⟨frees, rfl, hcount⟩ := freeVec_ok hfree
    obtain rfl := write_ok.mp h2
    refine ⟨none, rfl, rfl, rfl, rfl, rfl, fun v l => ?_, rfl, rfl, rfl, rfl,
      fun f => file_same (by simp)⟩
    simp only [hcount, released, List.count_append]
    omega
  | fcompletio g =>
    obtain ⟨r', _, hread, h1⟩ := bind_ok.mp run
    obtain ⟨hr', rfl⟩ := deref_ok.mp hread
    obtain rfl : r = r' := Option.some.inj (hr.symm.trans hr')
    have same : s.aio.ioctx = Function.update s.aio.ioctx c (some { r with iov := r.iov }) :=
      (Function.update_eq_self_iff.mpr hr.symm).symm
    by_cases hcc : r.cc ≤ 0
    · rw [if_pos hcc] at h1
      obtain ⟨-, rfl⟩ := pure_ok.mp h1
      have still : bump r.cc = id := by
        funext pos
        exact if_pos hcc
      refine ⟨r.iov, rfl, rfl, rfl, rfl, same, fun v l => rfl, rfl, rfl, rfl, rfl, fun f => ?_⟩
      simp [still]
    · rw [if_neg hcc] at h1
      obtain ⟨fr, _, hread, h2⟩ := bind_ok.mp h1
      obtain ⟨hfr, rfl⟩ := deref_ok.mp hread
      obtain ⟨_, _, hino, h3⟩ := bind_ok.mp h2
      obtain ⟨-, rfl⟩ := check_ok.mp hino
      obtain ⟨_, _, hfits, h4⟩ := bind_ok.mp h3
      obtain ⟨-, rfl⟩ := check_ok.mp hfits
      obtain rfl := write_ok.mp h4
      refine ⟨r.iov, rfl, rfl, rfl, rfl, same, fun v l => rfl, rfl, rfl, rfl, rfl, fun f => ?_⟩
      by_cases hf : f = g
      · subst hf
        simp [hfr, bump, hcc]
      · simp [hf, Ne.symm hf]

theorem runCallbacks_ok {l : List Callback} {u : Unit} (hr : s.aio.ioctx c = some r)
    (run : (runCallbacks c l : Sysio D Unit) s = .ok (u, t)) :
    Ran c l r s t ∧ ∃ iov, t.aio.ioctx c = some { r with iov := iov } := by
  induction l generalizing s r with
  | nil =>
    obtain ⟨-, rfl⟩ := pure_ok.mp run
    exact ⟨⟨rfl, rfl, rfl, rfl, fun _ _ => rfl, fun _ => by simp [released], by simp, rfl, rfl,
      fun f => file_same (by simp)⟩, r.iov, hr⟩
  | cons cb l ih =>
    obtain ⟨_, w, hcall, h1⟩ := bind_ok.mp run
    obtain ⟨_, _, hmark, h2⟩ := bind_ok.mp h1
    obtain rfl := write_ok.mp hmark
    obtain ⟨iov, k⟩ := runCallback_ok hr hcall
    have own : w.aio.ioctx c = some { r with iov := iov } := by rw [k.ioctx, Function.update_self]
    obtain ⟨m, iov', own'⟩ := @ih { r with iov := iov } { w with aio.ran := w.aio.ran ++ [(c, cb)] } own h2
    refine ⟨⟨m.ic.trans k.ic, m.aioq.trans k.aioq, m.nextIoctx.trans k.nextIoctx,
      m.nextVec.trans k.nextVec, fun d hd => ?_, fun v => ?_, ?_, m.oftab.trans k.oftab,
      m.nextFile.trans k.nextFile, fun f => ?_⟩, iov', own'⟩
    · rw [m.others d hd]
      simp only [k.ioctx, Function.update_of_ne hd]
    · rw [m.frees v]
      exact k.frees v l
    · rw [m.ran]
      simp [k.ran]
    · rw [m.files f]
      simp only [k.files f, Option.map_map, Function.comp_def]
      have split : (cb :: l).count (.fcompletio f) =
          l.count (.fcompletio f) + [cb].count (.fcompletio f) := by
        rw [← List.singleton_append, List.count_append, Nat.add_comm]
      simp only [split, Function.iterate_add_apply]

end Callbacks

/-- What has happened when the context `c` with the record `r` has been completed. -/
structure Completed (c : IocId) (r : Ioctx) (s t : Sys D) : Prop where
  aioq : t.aio.aioq = s.aio.aioq.erase c
  nextIoctx : t.aio.nextIoctx = s.aio.nextIoctx
  nextVec : t.aio.nextVec = s.aio.nextVec
  others : ∀ d, d ≠ c → t.aio.ioctx d = s.aio.ioctx d
  refs : ∀ i, refOf t i = refOf s i - one (some r.ino) i
  frees : ∀ v, t.aio.frees v = s.aio.frees v + (released r.cbq r.iov r.xtv).count v
  ran : t.aio.ran = s.aio.ran ++ r.cbq.map fun cb => (c, cb)
  oftab : t.ft.oftab = s.ft.oftab
  nextFile : t.ft.nextFile = s.ft.nextFile
  files : ∀ f, t.ft.file f = (s.ft.file f).map fun x =>
    { x with pos := (bump r.cc)^[r.cbq.count (.fcompletio f)] x.pos }

section Driver

variable {e : Env D} (driver : Serves e) {s t : Sys D} {c : IocId} {r : Ioctx}

include driver

theorem iRele_refs {i : InoId} {u : Unit} (run : iRele e i s = .ok (u, t)) :
    (∀ j, refOf t j = refOf s j - one (some i) j) ∧ t.aio = s.aio ∧ t.ft = s.ft := by
  obtain ⟨r, _, hread, h1⟩ := bind_ok.mp run
  obtain ⟨hr, rfl⟩ := deref_ok.mp hread
  obtain ⟨_, _, has, h2⟩ := bind_ok.mp h1
  obtain ⟨href, rfl⟩ := check_ok.mp has
  obtain ⟨_, w, hset, h3⟩ := bind_ok.mp h2
  obtain rfl := write_ok.mp hset
  have positive : r.ref ≠ 0 := of_decide_eq_true href
  by_cases hlast : r.ref - 1 = 0 ∧ r.zombie
  · rw [if_pos hlast] at h3
    obtain ⟨r', hr', -, ic, -, ft, aio, -, -⟩ := sysioIGone_ok driver.gone h3
    refine ⟨fun j => ?_, aio, ft⟩
    have inode : t.ic.inode = Function.update s.ic.inode i none := by
      rw [ic]
      exact Function.update_idem _ _ _
    rw [refOf_update inode]
    by_cases hj : j = i
    · subst hj
      simp only [refOf, hr, one, Option.elim_some, Option.elim_none, if_true]
      omega
    · simp [hj, one, Ne.symm hj]
  · rw [if_neg hlast] at h3
    obtain ⟨-, rfl⟩ := pure_ok.mp h3
    refine ⟨fun j => ?_, rfl, rfl⟩
    rw [refOf_update (s := s) (i := i) rfl]
    by_cases hj : j = i
    · subst hj
      simp only [refOf, hr, one, Option.elim_some, if_true]
      omega
    · simp [hj, one, Ne.symm hj]

theorem sysioIoctxComplete_ok {u : Unit} (hr : s.aio.ioctx c = some r) (heap : r.fast = false)
    (run : sysioIoctxComplete e c s = .ok (u, t)) : Completed c r s t := by
  obtain ⟨r', _, hread, h1⟩ := bind_ok.mp run
  obtain ⟨hr', rfl⟩ := deref_ok.mp hread
  obtain rfl : r = r' := Option.some.inj (hr.symm.trans hr')
  obtain ⟨_, _, hset, h2⟩ := bind_ok.mp h1
  obtain rfl := write_ok.mp hset
  obtain ⟨_, v, hcalls, h3⟩ := bind_ok.mp h2
  obtain ⟨k, -⟩ := runCallbacks_ok (r := { r with cbq := [] }) (Function.update_self ..) hcalls
  obtain ⟨_, _, hquit, h4⟩ := bind_ok.mp h3
  obtain rfl := write_ok.mp hquit
  rw [heap] at h4
  obtain ⟨_, w, hrele, h5⟩ := bind_ok.mp h4
  obtain rfl := write_ok.mp h5
  obtain ⟨refs, aio, ft⟩ := iRele_refs driver hrele
  have erased : w.aio.aioq = s.aio.aioq.erase c := by
    rw [aio]
    exact congrArg (List.erase · c) k.aioq
  refine ⟨erased, ?_, ?_, fun d hd => ?_, fun i => ?_, fun x => ?_, ?_, ?_, ?_, fun f => ?_⟩
  · exact (congrArg (·.nextIoctx) aio).trans k.nextIoctx
  · exact (congrArg (·.nextVec) aio).trans k.nextVec
  · have kept : w.aio.ioctx d = s.aio.ioctx d := by
      rw [aio]
      exact (k.others d hd).trans (Function.update_of_ne hd _ _)
    simpa [hd] using kept
  · refine (refs i).trans ?_
    have : v.ic = s.ic := k.ic
    simp only [refOf, this]
  · exact (congrArg (·.frees x) aio).trans (k.frees x)
  · exact (congrArg (·.ran) aio).trans k.ran
  · exact (congrArg (·.oftab) ft).trans k.oftab
  · exact (congrArg (·.nextFile) ft).trans k.nextFile
  · exact (congrArg (·.file f) ft).trans (k.files f)

theorem sysioIoctxDone_served : Moves (Served c) (sysioIoctxDone e c) := by
  refine moves_bind (moves_deref _ _) fun r => moves_ite (fun _ => moves_pure _) fun _ =>
    moves_bind (driver.iodone r.ino c) fun polled => moves_ite (fun _ => ?_) fun _ => moves_pure _
  intro s a t run
  obtain ⟨q, _, hread, h1⟩ := bind_ok.mp run
  obtain ⟨hq, rfl⟩ := deref_ok.mp hread
  obtain ⟨_, _, hset, h2⟩ := bind_ok.mp h1
  obtain rfl := write_ok.mp hset
  obtain ⟨-, rfl⟩ := pure_ok.mp h2
  refine ⟨rfl, fun _ => rfl, rfl, rfl, rfl, rfl, rfl, fun d hd => Function.update_of_ne hd _ _,
    fun r hr => ⟨true, r.cc, r.errno, ?_⟩⟩
  obtain rfl : q = r := Option.some.inj (hq.symm.trans hr)
  exact Function.update_self ..

/-- The polling loop of `_sysio_ioctx_wait`. -/
def polled (e : Env D) (c : IocId) : ℕ → Sysio D Unit
  | 0 => Exec.fault .diverge
  | polls + 1 => do
    if ← sysioIoctxDone e c then
      pure ()
    else
      polled e c polls

omit driver in
/-- Waiting is polling until the driver is done, and then completing. -/
theorem sysioIoctxWait_polled (polls : ℕ) : sysioIoctxWait e c polls = (do
    polled e c polls
    let r ← ioctxAt c
    sysioIoctxComplete e c
    return if r.cc < 0 then -r.errno else r.cc) := by
  induction polls with
  | zero => rfl
  | succ polls ih =>
    simp only [sysioIoctxWait, polled, ih, bind_assoc, ite_bind, pure_bind]

theorem polled_served (polls : ℕ) : Moves (Served c) (polled e c polls) := by
  induction polls with
  | zero => exact moves_fault _
  | succ polls ih =>
    exact moves_bind (sysioIoctxDone_served driver) fun _ => moves_ite (fun _ => moves_pure _)
      fun _ => ih

theorem sysioIoctxWait_ok {polls : ℕ} {cc : ℤ} (hr : s.aio.ioctx c = some r) (heap : r.fast = false)
    (run : sysioIoctxWait e c polls s = .ok (cc, t)) :
    ∃ u q, polled e c polls s = .ok ((), u) ∧ u.aio.ioctx c = some q ∧ Completed c q u t ∧
      cc = if q.cc < 0 then -q.errno else q.cc := by
  rw [sysioIoctxWait_polled] at run
  obtain ⟨_, u, hpolled, h1⟩ := bind_ok.mp run
  obtain ⟨done, n, errno, hu⟩ := (polled_served driver polls _ _ _ hpolled).own r hr
  obtain ⟨q, _, hread, h2⟩ := bind_ok.mp h1
  obtain ⟨hq, rfl⟩ := deref_ok.mp hread
  obtain ⟨_, v, hcomplete, h3⟩ := bind_ok.mp h2
  obtain ⟨hcc, rfl⟩ := pure_ok.mp h3
  have heap' : q.fast = false := by
    obtain rfl := Option.some.inj (hu.symm.trans hq)
    exact heap
  exact ⟨u, q, hpolled, hq, sysioIoctxComplete_ok driver hq heap' hcomplete, hcc.symm⟩

end Driver

/-- The next `n` allocations succeed. -/
def Fed (e : Env D) (s : Sys D) (n : ℕ) : Prop := ∀ k < n, e.malloc (s.mallocs + k) = true

/-- The vectors `l` have been allocated. -/
structure Took (l : List VecId) (s t : Sys D) : Prop where
  ic : t.ic = s.ic
  ft : t.ft = s.ft
  aio : t.aio = { s.aio with nextVec := t.aio.nextVec }
  next : s.aio.nextVec ≤ t.aio.nextVec
  nodup : l.Nodup
  mem : ∀ v : ℕ, v ∈ l ↔ s.aio.nextVec ≤ v ∧ v < t.aio.nextVec

/-- What a post that comes to nothing has done: at most it used up an identifier. -/
structure Dropped (s t : Sys D) : Prop where
  ft : t.ft = s.ft
  refs : ∀ i, refOf t i = refOf s i
  aioq : t.aio.aioq = s.aio.aioq
  next : s.aio.nextIoctx ≤ t.aio.nextIoctx
  others : ∀ d : ℕ, d < s.aio.nextIoctx → t.aio.ioctx d = s.aio.ioctx d
  frees : t.aio.frees = s.aio.frees
  nextVec : t.aio.nextVec = s.aio.nextVec
  ran : t.aio.ran = s.aio.ran

/-- What a post that goes through has done, on the inode `i`, with these vectors and callbacks. -/
structure Queued (i : InoId) (iov xtv : Option VecId) (cbs : List Callback) (s t : Sys D) : Prop where
  ft : t.ft = s.ft
  refs : ∀ j, refOf t j = refOf s j + one (some i) j
  aioq : t.aio.aioq = s.aio.nextIoctx :: s.aio.aioq
  next : t.aio.nextIoctx = s.aio.nextIoctx + 1
  own : ∃ r, t.aio.ioctx s.aio.nextIoctx = some r ∧ r.fast = false ∧ r.ino = i ∧ r.iov = iov ∧
    r.xtv = xtv ∧ r.cbq = cbs
  others : ∀ d, d ≠ s.aio.nextIoctx → t.aio.ioctx d = s.aio.ioctx d
  frees : t.aio.frees = s.aio.frees
  nextVec : t.aio.nextVec = s.aio.nextVec
  ran : t.aio.ran = s.aio.ran

/-- How posting on the open file `f` ends: with an error, with a context, or, where the sum of the
lengths slips through, with neither. -/
def Tried (slip : Prop) (f : FilId) (iov xtv : Option VecId) (cbs : List Callback) (s : Sys D)
    (res : ℤ × Option IocId) (t : Sys D) : Prop :=
  (res.1 ≠ 0 ∧ Dropped s t) ∨
  (∃ r, s.ft.file f = some r ∧ res = (0, some s.aio.nextIoctx) ∧ Queued r.ino iov xtv cbs s t) ∨
  (slip ∧ res.1 = 0 ∧ t = s)

theorem Tried.mono {slip slip' : Prop} {f : FilId} {iov xtv : Option VecId} {cbs : List Callback}
    {s t : Sys D} {res : ℤ × Option IocId} (h : Tried slip f iov xtv cbs s res t)
    (hslip : slip → slip') : Tried slip' f iov xtv cbs s res t :=
  h.imp_right fun h => h.imp_right fun ⟨unheard, rest⟩ => ⟨hslip unheard, rest⟩

section Vectors

variable {e : Env D} {s t u : Sys D} {l m : List VecId}

theorem malloc_ok {ok : Bool} (run : malloc e s = .ok (ok, t)) :
    e.malloc s.mallocs = ok ∧ t = { s with mallocs := s.mallocs + 1 } := by
  obtain ⟨hok, ht⟩ := Prod.mk.inj (Except.ok.inj run)
  exact ⟨hok, ht.symm⟩

theorem Fed.head {n : ℕ} (fed : Fed e s (n + 1)) : e.malloc s.mallocs = true := fed 0 (Nat.succ_pos n)

theorem fed_succ {n : ℕ} (first : e.malloc s.mallocs = true) (mallocs : t.mallocs = s.mallocs + 1) :
    Fed e t n ↔ Fed e s (n + 1) := by
  unfold Fed
  rw [mallocs]
  constructor
  · intro h k hk
    cases k with
    | zero => exact first
    | succ k =>
      have := h k (by omega)
      rwa [show s.mallocs + 1 + k = s.mallocs + (k + 1) by omega] at this
  · intro h k hk
    have := h (k + 1) (by omega)
    rwa [show s.mallocs + (k + 1) = s.mallocs + 1 + k by omega] at this

theorem Took.none : Took [] s s :=
  ⟨rfl, rfl, rfl, le_refl _, List.nodup_nil, fun v => by simp⟩

theorem Took.more (h : Took l s t) (k : Took m t u) : Took (l ++ m) s u where
  ic := k.ic.trans h.ic
  ft := k.ft.trans h.ft
  aio := by rw [k.aio, h.aio]
  next := le_trans h.next k.next
  nodup := by
    refine List.nodup_append.mpr ⟨h.nodup, k.nodup, fun v hv w hw same => ?_⟩
    have below := ((h.mem v).mp hv).2
    have above := ((k.mem w).mp hw).1
    rw [same] at below
    omega
  mem v := by
    have := h.next
    have := k.next
    rw [List.mem_append, h.mem, k.mem]
    omega

theorem Took.count (h : Took l s t) (v : VecId) :
    l.count v = if s.aio.nextVec ≤ v ∧ v < t.aio.nextVec then 1 else 0 := by
  rw [List.Nodup.count h.nodup]
  simp only [h.mem]

theorem mallocVec_took {o : Option VecId} (run : mallocVec e s = .ok (o, t)) :
    Took o.toList s t := by
  obtain ⟨ok, w, hm, h1⟩ := bind_ok.mp run
  obtain ⟨-, rfl⟩ := malloc_ok hm
  cases ok with
  | false =>
    obtain ⟨rfl, rfl⟩ := pure_ok.mp h1
    exact ⟨rfl, rfl, rfl, le_refl _, List.nodup_nil, fun v => by simp⟩
  | true =>
    obtain ⟨v', _, hv, h2⟩ := bind_ok.mp h1
    obtain ⟨rfl, rfl⟩ := read_ok.mp hv
    obtain ⟨_, _, hw, h3⟩ := bind_ok.mp h2
    obtain rfl := write_ok.mp hw
    obtain ⟨rfl, rfl⟩ := pure_ok.mp h3
    refine ⟨rfl, rfl, rfl, Nat.le_succ _, List.nodup_singleton _, fun v => ?_⟩
    simp only [Option.toList_some, List.mem_singleton]
    omega

theorem mallocVec_fed {v : VecId} {n : ℕ} (run : mallocVec e s = .ok (some v, t)) :
    Fed e t n ↔ Fed e s (n + 1) := by
  obtain ⟨ok, w, hm, h1⟩ := bind_ok.mp run
  obtain ⟨hok, rfl⟩ := malloc_ok hm
  cases ok with
  | false =>
    obtain ⟨hnone, -⟩ := pure_ok.mp h1
    cases hnone
  | true =>
    obtain ⟨_, _, hv, h2⟩ := bind_ok.mp h1
    obtain ⟨-, rfl⟩ := read_ok.mp hv
    obtain ⟨_, _, hw, h3⟩ := bind_ok.mp h2
    obtain rfl := write_ok.mp hw
    obtain ⟨-, rfl⟩ := pure_ok.mp h3
    exact fed_succ hok rfl

theorem freeVecs_ok {x : Unit} (run : (freeVecs l : Sysio D Unit) s = .ok (x, t)) : ∃ frees,
    t = { s with aio.frees := frees } ∧ ∀ v, frees v = s.aio.frees v + l.count v := by
  induction l generalizing s with
  | nil =>
    obtain ⟨-, rfl⟩ := pure_ok.mp run
    exact ⟨_, rfl, fun v => by simp⟩
  | cons w l ih =>
    obtain ⟨_, _, hfree, h1⟩ := bind_ok.mp run
    obtain rfl := write_ok.mp hfree
    obtain ⟨frees, rfl, hcount⟩ := ih h1
    refine ⟨frees, rfl, fun v => (hcount v).trans ?_⟩
    by_cases hv : v = w
    · subst hv
      simp
      omega
    · simp [hv, Ne.symm hv]

end Vectors

section Posts

variable {e : Env D} (driver : Serves e) {s t : Sys D} {c : IocId}

theorem sysioIoctxCb_ok {cb : Callback} {err : ℤ} {r : Ioctx} (hr : s.aio.ioctx c = some r)
    (run : sysioIoctxCb e c cb s = .ok (err, t)) : ∃ n l,
    t = { s with mallocs := n, aio.ioctx := Function.update s.aio.ioctx c (some { r with cbq := r.cbq ++ l }) } ∧
    (err = 0 → l = [cb]) := by
  obtain ⟨ok, w, hm, h1⟩ := bind_ok.mp run
  obtain ⟨-, rfl⟩ := malloc_ok hm
  cases ok with
  | false =>
    obtain ⟨rfl, rfl⟩ := pure_ok.mp h1
    refine ⟨s.mallocs + 1, [], ?_, fun h => by cases h⟩
    simp only [List.append_nil]
    rw [Function.update_eq_self_iff.mpr hr.symm]
  | true =>
    obtain ⟨q, _, hread, h2⟩ := bind_ok.mp h1
    obtain ⟨hq, rfl⟩ := deref_ok.mp hread
    obtain rfl : r = q := Option.some.inj (hr.symm.trans hq)
    obtain ⟨_, _, hset, h3⟩ := bind_ok.mp h2
    obtain rfl := write_ok.mp hset
    obtain ⟨rfl, rfl⟩ := pure_ok.mp h3
    exact ⟨s.mallocs + 1, [cb], rfl, fun _ => rfl⟩

theorem registerAll_ok {cbs : List Callback} {err : ℤ} {r : Ioctx} (hr : s.aio.ioctx c = some r)
    (run : registerAll e c cbs s = .ok (err, t)) : ∃ n l,
    t = { s with mallocs := n, aio.ioctx := Function.update s.aio.ioctx c (some { r with cbq := r.cbq ++ l }) } ∧
    (err = 0 → l = cbs) := by
  induction cbs generalizing s r with
  | nil =>
    obtain ⟨-, rfl⟩ := pure_ok.mp run
    refine ⟨s.mallocs, [], ?_, fun _ => rfl⟩
    simp only [List.append_nil]
    rw [Function.update_eq_self_iff.mpr hr.symm]
  | cons cb cbs ih =>
    obtain ⟨err₁, w, hcb, h1⟩ := bind_ok.mp run
    obtain ⟨n, l, rfl, hl⟩ := sysioIoctxCb_ok hr hcb
    by_cases herr : err₁ ≠ 0
    · rw [if_pos herr] at h1
      obtain ⟨rfl, rfl⟩ := pure_ok.mp h1
      exact ⟨n, l, rfl, fun h => (herr h).elim⟩
    · rw [if_neg herr] at h1
      obtain ⟨n', l', rfl, hl'⟩ := ih (Function.update_self ..) h1
      refine ⟨n', l ++ l', ?_, fun h => ?_⟩
      · simp only [Function.update_idem, List.append_assoc]
      · rw [hl (not_not.mp herr), hl' h]
        rfl

/-- A new context. -/
theorem sysioIoctxNew_queued {i : InoId} {wr : Bool} {iov xtv : Option VecId}
    (run : sysioIoctxNew e i wr iov xtv s = .ok (some c, t)) :
    c = s.aio.nextIoctx ∧ Queued i iov xtv [] s t := by
  obtain ⟨ok, w, hm, h1⟩ := bind_ok.mp run
  obtain ⟨-, rfl⟩ := malloc_ok hm
  cases ok with
  | false =>
    obtain ⟨hnone, -⟩ := pure_ok.mp h1
    cases hnone
  | true =>
    obtain ⟨_, v, href, h2⟩ := bind_ok.mp h1
    obtain ⟨r, _, hread, h3⟩ := bind_ok.mp href
    obtain ⟨hr, rfl⟩ := deref_ok.mp hread
    obtain rfl := write_ok.mp h3
    obtain ⟨d, _, hd, h4⟩ := bind_ok.mp h2
    obtain ⟨rfl, rfl⟩ := read_ok.mp hd
    obtain ⟨_, _, hw, h5⟩ := bind_ok.mp h4
    obtain rfl := write_ok.mp hw
    obtain ⟨hc, rfl⟩ := pure_ok.mp h5
    obtain rfl := Option.some.inj hc
    refine ⟨rfl, rfl, fun j => ?_, rfl, rfl, ⟨_, Function.update_self .., rfl, rfl, rfl, rfl, rfl⟩,
      fun d hd => Function.update_of_ne hd _ _, rfl, rfl, rfl⟩
    rw [refOf_update (s := s) (i := i) rfl]
    by_cases hj : j = i
    · subst hj
      have hr' : s.ic.inode j = some r := hr
      simp only [refOf, hr', one, Option.elim_some, if_true]
      omega
    · simp [hj, one, Ne.symm hj]

theorem Queued.served {i : InoId} {iov xtv : Option VecId} {cbs : List Callback} {u : Sys D}
    (h : Queued i iov xtv cbs s t) (k : Served s.aio.nextIoctx t u) :
    Queued i iov xtv cbs s u where
  ft := k.ft.trans h.ft
  refs j := (k.refs j).trans (h.refs j)
  aioq := k.aioq.trans h.aioq
  next := k.nextIoctx.trans h.next
  own := by
    obtain ⟨r, hr, same⟩ := h.own
    obtain ⟨done, cc, errno, hu⟩ := k.own r hr
    exact ⟨_, hu, same⟩
  others d hd := (k.others d hd).trans (h.others d hd)
  frees := k.frees.trans h.frees
  nextVec := k.nextVec.trans h.nextVec
  ran := k.ran.trans h.ran

/-- The new context with other callbacks. -/
theorem Queued.cbq {i : InoId} {iov xtv : Option VecId} {cbs l : List Callback} {r : Ioctx} {n : ℕ}
    (h : Queued i iov xtv cbs s t) (hr : t.aio.ioctx s.aio.nextIoctx = some r) :
    Queued i iov xtv l s { t with
      mallocs := n
      aio.ioctx := Function.update t.aio.ioctx s.aio.nextIoctx (some { r with cbq := l }) } where
  ft := h.ft
  refs := h.refs
  aioq := h.aioq
  next := h.next
  own := by
    obtain ⟨q, hq, heap, ino, hiov, hxtv, -⟩ := h.own
    obtain rfl : r = q := Option.some.inj (hr.symm.trans hq)
    exact ⟨_, Function.update_self .., heap, ino, hiov, hxtv, rfl⟩
  others d hd := (Function.update_of_ne hd _ _).trans (h.others d hd)
  frees := h.frees
  nextVec := h.nextVec
  ran := h.ran

theorem Completed.ft {r : Ioctx} (h : Completed c r s t) (none : r.cbq = []) : t.ft = s.ft := by
  have files : t.ft.file = s.ft.file := by
    funext f
    rw [h.files f, none]
    exact (file_same (by simp)).symm
  calc t.ft = ⟨t.ft.file, t.ft.oftab, t.ft.nextFile⟩ := rfl
    _ = s.ft := by rw [files, h.oftab, h.nextFile]

include driver

/-- The error path of a post: the callbacks are forgotten and the context is taken back. -/
theorem Queued.drop {i : InoId} {iov xtv : Option VecId} {cbs : List Callback} {u : Sys D} {x : Unit}
    (h : Queued i iov xtv cbs s t)
    (run : (do
      let rc ← ioctxAt s.aio.nextIoctx
      setIoctx s.aio.nextIoctx { rc with cbq := [] }
      sysioIoctxComplete e s.aio.nextIoctx : Sysio D Unit) t = .ok (x, u)) : Dropped s u := by
  obtain ⟨rc, _, hread, h1⟩ := bind_ok.mp run
  obtain ⟨hrc, rfl⟩ := deref_ok.mp hread
  obtain ⟨_, _, hset, h2⟩ := bind_ok.mp h1
  obtain rfl := write_ok.mp hset
  have q := @Queued.cbq _ _ _ _ _ _ _ [] _ t.mallocs h hrc
  obtain ⟨r, hr, heap, ino, -, -, none⟩ := q.own
  have k := sysioIoctxComplete_ok driver hr heap h2
  refine ⟨(k.ft none).trans h.ft, fun j => ?_, ?_, ?_, fun d hd => ?_, ?_, k.nextVec.trans h.nextVec, ?_⟩
  · rw [k.refs j, ino]
    have := q.refs j
    omega
  · rw [k.aioq]
    exact (congrArg (List.erase · _) h.aioq).trans (List.erase_cons_head ..)
  · rw [k.nextIoctx]
    exact (Nat.le_succ _).trans (le_of_eq h.next.symm)
  · have hne : d ≠ s.aio.nextIoctx := by omega
    exact (k.others d hne).trans (q.others d hne)
  · funext v
    rw [k.frees v, none]
    exact congrFun h.frees v
  · rw [k.ran, none]
    exact (List.append_nil _).trans h.ran

/-- `_sysio_iiox` either comes to nothing, with an error, or queues a context for the inode of the
file. -/
theorem sysioIiox_ok {wr : Bool} {f : FilId} {cc : ℤ} {iov xtv : Option VecId}
    {cbs : List Callback} {res : ℤ × Option IocId}
    {slip : Prop} (run : sysioIiox e wr f cc iov xtv cbs s = .ok (res, t)) :
    Tried slip f iov xtv cbs s res t := by
  have same : Dropped s s :=
    ⟨rfl, fun _ => rfl, rfl, le_refl _, fun _ _ => rfl, rfl, rfl, rfl⟩
  obtain ⟨r, _, hread, h1⟩ := bind_ok.mp run
  obtain ⟨hr, rfl⟩ := deref_ok.mp hread
  by_cases hchk : (!fChkrw r.flags wr) = true
  · rw [if_pos hchk] at h1
    obtain ⟨rfl, rfl⟩ := pure_ok.mp h1
    exact Or.inl ⟨by decide, same⟩
  rw [if_neg hchk] at h1
  by_cases hcc : cc < 0
  · rw [if_pos hcc] at h1
    obtain ⟨rfl, rfl⟩ := pure_ok.mp h1
    exact Or.inl ⟨ne_of_lt hcc, same⟩
  rw [if_neg hcc] at h1
  obtain ⟨made, u, hnew, h2⟩ := bind_ok.mp h1
  cases made with
  | none =>
    obtain ⟨rfl, rfl⟩ := pure_ok.mp h2
    obtain ⟨ok, w, hm, h3⟩ := bind_ok.mp hnew
    obtain ⟨-, rfl⟩ := malloc_ok hm
    cases ok with
    | false =>
      obtain ⟨-, rfl⟩ := pure_ok.mp h3
      exact Or.inl ⟨by decide, rfl, fun _ => rfl, rfl, le_refl _, fun _ _ => rfl, rfl, rfl, rfl⟩
    | true =>
      obtain ⟨_, _, -, h4⟩ := bind_ok.mp h3
      obtain ⟨_, _, -, h5⟩ := bind_ok.mp h4
      obtain ⟨_, _, -, h6⟩ := bind_ok.mp h5
      obtain ⟨hsome, -⟩ := pure_ok.mp h6
      cases hsome
  | some c =>
    obtain ⟨rfl, q⟩ := sysioIoctxNew_queued hnew
    obtain ⟨q₀, hq₀, -, -, -, -, empty⟩ := q.own
    obtain ⟨err, v, hreg, h3⟩ := bind_ok.mp h2
    obtain ⟨n, l, rfl, hl⟩ := registerAll_ok hq₀ hreg
    obtain ⟨err', w, hpost, h4⟩ := bind_ok.mp h3
    have registered := @Queued.cbq _ _ _ _ _ _ _ (q₀.cbq ++ l) _ n q hq₀
    have posted : Queued r.ino iov xtv (q₀.cbq ++ l) s w ∧ (err' = 0 → err = 0) := by
      by_cases herr : err ≠ 0
      · rw [if_pos herr] at hpost
        obtain ⟨rfl, rfl⟩ := pure_ok.mp hpost
        exact ⟨registered, id⟩
      · rw [if_neg herr] at hpost
        exact ⟨registered.served (driver.post _ _ _ _ _ _ hpost), fun _ => not_not.mp herr⟩
    by_cases herr : err' ≠ 0
    · rw [if_pos herr] at h4
      obtain ⟨rc, u₁, hread, h5⟩ := bind_ok.mp h4
      obtain ⟨_, u₂, hset, h6⟩ := bind_ok.mp h5
      obtain ⟨_, u₃, hcomplete, h7⟩ := bind_ok.mp h6
      obtain ⟨rfl, rfl⟩ := pure_ok.mp h7
      exact Or.inl ⟨herr, posted.1.drop driver
        (bind_ok.mpr ⟨rc, u₁, hread, bind_ok.mpr ⟨_, u₂, hset, hcomplete⟩⟩)⟩
    · rw [if_neg herr] at h4
      obtain ⟨rfl, rfl⟩ := pure_ok.mp h4
      have all : q₀.cbq ++ l = cbs := by
        rw [empty, hl (posted.2 (not_not.mp herr))]
        rfl
      exact Or.inr (Or.inl ⟨r, hr, rfl, all ▸ posted.1⟩)

end Posts

/-- What an asynchronous call that fails has done. The vectors it allocated are free again. -/
structure Refused (s t : Sys D) : Prop where
  ft : t.ft = s.ft
  refs : ∀ i, refOf t i = refOf s i
  aioq : t.aio.aioq = s.aio.aioq
  next : s.aio.nextIoctx ≤ t.aio.nextIoctx
  others : ∀ d : ℕ, d < s.aio.nextIoctx → t.aio.ioctx d = s.aio.ioctx d
  ran : t.aio.ran = s.aio.ran
  nextVec : s.aio.nextVec ≤ t.aio.nextVec
  frees : ∀ v : ℕ, t.aio.frees v =
    s.aio.frees v + if s.aio.nextVec ≤ v ∧ v < t.aio.nextVec then 1 else 0

/-- What an asynchronous call that succeeds has done, on the inode `i`. Its callbacks are to free
the vectors it allocated. -/
structure Accepted (i : InoId) (cbs : List Callback) (s t : Sys D) : Prop where
  ft : t.ft = s.ft
  refs : ∀ j, refOf t j = refOf s j + one (some i) j
  aioq : t.aio.aioq = s.aio.nextIoctx :: s.aio.aioq
  next : t.aio.nextIoctx = s.aio.nextIoctx + 1
  others : ∀ d, d ≠ s.aio.nextIoctx → t.aio.ioctx d = s.aio.ioctx d
  ran : t.aio.ran = s.aio.ran
  nextVec : s.aio.nextVec ≤ t.aio.nextVec
  frees : t.aio.frees = s.aio.frees
  own : ∃ r, t.aio.ioctx s.aio.nextIoctx = some r ∧ r.fast = false ∧ r.ino = i ∧ r.cbq = cbs ∧
    ∀ v : ℕ, (released r.cbq r.iov r.xtv).count v =
      if s.aio.nextVec ≤ v ∧ v < t.aio.nextVec then 1 else 0

/-- How an asynchronous call on the open file `f` ends; where the sum of the lengths slips through, it
has allocated its vectors and left it at that. -/
def Outcome (slip : Prop) (f : FilId) (cbs : List Callback) (s : Sys D) (res : Option IocId × ℤ)
    (t : Sys D) : Prop :=
  (res.2 ≠ 0 ∧ Refused s t) ∨
  (∃ r, s.ft.file f = some r ∧ res = (some s.aio.nextIoctx, 0) ∧ Accepted r.ino cbs s t) ∨
  (slip ∧ ∃ l, Took l s t)

/-- The descriptor, the lengths and the number of its own vectors of a call that sums lengths up. -/
def summed : Call → Option (ℤ × List ℕ × ℕ)
  | .iread _ _ fd count _ | .ipread _ _ fd count _ => some (fd, [count], 2)
  | .ireadv _ _ fd lens _ | .ipreadv _ _ fd lens _ => some (fd, lens, 1)
  | _ => none

def slot (s : Sys D) (fd : ℤ) : Option FilId := if fd < 0 then none else s.ft.oftab.getD fd.toNat none

/-- The sum of the lengths is an error that an int cannot tell from success. -/
def Unheard (lens : List ℕ) : Prop := sysioSumIovec lens < 0 ∧ toInt (sysioSumIovec lens) = 0

/-- The call gets to sum its lengths up, and the error is not heard. -/
def Slips (e : Env D) (s : Sys D) (call : Call) : Prop :=
  ∃ fd lens n, summed call = some (fd, lens, n) ∧ (slot s fd).isSome = true ∧ Fed e s n ∧
    Unheard lens

/-- The open file that an asynchronous call is about. -/
def subject (s : Sys D) : Call → Option FilId
  | .iread _ _ fd _ _ | .ireadv _ _ fd _ _ | .ipread _ _ fd _ _ | .ipreadv _ _ fd _ _
  | .ireadx _ _ fd _ _ _ | .iread64x _ fd _ _ _ | .iwrite64x _ fd _ _ => slot s fd
  | _ => none

/-- The callbacks that an asynchronous call registers. -/
def registers (s : Sys D) : Call → List Callback
  | .iread _ _ fd _ _ => [.freeIov, .freeXtv] ++ (slot s fd).toList.map .fcompletio
  | .ireadv _ _ fd _ _ => [.freeXtv] ++ (slot s fd).toList.map .fcompletio
  | .ipread _ _ _ _ _ => [.freeIov, .freeXtv]
  | .ipreadv _ _ _ _ _ | .ireadx _ _ _ _ _ _ => [.freeXtv]
  | _ => []

section Interface

variable {e : Env D} (driver : Serves e) {s t u : Sys D}

theorem Refused.frees_none (h : Took [] s t) : Refused s t where
  ft := h.ft
  refs i := by simp only [refOf, h.ic]
  aioq := congrArg (·.aioq) h.aio
  next := le_of_eq (congrArg (·.nextIoctx) h.aio).symm
  others d _ := congrFun (congrArg (·.ioctx) h.aio) d
  ran := congrArg (·.ran) h.aio
  nextVec := h.next
  frees v := by
    have := h.count v
    simp only [← this, List.count_nil, Nat.add_zero]
    exact congrFun (congrArg (·.frees) h.aio) v

/-- A call that gives up frees the vectors it took. -/
theorem refused_free {l vecs : List VecId} {x : Unit} (took : Took l s t) (k : Dropped t u)
    (all : vecs.Perm l) {w : Sys D} (run : (freeVecs vecs : Sysio D Unit) u = .ok (x, w)) :
    Refused s w := by
  obtain ⟨frees, rfl, count⟩ := freeVecs_ok run
  have aio := took.aio
  refine ⟨k.ft.trans took.ft, fun i => (k.refs i).trans (by simp only [refOf, took.ic]),
    k.aioq.trans (congrArg (·.aioq) aio), ?_, fun d hd => ?_, k.ran.trans (congrArg (·.ran) aio),
    ?_, fun v => ?_⟩
  · exact (le_of_eq (congrArg (·.nextIoctx) aio).symm).trans k.next
  · have hd' : d < t.aio.nextIoctx := lt_of_lt_of_eq hd (congrArg (·.nextIoctx) aio).symm
    exact (k.others d hd').trans (congrFun (congrArg (·.ioctx) aio) d)
  · exact le_trans took.next (le_of_eq k.nextVec.symm)
  · have before : u.aio.frees v = s.aio.frees v := by
      rw [k.frees]
      exact congrFun (congrArg (·.frees) aio) v
    refine (count v).trans ?_
    rw [before, all.count_eq, took.count]
    simp only [k.nextVec]

theorem accepted_took {l : List VecId} {i : InoId} {iov xtv : Option VecId} {cbs : List Callback}
    (took : Took l s t) (k : Queued i iov xtv cbs t u) (all : (released cbs iov xtv).Perm l) :
    Accepted i cbs s u := by
  have aio := took.aio
  have first : t.aio.nextIoctx = s.aio.nextIoctx := congrArg (·.nextIoctx) aio
  obtain ⟨r, hr, heap, ino, rfl, rfl, rfl⟩ := k.own
  rw [first] at hr
  refine ⟨k.ft.trans took.ft, fun j => (k.refs j).trans (by simp only [refOf, took.ic]), ?_, ?_,
    fun d hd => ?_, k.ran.trans (congrArg (·.ran) aio), ?_,
    k.frees.trans (congrArg (·.frees) aio), r, hr, heap, ino, rfl, fun v => ?_⟩
  · rw [k.aioq, first]
    exact congrArg (s.aio.nextIoctx :: ·) (congrArg (·.aioq) aio)
  · rw [k.next, first]
  · rw [← first] at hd
    exact (k.others d hd).trans (congrFun (congrArg (·.ioctx) aio) d)
  · exact le_trans took.next (le_of_eq k.nextVec.symm)
  · rw [all.count_eq, took.count, k.nextVec]

theorem posted_outcome {x : IocId} {l vecs : List VecId} {f : FilId} {iov xtv : Option VecId}
    {cbs : List Callback} {post : Sysio D (ℤ × Option IocId)} {res : Option IocId × ℤ} {slip : Prop}
    (took : Took l s t)
    (hpost : ∀ res w, post t = .ok (res, w) → Tried slip f iov xtv cbs t res w)
    (all : vecs.Perm l) (all' : (released cbs iov xtv).Perm l)
    (run : posted x vecs post t = .ok (res, u)) : Outcome slip f cbs s res u := by
  obtain ⟨⟨err, c⟩, w, hrun, h1⟩ := bind_ok.mp run
  rcases hpost _ _ hrun with ⟨herr, dropped⟩ | ⟨r, hr, hres, queued⟩ | ⟨hslip, hzero, rfl⟩
  · simp only [if_pos herr] at h1
    obtain ⟨_, w', hfree, h2⟩ := bind_ok.mp h1
    obtain ⟨rfl, rfl⟩ := pure_ok.mp h2
    exact Or.inl ⟨herr, refused_free took dropped all hfree⟩
  · obtain ⟨rfl, rfl⟩ := Prod.mk.inj hres
    obtain ⟨rfl, rfl⟩ := pure_ok.mp h1
    rw [took.ft] at hr
    have first : t.aio.nextIoctx = s.aio.nextIoctx := congrArg (·.nextIoctx) took.aio
    exact Or.inr (Or.inl ⟨r, hr, by rw [Option.getD_some, first], accepted_took took queued all'⟩)
  · simp only [if_neg (not_not.mpr hzero)] at h1
    obtain ⟨-, rfl⟩ := pure_ok.mp h1
    exact Or.inr (Or.inr ⟨hslip, l, took⟩)

include driver

theorem sysioIiov_ok {wr : Bool} {f : FilId} {lens : List ℕ} {cc : ℤ} {iov xtv : Option VecId}
    {cbs : List Callback} {res : ℤ × Option IocId}
    (run : sysioIiov e wr f lens cc iov xtv cbs s = .ok (res, t)) :
    Tried (Unheard lens) f iov xtv (cbs ++ [.fcompletio f]) s res t := by
  unfold sysioIiov at run
  by_cases hsum : sysioSumIovec lens < 0
  · rw [if_pos hsum] at run
    obtain ⟨rfl, rfl⟩ := pure_ok.mp run
    by_cases hint : toInt (sysioSumIovec lens) = 0
    · exact Or.inr (Or.inr ⟨⟨hsum, hint⟩, hint, rfl⟩)
    · exact Or.inl ⟨hint, rfl, fun _ => rfl, rfl, le_refl _, fun _ _ => rfl, rfl, rfl, rfl⟩
  · rw [if_neg hsum] at run
    exact sysioIiox_ok driver run

theorem sysioIpiov_ok {wr : Bool} {f : FilId} {lens : List ℕ} {cc : ℤ} {iov xtv : Option VecId}
    {cbs : List Callback} {res : ℤ × Option IocId}
    (run : sysioIpiov e wr f lens cc iov xtv cbs s = .ok (res, t)) :
    Tried (Unheard lens) f iov xtv cbs s res t := by
  unfold sysioIpiov at run
  by_cases hsum : sysioSumIovec lens < 0
  · rw [if_pos hsum] at run
    obtain ⟨rfl, rfl⟩ := pure_ok.mp run
    by_cases hint : toInt (sysioSumIovec lens) = 0
    · exact Or.inr (Or.inr ⟨⟨hsum, hint⟩, hint, rfl⟩)
    · exact Or.inl ⟨hint, rfl, fun _ => rfl, rfl, le_refl _, fun _ _ => rfl, rfl, rfl, rfl⟩
  · rw [if_neg hsum] at run
    exact sysioIiox_ok driver run

theorem iread_outcome {x : IocId} {wr : Bool} {f : FilId} {fd : ℤ} {count : ℕ} {cc : ℤ}
    (hslot : slot s fd = some f) {res : Option IocId × ℤ}
    (run : interfaceIread e x wr fd count cc s = .ok (res, t)) :
    Outcome (Slips e s (.iread x wr fd count cc)) f [.freeIov, .freeXtv, .fcompletio f] s res t := by
  obtain ⟨fil, _, hfind, h1⟩ := bind_ok.mp run
  obtain ⟨hfil, rfl⟩ := read_ok.mp hfind
  obtain rfl : fil = some f := hfil.symm.trans hslot
  obtain ⟨iov, t₁, hiov, h2⟩ := bind_ok.mp h1
  have first := mallocVec_took hiov
  cases iov with
  | none =>
    obtain ⟨rfl, rfl⟩ := pure_ok.mp h2
    exact Or.inl ⟨by decide, Refused.frees_none first⟩
  | some iov =>
    obtain ⟨xtv, t₂, hxtv, h3⟩ := bind_ok.mp h2
    have second := mallocVec_took hxtv
    cases xtv with
    | none =>
      obtain ⟨_, w, hfree, h4⟩ := bind_ok.mp h3
      obtain ⟨rfl, rfl⟩ := pure_ok.mp h4
      have dropped : Dropped t₂ t₂ :=
        ⟨rfl, fun _ => rfl, rfl, le_refl _, fun _ _ => rfl, rfl, rfl, rfl⟩
      have all : (freeVecs [iov] : Sysio D Unit) t₂ = .ok ((), w) :=
        bind_ok.mpr ⟨_, w, hfree, rfl⟩
      exact Or.inl ⟨by decide, refused_free (first.more second) dropped (List.Perm.refl _) all⟩
    | some xtv =>
      refine posted_outcome (first.more second) (fun res w hpost => (sysioIiov_ok driver hpost).mono
        fun unheard => ⟨fd, [count], 2, rfl, ?_, ?_, unheard⟩)
        (List.Perm.swap _ _ _) (List.Perm.refl _) h3
      · rw [hslot]
        rfl
      · exact (mallocVec_fed hiov).mp ((mallocVec_fed hxtv).mp fun k hk => by omega)

theorem ipread_outcome {x : IocId} {wr : Bool} {f : FilId} {fd : ℤ} {count : ℕ} {cc : ℤ}
    (hslot : slot s fd = some f) {res : Option IocId × ℤ}
    (run : interfaceIpread e x wr fd count cc s = .ok (res, t)) :
    Outcome (Slips e s (.ipread x wr fd count cc)) f [.freeIov, .freeXtv] s res t := by
  obtain ⟨fil, _, hfind, h1⟩ := bind_ok.mp run
  obtain ⟨hfil, rfl⟩ := read_ok.mp hfind
  obtain rfl : fil = some f := hfil.symm.trans hslot
  obtain ⟨xtv, t₁, hxtv, h2⟩ := bind_ok.mp h1
  obtain ⟨iov, t₂, hiov, h3⟩ := bind_ok.mp h2
  have both := (mallocVec_took hxtv).more (mallocVec_took hiov)
  -- both are tried before either is looked at, so either may be missing
  have fails : ∀ w, (freeVecs (iov.toList ++ xtv.toList) : Sysio D Unit) t₂ = .ok ((), w) →
      Refused s w := fun w hfree => refused_free both
    ⟨rfl, fun _ => rfl, rfl, le_refl _, fun _ _ => rfl, rfl, rfl, rfl⟩ List.perm_append_comm hfree
  cases xtv with
  | none =>
    obtain ⟨_, w, hfree, h4⟩ := bind_ok.mp h3
    obtain ⟨rfl, rfl⟩ := pure_ok.mp h4
    exact Or.inl ⟨by decide, fails w hfree⟩
  | some xtv =>
    cases iov with
    | none =>
      obtain ⟨_, w, hfree, h4⟩ := bind_ok.mp h3
      obtain ⟨rfl, rfl⟩ := pure_ok.mp h4
      exact Or.inl ⟨by decide, fails w hfree⟩
    | some iov =>
      have swapped : (released [.freeIov, .freeXtv] (some iov) (some xtv)).Perm
          ((some xtv).toList ++ (some iov).toList) := List.Perm.swap xtv iov []
      refine posted_outcome both (fun res w hpost => (sysioIpiov_ok driver hpost).mono
        fun unheard => ⟨fd, [count], 2, rfl, ?_, ?_, unheard⟩)
        (List.Perm.swap _ _ _) swapped h3
      · rw [hslot]
        rfl
      · exact (mallocVec_fed hxtv).mp ((mallocVec_fed hiov).mp fun k hk => by omega)

omit driver in
/-- A call that puts its extents on the heap. -/
theorem onExtents_outcome {x : IocId} {f : FilId} {cbs : List Callback} {slip : Prop}
    {post : VecId → Sysio D (ℤ × Option IocId)} (frees : ∀ v, released cbs none (some v) = [v])
    (hpost : ∀ v t₁, mallocVec e s = .ok (some v, t₁) → ∀ res w, post v t₁ = .ok (res, w) →
      Tried slip f none (some v) cbs t₁ res w)
    {res : Option IocId × ℤ} (run : (do
      match ← mallocVec e with
      | none => return (none, -ENOMEM)
      | some xtv => posted x [xtv] (post xtv) : Sysio D (Option IocId × ℤ)) s = .ok (res, t)) :
    Outcome slip f cbs s res t := by
  obtain ⟨xtv, t₁, hxtv, h1⟩ := bind_ok.mp run
  have took := mallocVec_took hxtv
  cases xtv with
  | none =>
    obtain ⟨rfl, rfl⟩ := pure_ok.mp h1
    exact Or.inl ⟨by decide, Refused.frees_none took⟩
  | some v =>
    refine posted_outcome took (hpost v t₁ hxtv) (List.Perm.refl _) ?_ h1
    rw [frees]
    exact List.Perm.refl _

omit driver in
/-- A call on a descriptor, with its result as the caller sees it. -/
theorem onFil_outcome {call : Call} {fd : ℤ} {slip : Prop} {k : FilId → Sysio D (Option IocId × ℤ)} {ret : Ret}
    (named : subject s call = slot s fd)
    (hk : ∀ f, slot s fd = some f → ∀ res, k f s = .ok (res, t) →
      Outcome slip f (registers s call) s res t)
    (run : (do
      return ioid (← (do
        match ← sysioFdFind fd with
        | none => return (none, -EBADF)
        | some f => k f : Sysio D (Option IocId × ℤ))) : Sysio D Ret) s = .ok (ret, t)) :
    (ret.2 ≠ 0 ∧ Refused s t) ∨
    (∃ f r, subject s call = some f ∧ s.ft.file f = some r ∧
      ret = (Int.ofNat s.aio.nextIoctx, 0) ∧ Accepted r.ino (registers s call) s t) ∨
    (slip ∧ ∃ l, Took l s t) := by
  obtain ⟨res, w, hcall, h1⟩ := bind_ok.mp run
  obtain ⟨rfl, rfl⟩ := pure_ok.mp h1
  obtain ⟨fil, _, hfind, h2⟩ := bind_ok.mp hcall
  obtain ⟨hslot, rfl⟩ := read_ok.mp hfind
  cases fil with
  | none =>
    obtain ⟨rfl, rfl⟩ := pure_ok.mp h2
    exact Or.inl ⟨by decide, Refused.frees_none Took.none⟩
  | some f =>
    rcases hk f hslot res h2 with ⟨herr, refused⟩ | ⟨r, hr, rfl, accepted⟩ | slipped
    · exact Or.inl ⟨herr, refused⟩
    · exact Or.inr (Or.inl ⟨f, r, named.trans hslot, hr, rfl, accepted⟩)
    · exact Or.inr (Or.inr slipped)

omit driver in
/-- An asynchronous call either fails or queues a context for the inode of its file. -/
theorem post_outcome {lib : Library D} (driver : Serves lib.env) {call : Call}
    (hcall : PostMoves.isPost call = true) {ret : Ret}
    (run : step lib call s = .ok (ret, t)) :
    (ret.2 ≠ 0 ∧ Refused s t) ∨
    (∃ f r, subject s call = some f ∧ s.ft.file f = some r ∧
      ret = (Int.ofNat s.aio.nextIoctx, 0) ∧ Accepted r.ino (registers s call) s t) ∨
    (Slips lib.env s call ∧ ∃ l, Took l s t) := by
  have refuse : ∀ (err : ℤ) (res : Option IocId × ℤ) (f : FilId) cbs, err ≠ 0 →
      (pure (none, err) : Sysio D (Option IocId × ℤ)) s = .ok (res, t) →
      Outcome (Slips lib.env s call) f cbs s res t := by
    intro err res f cbs herr h
    obtain ⟨rfl, rfl⟩ := pure_ok.mp h
    exact Or.inl ⟨herr, Refused.frees_none Took.none⟩
  cases call with
  | iread x wr fd count cc =>
    refine onFil_outcome rfl (fun f hslot res h => ?_) run
    have regs : registers s (.iread x wr fd count cc) = [.freeIov, .freeXtv, .fcompletio f] := by
      simp [registers, hslot]
    rw [regs]
    exact iread_outcome driver hslot (bind_ok.mpr ⟨some f, s, read_ok.mpr ⟨hslot, rfl⟩, h⟩)
  | ireadv x wr fd lens cc =>
    refine onFil_outcome rfl (fun f hslot res h => ?_) run
    have regs : registers s (.ireadv x wr fd lens cc) = [.freeXtv] ++ [.fcompletio f] := by
      simp [registers, hslot]
    rw [regs]
    refine onExtents_outcome (fun v => rfl) (fun v t₁ hv res w hpost =>
      (sysioIiov_ok driver hpost).mono fun unheard => ⟨fd, lens, 1, rfl, ?_, ?_, unheard⟩) h
    · rw [hslot]
      rfl
    · exact (mallocVec_fed hv).mp fun k hk => by omega
  | ipread x wr fd count cc =>
    refine onFil_outcome rfl (fun f hslot res h => ?_) run
    exact ipread_outcome driver hslot (bind_ok.mpr ⟨some f, s, read_ok.mpr ⟨hslot, rfl⟩, h⟩)
  | ipreadv x wr fd lens cc =>
    refine onFil_outcome rfl (fun f hslot res h => ?_) run
    refine onExtents_outcome (fun v => rfl) (fun v t₁ hv res w hpost =>
      (sysioIpiov_ok driver hpost).mono fun unheard => ⟨fd, lens, 1, rfl, ?_, ?_, unheard⟩) h
    · rw [hslot]
      rfl
    · exact (mallocVec_fed hv).mp fun k hk => by omega
  | ireadx x wr fd iovs xtvs cc =>
    refine onFil_outcome rfl (fun f hslot res h => ?_) run
    by_cases hargs : iovs = 0 ∨ xtvs = 0
    · rw [if_pos hargs] at h
      exact refuse (-EINVAL) _ _ _ (by decide) h
    · rw [if_neg hargs] at h
      exact onExtents_outcome (fun v => rfl) (fun v t₁ _ res w hpost => sysioIiox_ok driver hpost) h
  | iread64x x fd iovs xtvs cc =>
    refine onFil_outcome rfl (fun f hslot res h => ?_) run
    by_cases hargs : iovs = 0 ∨ xtvs = 0
    · rw [if_pos hargs] at h
      exact refuse (-EINVAL) _ _ _ (by decide) h
    · rw [if_neg hargs] at h
      exact posted_outcome Took.none (fun res w hpost => sysioIiox_ok driver hpost)
        (List.Perm.refl _) (List.Perm.refl _) h
  | iwrite64x x fd xtvs cc =>
    refine onFil_outcome rfl (fun f hslot res h => ?_) run
    by_cases hargs : xtvs = 0
    · rw [if_pos hargs] at h
      exact refuse (-EBADF) _ _ _ (by decide) h
    · rw [if_neg hargs] at h
      exact posted_outcome Took.none (fun res w hpost => sysioIiox_ok driver hpost)
        (List.Perm.refl _) (List.Perm.refl _) h
  | open_ | close | unlink | rmdir | mkdir | stat | lstat | access | readlink | chmod | chown | utime
  | symlink | mknod | link | rename | chdir | mount | umount | dup | dup2 | read | write | pread
  | pwrite | ftruncate | fsync | fdatasync | fstat | fchmod | fchown | lseek | iodone | iowait =>
    cases hcall

end Interface

abbrev CallEvent (D : Type) := Event (Sys D) Call Ret

/-- The identifier that an asynchronous call returned, if it succeeded. -/
def handle (ev : CallEvent D) : Option IocId :=
  if PostMoves.isPost ev.call = true ∧ ev.result.2 = 0 then some ev.result.1.toNat else none

/-- The contexts that have been posted and not been waited for. -/
def outstanding : List (CallEvent D) → List IocId
  | [] => []
  | ev :: h => match ev.call with
    | .iowait c _ => (outstanding h).erase c
    | _ => (handle ev).toList ++ outstanding h

/-- The callbacks that have run for a context, in the order they ran in. -/
def history (s : Sys D) (c : IocId) : List Callback :=
  (s.aio.ran.filter fun x => x.1 == c).map (·.2)

/-- The number of queued contexts on an inode. -/
def onInode (s : Sys D) (i : InoId) : ℕ :=
  s.aio.aioq.countP fun c => (s.aio.ioctx c).any fun r => r.ino == i

/-- What is to hold after the calls `h`, made from the state `s₀`. -/
structure Lifecycle (s₀ : Sys D) (h : List (CallEvent D)) (s : Sys D) : Prop where
  queue : s.aio.aioq = outstanding h
  callbacks : ∀ ev ∈ h, ∀ c, handle ev = some c →
    history s c = if c ∈ outstanding h then [] else registers ev.before ev.call
  failed : ∀ ev ∈ h, handle ev = none → ∀ c : ℕ, ev.before.aio.nextIoctx ≤ c →
    c < ev.after.aio.nextIoctx → history s c = []
  waited : ∀ ev ∈ h, ∀ c polls, ev.call = .iowait c polls → c ∈ ev.before.aio.aioq →
    (sysioIoctxFind c : Sysio D (Option IocId)) s = .ok (none, s)
  refs : ∀ i, refOf s i = refOf s₀ i + onInode s i
  vectors : ∀ ev ∈ h, ∀ v : ℕ, ev.before.aio.nextVec ≤ v → v < ev.after.aio.nextVec →
    s.aio.frees v = s₀.aio.frees v + if (handle ev).any (· ∈ outstanding h) then 0 else 1

/-- No asynchronous call is under way, and no callback has run for an identifier not given out. -/
structure Idle (s : Sys D) : Prop where
  aioq : s.aio.aioq = []
  ran : ∀ x ∈ s.aio.ran, x.1 < s.aio.nextIoctx

/-- The record of a context that awaits the end of the call `ev`. -/
structure Awaits (ev : CallEvent D) (r : Ioctx) : Prop where
  heap : r.fast = false
  cbq : r.cbq = registers ev.before ev.call
  frees : ∀ v : ℕ, (released r.cbq r.iov r.xtv).count v =
    if ev.before.aio.nextVec ≤ v ∧ v < ev.after.aio.nextVec then 1 else 0

/-- The first call came before the second, and what it allocated is not the second's. -/
def Earlier (ev ev' : CallEvent D) : Prop :=
  ev.after.aio.nextVec ≤ ev'.before.aio.nextVec ∧ ev.after.aio.nextIoctx ≤ ev'.before.aio.nextIoctx

/-- The invariant behind `Lifecycle`. -/
structure Ledger (s₀ : Sys D) (h : List (CallEvent D)) (s : Sys D) : Prop where
  order : h.Pairwise fun later earlier => Earlier earlier later
  past : ∀ ev ∈ h, ev.after.aio.nextVec ≤ s.aio.nextVec ∧ ev.after.aio.nextIoctx ≤ s.aio.nextIoctx
  ids : ∀ ev ∈ h, ∀ c : ℕ, handle ev = some c →
    c = ev.before.aio.nextIoctx ∧ c < ev.after.aio.nextIoctx
  queue : s.aio.aioq = outstanding h
  nodup : s.aio.aioq.Nodup
  pending : ∀ ev ∈ h, ∀ c, handle ev = some c → c ∈ s.aio.aioq →
    ∃ r, s.aio.ioctx c = some r ∧ Awaits ev r
  callbacks : ∀ ev ∈ h, ∀ c, handle ev = some c →
    history s c = if c ∈ s.aio.aioq then [] else registers ev.before ev.call
  failed : ∀ ev ∈ h, handle ev = none → ∀ c : ℕ, ev.before.aio.nextIoctx ≤ c →
    c < ev.after.aio.nextIoctx → history s c = []
  waited : ∀ ev ∈ h, ∀ (c : ℕ) polls, ev.call = .iowait c polls → c ∈ ev.before.aio.aioq →
    c ∉ s.aio.aioq ∧ c < s.aio.nextIoctx
  refs : ∀ i, refOf s i = refOf s₀ i + onInode s i
  vectors : ∀ ev ∈ h, ∀ v : ℕ, ev.before.aio.nextVec ≤ v → v < ev.after.aio.nextVec →
    s.aio.frees v = s₀.aio.frees v + if (handle ev).any (· ∈ s.aio.aioq) then 0 else 1
  ran : ∀ x ∈ s.aio.ran, x.1 < s.aio.nextIoctx
  fresh : ∀ v : ℕ, s.aio.nextVec ≤ v → s.aio.frees v = s₀.aio.frees v

section Ledgers

variable {s₀ s t : Sys D} {h : List (CallEvent D)} {ev : CallEvent D} {c : ℕ}

theorem mem_outstanding (hc : c ∈ outstanding h) : ∃ ev ∈ h, handle ev = some c := by
  induction h with
  | nil => cases hc
  | cons ev h ih =>
    have old : c ∈ outstanding h → ∃ ev' ∈ ev :: h, handle ev' = some c := by
      intro hmem
      obtain ⟨ev', hev', hhandle⟩ := ih hmem
      exact ⟨ev', List.mem_cons_of_mem _ hev', hhandle⟩
    unfold outstanding at hc
    split at hc
    · exact old (List.mem_of_mem_erase hc)
    · rcases List.mem_append.mp hc with hc | hc
      · exact ⟨ev, List.mem_cons_self .., Option.mem_toList.mp hc⟩
      · exact old hc

theorem Ledger.start (idle : Idle s₀) : Ledger s₀ [] s₀ where
  order := List.Pairwise.nil
  past _ hev := by cases hev
  ids _ hev := by cases hev
  queue := idle.aioq
  nodup := by rw [idle.aioq]; exact List.nodup_nil
  pending _ hev := by cases hev
  callbacks _ hev := by cases hev
  failed _ hev := by cases hev
  waited _ hev := by cases hev
  refs i := by simp [onInode, idle.aioq]
  vectors _ hev := by cases hev
  ran := idle.ran
  fresh _ _ := rfl

theorem Ledger.bound (k : Ledger s₀ h s) (hc : c ∈ s.aio.aioq) : c < s.aio.nextIoctx := by
  rw [k.queue] at hc
  obtain ⟨ev, hev, hhandle⟩ := mem_outstanding hc
  have := (k.ids ev hev c hhandle).2
  have := (k.past ev hev).2
  omega

/-- No two calls made the same context or vector. -/
theorem Ledger.apart (k : Ledger s₀ h s) {ev' : CallEvent D} (hev : ev ∈ h) (hev' : ev' ∈ h)
    (hne : ev ≠ ev') : Earlier ev ev' ∨ Earlier ev' ev := by
  have : Std.Symm fun a b : CallEvent D => Earlier a b ∨ Earlier b a := ⟨fun _ _ => Or.symm⟩
  have apart : h.Pairwise fun a b => Earlier a b ∨ Earlier b a := k.order.imp Or.inr
  exact apart.forall hev hev' hne

theorem Ledger.same_handle (k : Ledger s₀ h s) {ev' : CallEvent D} (hev : ev ∈ h) (hev' : ev' ∈ h)
    (hc : handle ev = some c) (hc' : handle ev' = some c) : ev = ev' := by
  by_contra hne
  obtain ⟨first, last⟩ := k.ids ev hev c hc
  obtain ⟨first', last'⟩ := k.ids ev' hev' c hc'
  rcases k.apart hev hev' hne with h | h
  · have := h.2
    omega
  · have := h.2
    omega

theorem onInode_congr (aioq : t.aio.aioq = s.aio.aioq)
    (same : ∀ d ∈ s.aio.aioq, (t.aio.ioctx d).map (·.ino) = (s.aio.ioctx d).map (·.ino)) (i : InoId) :
    onInode t i = onInode s i := by
  unfold onInode
  rw [aioq]
  refine List.countP_congr fun d hd => ?_
  have hd' := same d hd
  cases hs : s.aio.ioctx d <;> cases ht : t.aio.ioctx d <;> rw [hs, ht] at hd' <;>
    simp_all

/-- Serving a context changes nothing that is in the books. -/
theorem Ledger.served (k : Ledger s₀ h s) (m : Served c s t) : Ledger s₀ h t := by
  have history_same : ∀ d, history t d = history s d := fun d => by
    unfold history
    rw [m.ran]
  refine ⟨k.order, fun ev hev => ?_, k.ids, m.aioq.trans k.queue, ?_, fun ev hev d hd hmem => ?_,
    fun ev hev d hd => ?_, fun ev hev hnone d hlow hhigh => ?_, fun ev hev d polls hcall hd => ?_,
    fun i => ?_, fun ev hev v hlow hhigh => ?_, ?_, fun v hv => ?_⟩
  · rw [m.nextVec, m.nextIoctx]
    exact k.past ev hev
  · rw [m.aioq]
    exact k.nodup
  · rw [m.aioq] at hmem
    obtain ⟨r, hr, awaits⟩ := k.pending ev hev d hd hmem
    by_cases hdc : d = c
    · subst hdc
      obtain ⟨done, cc, errno, ht⟩ := m.own r hr
      exact ⟨_, ht, awaits.heap, awaits.cbq, awaits.frees⟩
    · exact ⟨r, (m.others d hdc).trans hr, awaits⟩
  · rw [history_same, m.aioq]
    exact k.callbacks ev hev d hd
  · rw [history_same]
    exact k.failed ev hev hnone d hlow hhigh
  · rw [m.aioq, m.nextIoctx]
    exact k.waited ev hev d polls hcall hd
  · rw [m.refs, k.refs, onInode_congr m.aioq fun d hd => ?_]
    rw [k.queue] at hd
    obtain ⟨ev, hev, hhandle⟩ := mem_outstanding hd
    obtain ⟨r, hr, -⟩ := k.pending ev hev d hhandle (k.queue ▸ hd)
    by_cases hdc : d = c
    · subst hdc
      obtain ⟨done, cc, errno, ht⟩ := m.own r hr
      rw [hr, ht]
      rfl
    · rw [m.others d hdc]
  · rw [m.frees, m.aioq]
    exact k.vectors ev hev v hlow hhigh
  · rw [m.ran, m.nextIoctx]
    exact k.ran
  · rw [m.nextVec] at hv
    rw [m.frees]
    exact k.fresh v hv

theorem outstanding_post (post : PostMoves.isPost ev.call = true) :
    outstanding (ev :: h) = (handle ev).toList ++ outstanding h := by
  rw [outstanding]
  split
  · rename_i hcall
    rw [hcall] at post
    cases post
  · rfl

/-- A call that has changed nothing is added to the books. -/
theorem Ledger.note (k : Ledger s₀ h s) (vec : ev.before.aio.nextVec = s.aio.nextVec)
    (ctx : ev.before.aio.nextIoctx = s.aio.nextIoctx) (vec' : ev.after.aio.nextVec = s.aio.nextVec)
    (ctx' : ev.after.aio.nextIoctx = s.aio.nextIoctx) (silent : handle ev = none)
    (same : outstanding (ev :: h) = outstanding h)
    (unwaited : ∀ c polls, ev.call = .iowait c polls → c ∉ ev.before.aio.aioq) :
    Ledger s₀ (ev :: h) s where
  order := by
    refine List.pairwise_cons.mpr ⟨fun ev' hev' => ?_, k.order⟩
    rw [Earlier, vec, ctx]
    exact k.past ev' hev'
  past := List.forall_mem_cons.mpr ⟨⟨le_of_eq vec', le_of_eq ctx'⟩, k.past⟩
  ids := by
    refine List.forall_mem_cons.mpr ⟨fun c hc => ?_, k.ids⟩
    rw [silent] at hc
    cases hc
  queue := k.queue.trans same.symm
  nodup := k.nodup
  pending := by
    refine List.forall_mem_cons.mpr ⟨fun c hc => ?_, k.pending⟩
    rw [silent] at hc
    cases hc
  callbacks := by
    refine List.forall_mem_cons.mpr ⟨fun c hc => ?_, k.callbacks⟩
    rw [silent] at hc
    cases hc
  failed := by
    refine List.forall_mem_cons.mpr ⟨fun _ c hlow hhigh => ?_, k.failed⟩
    omega
  waited := List.forall_mem_cons.mpr
    ⟨fun c polls hcall hc => (unwaited c polls hcall hc).elim, k.waited⟩
  refs := k.refs
  vectors := by
    refine List.forall_mem_cons.mpr ⟨fun v hlow hhigh => ?_, k.vectors⟩
    omega
  ran := k.ran
  fresh := k.fresh

/-- No callback has run for a context that is still to be made. -/
theorem Ledger.unmade (k : Ledger s₀ h s) (hc : s.aio.nextIoctx ≤ c) : history s c = [] := by
  unfold history
  have none : s.aio.ran.filter (fun x => x.1 == c) = [] := by
    refine List.filter_eq_nil_iff.mpr fun x hx heq => ?_
    have below := k.ran x hx
    rw [beq_iff_eq] at heq
    rw [heq] at below
    exact absurd hc (not_le.mpr below)
  rw [none]
  rfl

theorem Ledger.refused (k : Ledger s₀ h ev.before) (m : Refused ev.before ev.after)
    (post : PostMoves.isPost ev.call = true) (silent : handle ev = none) :
    Ledger s₀ (ev :: h) ev.after where
  order := List.pairwise_cons.mpr ⟨fun ev' hev' => k.past ev' hev', k.order⟩
  past := by
    refine List.forall_mem_cons.mpr ⟨⟨le_refl _, le_refl _⟩, fun ev' hev' => ?_⟩
    obtain ⟨vec, ctx⟩ := k.past ev' hev'
    exact ⟨le_trans vec m.nextVec, le_trans ctx m.next⟩
  ids := by
    refine List.forall_mem_cons.mpr ⟨fun c hc => ?_, k.ids⟩
    rw [silent] at hc
    cases hc
  queue := by
    rw [outstanding_post post, silent, m.aioq, k.queue]
    rfl
  nodup := by
    rw [m.aioq]
    exact k.nodup
  pending := by
    refine List.forall_mem_cons.mpr ⟨fun c hc => ?_, fun ev' hev' c hc hmem => ?_⟩
    · rw [silent] at hc
      cases hc
    · rw [m.aioq] at hmem
      obtain ⟨r, hr, awaits⟩ := k.pending ev' hev' c hc hmem
      exact ⟨r, (m.others c (k.bound hmem)).trans hr, awaits⟩
  callbacks := by
    refine List.forall_mem_cons.mpr ⟨fun c hc => ?_, fun ev' hev' c hc => ?_⟩
    · rw [silent] at hc
      cases hc
    · rw [m.aioq, history, m.ran]
      exact k.callbacks ev' hev' c hc
  failed := by
    refine List.forall_mem_cons.mpr ⟨fun _ c hlow _ => ?_, fun ev' hev' hnone c hlow hhigh => ?_⟩
    · rw [history, m.ran]
      exact k.unmade hlow
    · rw [history, m.ran]
      exact k.failed ev' hev' hnone c hlow hhigh
  waited := by
    refine List.forall_mem_cons.mpr ⟨fun c polls hcall => ?_, fun ev' hev' c polls hcall hc => ?_⟩
    · rw [hcall] at post
      cases post
    · obtain ⟨hmem, hlt⟩ := k.waited ev' hev' c polls hcall hc
      exact ⟨by rw [m.aioq]; exact hmem, lt_of_lt_of_le hlt m.next⟩
  refs i := by
    rw [m.refs, k.refs, onInode_congr m.aioq fun d hd => ?_]
    rw [m.others d (k.bound hd)]
  vectors := by
    refine List.forall_mem_cons.mpr ⟨fun v hlow hhigh => ?_, fun ev' hev' v hlow hhigh => ?_⟩
    · rw [m.frees, k.fresh v hlow, if_pos ⟨hlow, hhigh⟩, silent]
      simp
    · have old : ¬ (ev.before.aio.nextVec ≤ v ∧ v < ev.after.aio.nextVec) := by
        have := (k.past ev' hev').1
        omega
      rw [m.frees, if_neg old, Nat.add_zero, m.aioq]
      exact k.vectors ev' hev' v hlow hhigh
  ran := by
    rw [m.ran]
    exact fun x hx => lt_of_lt_of_le (k.ran x hx) m.next
  fresh v hv := by
    have past : ¬ (ev.before.aio.nextVec ≤ v ∧ v < ev.after.aio.nextVec) := by omega
    rw [m.frees, if_neg past, Nat.add_zero]
    exact k.fresh v (le_trans m.nextVec hv)

theorem Ledger.accepted {i : InoId} (k : Ledger s₀ h ev.before)
    (m : Accepted i (registers ev.before ev.call) ev.before ev.after)
    (post : PostMoves.isPost ev.call = true) (queued : handle ev = some ev.before.aio.nextIoctx) :
    Ledger s₀ (ev :: h) ev.after := by
  have other : ∀ d : ℕ, d ∈ ev.before.aio.aioq → d ≠ ev.before.aio.nextIoctx := fun d hd =>
    ne_of_lt (k.bound hd)
  -- an older call is as far as it was
  have old : ∀ ev' ∈ h, ∀ d : ℕ, handle ev' = some d →
      (d ∈ ev.after.aio.aioq ↔ d ∈ ev.before.aio.aioq) := by
    intro ev' hev' d hd
    have hne : d ≠ ev.before.aio.nextIoctx := by
      have := (k.ids ev' hev' d hd).2
      have := (k.past ev' hev').2
      omega
    rw [m.aioq, List.mem_cons, or_iff_right hne]
  have history_same : ∀ d, history ev.after d = history ev.before d := fun d => by
    unfold history
    rw [m.ran]
  obtain ⟨r, hr, heap, ino, cbq, frees⟩ := m.own
  constructor
  case order => exact List.pairwise_cons.mpr ⟨fun ev' hev' => k.past ev' hev', k.order⟩
  case past =>
    refine List.forall_mem_cons.mpr ⟨⟨le_refl _, le_refl _⟩, fun ev' hev' => ?_⟩
    obtain ⟨vec, ctx⟩ := k.past ev' hev'
    exact ⟨le_trans vec m.nextVec, le_trans ctx (by rw [m.next]; exact Nat.le_succ _)⟩
  case ids =>
    refine List.forall_mem_cons.mpr ⟨fun c hc => ?_, k.ids⟩
    obtain rfl := Option.some.inj (queued.symm.trans hc)
    exact ⟨rfl, by rw [m.next]; exact Nat.lt_succ_self _⟩
  case queue =>
    rw [outstanding_post post, queued, m.aioq, k.queue]
    rfl
  case nodup =>
    rw [m.aioq]
    exact List.nodup_cons.mpr ⟨fun hmem => other _ hmem rfl, k.nodup⟩
  case pending =>
    refine List.forall_mem_cons.mpr ⟨fun c hc _ => ?_, fun ev' hev' c hc hmem => ?_⟩
    · obtain rfl := Option.some.inj (queued.symm.trans hc)
      exact ⟨r, hr, heap, cbq, frees⟩
    · have hmem' := (old ev' hev' c hc).mp hmem
      obtain ⟨q, hq, awaits⟩ := k.pending ev' hev' c hc hmem'
      exact ⟨q, (m.others c (other c hmem')).trans hq, awaits⟩
  case callbacks =>
    refine List.forall_mem_cons.mpr ⟨fun c hc => ?_, fun ev' hev' c hc => ?_⟩
    · obtain rfl := Option.some.inj (queued.symm.trans hc)
      rw [history_same, k.unmade (le_refl _), m.aioq, if_pos (List.mem_cons_self ..)]
    · rw [history_same, k.callbacks ev' hev' c hc]
      exact if_congr (old ev' hev' c hc).symm rfl rfl
  case failed =>
    refine List.forall_mem_cons.mpr ⟨fun hnone => ?_, fun ev' hev' hnone c hlow hhigh => ?_⟩
    · rw [queued] at hnone
      cases hnone
    · rw [history_same]
      exact k.failed ev' hev' hnone c hlow hhigh
  case waited =>
    refine List.forall_mem_cons.mpr ⟨fun c polls hcall => ?_, fun ev' hev' c polls hcall hc => ?_⟩
    · rw [hcall] at post
      cases post
    · obtain ⟨hmem, hlt⟩ := k.waited ev' hev' c polls hcall hc
      refine ⟨?_, by rw [m.next]; exact Nat.lt_succ_of_lt hlt⟩
      rw [m.aioq, List.mem_cons, not_or]
      exact ⟨ne_of_lt hlt, hmem⟩
  case refs =>
    intro j
    have rest : ev.before.aio.aioq.countP (fun c => (ev.after.aio.ioctx c).any fun r => r.ino == j) =
        onInode ev.before j :=
      List.countP_congr fun d hd => by rw [m.others d (other d hd)]
    have now : onInode ev.after j = onInode ev.before j + if r.ino == j then 1 else 0 := by
      rw [onInode, m.aioq, List.countP_cons, rest, hr]
      rfl
    rw [m.refs, k.refs, now, ← ino]
    by_cases hj : r.ino = j
    · simp [one, hj]
      omega
    · simp [one, hj]
  case vectors =>
    refine List.forall_mem_cons.mpr ⟨fun v hlow hhigh => ?_, fun ev' hev' v hlow hhigh => ?_⟩
    · rw [m.frees, k.fresh v hlow, queued, Option.any_some, m.aioq]
      simp
    · have same : (handle ev').any (· ∈ ev.after.aio.aioq) =
          (handle ev').any (· ∈ ev.before.aio.aioq) := by
        cases hc : handle ev' with
        | none => rfl
        | some c => simp only [Option.any_some, old ev' hev' c hc]
      rw [m.frees, same]
      exact k.vectors ev' hev' v hlow hhigh
  case ran =>
    intro x hx
    rw [m.ran] at hx
    rw [m.next]
    exact Nat.lt_succ_of_lt (k.ran x hx)
  case fresh =>
    intro v hv
    rw [m.frees]
    exact k.fresh v (le_trans m.nextVec hv)

theorem Completed.history_own {r : Ioctx} (m : Completed c r s t) :
    history t c = history s c ++ r.cbq := by
  simp [history, m.ran, List.filter_map, Function.comp_def]

theorem Completed.history_other {r : Ioctx} (m : Completed c r s t) {d : ℕ} (hd : d ≠ c) :
    history t d = history s d := by
  simp [history, m.ran, List.filter_map, Function.comp_def, Ne.symm hd]

/-- The reference of the context that leaves the queue is given back. -/
theorem Ledger.completed_refs {r : Ioctx} (k : Ledger s₀ h s) (hmem : c ∈ s.aio.aioq)
    (hr : s.aio.ioctx c = some r) (m : Completed c r s t) (j : InoId) :
    refOf t j = refOf s₀ j + onInode t j := by
  have rest : onInode s j = onInode t j + if r.ino == j then 1 else 0 := by
    have perm := List.perm_cons_erase hmem
    have others : (s.aio.aioq.erase c).countP (fun d => (s.aio.ioctx d).any fun r => r.ino == j) =
        onInode t j := by
      rw [onInode, m.aioq]
      refine List.countP_congr fun d hd => ?_
      rw [m.others d (k.nodup.mem_erase_iff.mp hd).1]
    rw [onInode, perm.countP_eq, List.countP_cons, others, hr]
    rfl
  rw [m.refs, k.refs, rest]
  by_cases hj : r.ino = j
  · simp [one, hj]
    omega
  · simp [one, hj]

/-- What one call has allocated is not another's. -/
theorem Ledger.outside (k : Ledger s₀ h s) {own : CallEvent D} (hown : own ∈ h) (hev : ev ∈ h)
    (hne : ev ≠ own) :
    (∀ v : ℕ, ev.before.aio.nextVec ≤ v → v < ev.after.aio.nextVec →
      ¬ (own.before.aio.nextVec ≤ v ∧ v < own.after.aio.nextVec)) ∧
    ∀ d : ℕ, ev.before.aio.nextIoctx ≤ d → d < ev.after.aio.nextIoctx →
      ¬ (own.before.aio.nextIoctx ≤ d ∧ d < own.after.aio.nextIoctx) := by
  rcases k.apart hev hown hne with earlier | later
  · have vec := earlier.1
    have ctx := earlier.2
    constructor <;> intros <;> omega
  · have vec := later.1
    have ctx := later.2
    constructor <;> intros <;> omega

/-- The waited context leaves the queue; its callbacks have run and freed its vectors. -/
theorem Ledger.completed {u : Sys D} {r : Ioctx} {polls : ℕ} (k : Ledger s₀ h u)
    (hmem : c ∈ u.aio.aioq) (hr : u.aio.ioctx c = some r) (m : Completed c r u ev.after)
    (hcall : ev.call = .iowait c polls) (vec : ev.before.aio.nextVec = u.aio.nextVec)
    (ctx : ev.before.aio.nextIoctx = u.aio.nextIoctx) (aioq : ev.before.aio.aioq = u.aio.aioq) :
    Ledger s₀ (ev :: h) ev.after := by
  obtain ⟨own, hown, hhandle⟩ := mem_outstanding (k.queue ▸ hmem)
  obtain ⟨q, hq, awaits⟩ := k.pending own hown c hhandle hmem
  obtain rfl : r = q := Option.some.inj (hr.symm.trans hq)
  have silent : handle ev = none := by
    unfold handle
    rw [hcall]
    exact if_neg fun h => by cases h.1
  have left : ∀ d, d ∈ ev.after.aio.aioq ↔ d ≠ c ∧ d ∈ u.aio.aioq := by
    intro d
    rw [m.aioq, k.nodup.mem_erase_iff]
  constructor
  case order =>
    refine List.pairwise_cons.mpr ⟨fun ev' hev' => ?_, k.order⟩
    rw [Earlier, vec, ctx]
    exact k.past ev' hev'
  case past =>
    refine List.forall_mem_cons.mpr ⟨⟨le_refl _, le_refl _⟩, fun ev' hev' => ?_⟩
    rw [m.nextVec, m.nextIoctx]
    exact k.past ev' hev'
  case ids =>
    refine List.forall_mem_cons.mpr ⟨fun c hc => ?_, k.ids⟩
    rw [silent] at hc
    cases hc
  case queue => rw [m.aioq, k.queue, outstanding, hcall]
  case nodup =>
    rw [m.aioq]
    exact k.nodup.erase c
  case pending =>
    refine List.forall_mem_cons.mpr ⟨fun c hc _ => ?_, fun ev' hev' d hd hin => ?_⟩
    · rw [silent] at hc
      cases hc
    · obtain ⟨hdc, hin'⟩ := (left d).mp hin
      obtain ⟨q, hq, awaits⟩ := k.pending ev' hev' d hd hin'
      exact ⟨q, (m.others d hdc).trans hq, awaits⟩
  case callbacks =>
    refine List.forall_mem_cons.mpr ⟨fun c hc => ?_, fun ev' hev' d hd => ?_⟩
    · rw [silent] at hc
      cases hc
    by_cases hdc : d = c
    · subst hdc
      obtain rfl := k.same_handle hev' hown hd hhandle
      rw [m.history_own, k.callbacks ev' hev' d hd, if_pos hmem, if_neg fun h => ((left d).mp h).1 rfl]
      exact awaits.cbq
    · rw [m.history_other hdc, k.callbacks ev' hev' d hd]
      refine if_congr ?_ rfl rfl
      rw [left, and_iff_right hdc]
  case failed =>
    refine List.forall_mem_cons.mpr ⟨fun _ d hlow hhigh => ?_, fun ev' hev' hnone d hlow hhigh => ?_⟩
    · rw [m.nextIoctx] at hhigh
      omega
    have hdc : d ≠ c := by
      rintro rfl
      have hne : ev' ≠ own := by
        rintro rfl
        rw [hnone] at hhandle
        cases hhandle
      obtain ⟨first, last⟩ := k.ids own hown d hhandle
      exact (k.outside hown hev' hne).2 d hlow hhigh ⟨Nat.le_of_eq first.symm, last⟩
    rw [m.history_other hdc]
    exact k.failed ev' hev' hnone d hlow hhigh
  case waited =>
    refine List.forall_mem_cons.mpr
      ⟨fun d polls hcall' hd => ?_, fun ev' hev' d polls hcall hd => ?_⟩
    · rw [hcall] at hcall'
      obtain ⟨rfl, -⟩ := Call.iowait.inj hcall'
      exact ⟨fun h => ((left c).mp h).1 rfl, by rw [m.nextIoctx]; exact k.bound hmem⟩
    · obtain ⟨gone, hlt⟩ := k.waited ev' hev' d polls hcall hd
      exact ⟨fun h => gone ((left d).mp h).2, by rw [m.nextIoctx]; exact hlt⟩
  case refs => exact k.completed_refs hmem hr m
  case vectors =>
    refine List.forall_mem_cons.mpr ⟨fun v hlow hhigh => ?_, fun ev' hev' v hlow hhigh => ?_⟩
    · rw [m.nextVec] at hhigh
      omega
    rw [m.frees, awaits.frees]
    by_cases hsame : ev' = own
    · subst hsame
      have pending := k.vectors ev' hev' v hlow hhigh
      rw [hhandle, Option.any_some, if_pos (decide_eq_true hmem)] at pending
      rw [pending, if_pos ⟨hlow, hhigh⟩, hhandle, Option.any_some, if_neg]
      exact fun h => ((left c).mp (of_decide_eq_true h)).1 rfl
    · have same : (handle ev').any (· ∈ ev.after.aio.aioq) = (handle ev').any (· ∈ u.aio.aioq) := by
        cases hd : handle ev' with
        | none => rfl
        | some d =>
          have hdc : d ≠ c := by
            rintro rfl
            exact hsame (k.same_handle hev' hown hd hhandle)
          simp only [Option.any_some, left, ne_eq, hdc, not_false_eq_true, true_and]
      rw [if_neg ((k.outside hown hev' hsame).1 v hlow hhigh), Nat.add_zero, same]
      exact k.vectors ev' hev' v hlow hhigh
  case ran =>
    intro x hx
    rw [m.nextIoctx]
    rw [m.ran] at hx
    rcases List.mem_append.mp hx with hx | hx
    · exact k.ran x hx
    · obtain ⟨cb, -, rfl⟩ := List.mem_map.mp hx
      exact k.bound hmem
  case fresh =>
    intro v hv
    rw [m.nextVec] at hv
    have outside : ¬ (own.before.aio.nextVec ≤ v ∧ v < own.after.aio.nextVec) := by
      have := (k.past own hown).1
      omega
    rw [m.frees, awaits.frees, if_neg outside, Nat.add_zero]
    exact k.fresh v hv

end Ledgers

/-- The calls of an asynchronous session. -/
def InSession (call : Call) : Prop :=
  PostMoves.isPost call = true ∨ (∃ c, call = .iodone c) ∨ ∃ c polls, call = .iowait c polls

/-- A call of a session that can tell an error from success. -/
def Sound (e : Env D) (s : Sys D) (call : Call) : Prop := InSession call ∧ ¬ Slips e s call

section Sessions

variable {lib : Library D} (driver : Serves lib.env) {s₀ s t : Sys D} {h : List (CallEvent D)} {c : ℕ}

theorem find_none (hc : c ∉ s.aio.aioq) : s.aio.aioq.find? (· == c) = none := by
  refine List.find?_eq_none.mpr fun d hd heq => hc ?_
  rw [← beq_iff_eq.mp heq]
  exact hd

theorem found_of_find {d : IocId} (hfind : s.aio.aioq.find? (· == c) = some d) :
    d = c ∧ c ∈ s.aio.aioq := by
  have hd := List.find?_some hfind
  simp only [beq_iff_eq] at hd
  subst hd
  exact ⟨rfl, List.mem_of_find?_eq_some hfind⟩

include driver

theorem iodone_served {ret : Ret} (run : interfaceIodone lib.env c s = .ok (ret, t)) :
    Served c s t := by
  obtain ⟨found, _, hfind, h1⟩ := bind_ok.mp run
  obtain ⟨hfound, rfl⟩ := read_ok.mp hfind
  cases found with
  | none =>
    obtain ⟨-, rfl⟩ := pure_ok.mp h1
    exact Std.Refl.refl s
  | some d =>
    obtain ⟨rfl, -⟩ := found_of_find hfound
    obtain ⟨done, w, hdone, h2⟩ := bind_ok.mp h1
    obtain ⟨-, rfl⟩ := pure_ok.mp h2
    exact sysioIoctxDone_served driver _ _ _ hdone

theorem iowait_ok {polls : ℕ} {ret : Ret} {r : Ioctx} (hmem : c ∈ s.aio.aioq)
    (hr : s.aio.ioctx c = some r) (heap : r.fast = false)
    (run : interfaceIowait lib.env c polls s = .ok (ret, t)) :
    ∃ u q, polled lib.env c polls s = .ok ((), u) ∧ u.aio.ioctx c = some q ∧ Completed c q u t ∧
      (0 ≤ q.cc → ret = (q.cc, 0)) := by
  obtain ⟨found, _, hfind, h1⟩ := bind_ok.mp run
  obtain ⟨hfound, rfl⟩ := read_ok.mp hfind
  cases found with
  | none =>
    have := List.find?_eq_none.mp hfound c hmem
    simp at this
  | some d =>
    obtain ⟨rfl, -⟩ := found_of_find hfound
    obtain ⟨cc, w, hwait, h2⟩ := bind_ok.mp h1
    obtain ⟨rfl, rfl⟩ := pure_ok.mp h2
    obtain ⟨u, q, hpolled, hq, completed, hcc⟩ := sysioIoctxWait_ok driver hr heap hwait
    refine ⟨u, q, hpolled, hq, completed, fun transferred => ?_⟩
    rw [if_neg (not_lt.mpr transferred)] at hcc
    rw [hcc, if_neg (not_lt.mpr transferred), if_neg (not_lt.mpr transferred)]

/-- Every call of a session keeps the books. -/
theorem Ledger.step {call : Call} {ret : Ret} (k : Ledger s₀ h s) (session : InSession call)
    (sound : ¬ Slips lib.env s call) (run : step lib call s = .ok (ret, t)) :
    Ledger s₀ (⟨s, call, ret, t⟩ :: h) t := by
  rcases session with post | ⟨c, rfl⟩ | ⟨c, polls, rfl⟩
  · rcases post_outcome driver post run with
      ⟨herr, refused⟩ | ⟨f, r, -, -, rfl, accepted⟩ | ⟨slips, -⟩
    · exact k.refused refused post (if_neg fun both => herr both.2)
    · exact k.accepted accepted post (if_pos ⟨post, rfl⟩)
    · exact (sound slips).elim
  · have served := iodone_served driver run
    have silent : handle (⟨s, .iodone c, ret, t⟩ : CallEvent D) = none := if_neg fun both => by
      cases both.1
    refine (k.served served).note served.nextVec.symm served.nextIoctx.symm rfl rfl silent ?_
      fun d polls hcall => by cases hcall
    rw [outstanding, silent]
    rfl
  · by_cases hmem : c ∈ s.aio.aioq
    · obtain ⟨own, hown, hhandle⟩ := mem_outstanding (k.queue ▸ hmem)
      obtain ⟨r, hr, awaits⟩ := k.pending own hown c hhandle hmem
      obtain ⟨u, q, hpolled, hq, completed, -⟩ := iowait_ok driver hmem hr awaits.heap run
      have served : Served c s u := polled_served driver polls _ _ _ hpolled
      have hmem' : c ∈ u.aio.aioq := by
        rw [served.aioq]
        exact hmem
      exact (k.served served).completed hmem' hq completed rfl served.nextVec.symm
        served.nextIoctx.symm served.aioq.symm
    · obtain ⟨found, _, hfind, h1⟩ := bind_ok.mp run
      obtain ⟨hfound, rfl⟩ := read_ok.mp hfind
      rw [find_none hmem] at hfound
      subst hfound
      obtain ⟨-, rfl⟩ := pure_ok.mp h1
      refine k.note rfl rfl rfl rfl (if_neg fun both => by cases both.1) ?_ ?_
      · rw [outstanding]
        exact List.erase_of_not_mem (k.queue ▸ hmem)
      · intro d polls' hcall
        obtain ⟨rfl, -⟩ := Call.iowait.inj hcall
        exact hmem

omit driver in
theorem Ledger.lifecycle (k : Ledger s₀ h s) : Lifecycle s₀ h s where
  queue := k.queue
  callbacks ev hev c hc := by
    rw [← k.queue]
    exact k.callbacks ev hev c hc
  failed := k.failed
  waited ev hev c polls hcall hc :=
    read_ok.mpr ⟨find_none (k.waited ev hev c polls hcall hc).1, rfl⟩
  refs := k.refs
  vectors ev hev v hlow hhigh := by
    rw [← k.queue]
    exact k.vectors ev hev v hlow hhigh

/-- A session whose calls all tell an error from success leaves the contexts, callbacks, references
and vectors as they are to be. -/
theorem io_context_lifecycle (idle : Idle s₀)
    (run : Traced (SysioSystem.step lib) (Sound lib.env) s₀ h s) : Lifecycle s₀ h s :=
  (run.invariant (Ledger.start idle) fun _ _ _ _ _ k ok last =>
    k.step driver ok.1 ok.2 last).lifecycle

end Sessions

/-- The driver of `fuseLibrary`, with transfers of one byte that are done as soon as they are
posted. -/
def promptLibrary : Library (FuseData Unit) where
  env := { fuseEnv calmHost with
    ops := { (fuseEnv calmHost).ops with
      post := fun _ _ c => do
        let r ← ioctxAt c
        setIoctx c { r with cc := 1, done := true }
        return 0
      iodone := fun _ _ => return true } }
  fssw := (fuseLibrary calmHost).fssw

theorem promptLibrary_serves : Serves promptLibrary.env where
  post _ _ c := by
    intro s a t run
    obtain ⟨r, _, hread, h1⟩ := bind_ok.mp run
    obtain ⟨hr, rfl⟩ := deref_ok.mp hread
    obtain ⟨_, _, hset, h2⟩ := bind_ok.mp h1
    obtain rfl := write_ok.mp hset
    obtain ⟨-, rfl⟩ := pure_ok.mp h2
    refine ⟨rfl, fun _ => rfl, rfl, rfl, rfl, rfl, rfl, fun d hd => Function.update_of_ne hd _ _,
      fun q hq => ⟨true, 1, q.errno, ?_⟩⟩
    obtain rfl : r = q := Option.some.inj (hr.symm.trans hq)
    exact Function.update_self ..
  iodone _ _ := moves_pure _
  gone i := @FuseAccounts.gone_driver _ calmHost i

/-- A file system of type "bb" is on "/b", and the file "f" is open in it for reading and writing. -/
def readyCalls : List Call :=
  [.open_ ⟨none, none⟩ [98, 98, 58, 47, 98, 47, 102] 0o102 0o644, .mount [] [47, 98] [98, 98] 2]

/-- A byte is read from the file at once, and waited for. -/
theorem io_context_lifecycle_readWaited : ∃ h s,
    Traced (step promptLibrary) (Sound promptLibrary.env) (calmRun readyCalls) h s ∧
    h.map (·.result) = [(1, 0), (0, 0)] ∧ Lifecycle (calmRun readyCalls) h s := by
  have idle : Idle (calmRun readyCalls) := ⟨by decide +kernel, by decide +kernel⟩
  have post : step promptLibrary (.iread 7 false 0 1 1) (calmRun readyCalls) = .ok ((0, 0), _) :=
    ok_of_value (by decide +kernel)
  have wait : step promptLibrary (.iowait 0 1) _ = .ok ((1, 0), _) :=
    @ok_of_value _ _ _ _ ((step promptLibrary (.iread 7 false 0 1 1)).final (calmRun readyCalls)) _
      (by decide +kernel)
  have one_byte : ¬ Slips promptLibrary.env (calmRun readyCalls) (.iread 7 false 0 1 1) := by
    rintro ⟨fd, lens, n, plan, -, -, negative, -⟩
    cases plan
    exact absurd negative (by decide)
  have no_sum : ∀ s, ¬ Slips promptLibrary.env s (.iowait 0 1) := by
    rintro s ⟨fd, lens, n, plan, -⟩
    cases plan
  have posted : Traced (step promptLibrary) (Sound promptLibrary.env) (calmRun readyCalls) _ _ :=
    .cons .nil ⟨Or.inl rfl, one_byte⟩ post
  have run := posted.cons ⟨Or.inr (Or.inr ⟨0, 1, rfl⟩), no_sum _⟩ wait
  exact ⟨_, _, run, rfl, io_context_lifecycle promptLibrary_serves idle run⟩

/-- A post of 2^63 bytes succeeds with whatever identifier the caller's memory holds, and leaves no
context. -/
theorem io_context_lifecycle_unsummed : ¬ ∀ (s₀ s : Sys (FuseData Unit)) h, Idle s₀ →
    Traced (step (fuseLibrary calmHost)) (fun _ call => InSession call) s₀ h s →
    Lifecycle s₀ h s := by
  intro all
  have idle : Idle (calmRun readyCalls) := ⟨by decide +kernel, by decide +kernel⟩
  have post : step (fuseLibrary calmHost) (.iread 7 false 0 (2 ^ 63) 0) (calmRun readyCalls) =
      .ok ((7, 0), _) := ok_of_value (by decide +kernel)
  have empty : ((step (fuseLibrary calmHost) (.iread 7 false 0 (2 ^ 63) 0)).final
      (calmRun readyCalls)).aio.aioq = [] := by decide +kernel
  have queue := (all _ _ _ idle (Traced.nil.cons (Or.inl rfl) post)).queue
  rw [empty] at queue
  cases queue

end IoContexts
