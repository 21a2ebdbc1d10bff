import DirectFuse.FreeDescriptors
import DirectFuse.FileCompletions
import DirectFuse.SysioFcntl

/-! The calls that duplicate a descriptor. They share one routine, which returns at once where the
two descriptors are the same: before it has looked whether the old one is open, and before it has
asked for a free one. -/
namespace Duplication

open ExecLogic SysioState SysioInode SysioFile SysioInterface SysioFcntl CoreMoves DescriptorTable
open FreeDescriptors
open IoContexts (slot)
open FileCompletions (slot_grown fdGrow_small)
open SysioReconcile (toInt)

variable {D : Type}

/-- The calls. The argument of `F_DUPFD` is not negative. -/
inductive DupCall where
  | dup
  | dupfd (low : ℕ)
  | dup2 (newfd : ℤ)
  deriving DecidableEq, Repr

/-- `dup(oldfd)`, `fcntl(oldfd, F_DUPFD, low)` and `dup2(oldfd, newfd)`. -/
def dupCall (e : Env D) (inopFcntl : InopFcntl D) (u oldfd : ℤ) : DupCall → Sysio D Ret
  | .dup => interfaceDup e oldfd
  | .dupfd low => do
    let (ret, _) ← sysioVfcntl e inopFcntl u oldfd (.dupfd low) 0 0
    return ret
  | .dup2 newfd => interfaceDup2 e oldfd newfd

/-- The descriptor that a call should return. -/
def Expected (s : Sys D) (n : ℕ) : DupCall → Prop
  | .dup => FirstFree s.ft.oftab 0 n
  | .dupfd low => FirstFree s.ft.oftab low n
  | .dup2 newfd => (n : ℤ) = newfd

/-- What a call should do with the old descriptor closed, or open on the record `f`. -/
def Contract (s : Sys D) (call : DupCall) (run : Sysio D Ret) : Option FilId → Prop
  | none => ∃ t, run s = .ok ((-1, -EBADF), t)
  | some f => ∃ (n : ℕ) (t : Sys D), run s = .ok (((n : ℤ), 0), t) ∧ Expected s n call ∧
      slot t n = some f ∧ ∀ fd, fd ≠ (n : ℤ) → slot t fd = slot s fd

/-- Descriptor `n` is an int, and the table reaches to it or can grow to it. -/
def Room (e : Env D) (s : Sys D) (n : ℕ) : Prop :=
  n + 1 < 2 ^ 31 ∧ (n < s.ft.oftab.length ∨ e.malloc s.mallocs = true)

/-- The table with the record `f` in slot `n`. -/
def placed (s : Sys D) (n : ℕ) (f : FilId) : Sys D :=
  { s with ft.oftab := s.ft.oftab.set n (some f) }

/-- The record that `f` takes the place of can be released. -/
def Replaceable (e : Env D) (s : Sys D) (f : FilId) (n : ℕ) : Prop :=
  ∀ g, slot s n = some g → ∃ t, fRele e g (placed s n f) = .ok ((), t)

/-- When a call is right. -/
def DupHolds (e : Env D) (s : Sys D) (oldfd : ℤ) (f : Option FilId) (call : DupCall) : Prop :=
  match f, call with
  | none, .dup => True
  | none, .dupfd _ => True
  | none, .dup2 newfd => newfd ≠ oldfd ∨ newfd < 0
  | some _, .dup => ∃ n, FirstFree s.ft.oftab 0 n ∧ Room e s n
  | some _, .dupfd low => (low : ℤ) ≠ oldfd ∧ ∃ n, FirstFree s.ft.oftab low n ∧ Room e s n
  | some f, .dup2 newfd => 0 ≤ newfd ∧
      (newfd = oldfd ∨ (Room e s newfd.toNat ∧ Replaceable e s f newfd.toNat))

section Slots

variable {e : Env D} {s t u : Sys D} {f g : FilId} {n : ℕ}

/-- The record `f` has been put into slot `n`, for which the table may have grown. -/
def Placed (s t : Sys D) (f : FilId) (n : ℕ) : Prop :=
  ∃ k, n < s.ft.oftab.length + k ∧ t.ft.oftab = (s.ft.oftab ++ List.replicate k none).set n (some f)

theorem Placed.here (placed : Placed s t f n) : slot t n = some f := by
  obtain ⟨k, room, oftab⟩ := placed
  have inside : n < (s.ft.oftab ++ List.replicate k none).length := by
    rw [List.length_append, List.length_replicate]
    exact room
  unfold slot
  rw [if_neg (by omega), oftab, Int.toNat_natCast, List.getD_eq_getElem?_getD,
    List.getElem?_set_self inside]
  rfl

theorem Placed.other (placed : Placed s t f n) {fd : ℤ} (other : fd ≠ (n : ℤ)) :
    slot t fd = slot s fd := by
  obtain ⟨k, -, oftab⟩ := placed
  unfold slot
  by_cases neg : fd < 0
  · rw [if_pos neg, if_pos neg]
  · have apart : n ≠ fd.toNat := by omega
    rw [if_neg neg, if_neg neg, oftab, List.getD_eq_getElem?_getD, List.getElem?_set_ne apart,
      ← List.getD_eq_getElem?_getD, getD_append_none]

theorem slot_nat (s : Sys D) (n : ℕ) : slot s n = s.ft.oftab.getD n none := by
  unfold slot
  rw [if_neg (by omega), Int.toNat_natCast]

/-- Growing the table gives no error where there is room. -/
theorem fdGrow_room {err : ℤ} (run : fdGrow e (n + 1) s = .ok (err, t)) : err = 0 ↔ Room e s n := by
  constructor
  · rintro rfl
    refine ⟨fdGrow_small run, ?_⟩
    by_contra none_
    obtain ⟨behind, denied⟩ := not_or.mp none_
    unfold fdGrow at run
    have size : (Exec.read fun s => s.ft.oftab.length : Sysio D ℕ) s = .ok (s.ft.oftab.length, s) := rfl
    have got : (malloc e : Sysio D Bool) s =
        .ok (e.malloc s.mallocs, { s with mallocs := s.mallocs + 1 }) := rfl
    by_cases big : 2 ^ 31 ≤ n + 1
    · rw [if_pos big] at run
      exact absurd (pure_ok.mp run).1 (by decide)
    · rw [if_neg big, bind_run size, if_neg (by omega), bind_run got,
        Bool.eq_false_of_not_eq_true denied] at run
      exact absurd (pure_ok.mp run).1 (by decide)
  · rintro ⟨small, room⟩
    unfold fdGrow at run
    have size : (Exec.read fun s => s.ft.oftab.length : Sysio D ℕ) s = .ok (s.ft.oftab.length, s) := rfl
    have got : (malloc e : Sysio D Bool) s =
        .ok (e.malloc s.mallocs, { s with mallocs := s.mallocs + 1 }) := rfl
    rw [if_neg (by omega), bind_run size] at run
    by_cases fits : n + 1 ≤ s.ft.oftab.length
    · rw [if_pos fits] at run
      exact (pure_ok.mp run).1.symm
    · rcases room with inside | granted
      · omega
      · rw [if_neg fits, bind_run got, granted] at run
        obtain ⟨_, _, -, last⟩ := bind_ok.mp run
        exact (pure_ok.mp last).1.symm

/-- A table that holds a slot is not changed to hold it. -/
theorem fdGrow_inside (small : n + 1 < 2 ^ 31) (inside : n < s.ft.oftab.length) :
    fdGrow e (n + 1) s = .ok (0, s) := by
  have size : (Exec.read fun s => s.ft.oftab.length : Sysio D ℕ) s = .ok (s.ft.oftab.length, s) := rfl
  unfold fdGrow
  rw [if_neg (by omega), bind_run size, if_pos (by omega)]
  rfl

end Slots

section Installing

variable {e : Env D} {s t u : Sys D} {f g : FilId} {n : ℕ}

/-- The end of `_sysio_fd_set`, when the descriptor is chosen. -/
def install (e : Env D) (f : FilId) (n : ℕ) : Sysio D ℤ := do
  let err ← fdGrow e (n + 1)
  if err ≠ 0 then
    return err
  let ofil ← sysioFdFind n
  setSlot n (some f)
  ifSome ofil (fRele e)
  return (n : ℤ)

theorem sysioFdSet_install {fd : ℤ} {force : Bool}
    (chosen : (if fd < 0 ∨ !force then findFreeFildes e fd.toNat else pure fd : Sysio D ℤ) s =
      .ok ((n : ℤ), u)) : sysioFdSet e f fd force s = install e f n u := by
  unfold sysioFdSet
  rw [bind_run chosen, if_neg (by omega)]
  rfl

theorem install_full (full : ¬ Room e s n) : ∃ err t, install e f n s = .ok (err, t) ∧ err < 0 := by
  obtain ⟨err, t, grow⟩ := fdGrow_run e (n + 1) s
  obtain ⟨-, low, -⟩ := fdGrow_ok grow
  have failed : err ≠ 0 := fun h => full ((fdGrow_room grow).mp h)
  refine ⟨err, t, ?_, by omega⟩
  unfold install
  rw [bind_run grow, if_pos failed]
  rfl

/-- An empty slot is filled, and nothing is released. -/
theorem install_free (room : Room e s n) (free : slot s n = none) :
    ∃ t, install e f n s = .ok ((n : ℤ), t) ∧ t.ft.file = s.ft.file ∧ Placed s t f n := by
  obtain ⟨err, u, grow⟩ := fdGrow_run e (n + 1) s
  obtain rfl := (fdGrow_room grow).mpr room
  obtain ⟨grown, -, long⟩ := fdGrow_ok grow
  have read : (sysioFdFind n : Sysio D (Option FilId)) u = .ok (none, u) :=
    read_ok.mpr ⟨(slot_grown grown).trans free, rfl⟩
  obtain ⟨k, table, -⟩ := grown
  have room : n < s.ft.oftab.length + k := by
    have inside := long rfl
    rw [table] at inside
    simp at inside
    omega
  refine ⟨placed u n f, ?_, ?_, k, room, ?_⟩
  · unfold install
    rw [bind_run grow, if_neg (by decide), bind_run read]
    rfl
  · change u.ft.file = s.ft.file
    rw [table]
  · change u.ft.oftab.set n (some f) = _
    rw [table]

/-- A slot that is taken is in the table; its record is released once the new one is in its place. -/
theorem install_over (room : Room e s n) (taken : slot s n = some g) :
    install e f n s = (do
      fRele e g
      return (n : ℤ)) (placed s n f) := by
  have inside : n < s.ft.oftab.length := by
    rw [slot_nat] at taken
    exact inside_of_taken taken
  have read : (sysioFdFind n : Sysio D (Option FilId)) s = .ok (some g, s) :=
    read_ok.mpr ⟨taken, rfl⟩
  unfold install
  rw [bind_run (fdGrow_inside room.1 inside), if_neg (by decide), bind_run read]
  rfl

/-- The first free slot is found, if the table has room for it. -/
theorem findFreeFildes_run (e : Env D) (s : Sys D) (low : ℕ) :
    ∃ n, FirstFree s.ft.oftab low n ∧
      ((¬ Room e s n ∧ ∃ err t, err < 0 ∧ findFreeFildes e low s = .ok (err, t)) ∨
        ∃ t, findFreeFildes e low s = .ok ((n : ℤ), t) ∧ Grown s t ∧ (Room e t n ↔ Room e s n)) := by
  have size : (Exec.read fun s => s.ft.oftab : Sysio D _) s = .ok (s.ft.oftab, s) := rfl
  refine ⟨low + ((s.ft.oftab.drop low).takeWhile (·.isSome)).length, ?_, ?_⟩
  · refine ⟨by omega, getD_takeWhile_isSome _ _, fun k hk hn => ?_⟩
    exact taken_takeWhile_isSome s.ft.oftab hk hn
  generalize hn : low + ((s.ft.oftab.drop low).takeWhile (·.isSome)).length = n
  unfold findFreeFildes
  rw [bind_run size, hn]
  by_cases behind : s.ft.oftab.length ≤ n
  · rw [if_pos behind]
    obtain ⟨err, t, grow⟩ := fdGrow_run e (n + 1) s
    obtain ⟨grown, below, long⟩ := fdGrow_ok grow
    rw [bind_run grow]
    by_cases failed : err = 0
    · right
      rw [if_neg (not_not.mpr failed)]
      refine ⟨t, rfl, grown, ?_⟩
      have room := (fdGrow_room grow).mp failed
      have inside : n < t.ft.oftab.length := long failed
      exact ⟨fun _ => room, fun _ => ⟨room.1, Or.inl inside⟩⟩
    · left
      rw [if_pos failed]
      refine ⟨fun room => failed ((fdGrow_room grow).mpr room), err, t, by omega, rfl⟩
  · right
    rw [if_neg behind]
    exact ⟨s, rfl, Grown.refl s, Iff.rfl⟩

theorem Placed.of_grown (grown : Grown s u) (placed : Placed u t f n) : Placed s t f n := by
  obtain ⟨j, table, -⟩ := grown
  obtain ⟨k, room, oftab⟩ := placed
  refine ⟨j + k, ?_, ?_⟩
  · rw [table] at room
    simp at room
    omega
  · rw [oftab, table]
    simp only [List.append_assoc, List.replicate_append_replicate]

/-- A descriptor that is not forced is the first free one. -/
theorem sysioFdSet_free {fd : ℤ} {force : Bool} (find : fd < 0 ∨ !force) :
    ∃ n, FirstFree s.ft.oftab fd.toNat n ∧
      ((¬ Room e s n ∧ ∃ err t, err < 0 ∧ sysioFdSet e f fd force s = .ok (err, t)) ∨
        (Room e s n ∧ ∃ t, sysioFdSet e f fd force s = .ok ((n : ℤ), t) ∧ t.ft.file = s.ft.file ∧
          Placed s t f n)) := by
  obtain ⟨n, first, found⟩ := findFreeFildes_run e s fd.toNat
  refine ⟨n, first, ?_⟩
  rcases found with ⟨full, err, t, neg, found⟩ | ⟨u, found, grown, rooms⟩
  · left
    refine ⟨full, err, t, neg, ?_⟩
    unfold sysioFdSet
    rw [if_pos find, bind_run found, if_pos neg]
    rfl
  · have chosen : (if fd < 0 ∨ !force then findFreeFildes e fd.toNat else pure fd : Sysio D ℤ) s =
        .ok ((n : ℤ), u) := by
      rw [if_pos find]
      exact found
    rw [sysioFdSet_install chosen]
    by_cases room : Room e s n
    · right
      have free : slot u n = none := by
        rw [slot_grown grown, slot_nat]
        exact first.2.1
      obtain ⟨t, run, file, placed⟩ := install_free (f := f) (rooms.mpr room) free
      refine ⟨room, t, run, ?_, placed.of_grown grown⟩
      obtain ⟨k, table, -⟩ := grown
      rw [file, table]
    · left
      obtain ⟨err, t, run, neg⟩ := install_full (f := f) fun h => room (rooms.mp h)
      exact ⟨room, err, t, neg, run⟩

end Installing

section Duplicating

variable {e : Env D} {s t u : Sys D} {f g : FilId} {n : ℕ} {oldfd newfd : ℤ} {force : Bool}

/-- The routine behind its short cut. -/
theorem sysioFdDup_open (old : slot s oldfd = some f) (apart : ¬ (oldfd = newfd ∧ 0 ≤ oldfd)) :
    sysioFdDup e oldfd newfd force s = (do
      let fd ← sysioFdSet e f newfd force
      Exec.when (0 ≤ fd) (fRef f)
      return fd) s := by
  have read : (sysioFdFind oldfd : Sysio D (Option FilId)) s = .ok (some f, s) :=
    read_ok.mpr ⟨old, rfl⟩
  unfold sysioFdDup
  rw [if_neg apart, bind_run read]

theorem sysioFdDup_closed (old : slot s oldfd = none) (apart : ¬ (oldfd = newfd ∧ 0 ≤ oldfd)) :
    sysioFdDup e oldfd newfd force s = .ok (-EBADF, s) := by
  have read : (sysioFdFind oldfd : Sysio D (Option FilId)) s = .ok (none, s) :=
    read_ok.mpr ⟨old, rfl⟩
  unfold sysioFdDup
  rw [if_neg apart, bind_run read]
  rfl

/-- A live record takes the reference of its new slot, and the slots stay as they are. -/
theorem fRef_run {r : File} (live : t.ft.file f = some r) :
    ∃ u, fRef f t = .ok ((), u) ∧ u.ft.oftab = t.ft.oftab := by
  have read : (fileAt f : Sysio D File) t = .ok (r, t) := deref_ok.mpr ⟨live, rfl⟩
  refine ⟨{ t with ft.file := Function.update t.ft.file f (some { r with ref := r.ref + 1 }) }, ?_, rfl⟩
  unfold fRef
  rw [bind_run read]
  rfl

/-- The way of a record into its slot. -/
theorem dup_placed {r : File} (old : slot s oldfd = some f) (apart : ¬ (oldfd = newfd ∧ 0 ≤ oldfd))
    (set : sysioFdSet e f newfd force s = .ok ((n : ℤ), t)) (live : t.ft.file f = some r)
    (placed : Placed s t f n) :
    ∃ t, sysioFdDup e oldfd newfd force s = .ok ((n : ℤ), t) ∧ Placed s t f n := by
  obtain ⟨u, ref, oftab⟩ := fRef_run live
  have taken : (Exec.when (0 ≤ (n : ℤ)) (fRef f) : Sysio D Unit) t = .ok ((), u) :=
    when_ok.mpr (Or.inl ⟨by omega, ref⟩)
  obtain ⟨k, room, slots⟩ := placed
  refine ⟨u, ?_, k, room, oftab.trans slots⟩
  rw [sysioFdDup_open old apart, bind_run set, bind_run taken]
  rfl

/-- An error on the way is the result. -/
theorem dup_failed {err : ℤ} (old : slot s oldfd = some f) (apart : ¬ (oldfd = newfd ∧ 0 ≤ oldfd))
    (set : sysioFdSet e f newfd force s = .ok (err, t)) (neg : err < 0) :
    sysioFdDup e oldfd newfd force s = .ok (err, t) := by
  have idle : (Exec.when (0 ≤ err) (fRef f) : Sysio D Unit) t = .ok ((), t) :=
    when_ok.mpr (Or.inr ⟨by omega, rfl⟩)
  rw [sysioFdDup_open old apart, bind_run set, bind_run idle]
  rfl

theorem live_of_slot (table : Table s) {fd : ℤ} (taken : slot s fd = some f) :
    0 ≤ fd ∧ ∃ r, s.ft.file f = some r := by
  have nonneg : 0 ≤ fd := by
    by_contra neg
    unfold slot at taken
    rw [if_pos (by omega)] at taken
    cases taken
  obtain ⟨k, rfl⟩ := Int.eq_ofNat_of_zero_le nonneg
  rw [slot_nat] at taken
  have inside := inside_of_taken taken
  rw [List.getD_eq_getElem?_getD, List.getElem?_eq_getElem inside] at taken
  exact ⟨nonneg, table.live f (taken ▸ List.getElem_mem inside)⟩

/-- A descriptor that is not forced: the first free one, if there is room for it. -/
theorem dup_unforced (table : Table s) (old : slot s oldfd = some f)
    (apart : ¬ (oldfd = newfd ∧ 0 ≤ oldfd)) (find : newfd < 0 ∨ !force) :
    ∃ n, FirstFree s.ft.oftab newfd.toNat n ∧
      ((¬ Room e s n ∧ ∃ err t, err < 0 ∧ sysioFdDup e oldfd newfd force s = .ok (err, t)) ∨
        (Room e s n ∧ ∃ t, sysioFdDup e oldfd newfd force s = .ok ((n : ℤ), t) ∧ Placed s t f n)) := by
  obtain ⟨n, first, outcome⟩ := sysioFdSet_free (e := e) (s := s) (f := f) find
  refine ⟨n, first, ?_⟩
  rcases outcome with ⟨full, err, t, neg, set⟩ | ⟨room, t, set, file, placed⟩
  · left
    exact ⟨full, err, t, neg, dup_failed old apart set neg⟩
  · right
    obtain ⟨-, r, live⟩ := live_of_slot table old
    exact ⟨room, dup_placed old apart set ((congrFun file f).trans live) placed⟩

/-- A record in two slots has more than one reference. -/
theorem two_slots (table : Table s) {r : File} (live : s.ft.file f = some r) {k : ℕ}
    (hk : slot s k = some f) (hn : slot s n = some f) (apart : k ≠ n) : r.ref ≠ 1 := by
  rw [slot_nat] at hk hn
  have inside := inside_of_taken hn
  have taken : 0 < (s.ft.oftab.set n none).count (some f) := by
    have still : (s.ft.oftab.set n none).getD k none = some f := by
      rw [List.getD_eq_getElem?_getD, List.getElem?_set_ne (Ne.symm apart),
        ← List.getD_eq_getElem?_getD]
      exact hk
    have within := inside_of_taken still
    rw [List.getD_eq_getElem?_getD, List.getElem?_eq_getElem within] at still
    exact List.count_pos_iff.mpr (still ▸ List.getElem_mem within)
  have put := count_put inside none f
  rw [if_pos hn, if_neg (Option.some_ne_none f).symm] at put
  have refs := table.ref f r live
  omega

theorem forced_distinct (apart : oldfd ≠ (n : ℤ)) : ¬ (oldfd = (n : ℤ) ∧ 0 ≤ oldfd) :=
  fun h => apart h.1

theorem sysioFdSet_forced : sysioFdSet e f n true s = install e f n s := by
  apply sysioFdSet_install
  rw [if_neg]
  · rfl
  · rintro (neg | no)
    · omega
    · cases no

/-- The old record outlives the release of the one it takes the place of. -/
theorem live_after_release {closes : D → ℕ} (counted : ClosesCounted closes e) (table : Table s)
    (old : slot s oldfd = some f) (apart : oldfd ≠ (n : ℤ)) (taken : slot s n = some g)
    (rele : fRele e g (placed s n f) = .ok ((), t)) :
    (∃ r, t.ft.file f = some r) ∧ t.ft.oftab = s.ft.oftab.set n (some f) := by
  obtain ⟨old0, r, live⟩ := live_of_slot table old
  obtain ⟨rg, hrg, -, hft, -⟩ := fRele_ok counted rele
  change s.ft.file g = some rg at hrg
  rw [hft]
  refine ⟨?_, rfl⟩
  change ∃ r, released s.ft.file g rg f = some r
  unfold released
  by_cases same : f = g
  · subst same
    obtain ⟨k, rfl⟩ := Int.eq_ofNat_of_zero_le old0
    have more := two_slots table hrg old taken (by omega)
    rw [Function.update_self, if_neg more]
    exact ⟨_, rfl⟩
  · rw [Function.update_of_ne same]
    exact ⟨r, live⟩

/-- A descriptor that is forced, with room for it and a record there that can go. -/
theorem dup_forced {closes : D → ℕ} (counted : ClosesCounted closes e) (table : Table s)
    (old : slot s oldfd = some f) (apart : oldfd ≠ (n : ℤ)) (room : Room e s n)
    (replaceable : Replaceable e s f n) :
    ∃ t, sysioFdDup e oldfd n true s = .ok ((n : ℤ), t) ∧ Placed s t f n := by
  have distinct := forced_distinct apart
  cases taken : slot s n with
  | none =>
    obtain ⟨-, r, live⟩ := live_of_slot table old
    obtain ⟨t, run, file, placed⟩ := install_free (f := f) room taken
    exact dup_placed old distinct (sysioFdSet_forced.trans run) ((congrFun file f).trans live) placed
  | some g =>
    obtain ⟨t, rele⟩ := replaceable g taken
    obtain ⟨⟨r, live⟩, oftab⟩ := live_after_release counted table old apart taken rele
    have run : install e f n s = .ok ((n : ℤ), t) := by
      rw [install_over room taken, bind_run rele]
      rfl
    have inside : n < s.ft.oftab.length := by
      rw [slot_nat] at taken
      exact inside_of_taken taken
    refine dup_placed old distinct (sysioFdSet_forced.trans run) live ⟨0, by omega, ?_⟩
    rw [oftab]
    simp

/-- Without these there is an error, or the call does not return. -/
theorem dup_forced_only (old : slot s oldfd = some f) (apart : oldfd ≠ (n : ℤ)) {k : ℤ}
    (nonneg : 0 ≤ k) (run : sysioFdDup e oldfd n true s = .ok (k, t)) :
    Room e s n ∧ Replaceable e s f n := by
  have distinct := forced_distinct apart
  have room : Room e s n := by
    by_contra full
    obtain ⟨err, u, failed, neg⟩ := install_full (f := f) full
    rw [dup_failed old distinct (sysioFdSet_forced.trans failed) neg] at run
    cases run
    omega
  refine ⟨room, fun g taken => ?_⟩
  rw [sysioFdDup_open old distinct] at run
  obtain ⟨_, u, set, -⟩ := bind_ok.mp run
  rw [sysioFdSet_forced, install_over room taken] at set
  obtain ⟨_, v, rele, -⟩ := bind_ok.mp set
  exact ⟨v, rele⟩

end Duplicating

section Calls

variable {closes : D → ℕ} {e : Env D} {inopFcntl : InopFcntl D} {s t : Sys D} {f : FilId} {u oldfd : ℤ}

/-- What the caller sees of the routine's result. -/
def shown (fd : ℤ) : Ret := (if fd < 0 then -1 else fd, if fd < 0 then fd else 0)

theorem shown_nat (n : ℕ) : shown n = ((n : ℤ), 0) := by
  unfold shown
  rw [if_neg (by omega), if_neg (by omega)]

/-- A result that is a descriptor is the routine's. -/
theorem of_shown {fd : ℤ} {n : ℕ} (h : shown fd = ((n : ℤ), 0)) : fd = n := by
  unfold shown at h
  by_cases neg : fd < 0
  · rw [if_pos neg] at h
    have := congrArg Prod.fst h
    omega
  · rw [if_neg neg] at h
    exact congrArg Prod.fst h

/-- A call that fails on the way is not right for an open descriptor. -/
theorem not_contract_of_failed {call : DupCall} {run : Sysio D Ret} {err : ℤ} (neg : err < 0)
    (h : run s = .ok (shown err, t)) : ¬ Contract s call run (some f) := by
  rintro ⟨n, v, hrun, -⟩
  rw [h] at hrun
  have := of_shown (Prod.mk.inj (Except.ok.inj hrun)).1
  omega

theorem contract_of_placed {call : DupCall} {run : Sysio D Ret} {n : ℕ}
    (h : run s = .ok (shown n, t)) (expected : Expected s n call) (placed : Placed s t f n) :
    Contract s call run (some f) := by
  refine ⟨n, t, ?_, expected, placed.here, fun fd other => placed.other other⟩
  rw [h, shown_nat]

theorem interfaceDup_run {fd : ℤ} (run : sysioFdDup e oldfd (-1) false s = .ok (fd, t)) :
    interfaceDup e oldfd s = .ok (shown fd, t) := bind_run run

/-- `dup` is right for every open descriptor that the table has room for another of. -/
theorem dup_contract (table : Table s) :
    Contract s .dup (interfaceDup e oldfd) (slot s oldfd) ↔ DupHolds e s oldfd (slot s oldfd) .dup := by
  have apart : ¬ (oldfd = -1 ∧ 0 ≤ oldfd) := by omega
  cases old : slot s oldfd with
  | none =>
    refine ⟨fun _ => trivial, fun _ => ⟨s, ?_⟩⟩
    exact interfaceDup_run (sysioFdDup_closed old apart)
  | some f =>
    have find : (-1 : ℤ) < 0 ∨ !false := Or.inl (by decide)
    obtain ⟨n, first, outcome⟩ := @dup_unforced D e s f oldfd (-1) false table old apart find
    rcases outcome with ⟨full, err, t, neg, run⟩ | ⟨room, t, run, placed⟩
    · constructor
      · intro contract
        exact absurd contract (not_contract_of_failed neg (interfaceDup_run run))
      · rintro ⟨m, first', room⟩
        obtain rfl := first.unique first'
        exact absurd room full
    · constructor
      · intro _
        exact ⟨n, first, room⟩
      · intro _
        exact contract_of_placed (interfaceDup_run run) first placed

/-- An int is itself when it is cut to one. -/
theorem toInt_nat (low : ℕ) : toInt low = low ↔ low < 2 ^ 31 := by
  unfold toInt
  rw [Int.bmod_def]
  omega

theorem vfcntl_closed (old : slot s oldfd = none) (cmd : FcntlCmd) (size cached : ℤ) :
    sysioVfcntl e inopFcntl u oldfd cmd size cached s = .ok (((-1, -EBADF), none), s) := by
  have read : (sysioFdFind oldfd : Sysio D (Option FilId)) s = .ok (none, s) :=
    read_ok.mpr ⟨old, rfl⟩
  unfold sysioVfcntl
  rw [bind_run read]
  rfl

theorem dupfd_run {low : ℕ} {fd : ℤ} (old : slot s oldfd = some f) (small : low < 2 ^ 31)
    (run : sysioFdDup e oldfd low false s = .ok (fd, t)) :
    dupCall e inopFcntl u oldfd (.dupfd low) s = .ok (shown fd, t) := by
  have read : (sysioFdFind oldfd : Sysio D (Option FilId)) s = .ok (some f, s) :=
    read_ok.mpr ⟨old, rfl⟩
  have int : ¬ (toInt low ≠ low ∨ (low : ℤ) < 0) := by
    rintro (cut | neg)
    · exact cut ((toInt_nat low).mpr small)
    · omega
  have call : sysioVfcntl e inopFcntl u oldfd (.dupfd low) 0 0 s = .ok ((shown fd, none), t) := by
    unfold sysioVfcntl
    rw [bind_run read]
    change (if toInt low ≠ low ∨ (low : ℤ) < 0 then _ else _ : Sysio D _) s = _
    rw [if_neg int, bind_run run]
    rfl
  exact bind_run call

/-- An argument that is no int is refused. -/
theorem dupfd_great {low : ℕ} (old : slot s oldfd = some f) (great : ¬ low < 2 ^ 31) :
    dupCall e inopFcntl u oldfd (.dupfd low) s = .ok ((-1, -EBADF), s) := by
  have read : (sysioFdFind oldfd : Sysio D (Option FilId)) s = .ok (some f, s) :=
    read_ok.mpr ⟨old, rfl⟩
  have cut : toInt low ≠ low ∨ (low : ℤ) < 0 := Or.inl fun h => great ((toInt_nat low).mp h)
  have call : sysioVfcntl e inopFcntl u oldfd (.dupfd low) 0 0 s = .ok (((-1, -EBADF), none), s) := by
    unfold sysioVfcntl
    rw [bind_run read]
    change (if toInt low ≠ low ∨ (low : ℤ) < 0 then _ else _ : Sysio D _) s = _
    rw [if_pos cut]
    rfl
  exact bind_run call

/-- `F_DUPFD` is right for these but where it is asked for the old descriptor itself. -/
theorem dupfd_contract (table : Table s) (low : ℕ) :
    Contract s (.dupfd low) (dupCall e inopFcntl u oldfd (.dupfd low)) (slot s oldfd) ↔
      DupHolds e s oldfd (slot s oldfd) (.dupfd low) := by
  cases old : slot s oldfd with
  | none =>
    refine ⟨fun _ => trivial, fun _ => ⟨s, ?_⟩⟩
    exact bind_run (vfcntl_closed old _ _ _)
  | some f =>
    by_cases small : low < 2 ^ 31
    · by_cases same : (low : ℤ) = oldfd
      · -- the short cut gives back the old descriptor, which is not free
        have cut : sysioFdDup e oldfd low false s = .ok (oldfd, s) := by
          unfold sysioFdDup
          rw [if_pos ⟨same.symm, by omega⟩, same]
          rfl
        constructor
        · rintro ⟨n, t, run, first, -⟩
          rw [dupfd_run old small cut] at run
          have found := of_shown (Prod.mk.inj (Except.ok.inj run)).1
          have free := first.2.1
          rw [found, slot_nat, free] at old
          cases old
        · rintro ⟨other, -⟩
          exact absurd same other
      · have apart : ¬ (oldfd = (low : ℤ) ∧ 0 ≤ oldfd) := fun h => same h.1.symm
        have find : (low : ℤ) < 0 ∨ !false := Or.inr rfl
        obtain ⟨n, first, outcome⟩ := @dup_unforced D e s f oldfd low false table old apart find
        rw [Int.toNat_natCast] at first
        rcases outcome with ⟨full, err, t, neg, run⟩ | ⟨room, t, run, placed⟩
        · constructor
          · intro contract
            exact absurd contract (not_contract_of_failed neg (dupfd_run old small run))
          · rintro ⟨-, m, first', room⟩
            obtain rfl := first.unique first'
            exact absurd room full
        · constructor
          · intro _
            exact ⟨same, n, first, room⟩
          · intro _
            exact contract_of_placed (dupfd_run old small run) first placed
    · constructor
      · rintro ⟨n, t, run, -⟩
        rw [dupfd_great old small] at run
        have := congrArg Prod.fst (Prod.mk.inj (Except.ok.inj run)).1
        change (-1 : ℤ) = n at this
        omega
      · rintro ⟨-, n, first, room⟩
        have := first.1
        have := room.1
        omega

theorem dup2_run {newfd fd : ℤ} (nonneg : 0 ≤ newfd)
    (run : sysioFdDup e oldfd newfd true s = .ok (fd, t)) :
    interfaceDup2 e oldfd newfd s = .ok (shown fd, t) := by
  unfold interfaceDup2
  rw [if_neg (by omega), bind_run run]
  rfl

theorem dup2_negative {newfd : ℤ} (neg : newfd < 0) :
    interfaceDup2 e oldfd newfd s = .ok ((-1, -EBADF), s) := by
  unfold interfaceDup2
  rw [if_pos neg]
  rfl

/-- `dup2` is right but where a closed descriptor is put onto itself. -/
theorem dup2_contract (counted : ClosesCounted closes e) (table : Table s) (newfd : ℤ) :
    Contract s (.dup2 newfd) (interfaceDup2 e oldfd newfd) (slot s oldfd) ↔
      DupHolds e s oldfd (slot s oldfd) (.dup2 newfd) := by
  by_cases neg : newfd < 0
  · have refused := @dup2_negative D e s oldfd newfd neg
    cases old : slot s oldfd with
    | none => exact ⟨fun _ => Or.inr neg, fun _ => ⟨s, refused⟩⟩
    | some f =>
      constructor
      · rintro ⟨n, t, run, -⟩
        rw [refused] at run
        have := congrArg Prod.fst (Prod.mk.inj (Except.ok.inj run)).1
        change (-1 : ℤ) = n at this
        omega
      · rintro ⟨nonneg, -⟩
        omega
  obtain ⟨n, rfl⟩ := Int.eq_ofNat_of_zero_le (not_lt.mp neg)
  by_cases same : oldfd = (n : ℤ)
  · -- the short cut is taken whether the descriptor is open or not
    have cut : sysioFdDup e oldfd n true s = .ok ((n : ℤ), s) := by
      unfold sysioFdDup
      rw [if_pos ⟨same, by omega⟩]
      rfl
    have run := dup2_run (not_lt.mp neg) cut
    cases old : slot s oldfd with
    | none =>
      constructor
      · rintro ⟨t, run'⟩
        rw [run, shown_nat] at run'
        have := congrArg Prod.fst (Prod.mk.inj (Except.ok.inj run')).1
        change (n : ℤ) = -1 at this
        omega
      · rintro (other | neg')
        · exact absurd same.symm other
        · exact absurd neg' neg
    | some f =>
      refine ⟨fun _ => ⟨not_lt.mp neg, Or.inl same.symm⟩, fun _ => ⟨n, s, ?_, rfl, ?_, fun _ _ => rfl⟩⟩
      · rw [run, shown_nat]
      · rw [← same]
        exact old
  · cases old : slot s oldfd with
    | none =>
      refine ⟨fun _ => Or.inl (Ne.symm same), fun _ => ⟨s, ?_⟩⟩
      exact dup2_run (not_lt.mp neg) (sysioFdDup_closed old (forced_distinct same))
    | some f =>
      constructor
      · rintro ⟨k, t, run, -⟩
        refine ⟨not_lt.mp neg, Or.inr ?_⟩
        unfold interfaceDup2 at run
        rw [if_neg neg] at run
        obtain ⟨fd, v, hv, last⟩ := bind_ok.mp run
        have found := of_shown (pure_ok.mp last).1
        exact dup_forced_only old same (by omega) hv
      · rintro ⟨-, same' | ⟨room, replaceable⟩⟩
        · exact absurd same'.symm same
        · obtain ⟨t, run, placed⟩ := dup_forced counted table old same room replaceable
          exact contract_of_placed (dup2_run (not_lt.mp neg) run) rfl placed

/-- In every table, each of the calls does what it should exactly when it is not asked for the old
descriptor itself, and there is room and the record in the way can go. -/
theorem duplication (counted : ClosesCounted closes e) (table : Table s) (call : DupCall) :
    Contract s call (dupCall e inopFcntl u oldfd call) (slot s oldfd) ↔
      DupHolds e s oldfd (slot s oldfd) call := by
  cases call with
  | dup => exact dup_contract table
  | dupfd low => exact dupfd_contract table low
  | dup2 newfd => exact dup2_contract counted table newfd

end Calls

section Fuse

open FuseDriver FuseSystem

/-- A driver that grants every lock. -/
def granting : InopFcntl (FuseData Unit) := fun _ _ fl => pure (0, fl)

/-- Descriptor 3 is open and is duplicated to the least free one. -/
theorem duplication_three :
    slot (afterOps onlyThree) 3 = some 0 ∧
      Contract (afterOps onlyThree) .dup (dupCall (fuseEnv calmHost) granting 0 3 .dup) (some 0) := by
  have table : Table (afterOps onlyThree) :=
    table_of_steps fuseEnv_closesCounted onlyThree_steps ⟨rfl, fun _ => rfl⟩
  have values : (afterOps onlyThree).ft.oftab = [none, none, none, some 0] := by decide +kernel
  have old : slot (afterOps onlyThree) 3 = some 0 := by
    unfold slot
    rw [if_neg (by decide), values]
    rfl
  have first : FirstFree (afterOps onlyThree).ft.oftab 0 0 := by
    apply firstFree_here
    rw [values]
    rfl
  have room : Room (fuseEnv calmHost) (afterOps onlyThree) 0 := by
    unfold Room
    rw [values]
    exact ⟨by decide, Or.inl (by decide)⟩
  have right := @duplication _ releases (fuseEnv calmHost) granting (afterOps onlyThree) 0 3
    fuseEnv_closesCounted table .dup
  rw [old] at right
  exact ⟨old, right.mpr ⟨0, first, room⟩⟩

/-- A closed descriptor is put onto itself: the call succeeds. -/
theorem dup2_closed : ¬ ∀ s, Steps (tableStep (fuseEnv calmHost)) Allowed (afterOps []) s →
    ∀ oldfd call, Contract s call (dupCall (fuseEnv calmHost) granting 0 oldfd call) (slot s oldfd) := by
  intro right
  have table : (afterOps []).ft.oftab = [] := rfl
  have closed : slot (afterOps []) 5 = none := by
    change (afterOps []).ft.oftab.getD 5 none = none
    rw [table]
    rfl
  have contract := right (afterOps []) (.refl _) 5 (.dup2 5)
  rw [closed] at contract
  obtain ⟨t, run⟩ := contract
  have value : (dupCall (fuseEnv calmHost) granting 0 5 (.dup2 5)).value (afterOps []) = some (5, 0) := by
    decide +kernel
  rw [ok_of_value value] at run
  exact absurd (congrArg Prod.fst (Prod.mk.inj (Except.ok.inj run)).1) (by decide)

end Fuse

end Duplication
