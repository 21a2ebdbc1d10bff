import DirectFuse.ReconcileValid
import DirectFuse.Dispatch

/-! Where `lseek` moves to. The sum is checked after it is formed, and the check of a negative offset
negates it; the least offset is its own negation. -/
namespace SeekPositions

open ExecLogic SysioState SysioFile SysioInterface SysioSystem CoreMoves
open SysioReconcile (wrap64 toInt SSIZE_MAX EOVERFLOW)
open ReconcileStream (wrap64_of_mem)

variable {D : Type}

/-- The values of a signed integer of 64 bits. -/
def Signed64 (x : ℤ) : Prop := -2 ^ 63 ≤ x ∧ x < 2 ^ 63

/-- Where the offset counts from. -/
def seekBase (r : File) (size : ℤ) : Whence → ℤ
  | .cur => r.pos
  | .end_ => size
  | _ => 0

/-- The driver refreshes the attributes where the offset counts from the end. -/
def refresh (e : Env D) (r : File) : Whence → Sysio D ℤ
  | .end_ => e.ops.getattr r.ino none (some r.ino)
  | _ => pure 0

/-- The position the offset leads to. -/
def seekTo (base offset max : ℤ) : ℤ :=
  if (offset < 0 ∧ base < wrap64 (-offset)) ∨ (0 < offset ∧ wrap64 (base + offset) ≤ base) then
    -EINVAL
  else if max ≤ wrap64 (base + offset) then -EOVERFLOW
  else wrap64 (base + offset)

theorem wrap64_neg {x : ℤ} (low : -2 ^ 63 < x) (neg : x < 0) : wrap64 (-x) = -x :=
  wrap64_of_mem (by omega) (by unfold SSIZE_MAX; omega)

/-- A sum below zero is itself. -/
theorem wrap64_of_neg {x : ℤ} (low : -2 ^ 63 ≤ x) (neg : x < 0) : wrap64 x = x :=
  Int.bmod_eq_of_le (by omega) (by omega)

/-- A sum that is too great comes out negative. -/
theorem wrap64_of_great {x : ℤ} (high : 2 ^ 63 ≤ x) (top : x < 2 ^ 64) : wrap64 x = x - 2 ^ 64 := by
  unfold wrap64
  rw [← Int.sub_bmod_right]
  exact Int.bmod_eq_of_le (by omega) (by omega)

theorem wrap64_least : wrap64 (-(-2 ^ 63)) = -2 ^ 63 := by decide

section Arithmetic

variable {base offset max : ℤ}

/-- What `_sysio_lseek_prepare` should return. -/
def SeekResult (base offset max pos : ℤ) : Prop :=
  if 0 ≤ base + offset ∧ base + offset < max then pos = base + offset
  else pos = -EINVAL ∨ pos = -EOVERFLOW

instance (pos : ℤ) : Decidable (SeekResult base offset max pos) := by
  unfold SeekResult
  infer_instance

/-- The offsets for which the checks fail: the least one, unless the limit lies lower still or the
sum happens to be one of the two errors. -/
def Slips (base offset max : ℤ) : Prop :=
  offset = -2 ^ 63 ∧ base + offset < max ∧ base + offset ≠ -EINVAL ∧ base + offset ≠ -EOVERFLOW

/-- The checks on the sign of the offset. -/
def Refused (base offset : ℤ) : Prop :=
  (offset < 0 ∧ base < wrap64 (-offset)) ∨ (0 < offset ∧ wrap64 (base + offset) ≤ base)

theorem seekTo_refused (refused : Refused base offset) : seekTo base offset max = -EINVAL :=
  if_pos refused

/-- A sum that passes the checks and does not wrap is right. -/
theorem seekTo_passed (passed : ¬ Refused base offset) (sum : 0 ≤ base + offset)
    (small : base + offset < 2 ^ 63) : SeekResult base offset max (seekTo base offset max) := by
  have exact_ : wrap64 (base + offset) = base + offset := wrap64_of_mem sum (by unfold SSIZE_MAX; omega)
  have value : seekTo base offset max = if max ≤ base + offset then -EOVERFLOW else base + offset := by
    unfold seekTo
    rw [exact_]
    refine if_neg ?_
    unfold Refused at passed
    rwa [exact_] at passed
  unfold SeekResult
  by_cases hmax : max ≤ base + offset
  · rw [if_neg (by omega), value, if_pos hmax]
    exact Or.inr rfl
  · rw [if_pos ⟨sum, by omega⟩, value, if_neg hmax]

theorem seekTo_negative (low : -2 ^ 63 < offset) (neg : offset < 0) (base0 : 0 ≤ base)
    (base1 : base < 2 ^ 63) : SeekResult base offset max (seekTo base offset max) := by
  have negated := wrap64_neg low neg
  by_cases hsum : 0 ≤ base + offset
  · apply seekTo_passed _ hsum (by omega)
    rintro (⟨h, k⟩ | ⟨h, k⟩) <;> omega
  · have refused : Refused base offset := Or.inl ⟨neg, by omega⟩
    unfold SeekResult
    rw [if_neg (fun h => hsum h.1), seekTo_refused refused]
    exact Or.inl rfl

theorem seekTo_positive (pos : 0 ≤ offset) (high : offset < 2 ^ 63) (base0 : 0 ≤ base)
    (base1 : base < 2 ^ 63) (max1 : max < 2 ^ 63) :
    SeekResult base offset max (seekTo base offset max) := by
  by_cases hsum : base + offset < 2 ^ 63
  · have exact_ : wrap64 (base + offset) = base + offset :=
      wrap64_of_mem (by omega) (by unfold SSIZE_MAX; omega)
    apply seekTo_passed _ (by omega) hsum
    rintro (⟨h, k⟩ | ⟨h, k⟩) <;> omega
  · have wrapped : wrap64 (base + offset) = base + offset - 2 ^ 64 :=
      wrap64_of_great (by omega) (by omega)
    have refused : Refused base offset := Or.inr ⟨by omega, by omega⟩
    unfold SeekResult
    rw [if_neg (by omega), seekTo_refused refused]
    exact Or.inl rfl

theorem seekTo_least (base0 : 0 ≤ base) (base1 : base < 2 ^ 63) :
    seekTo base (-2 ^ 63) max = if max ≤ base + -2 ^ 63 then -EOVERFLOW else base + -2 ^ 63 := by
  unfold seekTo
  rw [wrap64_least, wrap64_of_neg (by omega) (by omega), if_neg (by omega)]

/-- The arithmetic is right but for the slip. -/
theorem seekTo_result (offset64 : Signed64 offset) (base0 : 0 ≤ base) (base1 : base < 2 ^ 63)
    (max1 : max < 2 ^ 63) :
    SeekResult base offset max (seekTo base offset max) ↔ ¬ Slips base offset max := by
  obtain ⟨low, high⟩ := offset64
  rcases lt_or_ge offset 0 with neg | pos
  · by_cases hleast : offset = -2 ^ 63
    · subst hleast
      rw [seekTo_least base0 base1]
      unfold SeekResult Slips
      rw [if_neg (by omega)]
      by_cases hmax : max ≤ base + -2 ^ 63
      · rw [if_pos hmax]
        exact ⟨fun _ h => by omega, fun _ => Or.inr rfl⟩
      · rw [if_neg hmax]
        omega
    · exact ⟨fun _ h => hleast h.1, fun _ => seekTo_negative (by omega) neg base0 base1⟩
  · exact ⟨fun _ h => by have := h.1; omega, fun _ => seekTo_positive pos high base0 base1 max1⟩

/-- A position that is good for a seek lies below the limit. -/
theorem seekTo_below (nonneg : 0 ≤ seekTo base offset max) : seekTo base offset max < max := by
  unfold seekTo at nonneg ⊢
  by_cases hbad : (offset < 0 ∧ base < wrap64 (-offset)) ∨ (0 < offset ∧ wrap64 (base + offset) ≤ base)
  · rw [if_pos hbad] at nonneg
    exact absurd nonneg (by decide)
  · rw [if_neg hbad] at nonneg ⊢
    by_cases hmax : max ≤ wrap64 (base + offset)
    · rw [if_pos hmax] at nonneg
      exact absurd nonneg (by decide)
    · rw [if_neg hmax]
      omega

/-- The errors are still there when they are cut to an int. -/
theorem result_errno {pos : ℤ} (result : SeekResult base offset max pos) (neg : pos < 0) :
    toInt pos ≠ 0 := by
  unfold SeekResult at result
  by_cases hin : 0 ≤ base + offset ∧ base + offset < max
  · rw [if_pos hin] at result
    omega
  · rw [if_neg hin] at result
    rcases result with rfl | rfl <;> decide

end Arithmetic

section Seeks

variable {e : Env D} {s t u : Sys D} {r : File} {f : FilId} {offset max size pos : ℤ} {whence : Whence}

theorem sysioLseekPrepare_ok (valid : whence ≠ .other) (asked : refresh e r whence s = .ok (0, u)) :
    sysioLseekPrepare e r offset whence max size s =
      .ok (seekTo (seekBase r size whence) offset max, u) := by
  have rest : ∀ base, (if (offset < 0 ∧ base < wrap64 (-offset)) ∨
        (0 < offset ∧ wrap64 (base + offset) ≤ base) then pure (-EINVAL)
      else if max ≤ wrap64 (base + offset) then pure (-EOVERFLOW)
      else pure (wrap64 (base + offset)) : Sysio D ℤ) u = .ok (seekTo base offset max, u) := by
    intro base
    unfold seekTo
    split
    · rfl
    · split <;> rfl
  cases whence with
  | set =>
    obtain ⟨-, rfl⟩ := pure_ok.mp asked
    exact rest 0
  | cur =>
    obtain ⟨-, rfl⟩ := pure_ok.mp asked
    exact rest r.pos
  | end_ =>
    have found : (do
        let err ← e.ops.getattr r.ino none (some r.ino)
        pure (err, size) : Sysio D (ℤ × ℤ)) s = .ok ((0, size), u) := bind_run asked
    exact (bind_run found).trans (rest size)
  | other => exact absurd rfl valid

/-- What a seek should do in the state `u` in which the driver has given the attributes. -/
structure SeekRight (e : Env D) (f : FilId) (base offset : ℤ) (whence : Whence) (max size : ℤ)
    (s u : Sys D) (pos : ℤ) (t : Sys D) : Prop where
  result : SeekResult base offset max pos
  failed : pos < 0 → t = u
  moved : 0 ≤ pos → pos < max ∧ ∃ r, u.ft.file f = some r ∧
    t = { u with ft.file := Function.update u.ft.file f (some { r with pos := pos }) }
  errno : ∀ fd, max = SSIZE_MAX → (if fd < 0 then none else s.ft.oftab.getD fd.toNat none) = some f →
    ∃ ret, interfaceLseek e fd offset whence size s = .ok (ret, t) ∧
      (ret.1 = -1 → ret.2 ≠ 0) ∧ (ret.1 ≠ -1 → ret.1 = pos)

/-- A seek is right unless the least offset slips through the checks. -/
theorem seek_arithmetic (hr : s.ft.file f = some r) (valid : whence ≠ .other)
    (base0 : 0 ≤ seekBase r size whence) (base64 : Signed64 (seekBase r size whence))
    (offset64 : Signed64 offset) (max64 : Signed64 max) (asked : refresh e r whence s = .ok (0, u))
    (run : sysioLseek e f offset whence max size s = .ok (pos, t)) :
    (sysioLseekPrepare e r offset whence max size s = .ok (pos, u) ∧
      SeekRight e f (seekBase r size whence) offset whence max size s u pos t) ↔
        ¬ Slips (seekBase r size whence) offset max := by
  have prepared := @sysioLseekPrepare_ok D e s u r offset max size whence valid asked
  have seeks := seekTo_result offset64 base0 base64.2 max64.2
  have read : (fileAt f : Sysio D File) s = .ok (r, s) := deref_ok.mpr ⟨hr, rfl⟩
  have whole := run
  rw [sysioLseek, bind_run read, bind_run prepared] at run
  have same : pos = seekTo (seekBase r size whence) offset max := by
    by_cases neg : seekTo (seekBase r size whence) offset max < 0
    · rw [if_pos neg] at run
      exact (pure_ok.mp run).1.symm
    · rw [if_neg neg] at run
      obtain ⟨_, _, -, h1⟩ := bind_ok.mp run
      obtain ⟨_, _, -, h2⟩ := bind_ok.mp h1
      exact (pure_ok.mp h2).1.symm
  rw [← same] at prepared seeks run
  constructor
  · exact fun right => seeks.mp right.2.result
  · intro sound
    have result := seeks.mpr sound
    refine ⟨prepared, ?_⟩
    constructor
    case result => exact result
    case failed =>
      intro neg
      rw [if_pos neg] at run
      exact (pure_ok.mp run).2.symm
    case moved =>
      intro nonneg
      rw [if_neg (by omega)] at run
      obtain ⟨r', _, hread, h1⟩ := bind_ok.mp run
      obtain ⟨hr', rfl⟩ := deref_ok.mp hread
      obtain ⟨_, _, hset, h2⟩ := bind_ok.mp h1
      obtain ⟨-, rfl⟩ := pure_ok.mp h2
      refine ⟨?_, r', hr', (write_ok.mp hset).symm⟩
      rw [same] at nonneg ⊢
      exact seekTo_below nonneg
    case errno =>
      rintro fd rfl slot
      have find : (sysioFdFind fd : Sysio D (Option FilId)) s = .ok (some f, s) :=
        read_ok.mpr ⟨slot, rfl⟩
      refine ⟨_, (bind_run find).trans (bind_run whole), fun failed => ?_, fun moved => ?_⟩
      · change (if pos < 0 then -1 else pos) = -1 at failed
        change (if pos < 0 then toInt pos else 0) ≠ 0
        have neg : pos < 0 := by
          by_contra nonneg
          rw [if_neg nonneg] at failed
          omega
        rw [if_pos neg]
        exact result_errno result neg
      · change (if pos < 0 then -1 else pos) ≠ -1 at moved
        change (if pos < 0 then -1 else pos) = pos
        apply if_neg
        intro neg
        exact moved (if_pos neg)

end Seeks

section Examples

open FuseDriver FuseSystem Dispatch

/-- The open file of `fileOpen`. -/
def openFile : File := ⟨2, 0, 1, 0o102, 107⟩

theorem openFile_open : (calmRun fileOpen).ft.file 0 = some openFile := by decide +kernel

/-- A seek to the middle of the range, from the current position. -/
theorem seek_forward : SeekRight (fuseEnv calmHost) 0 0 (2 ^ 62) .cur SSIZE_MAX 0 (calmRun fileOpen)
    (calmRun fileOpen) (2 ^ 62) ((sysioLseek (fuseEnv calmHost) 0 (2 ^ 62) .cur SSIZE_MAX 0).final
      (calmRun fileOpen)) := by
  have run : sysioLseek (fuseEnv calmHost) 0 (2 ^ 62) .cur SSIZE_MAX 0 (calmRun fileOpen) =
      .ok (2 ^ 62, (sysioLseek (fuseEnv calmHost) 0 (2 ^ 62) .cur SSIZE_MAX 0).final
        (calmRun fileOpen)) := ok_of_value (by decide +kernel)
  have right := seek_arithmetic openFile_open (by decide) (by decide) (by unfold Signed64; decide)
    (by unfold Signed64; decide) (by unfold Signed64 SSIZE_MAX; decide) rfl run
  exact (right.mpr fun slips => by have := slips.1; omega).2

/-- The least offset from the start of a file: lseek fails, and sets no errno. -/
theorem seek_least : ¬ ∀ s, FuseReached calmHost () (fun _ _ => True) s →
    ∀ fd offset, Signed64 offset → ∀ ret t,
      interfaceLseek (fuseEnv calmHost) fd offset .cur 0 s = .ok (ret, t) →
      ret.1 = -1 → ret.2 ≠ 0 := by
  intro right
  have run : interfaceLseek (fuseEnv calmHost) 0 (-2 ^ 63) .cur 0 (calmRun fileOpen) =
      .ok ((-1, 0), (interfaceLseek (fuseEnv calmHost) 0 (-2 ^ 63) .cur 0).final (calmRun fileOpen)) :=
    ok_of_value (by decide +kernel)
  exact right _ fileOpen_reached 0 (-2 ^ 63) (by unfold Signed64; decide) _ _ run rfl rfl

end Examples

end SeekPositions
