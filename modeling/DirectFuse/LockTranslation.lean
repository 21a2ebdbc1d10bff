import DirectFuse.SeekPositions
import DirectFuse.SysioFcntl

/-! What a lock call hands back to its caller. The driver gets and gives an absolute start; on the
way back the start is made relative to the position, or to the size in the inode record, and nothing
else of the driver's lock is copied. -/
namespace LockTranslation

open ExecLogic SysioState SysioFile SysioInterface SysioFcntl CoreMoves SeekPositions
open SysioReconcile (wrap64 SSIZE_MAX)

variable {D : Type}

/-- The caller's lock `after` says what the driver's lock `flock` says, counted from `base` in the
form that the caller asked in. `arg` is what the driver was given for the lock `before`. -/
structure Translated (base : ℤ) (before arg flock after : Flock) : Prop where
  start : base + after.lStart = flock.lStart
  lType : after.lType = flock.lType
  lLen : after.lLen = flock.lLen
  lPid : after.lPid = flock.lPid
  lWhence : after.lWhence = before.lWhence
  unchanged : flock = arg → after = before

/-- The start comes back right: the driver leaves an absolute one, and a relative one is counted
back from where it was counted from and fits. -/
def StartHolds (r r' : File) (size cached : ℤ) (before flock : Flock) : Whence → Prop
  | .cur => r'.pos = r.pos ∧ Signed64 (flock.lStart - r.pos)
  | .end_ => cached = size ∧ Signed64 (flock.lStart - size)
  | _ => flock.lStart = before.lStart

/-- When the caller's lock comes back right. -/
structure LockHolds (r r' : File) (size cached : ℤ) (before flock : Flock) : Prop where
  start : StartHolds r r' size cached before flock before.lWhence
  lType : flock.lType = before.lType
  lLen : flock.lLen = before.lLen
  lPid : flock.lPid = before.lPid

/-- The values of the two files, the sizes and the starts are of 64 bits. -/
structure Sized (r r' : File) (size cached : ℤ) (before flock : Flock) : Prop where
  pos : Signed64 r.pos
  pos' : Signed64 r'.pos
  size : Signed64 size
  cached : Signed64 cached
  before : Signed64 before.lStart
  flock : Signed64 flock.lStart

section Starts

variable {base back start offset : ℤ}

/-- A start is counted back from `back` and on from `base`. -/
theorem count_back (hstart : Signed64 start) (hbase : Signed64 base) (hback : Signed64 back) :
    base + wrap64 (start - back) = start ↔ back = base ∧ Signed64 (start - base) := by
  unfold Signed64 at *
  unfold wrap64
  rw [Int.bmod_def]
  omega

/-- What was counted on from the base is counted back. -/
theorem count_round (hoffset : Signed64 offset) : wrap64 (wrap64 (base + offset) - base) = offset := by
  unfold Signed64 at hoffset
  unfold wrap64
  rw [Int.bmod_def, Int.bmod_def]
  omega

/-- An accepted start is the sum. -/
theorem seekTo_accepted {max : ℤ} (accepted : 0 ≤ seekTo base offset max) :
    seekTo base offset max = wrap64 (base + offset) := by
  unfold seekTo at accepted ⊢
  by_cases refused : (offset < 0 ∧ base < wrap64 (-offset)) ∨ (0 < offset ∧ wrap64 (base + offset) ≤ base)
  · rw [if_pos refused] at accepted
    exact absurd accepted (by decide)
  · rw [if_neg refused] at accepted ⊢
    by_cases great : max ≤ wrap64 (base + offset)
    · rw [if_pos great] at accepted
      exact absurd accepted (by decide)
    · rw [if_neg great]

end Starts

section Locks

variable {e : Env D} {inopFcntl : InopFcntl D} {s u v : Sys D} {r r' : File} {f : FilId}
  {cmd : LockCmd} {fl flock : Flock} {size cached : ℤ}

/-- The lock that the driver is given. -/
def absolute (r : File) (size : ℤ) (fl : Flock) : Flock :=
  { fl with lStart := seekTo (seekBase r size fl.lWhence) fl.lStart SSIZE_MAX, lWhence := .set }

/-- The call, when the start is accepted and the driver answers. -/
theorem sysioFcntlLock_run (hr : s.ft.file f = some r) (valid : fl.lWhence ≠ .other)
    (asked : refresh e r fl.lWhence s = .ok (0, u))
    (accepted : 0 ≤ seekTo (seekBase r size fl.lWhence) fl.lStart SSIZE_MAX)
    (answered : inopFcntl r.ino cmd (absolute r size fl) u = .ok ((0, flock), v))
    (hr' : v.ft.file f = some r') :
    sysioFcntlLock e inopFcntl f cmd fl size cached s =
      .ok ((0, relativeStart fl.lWhence r'.pos cached fl flock), v) := by
  have read : (fileAt f : Sysio D File) s = .ok (r, s) := deref_ok.mpr ⟨hr, rfl⟩
  have again : (fileAt f : Sysio D File) v = .ok (r', v) := deref_ok.mpr ⟨hr', rfl⟩
  have prepared := @sysioLseekPrepare_ok D e s u r fl.lStart SSIZE_MAX size fl.lWhence valid asked
  unfold sysioFcntlLock
  rw [if_neg valid, bind_run read, bind_run prepared, if_neg (by omega)]
  refine (bind_run answered).trans ?_
  exact bind_run again

/-- What is not the start is the caller's own. -/
theorem relativeStart_rest (whence : Whence) (pos cached : ℤ) (fl flock : Flock) :
    relativeStart whence pos cached fl flock =
      { fl with lStart := (relativeStart whence pos cached fl flock).lStart } := by
  cases whence <;> rfl

/-- The start is right exactly when it is counted back from where it was counted from. -/
theorem start_right (sized : Sized r r' size cached fl flock) (valid : fl.lWhence ≠ .other) :
    seekBase r size fl.lWhence + (relativeStart fl.lWhence r'.pos cached fl flock).lStart =
      flock.lStart ↔ StartHolds r r' size cached fl flock fl.lWhence := by
  cases whence : fl.lWhence with
  | set =>
    change 0 + fl.lStart = flock.lStart ↔ flock.lStart = fl.lStart
    omega
  | cur => exact count_back sized.flock sized.pos sized.pos'
  | end_ => exact count_back sized.flock sized.size sized.cached
  | other => exact absurd whence valid

/-- A lock that the driver has left alone is as it was. -/
theorem unchanged_start (sized : Sized r r' size cached fl flock) (valid : fl.lWhence ≠ .other)
    (accepted : 0 ≤ seekTo (seekBase r size fl.lWhence) fl.lStart SSIZE_MAX)
    (holds : StartHolds r r' size cached fl flock fl.lWhence) (same : flock = absolute r size fl) :
    (relativeStart fl.lWhence r'.pos cached fl flock).lStart = fl.lStart := by
  have given : flock.lStart = wrap64 (seekBase r size fl.lWhence + fl.lStart) := by
    rw [same]
    exact seekTo_accepted accepted
  cases whence : fl.lWhence with
  | set => rfl
  | cur =>
    rw [whence] at holds given
    change wrap64 (flock.lStart - r'.pos) = fl.lStart
    rw [holds.1, given]
    exact count_round sized.before
  | end_ =>
    rw [whence] at holds given
    change wrap64 (flock.lStart - cached) = fl.lStart
    rw [holds.1, given]
    exact count_round sized.before
  | other => exact absurd whence valid

/-- After a lock call that succeeds, the caller's lock is the driver's in the caller's form exactly
when the driver has changed nothing but a relative start, which is counted back from the position or
the size it was counted from. -/
theorem lock_translation (hr : s.ft.file f = some r) (valid : fl.lWhence ≠ .other)
    (asked : refresh e r fl.lWhence s = .ok (0, u))
    (accepted : 0 ≤ seekTo (seekBase r size fl.lWhence) fl.lStart SSIZE_MAX)
    (answered : inopFcntl r.ino cmd (absolute r size fl) u = .ok ((0, flock), v))
    (hr' : v.ft.file f = some r') (sized : Sized r r' size cached fl flock) :
    ∃ after, sysioFcntlLock e inopFcntl f cmd fl size cached s = .ok ((0, after), v) ∧
      (Translated (seekBase r size fl.lWhence) fl (absolute r size fl) flock after ↔
        LockHolds r r' size cached fl flock) := by
  refine ⟨_, sysioFcntlLock_run hr valid asked accepted answered hr', ?_⟩
  have rest := relativeStart_rest fl.lWhence r'.pos cached fl flock
  have starts := start_right sized valid
  constructor
  · intro right
    have lType := right.lType
    have lLen := right.lLen
    have lPid := right.lPid
    rw [rest] at lType lLen lPid
    exact ⟨starts.mp right.start, lType.symm, lLen.symm, lPid.symm⟩
  · intro holds
    constructor
    case start => exact starts.mpr holds.start
    case lType =>
      rw [rest]
      exact holds.lType.symm
    case lLen =>
      rw [rest]
      exact holds.lLen.symm
    case lPid =>
      rw [rest]
      exact holds.lPid.symm
    case lWhence => rw [rest]
    case unchanged =>
      intro same
      rw [rest, unchanged_start sized valid accepted holds.start same]

end Locks

section Examples

open FuseDriver FuseSystem Dispatch

/-- A driver that answers with a lock of its own. -/
def answeringLock (flock : Flock) : InopFcntl (FuseData Unit) := fun _ _ _ => pure (0, flock)

/-- Five bytes behind the position of the open file. -/
def behindPos : Flock := ⟨1, .cur, 5, 10, 0⟩

/-- The file is open, and seven bytes of it are behind its position. -/
def seekSeven : List SysioSystem.Call := .lseek 0 7 .set 0 :: fileOpen

/-- The driver is given the start twelve and leaves it, and the caller's five comes back. -/
theorem lock_behindPos : ∃ after,
    sysioFcntlLock (fuseEnv calmHost) (answeringLock ⟨1, .set, 12, 10, 0⟩) 0 .getlk64 behindPos 0 0
        (calmRun seekSeven) = .ok ((0, after), calmRun seekSeven) ∧ after = behindPos := by
  have opened : (calmRun seekSeven).ft.file 0 = some { openFile with pos := 7 } := by decide +kernel
  have sized : Sized { openFile with pos := 7 } { openFile with pos := 7 } 0 0 behindPos
      ⟨1, .set, 12, 10, 0⟩ := by
    constructor <;> (unfold Signed64; decide)
  obtain ⟨after, run, right⟩ := @lock_translation _ (fuseEnv calmHost)
    (answeringLock ⟨1, .set, 12, 10, 0⟩) (calmRun seekSeven) (calmRun seekSeven) (calmRun seekSeven)
    { openFile with pos := 7 } { openFile with pos := 7 } 0 .getlk64 behindPos ⟨1, .set, 12, 10, 0⟩
    0 0 opened (by decide) rfl (by decide) rfl opened sized
  have holds : LockHolds { openFile with pos := 7 } { openFile with pos := 7 } 0 0 behindPos
      ⟨1, .set, 12, 10, 0⟩ :=
    ⟨⟨rfl, by unfold Signed64; decide⟩, rfl, rfl, rfl⟩
  exact ⟨after, run, (right.mpr holds).unchanged (by decide)⟩

/-- The driver answers that there is no lock in the way; the caller is not told. -/
theorem lock_type_lost : ¬ ∀ s, FuseReached calmHost () (fun _ _ => True) s →
    ∀ flock f cmd fl size cached after t,
      sysioFcntlLock (fuseEnv calmHost) (answeringLock flock) f cmd fl size cached s =
        .ok ((0, after), t) → after.lType = flock.lType := by
  intro right
  have run : sysioFcntlLock (fuseEnv calmHost) (answeringLock ⟨2, .set, 5, 10, 0⟩) 0 .getlk64
      behindPos 0 0 (calmRun fileOpen) = .ok ((0, behindPos), calmRun fileOpen) :=
    @sysioFcntlLock_run _ (fuseEnv calmHost) (answeringLock ⟨2, .set, 5, 10, 0⟩) (calmRun fileOpen)
      (calmRun fileOpen) (calmRun fileOpen) openFile openFile 0 .getlk64 behindPos
      ⟨2, .set, 5, 10, 0⟩ 0 0 openFile_open (by decide) rfl (by decide) rfl openFile_open
  exact absurd (right _ fileOpen_reached _ _ _ _ _ _ _ _ run) (by decide)

end Examples

end LockTranslation
