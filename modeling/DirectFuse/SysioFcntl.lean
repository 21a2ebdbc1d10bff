import DirectFuse.SysioInterface

/-! `fcntl` (fcntl.c): the duplication of a descriptor and the record locks. -/
namespace SysioFcntl

open ExecLogic SysioState SysioInode SysioFile SysioInterface
open SysioReconcile (wrap64 toInt SSIZE_MAX)

variable {D : Type}

/-- `struct flock64`. -/
structure Flock where
  lType : ℤ
  lWhence : Whence
  lStart : ℤ
  lLen : ℤ
  lPid : ℤ
  deriving DecidableEq, Repr

inductive LockCmd where
  | getlk64
  | setlk64
  | setlkw64
  deriving DecidableEq, Repr

/-- The commands with their arguments. -/
inductive FcntlCmd where
  | dupfd (newfd : ℤ)
  | lock (cmd : LockCmd) (fl : Flock)
  | other
  deriving DecidableEq, Repr

/-- A driver's `inop_fcntl` for a lock command, with what it makes of the lock. -/
abbrev InopFcntl (D : Type) := InoId → LockCmd → Flock → Sysio D (ℤ × Flock)

/-- The way back from the absolute start the driver gave. `cached` is the size in the inode record. -/
def relativeStart (whence : Whence) (pos cached : ℤ) (fl flock : Flock) : Flock :=
  match whence with
  | .cur => { fl with lStart := wrap64 (flock.lStart - pos) }
  | .end_ => { fl with lStart := wrap64 (flock.lStart - cached) }
  | _ => fl

/-- `_sysio_fcntl_lock`. `size` is the size that the driver answers when it is asked. -/
def sysioFcntlLock (e : Env D) (inopFcntl : InopFcntl D) (f : FilId) (cmd : LockCmd) (fl : Flock)
    (size cached : ℤ) : Sysio D (ℤ × Flock) := do
  if fl.lWhence = .other then
    return (-EINVAL, fl)
  let r ← fileAt f
  let pos ← sysioLseekPrepare e r fl.lStart fl.lWhence SSIZE_MAX size
  if pos < 0 then
    return (toInt pos, fl)
  let (err, flock) ← inopFcntl r.ino cmd { fl with lStart := pos, lWhence := .set }
  if err ≠ 0 then
    return (err, fl)
  let r ← fileAt f
  return (0, relativeStart fl.lWhence r.pos cached fl flock)

/-- `_sysio_vfcntl`, with the caller's lock as it is left. Another command returns what the local
variable held, `u`. -/
def sysioVfcntl (e : Env D) (inopFcntl : InopFcntl D) (u fd : ℤ) (cmd : FcntlCmd)
    (size cached : ℤ) : Sysio D (Ret × Option Flock) := do
  match ← sysioFdFind fd with
  | none => return ((-1, -EBADF), none)
  | some f =>
    match cmd with
    | .dupfd newfd => do
      if toInt newfd ≠ newfd ∨ newfd < 0 then
        return ((-1, -EBADF), none)
      let rtn ← sysioFdDup e fd newfd false
      return ((if rtn < 0 then -1 else rtn, if rtn < 0 then rtn else 0), none)
    | .lock cmd fl => do
      let (err, fl) ← sysioFcntlLock e inopFcntl f cmd fl size cached
      return ((if err ≠ 0 then -1 else 0, err), some fl)
    | .other => return ((u, 0), none)

end SysioFcntl
