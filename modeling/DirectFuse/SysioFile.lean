import DirectFuse.SysioInode
import DirectFuse.SysioReconcile

/-! Open file records, the descriptor table (file.c) and I/O contexts (ioctx.c). -/
namespace SysioFile

open ExecLogic SysioState SysioInode
open SysioReconcile (wrap64 toInt)

variable {D : Type}

def O_WRONLY : ℕ := 0o1
def O_RDWR : ℕ := 0o2
def O_CREAT : ℕ := 0o100
def O_EXCL : ℕ := 0o200
def O_TRUNC : ℕ := 0o1000
def O_NOFOLLOW : ℕ := 0o400000

/-- `F_CHKRW`. -/
def fChkrw (flags : ℕ) (wr : Bool) : Bool :=
  if wr then flags &&& (O_WRONLY ||| O_RDWR) != 0 else flags &&& O_WRONLY == 0

/-- `_sysio_fnew`. Nothing sets `f_pno`, which is what the new memory holds. -/
def sysioFnew (e : Env D) (ino : Option InoId) (flags : ℕ) : Sysio D (Option FilId) := do
  let pno ← Exec.read fun s => e.junk s.mallocs
  if !(← malloc e) then
    return none
  let i ← nonNull ino
  let f ← Exec.read fun s => s.ft.nextFile
  Exec.write fun s =>
    { s with
      ft.file := Function.update s.ft.file f
        (some { ino := i, pos := 0, ref := 1, flags := flags, pno := pno })
      ft.nextFile := f + 1 }
  iRef i
  return some f

/-- `_sysio_fuse_fnew`. -/
def sysioFuseFnew (e : Env D) (p : Pno) (flags : ℕ) : Sysio D (Option FilId) := do
  let ino ← inoOf p
  if !(← malloc e) then
    return none
  let i ← nonNull ino
  let f ← Exec.read fun s => s.ft.nextFile
  Exec.write fun s =>
    { s with
      ft.file := Function.update s.ft.file f
        (some { ino := i, pos := 0, ref := 1, flags := flags, pno := p })
      ft.nextFile := f + 1 }
  iRef i
  return some f

/-- `_sysio_fgone`. -/
def sysioFgone (e : Env D) (f : FilId) : Sysio D Unit := do
  let r ← fileAt f
  assert (decide (r.ref = 0))
  let err ← e.ops.close r.ino r.pno
  assert (decide (err = 0))
  iRele e r.ino
  Exec.write fun s => { s with ft.file := Function.update s.ft.file f none }

/-- `F_REF`. -/
def fRef (f : FilId) : Sysio D Unit := do
  let r ← fileAt f
  setFile f { r with ref := r.ref + 1 }

/-- `F_RELE`. -/
def fRele (e : Env D) (f : FilId) : Sysio D Unit := do
  let r ← fileAt f
  assert (decide (r.ref ≠ 0))
  setFile f { r with ref := r.ref - 1 }
  if r.ref - 1 = 0 then
    sysioFgone e f

/-- `fd_grow`. -/
def fdGrow (e : Env D) (n : ℕ) : Sysio D ℤ := do
  if 2 ^ 31 ≤ n then
    return -EMFILE
  let size ← Exec.read fun s => s.ft.oftab.length
  if n ≤ size then
    return 0
  if !(← malloc e) then
    return -ENOMEM
  Exec.write fun s =>
    { s with ft.oftab := s.ft.oftab ++ List.replicate (n - s.ft.oftab.length) none }
  return 0

/-- `find_free_fildes`. A table is never longer than an int can count, so the scan cannot wrap. -/
def findFreeFildes (e : Env D) (low : ℕ) : Sysio D ℤ := do
  let oftab ← Exec.read fun s => s.ft.oftab
  let n := low + ((oftab.drop low).takeWhile (·.isSome)).length
  let err ← (if oftab.length ≤ n then fdGrow e (n + 1) else pure 0)
  return if err ≠ 0 then err else n

/-- `_sysio_fd_find`. -/
def sysioFdFind (fd : ℤ) : Sysio D (Option FilId) := Exec.read fun s =>
  if fd < 0 then none else s.ft.oftab.getD fd.toNat none

def setSlot (fd : ℕ) (o : Option FilId) : Sysio D Unit := Exec.write fun s =>
  { s with ft.oftab := s.ft.oftab.set fd o }

/-- `_sysio_fd_close`. -/
def sysioFdClose (e : Env D) (fd : ℤ) : Sysio D ℤ := do
  match ← sysioFdFind fd with
  | none => return -EBADF
  | some f => do
    setSlot fd.toNat none
    fRele e f
    return 0

/-- `_sysio_fd_set`. -/
def sysioFdSet (e : Env D) (f : FilId) (fd : ℤ) (force : Bool) : Sysio D ℤ := do
  let fd ← (if fd < 0 ∨ !force then findFreeFildes e fd.toNat else pure fd)
  if fd < 0 then
    return fd
  let err ← fdGrow e (fd.toNat + 1)
  if err ≠ 0 then
    return err
  let ofil ← sysioFdFind fd
  setSlot fd.toNat (some f)
  ifSome ofil (fRele e)
  return fd

/-- `_sysio_fd_dup`. -/
def sysioFdDup (e : Env D) (oldfd newfd : ℤ) (force : Bool) : Sysio D ℤ := do
  if oldfd = newfd ∧ 0 ≤ oldfd then
    return newfd
  match ← sysioFdFind oldfd with
  | none => return -EBADF
  | some f => do
    let fd ← sysioFdSet e f newfd force
    Exec.when (0 ≤ fd) (fRef f)
    return fd

/-- The loop of `_sysio_fd_close_all` over the descriptors from `fd` on. -/
def closeAllLoop (e : Env D) (fd : ℕ) : ℕ → Sysio D Unit
  | 0 => pure ()
  | n + 1 => do
    let fil ← sysioFdFind fd
    ifSome fil fun f => do
      fRele e f
      setSlot fd none
    closeAllLoop e (fd + 1) n

/-- `_sysio_fd_close_all`. -/
def sysioFdCloseAll (e : Env D) : Sysio D ℤ := do
  let size ← Exec.read fun s => s.ft.oftab.length
  closeAllLoop e 0 size
  let cwd ← Exec.read fun s => s.mt.cwd
  match cwd with
  | none => return 0
  | some p => do
    pRele p
    Exec.write fun s => { s with mt.cwd := none }
    return 0

/-- `malloc` of a vector. -/
def mallocVec (e : Env D) : Sysio D (Option VecId) := do
  if !(← malloc e) then
    return none
  let v ← Exec.read fun s => s.aio.nextVec
  Exec.write fun s => { s with aio.nextVec := v + 1 }
  return some v

/-- `free` of a vector. -/
def freeVec (v : VecId) : Sysio D Unit := Exec.write fun s =>
  { s with aio.frees := Function.update s.aio.frees v (s.aio.frees v + 1) }

def freeVecs : List VecId → Sysio D Unit
  | [] => pure ()
  | v :: l => do
    freeVec v
    freeVecs l

/-- `_sysio_ioctx_new`. -/
def sysioIoctxNew (e : Env D) (i : InoId) (wr : Bool) (iov xtv : Option VecId) :
    Sysio D (Option IocId) := do
  if !(← malloc e) then
    return none
  iRef i
  let c ← Exec.read fun s => s.aio.nextIoctx
  Exec.write fun s =>
    { s with
      aio.ioctx := Function.update s.aio.ioctx c
        (some { fast := false, done := false, write := wr, ino := i, iov := iov, xtv := xtv,
                cc := 0, errno := 0, cbq := [] })
      aio.aioq := c :: s.aio.aioq
      aio.nextIoctx := c + 1 }
  return some c

/-- `_sysio_ioctx_cb`. -/
def sysioIoctxCb (e : Env D) (c : IocId) (cb : Callback) : Sysio D ℤ := do
  if !(← malloc e) then
    return -ENOMEM
  let r ← ioctxAt c
  setIoctx c { r with cbq := r.cbq ++ [cb] }
  return 0

/-- `_sysio_ioctx_find`. -/
def sysioIoctxFind (id : IocId) : Sysio D (Option IocId) := Exec.read fun s =>
  s.aio.aioq.find? (· == id)

/-- `_sysio_ioctx_done`. -/
def sysioIoctxDone (e : Env D) (c : IocId) : Sysio D Bool := do
  let r ← ioctxAt c
  if r.done then
    return true
  if ← e.ops.iodone r.ino c then
    let r ← ioctxAt c
    setIoctx c { r with done := true }
    return true
  else
    return false

/-- `_sysio_fcompletio`. -/
def sysioFcompletio (c : IocId) (f : FilId) : Sysio D Unit := do
  let r ← ioctxAt c
  if r.cc ≤ 0 then
    pure ()
  else do
    let fr ← fileAt f
    assert (decide (r.ino = fr.ino))
    let off := wrap64 (fr.pos + r.cc)
    Exec.check .abort fun _ => !(decide (fr.pos ≠ 0) && decide (off ≤ fr.pos))
    setFile f { fr with pos := off }

/-- `free_iov`. -/
def freeIov (c : IocId) : Sysio D Unit := do
  let r ← ioctxAt c
  ifSome r.iov freeVec
  setIoctx c { r with iov := none }

/-- `free_xtv`, which forgets the buffers and keeps the extents. -/
def freeXtv (c : IocId) : Sysio D Unit := do
  let r ← ioctxAt c
  ifSome r.xtv freeVec
  setIoctx c { r with iov := none }

def runCallback (c : IocId) : Callback → Sysio D Unit
  | .freeIov => freeIov c
  | .freeXtv => freeXtv c
  | .fcompletio f => sysioFcompletio c f

def runCallbacks (c : IocId) : List Callback → Sysio D Unit
  | [] => pure ()
  | cb :: l => do
    runCallback c cb
    Exec.write fun s => { s with aio.ran := s.aio.ran ++ [(c, cb)] }
    runCallbacks c l

/-- `_sysio_ioctx_complete`. -/
def sysioIoctxComplete (e : Env D) (c : IocId) : Sysio D Unit := do
  let r ← ioctxAt c
  setIoctx c { r with cbq := [] }
  runCallbacks c r.cbq
  Exec.write fun s => { s with aio.aioq := s.aio.aioq.erase c }
  if r.fast then
    pure ()
  else do
    iRele e r.ino
    Exec.write fun s => { s with aio.ioctx := Function.update s.aio.ioctx c none }

/-- `_sysio_ioctx_wait`, polling the driver at most `polls` times. -/
def sysioIoctxWait (e : Env D) (c : IocId) : ℕ → Sysio D ℤ
  | 0 => Exec.fault .diverge
  | polls + 1 => do
    if ← sysioIoctxDone e c then
      let r ← ioctxAt c
      sysioIoctxComplete e c
      return if r.cc < 0 then -r.errno else r.cc
    else
      sysioIoctxWait e c polls

/-- The callback registrations of `_sysio_iiox`, stopping at the first failure. -/
def registerAll (e : Env D) (c : IocId) : List Callback → Sysio D ℤ
  | [] => pure 0
  | cb :: l => do
    let err ← sysioIoctxCb e c cb
    if err ≠ 0 then
      return err
    registerAll e c l

/-- `_sysio_iiox`. `cc` is what `_sysio_validx` makes of the two vectors, `cbs` the callbacks to
register, and `post` is the driver's read or write operation. -/
def sysioIiox (e : Env D) (wr : Bool) (f : FilId) (cc : ℤ) (iov xtv : Option VecId)
    (cbs : List Callback) : Sysio D (ℤ × Option IocId) := do
  let r ← fileAt f
  if !fChkrw r.flags wr then
    return (-EBADF, none)
  if cc < 0 then
    return (cc, none)
  match ← sysioIoctxNew e r.ino wr iov xtv with
  | none => return (-ENOMEM, none)
  | some c => do
    let err ← registerAll e c cbs
    let err ← (if err ≠ 0 then pure err else e.ops.post r.ino r.pno c)
    if err ≠ 0 then
      let rc ← ioctxAt c
      setIoctx c { rc with cbq := [] }
      sysioIoctxComplete e c
      return (err, none)
    else
      return (0, some c)

/-- The loop of `_sysio_sum_iovec` over the lengths of the buffers, with the sum so far. -/
def sumIovecLoop (tmp : ℤ) : List ℕ → ℤ
  | [] => tmp
  | n :: l =>
    let cc := wrap64 (tmp + n)
    if tmp ≠ 0 ∧ n ≠ 0 ∧ cc ≤ tmp then -EINVAL else sumIovecLoop cc l

/-- `_sysio_sum_iovec`. -/
def sysioSumIovec (lens : List ℕ) : ℤ := if lens = [] then -EINVAL else sumIovecLoop 0 lens

/-- `_sysio_iiov`. A sum that does not fit is returned as an error, cut to an int. -/
def sysioIiov (e : Env D) (wr : Bool) (f : FilId) (lens : List ℕ) (cc : ℤ) (iov xtv : Option VecId)
    (cbs : List Callback) : Sysio D (ℤ × Option IocId) := do
  if sysioSumIovec lens < 0 then
    return (toInt (sysioSumIovec lens), none)
  sysioIiox e wr f cc iov xtv (cbs ++ [.fcompletio f])

/-- `_sysio_ipiov`. -/
def sysioIpiov (e : Env D) (wr : Bool) (f : FilId) (lens : List ℕ) (cc : ℤ) (iov xtv : Option VecId)
    (cbs : List Callback) : Sysio D (ℤ × Option IocId) := do
  if sysioSumIovec lens < 0 then
    return (toInt (sysioSumIovec lens), none)
  sysioIiox e wr f cc iov xtv cbs

end SysioFile
