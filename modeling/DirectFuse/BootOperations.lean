import DirectFuse.BootLoop
import DirectFuse.BootCommands

/-! The operations that boot commands ask for: the calls to the library, with every parameter made of
the value of a key. What the commands of init.c do is compared with this, call by call. -/
namespace BootOperations

open ExecLogic SysioState SysioNamei SysioInit Numerals BootLoop BootCommands
open SysioFile (O_CREAT O_EXCL)

def FT : Bytes := bytesOf ['f', 't']
def NM : Bytes := bytesOf ['n', 'm']
def PM : Bytes := bytesOf ['p', 'm']
def OW : Bytes := bytesOf ['o', 'w']
def GR : Bytes := bytesOf ['g', 'r']
def MM : Bytes := bytesOf ['m', 'm']
def STR : Bytes := bytesOf ['s', 't', 'r']
def DEV : Bytes := bytesOf ['d', 'e', 'v']
def FL : Bytes := bytesOf ['f', 'l']
def DA : Bytes := bytesOf ['d', 'a']
def SRC : Bytes := bytesOf ['s', 'r', 'c']
def FD : Bytes := bytesOf ['f', 'd']
def M : Bytes := bytesOf ['m']

/-- The text of a key that has to be given. -/
def given (value : Bytes → Option Bytes) (key : Bytes) : Bytes := (value key).getD []

section Readings

variable {S α : Type}

/-- What a conversion leaves in `errno`. -/
def marked (x : Converted α) (p : Process S) : Process S :=
  if x.range then { p with errno := ERANGE } else p

def mark (x : Converted α) : Running S Unit := Exec.write (marked x)

/-- The permission bits that a text stands for. -/
def permissionBits (text : Bytes) : Option ℕ :=
  let n := (strtol text).value
  if (strtol text).rest = [] ∧ 0 ≤ n ∧ n % 2 ^ 32 < 2 ^ 12 then some (n % 2 ^ 32).toNat else none

/-- The number of an owner or a group. The largest and the smallest are none where `errno` is left
over from another conversion. -/
def identityNumber (errno : ℤ) (text : Bytes) : Option ℤ :=
  let n := (strtol text).value
  if (strtol text).rest = [] ∧ (strtol text).range = false ∧
      ¬ ((n = LONG_MIN ∨ n = LONG_MAX) ∧ errno = ERANGE) then some n else none

/-- The number of flags, with the same reserve. -/
def flagsNumber (errno : ℤ) (text : Bytes) : Option ℕ :=
  let n := (strtoul text).value
  if (strtoul text).rest = [] ∧ (strtoul text).range = false ∧
      ¬ (n = ULONG_MAX ∧ errno = ERANGE) then some n else none

/-- A major number in front of a plus sign, and what is behind it. -/
def majorNumber (text : Bytes) : Option (ℕ × Bytes) :=
  match (strtoul text).rest with
  | [] => none
  | sign :: rest =>
    if sign = PLUS ∧ (strtoul text).value ≤ USHRT_MAX then some ((strtoul text).value, rest) else none

/-- A minor number. -/
def minorNumber (text : Bytes) : Option ℕ :=
  if (strtoul text).rest = [] ∧ (strtoul text).value ≤ USHRT_MAX then some (strtoul text).value
  else none

def readMode (text : Bytes) : Running S (Option ℕ) := do
  mark (strtol text)
  return permissionBits text

def readIdentity : Option Bytes → Running S Bool
  | none => return true
  | some text => do
    let e ← errno
    mark (strtol text)
    return (identityNumber e text).isSome

def readFlags : Option Bytes → Running S (Option ℕ)
  | none => return some 0
  | some text => do
    let e ← errno
    mark (strtoul text)
    return flagsNumber e text

/-- A device has its major number above the 16 bits of the minor one. -/
def readDevice : Option Bytes → Running S (Option ℕ)
  | none => return none
  | some text => do
    mark (strtoul text)
    match majorNumber text with
    | none => return none
    | some (major, rest) => do
      mark (strtoul rest)
      return (minorNumber rest).map fun minor => major * 2 ^ 16 + minor

end Readings

section Asked

variable {S : Type} (c : Calls S)

/-- Where paths begin. -/
def fromStart (op : Pno → Running S ℤ) : Running S ℤ := do
  match ← c.start with
  | none => return -ENOENT
  | some dir => op dir

/-- An operation on the node of a path, which is held as long as that takes. -/
def onNode (dir : Pno) (path : Bytes) (flags : ℕ) (intent : Option BootIntent)
    (op : Pno → Running S ℤ) : Running S ℤ := do
  let (err, pno) ← c.namei dir path flags intent
  if err ≠ 0 then
    return err
  else do
    let pno ← Exec.deref .wild fun _ => pno
    let err ← op pno
    c.pRele pno
    return err

/-- An operation on a node that may be new. -/
def onNewNode (dir : Pno) (path : Bytes) (mode : ℕ) (flags : Option ℕ)
    (op : Pno → Running S ℤ) : Running S ℤ :=
  onNode c dir path (ND_NEGOK ||| ND_NOPERMCHECK) (some ⟨INT_CREAT, mode, flags⟩) op

/-- A context for the data of a file, which has to come back complete. -/
def newData (ino : InoId) : Option Bytes → Running S ℤ
  | none => return 0
  | some data => do
    let io ← c.ioctx ino data
    let cc ← c.wait io
    return if cc < 0 then cc else if cc = data.length then 0 else - BootCommands.EIO

/-- A file that must not be there is made, and closed when it has its data. -/
def newFile (mode : ℕ) (data : Option Bytes) (pno : Pno) : Running S ℤ := do
  let err ← c.open_ pno (O_CREAT ||| O_EXCL) mode
  if err ≠ 0 then
    return err
  else do
    let ino ← c.inoOf pno
    let ino ← Exec.deref .wild fun _ => ino
    let err ← newData c ino data
    let closed ← c.closeIno ino
    return if err = 0 then closed else err

/-- A device node with the device number of `mm`. -/
def askedNode (value : Bytes → Option Bytes) (dir : Pno) (mode : ℕ) : Running S ℤ := do
  match ← readDevice (value MM) with
  | none => return -EINVAL
  | some dev => onNewNode c dir (given value NM) mode none fun pno => c.mknod pno mode dev

def askedKind (value : Bytes → Option Bytes) (mode : ℕ) (dir : Pno) : Running S ℤ :=
  if given value FT = DIR then
    onNewNode c dir (given value NM) mode none fun pno => c.mkdir pno mode
  else if given value FT = CHR then
    askedNode c value dir (mode ||| S_IFCHR)
  else if given value FT = BLK then
    askedNode c value dir (mode ||| S_IFBLK)
  else if given value FT = FILE then
    onNewNode c dir (given value NM) mode (some (O_CREAT ||| O_EXCL)) (newFile c mode (value STR))
  else return -EINVAL

def askedCreat (value : Bytes → Option Bytes) : Running S ℤ := do
  match ← readMode (given value PM) with
  | none => return -EINVAL
  | some mode => do
    let owner ← readIdentity (value OW)
    if owner = false then
      return -EINVAL
    else do
      let group ← readIdentity (value GR)
      if group = false then
        return -EINVAL
      else
        fromStart c (askedKind c value mode)

/-- The device is the type, up to the first colon, and the source. -/
def askedMnt (value : Bytes → Option Bytes) : Running S ℤ := do
  match ← readFlags (value FL) with
  | none => return -EINVAL
  | some flags =>
    let dev := colonCut (given value DEV)
    if given value DIR = [PATH_SEPARATOR] then
      c.mountRoot dev.rest dev.token (flags % 2 ^ 32) (value DA)
    else
      fromStart c fun cwd => c.mount cwd dev.rest (given value DIR) dev.token flags (value DA)

def askedChmd (value : Bytes → Option Bytes) : Running S ℤ := do
  match ← readMode (given value PM) with
  | none => return -EINVAL
  | some mode =>
    fromStart c fun dir =>
      onNode c dir (given value SRC) ND_NOPERMCHECK none fun pno => c.setattr pno mode

/-- A record for an open file, put in the slot of a descriptor. -/
def newFildes (n : ℤ) (m : ℕ) (pno : Pno) : Running S ℤ := do
  let err ← c.open_ pno m 0
  if err ≠ 0 then
    return err
  else do
    let ino ← c.inoOf pno
    match ← c.fnew ino m with
    | none => return -ENOMEM
    | some fil => do
      let err ← c.fdSet fil n
      if err < 0 then do
        c.fRele fil
        return err
      else
        return 0

def askedOpen (value : Bytes → Option Bytes) : Running S ℤ := do
  match ← fildes (given value FD) with
  | none => return -EINVAL
  | some n =>
    match ← accessMode (given value M) with
    | none => return -EINVAL
    | some m =>
      fromStart c fun dir =>
        onNode c dir (given value NM) ND_NOPERMCHECK (some ⟨INT_OPEN, m, none⟩) (newFildes c n m)

/-- The operation that the keys of a command ask for: each of its parameters is what is made of the
value of its own key. -/
def asked (cmd : Command) (value : Bytes → Option Bytes) : Running S ℤ :=
  match cmd with
  | .creat => askedCreat c value
  | .mnt => askedMnt c value
  | .chmd => askedChmd c value
  | .open_ => askedOpen c value

end Asked

section Conversions

variable {S α : Type} {text : Bytes} {p : Process S}

theorem convert_run (x : Converted α) (p : Process S) :
    convert x p = .ok ((x.value, x.rest), marked x p) := by
  obtain ⟨value, rest, range⟩ := x
  cases range with
  | false => rfl
  | true => rfl

theorem mark_run (x : Converted α) (p : Process S) : mark x p = .ok ((), marked x p) := rfl

theorem errno_run (p : Process S) : errno p = .ok (p.errno, p) := rfl

/-- An `errno` that is left says nothing that the conversion does not say, but for its own values. -/
theorem marked_errno (x : Converted α) (p : Process S) :
    (marked x p).errno = ERANGE ↔ x.range = true ∨ p.errno = ERANGE := by
  unfold marked
  cases x.range with
  | false => simp
  | true => simp

theorem strtoul_range (h : (strtoul text).range = true) : (strtoul text).value = ULONG_MAX := by
  revert h
  unfold strtoul
  cases readNumeral text with
  | none =>
    intro range
    cases range
  | some found =>
    dsimp only
    split_ifs
    · exact fun _ => rfl
    · intro range
      cases range

theorem strtol_range (h : (strtol text).range = true) :
    (strtol text).value = LONG_MIN ∨ (strtol text).value = LONG_MAX := by
  revert h
  unfold strtol
  cases readNumeral text with
  | none =>
    intro range
    cases range
  | some found =>
    dsimp only
    split_ifs
    · exact fun _ => Or.inr rfl
    · exact fun _ => Or.inl rfl
    · intro range
      cases range

/-- The bits of a word that are no permissions are all clear in small numbers only. -/
theorem other_bits {n : ℕ} (word : n < 2 ^ 32) :
    n &&& (2 ^ 32 - 1 - 0o7777) = 0 ↔ n < 2 ^ 12 := by
  have mask : 2 ^ 32 - 1 - 0o7777 = (2 ^ 20 - 1) <<< 12 := by decide
  constructor
  · intro clear
    have high : (n &&& (2 ^ 32 - 1 - 0o7777)) >>> 12 = n / 2 ^ 12 % 2 ^ 20 := by
      rw [mask, Nat.shiftRight_and_distrib, Nat.shiftLeft_shiftRight,
        Nat.and_two_pow_sub_one_eq_mod, Nat.shiftRight_eq_div_pow]
    rw [clear, Nat.zero_shiftRight] at high
    omega
  · intro small
    apply Nat.eq_of_testBit_eq
    intro i
    rw [Nat.testBit_and, mask, Nat.testBit_shiftLeft, Nat.zero_testBit]
    by_cases low : i < 12
    · have under : ¬ 12 ≤ i := Nat.not_le.mpr low
      simp [under]
    · have high : n < 2 ^ i := small.trans_le (Nat.pow_le_pow_right (by decide) (Nat.le_of_not_lt low))
      rw [Nat.testBit_lt_two_pow high, Bool.false_and]

theorem permissions_reads (text : Bytes) (p : Process S) :
    permissions text p = readMode text p := by
  unfold permissions readMode
  rw [bind_run (convert_run (strtol text) p), bind_run (mark_run (strtol text) p)]
  dsimp only
  rw [bind_run (errno_run _)]
  have word : unsigned (strtol text).value < 2 ^ 32 := by
    unfold unsigned
    omega
  have same : unsigned (strtol text).value < 2 ^ 12 ↔ (strtol text).value % 2 ^ 32 < 2 ^ 12 := by
    unfold unsigned
    omega
  have refused : ((strtol text).rest ≠ [] ∨ (strtol text).value < 0 ∨
      ((strtol text).value = LONG_MAX ∧ (marked (strtol text) p).errno = ERANGE) ∨
      unsigned (strtol text).value &&& (2 ^ 32 - 1 - 0o7777) ≠ 0) ↔
      ¬ ((strtol text).rest = [] ∧ 0 ≤ (strtol text).value ∧
        (strtol text).value % 2 ^ 32 < 2 ^ 12) := by
    rw [Ne, Ne, other_bits word, same]
    constructor
    · rintro (rest | negative | ⟨large, -⟩ | bits) ⟨whole, low, small⟩
      · exact rest whole
      · exact absurd low (Int.not_le.mpr negative)
      · rw [large] at small
        exact absurd small (by decide)
      · exact bits small
    · intro bad
      by_contra fine
      obtain ⟨rest, fine⟩ := not_or.mp fine
      obtain ⟨low, fine⟩ := not_or.mp fine
      obtain ⟨-, bits⟩ := not_or.mp fine
      exact bad ⟨not_not.mp rest, Int.not_lt.mp low, not_not.mp bits⟩
  unfold permissionBits
  by_cases good : (strtol text).rest = [] ∧ 0 ≤ (strtol text).value ∧
      (strtol text).value % 2 ^ 32 < 2 ^ 12
  · rw [if_neg fun bad => refused.mp bad good]
    dsimp only
    rw [if_pos good]
    rfl
  · rw [if_pos (refused.mpr good)]
    dsimp only
    rw [if_neg good]

/-- A number is refused by what `errno` is behind the conversion just when it is none by what `errno`
was before. -/
theorem refused_iff (x : Converted α) {extreme : Prop} (ranged : x.range = true → extreme) :
    (x.rest ≠ [] ∨ extreme ∧ (marked x p).errno = ERANGE) ↔
      ¬ (x.rest = [] ∧ x.range = false ∧ ¬ (extreme ∧ p.errno = ERANGE)) := by
  rw [marked_errno]
  constructor
  · rintro (rest | ⟨large, range' | old⟩) ⟨whole, range, largest⟩
    · exact rest whole
    · exact absurd (range.symm.trans range') Bool.false_ne_true
    · exact largest ⟨large, old⟩
  · intro bad
    by_contra fine
    obtain ⟨rest, fine⟩ := not_or.mp fine
    apply bad
    refine ⟨not_not.mp rest, ?_, fun both => fine ⟨both.1, Or.inr both.2⟩⟩
    by_contra range
    have range := Bool.not_eq_false _ ▸ range
    exact fine ⟨ranged range, Or.inl range⟩

theorem identity_reads (o : Option Bytes) (p : Process S) : identity o p = readIdentity o p := by
  cases o with
  | none => rfl
  | some text =>
    unfold identity readIdentity
    dsimp only
    rw [bind_run (convert_run (strtol text) p), bind_run (errno_run p),
      bind_run (mark_run (strtol text) p)]
    dsimp only
    rw [bind_run (errno_run _)]
    have refused := refused_iff (p := p) (strtol text) strtol_range
    unfold identityNumber
    by_cases good : (strtol text).rest = [] ∧ (strtol text).range = false ∧
        ¬ (((strtol text).value = LONG_MIN ∨ (strtol text).value = LONG_MAX) ∧ p.errno = ERANGE)
    · rw [decide_eq_false fun bad => refused.mp bad good]
      dsimp only
      rw [if_pos good]
      rfl
    · rw [decide_eq_true (refused.mpr good)]
      dsimp only
      rw [if_neg good]
      rfl

theorem mountFlags_reads (o : Option Bytes) (p : Process S) : mountFlags o p = readFlags o p := by
  cases o with
  | none => rfl
  | some text =>
    unfold mountFlags readFlags
    dsimp only
    rw [bind_run (convert_run (strtoul text) p), bind_run (errno_run p),
      bind_run (mark_run (strtoul text) p)]
    dsimp only
    rw [bind_run (errno_run _)]
    have refused := refused_iff (p := p) (strtoul text) strtoul_range
    unfold flagsNumber
    by_cases good : (strtoul text).rest = [] ∧ (strtoul text).range = false ∧
        ¬ ((strtoul text).value = ULONG_MAX ∧ p.errno = ERANGE)
    · rw [if_neg fun bad => refused.mp bad good]
      dsimp only
      rw [if_pos good]
    · rw [if_pos (refused.mpr good)]
      dsimp only
      rw [if_neg good]

theorem packed_sum {major minor : ℕ} (small : minor ≤ USHRT_MAX) :
    major <<< 16 ||| (minor &&& 0xffff) = major * 2 ^ 16 + minor := by
  have less : minor < 2 ^ 16 := by
    unfold USHRT_MAX at small
    omega
  have word : 0xffff = 2 ^ 16 - 1 := by decide
  rw [word, Nat.and_two_pow_sub_one_eq_mod, Nat.mod_eq_of_lt less,
    ← Nat.shiftLeft_add_eq_or_of_lt less, Nat.shiftLeft_eq]

theorem device_reads (o : Option Bytes) (p : Process S) : device o p = readDevice o p := by
  cases o with
  | none => rfl
  | some text =>
    change parseMm text p = _
    unfold parseMm readDevice majorNumber
    dsimp only
    rw [bind_run (convert_run (strtoul text) p), bind_run (mark_run (strtoul text) p)]
    dsimp only
    cases behind : (strtoul text).rest with
    | nil => rw [if_pos (Or.inl (by simp))]
    | cons sign rest =>
      dsimp only
      by_cases good : sign = PLUS ∧ (strtoul text).value ≤ USHRT_MAX
      · obtain ⟨rfl, major⟩ := good
        have fine : ¬ ((PLUS :: rest).head? ≠ some PLUS ∨ USHRT_MAX < (strtoul text).value) := by
          rintro (other | large)
          · exact other rfl
          · exact absurd major (Nat.not_le.mpr large)
        rw [if_neg fine, if_pos ⟨rfl, major⟩, List.tail_cons,
          bind_run (convert_run (strtoul rest) _)]
        dsimp only
        rw [bind_run (mark_run (strtoul rest) _)]
        unfold minorNumber
        by_cases last : (strtoul rest).rest = [] ∧ (strtoul rest).value ≤ USHRT_MAX
        · have fine' : ¬ ((strtoul rest).rest ≠ [] ∨ USHRT_MAX < (strtoul rest).value) := by
            rintro (more | large)
            · exact more last.1
            · exact absurd last.2 (Nat.not_le.mpr large)
          rw [if_neg fine', if_pos last, packed_sum last.2]
          rfl
        · have bad : (strtoul rest).rest ≠ [] ∨ USHRT_MAX < (strtoul rest).value := by
            by_contra fine
            obtain ⟨rest', large⟩ := not_or.mp fine
            exact last ⟨not_not.mp rest', Nat.le_of_not_lt large⟩
          rw [if_pos bad, if_neg last]
          rfl
      · have bad : (sign :: rest).head? ≠ some PLUS ∨ USHRT_MAX < (strtoul text).value := by
          by_contra fine
          obtain ⟨head, large⟩ := not_or.mp fine
          exact good ⟨Option.some.inj (not_not.mp head), Nat.le_of_not_lt large⟩
        rw [if_pos bad, if_neg good]

end Conversions

section Operations

variable {S : Type} (c : Calls S) {value : Bytes → Option Bytes}

theorem deposit_eq (ino : InoId) (data : Option Bytes) : deposit c ino data = newData c ino data := by
  cases data with
  | none => rfl
  | some data =>
    apply bind_congr
    intro io
    apply bind_congr
    intro cc
    rw [ite_not]

theorem create_file (mode : ℕ) (data : Option Bytes) (pno : Pno) :
    create c pno data (.file mode) = newFile c mode data pno := by
  apply bind_congr
  intro err
  apply if_congr Iff.rfl rfl
  apply bind_congr
  intro ino
  apply bind_congr
  intro ino
  rw [deposit_eq]
  apply bind_congr
  intro err
  apply bind_congr
  intro closed
  rw [ite_not]

/-- `do_creat` with its numbers read. -/
theorem creatAt_asked (mode : ℕ) :
    creatAt c (given value NM) (given value FT) mode (value MM) (value STR) =
      fromStart c (askedKind c value mode) := by
  have reads : device (S := S) = readDevice := funext fun o => funext fun p => device_reads o p
  apply bind_congr
  intro start
  cases start with
  | none => rfl
  | some dir =>
    dsimp only
    unfold creation askedKind
    by_cases dirs : given value FT = DIR
    · rw [if_pos dirs, if_pos dirs, pure_bind]
      rfl
    rw [if_neg dirs, if_neg dirs]
    -- a node has its device read before its path is looked up
    have node : ∀ (kind : ℕ) (rest : Option Creation → Running S ℤ), rest none = pure (-EINVAL) →
        (∀ dev, rest (some (.node (mode ||| kind) dev)) =
          onNewNode c dir (given value NM) (mode ||| kind) none fun pno =>
            c.mknod pno (mode ||| kind) dev) →
        ((device (value MM) >>= fun dev => pure (dev.map (Creation.node (mode ||| kind)))) >>= rest) =
          askedNode c value dir (mode ||| kind) := by
      intro kind rest refused made
      rw [bind_assoc, reads]
      apply bind_congr
      intro dev
      rw [pure_bind]
      cases dev with
      | none => exact refused
      | some dev => exact made dev
    by_cases chr : given value FT = CHR
    · rw [if_pos chr, if_pos chr]
      exact node S_IFCHR _ rfl fun _ => rfl
    rw [if_neg chr, if_neg chr]
    by_cases blk : given value FT = BLK
    · rw [if_pos blk, if_pos blk]
      exact node S_IFBLK _ rfl fun _ => rfl
    rw [if_neg blk, if_neg blk]
    by_cases file : given value FT = FILE
    · rw [if_pos file, if_pos file, pure_bind, ← funext (create_file c mode (value STR))]
      rfl
    · rw [if_neg file, if_neg file]
      rfl

/-- `do_creat` makes the calls that its keys ask for. -/
theorem doCreat_asked : BootCommands.doCreat c (given value FT) (given value NM) (given value PM)
    (value OW) (value GR) (value MM) (value STR) = askedCreat c value := by
  have modes : permissions (S := S) = readMode := funext fun t => funext fun p => permissions_reads t p
  have numbers : identity (S := S) = readIdentity := funext fun o => funext fun p => identity_reads o p
  unfold BootCommands.doCreat askedCreat
  rw [modes, numbers]
  apply bind_congr
  intro mode
  cases mode with
  | none => rfl
  | some mode =>
    apply bind_congr
    intro owner
    cases owner with
    | false => rfl
    | true =>
      apply bind_congr
      intro group
      cases group with
      | false => rfl
      | true => exact creatAt_asked c mode

/-- So does `do_mnt`. -/
theorem doMnt_asked : BootCommands.doMnt c (colonCut (given value DEV)).rest
    (colonCut (given value DEV)).token (given value DIR) (value FL) (value DA) =
      askedMnt c value := by
  have numbers : mountFlags (S := S) = readFlags := funext fun o => funext fun p => mountFlags_reads o p
  unfold BootCommands.doMnt askedMnt
  rw [numbers]
  apply bind_congr
  intro flags
  cases flags with
  | none => rfl
  | some flags => rfl

/-- So does `do_chmd`. -/
theorem doChmd_asked : BootCommands.doChmd c (given value SRC) (given value PM) =
    askedChmd c value := by
  have modes : permissions (S := S) = readMode := funext fun t => funext fun p => permissions_reads t p
  unfold BootCommands.doChmd askedChmd
  rw [modes]
  apply bind_congr
  intro mode
  cases mode with
  | none => rfl
  | some mode => rfl

/-- And `do_open`, with the access mode it has been given. -/
theorem openAt_asked (nm : Bytes) (n : ℤ) (m : ℕ) : openAt c nm n m =
    fromStart c fun dir =>
      onNode c dir nm ND_NOPERMCHECK (some ⟨INT_OPEN, m, none⟩) (newFildes c n m) := by
  apply bind_congr
  intro start
  cases start with
  | none => rfl
  | some dir =>
    apply bind_congr
    intro found
    obtain ⟨err, pno⟩ := found
    apply if_congr Iff.rfl rfl
    apply bind_congr
    intro pno
    unfold newFildes
    rw [bind_assoc]
    apply bind_congr
    intro err
    rw [ite_bind]
    apply if_congr Iff.rfl
    · rw [pure_bind]
    rw [bind_assoc]
    apply bind_congr
    intro ino
    rw [bind_assoc]
    apply bind_congr
    intro fil
    cases fil with
    | none => rw [pure_bind]
    | some fil =>
      dsimp only
      rw [bind_assoc]
      apply bind_congr
      intro err
      rw [ite_bind]
      apply if_congr Iff.rfl
      · rw [bind_assoc]
        rfl
      · rw [pure_bind]

end Operations

end BootOperations
