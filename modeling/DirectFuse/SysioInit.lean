import DirectFuse.SysioState

/-! The boot script of init.c: its tokens, its argument lists and its loop over commands. What the
commands do with the library once their arguments are read is a parameter. -/
namespace SysioInit

open ExecLogic SysioState

/-- The string a boot call is given, and the token buffer it allocates. -/
inductive Buffer where
  | arg
  | tok
  deriving DecidableEq, Repr

/-- A pointer to a byte of a buffer. -/
structure Ptr where
  buffer : Buffer
  off : ℕ
  deriving DecidableEq, Repr

def Ptr.add (p : Ptr) (n : ℕ) : Ptr := { p with off := p.off + n }

@[simp] theorem Ptr.add_buffer (p : Ptr) (n : ℕ) : (p.add n).buffer = p.buffer := rfl
@[simp] theorem Ptr.add_off (p : Ptr) (n : ℕ) : (p.add n).off = p.off + n := rfl
@[simp] theorem Ptr.add_zero (p : Ptr) : p.add 0 = p := rfl
theorem Ptr.add_add (p : Ptr) (m n : ℕ) : (p.add m).add n = p.add (m + n) := by
  simp [Ptr.add, Nat.add_assoc]

abbrev Memory := Buffer → Bytes

/-- The bytes the parser works on, and the library under the commands. -/
structure Boot (S : Type) where
  mem : Memory
  sys : S

variable {S : Type}

abbrev Booting (S α : Type) := Exec (Boot S) Fault α

/-- `*p`. -/
def byteAt (p : Ptr) : Booting S UInt8 := Exec.deref .wild fun s => (s.mem p.buffer)[p.off]?

/-- `*p = c`. -/
def setByte (p : Ptr) (c : UInt8) : Booting S Unit := do
  Exec.check .wild fun s => p.off < (s.mem p.buffer).length
  Exec.write fun s =>
    { s with mem := Function.update s.mem p.buffer ((s.mem p.buffer).set p.off c) }

/-- The bytes in front of the first NUL. -/
def untilNul (bytes : Bytes) : Option Bytes :=
  if 0 ∈ bytes then some (bytes.takeWhile (· != 0)) else none

/-- The string at `p`. -/
def cString (p : Ptr) : Booting S Bytes :=
  Exec.deref .wild fun s => untilNul ((s.mem p.buffer).drop p.off)

def strlen (p : Ptr) : Booting S ℕ := do
  let str ← cString p
  return str.length

/-- The bytes from `p` to the end of its buffer. -/
def bytesLeft (p : Ptr) : Booting S ℕ := Exec.read fun s => (s.mem p.buffer).length - p.off

def BACKSLASH : UInt8 := 92
def QUOTE : UInt8 := 34
def COMMA : UInt8 := 44
def EQUALS : UInt8 := 61
def COLON : UInt8 := 58
def NEWLINE : UInt8 := 10
def OPEN_BRACE : UInt8 := 123
def CLOSE_BRACE : UInt8 := 125
def COMMENT_INTRO : UInt8 := 35

/-- Blank, tabulator, carriage return and newline. -/
def IGNORE_WHITE : Bytes := [32, 9, 13, 10]

/-- Where the loop of `_sysio_get_token` reads and writes next. -/
structure Place where
  buf : Ptr
  tbuf : Ptr
  escape : Bool
  quote : Bool
  deriving DecidableEq, Repr

/-- Where a turn of that loop leads: to the next turn, or out of the loop, at a delimiter or not. -/
inductive Turned where
  | on (x : Place)
  | out (buf tbuf : Ptr) (found : Bool)
  deriving DecidableEq, Repr

/-- A turn of the loop of `_sysio_get_token`. -/
def tokenTurn (delim ignore : Bytes) (x : Place) : Booting S Turned := do
  let c ← byteAt x.buf
  if c = 0 then
    return .out x.buf x.tbuf false
  else if ¬ x.escape ∧ c = BACKSLASH then
    return .on { x with buf := x.buf.add 1, escape := true }
  else if ¬ x.escape ∧ c = QUOTE then
    return .on { x with buf := x.buf.add 1, escape := false, quote := !x.quote }
  else if ¬ x.escape ∧ ¬ x.quote ∧ c ∈ delim then
    return .out (x.buf.add 1) x.tbuf true
  else if ¬ x.escape ∧ ¬ x.quote ∧ c ∈ ignore then
    return .on { x with buf := x.buf.add 1, escape := false }
  else
    setByte x.tbuf c
    return .on { x with buf := x.buf.add 1, tbuf := x.tbuf.add 1, escape := false }

/-- The loop of `_sysio_get_token`: where reading and writing end, and whether at a delimiter. Every
turn reads a byte, so there are no more turns than bytes. -/
def getTokenLoop (delim ignore : Bytes) : ℕ → Place → Booting S (Ptr × Ptr × Bool)
  | 0, _ => Exec.fault .diverge
  | fuel + 1, x => do
    match ← tokenTurn delim ignore x with
    | .on y => getTokenLoop delim ignore fuel y
    | .out buf tbuf found => return (buf, tbuf, found)

/-- `_sysio_get_token`. -/
def sysioGetToken (buf : Ptr) (accepts : Bool) (delim ignore : Bytes) (tbuf : Ptr) :
    Booting S (Option Ptr) := do
  let left ← bytesLeft buf
  let (buf, tbuf, found) ← getTokenLoop delim ignore (left + 1) ⟨buf, tbuf, false, false⟩
  if ¬ (accepts || found) then
    return none
  setByte tbuf 0
  return some buf

/-- `struct option_value_info`; a NULL value is `none`. -/
structure OptionValue where
  name : Bytes
  value : Option Ptr
  deriving DecidableEq, Repr

/-- `v->ovi_value = value` for the first option of that name, if there is one. -/
def setOption : List OptionValue → Bytes → Option Ptr → Option (List OptionValue)
  | [], _, _ => none
  | v :: vec, name, value =>
    if v.name = name then some ({ v with value := value } :: vec)
    else (setOption vec name value).map (v :: ·)

/-- The loop of `_sysio_get_args`, with the options as they are set so far. -/
def getArgsLoop : ℕ → Ptr → List OptionValue → Booting S (Option Ptr × List OptionValue)
  | 0, _, _ => Exec.fault .diverge
  | fuel + 1, buf, vec => do
    let name := buf
    match ← sysioGetToken buf true [EQUALS, COMMA] IGNORE_WHITE name with
    | none => return (none, vec)
    | some nxt =>
      let first ← byteAt name
      if nxt ≠ buf ∧ first = 0 then
        let len ← strlen buf
        if buf.add len = nxt then
          return (none, vec)
      if first = 0 then
        return (some buf, vec)
      let value := nxt
      match ← sysioGetToken nxt true [COMMA] IGNORE_WHITE value with
      | none => Exec.fault .wild
      | some buf =>
        let key ← cString name
        let value := if (← byteAt value) = 0 then none else some value
        match setOption vec key value with
        | none => return (none, vec)
        | some vec => getArgsLoop fuel buf vec

/-- `_sysio_get_args`. -/
def sysioGetArgs (buf : Ptr) (vec : List OptionValue) :
    Booting S (Option Ptr × List OptionValue) := do
  let left ← bytesLeft buf
  getArgsLoop (left + 1) buf vec

/-- A table of options that are not set yet. -/
def unset (names : List Bytes) : List OptionValue := names.map fun n => ⟨n, none⟩

/-- The commands of the boot script. -/
inductive Command where
  | creat
  | mnt
  | chmd
  | open_
  deriving DecidableEq, Repr

def bytesOf (word : List Char) : Bytes := word.map fun c => UInt8.ofNat c.toNat

def Command.name : Command → Bytes
  | .creat => bytesOf ['c', 'r', 'e', 'a', 't']
  | .mnt => bytesOf ['m', 'n', 't']
  | .chmd => bytesOf ['c', 'h', 'm', 'd']
  | .open_ => bytesOf ['o', 'p', 'e', 'n']

/-- The options in the order of the source: for `creat` the file type, name, permissions, owner,
group, device number and file data, for `mnt` the device, directory, flags and mount data, for
`chmd` the path and permissions, for `open` the path, descriptor and mode. -/
def Command.options : Command → List Bytes
  | .creat => [bytesOf ['f', 't'], bytesOf ['n', 'm'], bytesOf ['p', 'm'], bytesOf ['o', 'w'],
      bytesOf ['g', 'r'], bytesOf ['m', 'm'], bytesOf ['s', 't', 'r']]
  | .mnt => [bytesOf ['d', 'e', 'v'], bytesOf ['d', 'i', 'r'], bytesOf ['f', 'l'],
      bytesOf ['d', 'a']]
  | .chmd => [bytesOf ['s', 'r', 'c'], bytesOf ['p', 'm']]
  | .open_ => [bytesOf ['n', 'm'], bytesOf ['f', 'd'], bytesOf ['m']]

/-- How many of the options, from the first on, have to be set. -/
def Command.required : Command → ℕ
  | .creat => 3
  | .mnt => 2
  | .chmd => 2
  | .open_ => 3

/-- What the commands do with the library once they have their arguments. `mnt` gets `ty`, what is
behind the colon of its device, and `name`, what is before it. -/
structure Works (S : Type) where
  creat : List (Option Bytes) → Exec S Fault ℤ
  mnt : (ty name : Bytes) → List (Option Bytes) → Exec S Fault ℤ
  chmd : List (Option Bytes) → Exec S Fault ℤ
  open_ : List (Option Bytes) → Exec S Fault ℤ

/-- Runs a computation on the library. -/
def onSys {α : Type} (m : Exec S Fault α) : Booting S α := fun s =>
  match m s.sys with
  | .ok (a, sys) => .ok (a, { s with sys := sys })
  | .error e => .error e

/-- The string of an option that is set. -/
def optionString : Option Ptr → Booting S (Option Bytes)
  | none => pure none
  | some p => do
    let str ← cString p
    return some str

def optionStrings : List (Option Ptr) → Booting S (List (Option Bytes))
  | [] => pure []
  | v :: vec => do
    let str ← optionString v
    let strs ← optionStrings vec
    return str :: strs

/-- `_sysio_get_args` on the options of a command, and the test that the commands put it to: the
arguments are accepted if they were read up to where they ended. -/
def acceptedArgs (cmd : Command) (args : Ptr) : Booting S (Option (List (Option Ptr))) := do
  let len ← strlen args
  let (stop, vec) ← sysioGetArgs args (unset cmd.options)
  if stop ≠ some (args.add len) then
    return none
  return some (vec.map OptionValue.value)

/-- What a command does with accepted arguments. -/
def perform (w : Works S) (cmd : Command) (values : List (Option Ptr)) : Booting S ℤ := do
  if (values.take cmd.required).any Option.isNone then
    return -EINVAL
  match cmd, values with
  | .mnt, some dev :: rest => do
    -- the device is cut in place at its first colon
    match ← sysioGetToken dev true [COLON] [] dev with
    | none => Exec.fault .wild
    | some ty => do
      let name ← cString dev
      let ty ← cString ty
      let strs ← optionStrings rest
      onSys (w.mnt ty name strs)
  | .mnt, _ => return -EINVAL
  | .creat, values => do
    let strs ← optionStrings values
    onSys (w.creat strs)
  | .chmd, values => do
    let strs ← optionStrings values
    onSys (w.chmd strs)
  | .open_, values => do
    let strs ← optionStrings values
    onSys (w.open_ strs)

/-- `do_creat`, `do_mnt`, `do_chmd` and `do_open`. -/
def doArgs (w : Works S) (cmd : Command) (args : Ptr) : Booting S ℤ := do
  match ← acceptedArgs cmd args with
  | none => return -EINVAL
  | some values => perform w cmd values

def doCreat (w : Works S) : Ptr → Booting S ℤ := doArgs w .creat
def doMnt (w : Works S) : Ptr → Booting S ℤ := doArgs w .mnt
def doChmd (w : Works S) : Ptr → Booting S ℤ := doArgs w .chmd
def doOpen (w : Works S) : Ptr → Booting S ℤ := doArgs w .open_

/-- `do_command`. -/
def doCommand (w : Works S) (buf : Ptr) : Booting S ℤ := do
  let cmd := buf
  match ← sysioGetToken buf true [COMMA] IGNORE_WHITE cmd with
  | none => return -EINVAL
  | some args =>
    let name ← cString cmd
    if name = Command.creat.name then
      doCreat w args
    else if name = Command.mnt.name then
      doMnt w args
    else if name = Command.chmd.name then
      doChmd w args
    else if name = Command.open_.name then
      doOpen w args
    else
      return -EINVAL

/-- Steps over the bytes that pass the test. -/
def skipWhile (test : UInt8 → Bool) (p : Ptr) : Booting S Ptr :=
  Exec.read fun s => p.add (((s.mem p.buffer).drop p.off).takeWhile test).length

/-- The token buffer. -/
def tok : Ptr := ⟨.tok, 0⟩

/-- What the boot loop finds in the script: its end, something that is no command, a comment up to
`arg`, or a command up to `arg`, which is in the token buffer then. -/
inductive Found where
  | done
  | malformed
  | comment (arg : Ptr)
  | command (arg : Ptr)
  deriving DecidableEq, Repr

/-- A turn of the loop of `_sysio_boot_namespace`, up to the command. -/
def nextCommand (arg : Ptr) : Booting S Found := do
  let arg ← skipWhile (· ∈ IGNORE_WHITE) arg
  let c ← byteAt arg
  if c = COMMENT_INTRO then
    let arg ← skipWhile (fun c => c ≠ 0 ∧ c ≠ NEWLINE) arg
    return .comment arg
  else if c = 0 then
    return .done
  else if c ≠ OPEN_BRACE then
    return .malformed
  else
    setByte tok 0
    match ← sysioGetToken (arg.add 1) false [CLOSE_BRACE] IGNORE_WHITE tok with
    | none => return .malformed
    | some arg => return .command arg

/-- The loop of `_sysio_boot_namespace`. -/
def bootLoop (w : Works S) : ℕ → Ptr → Booting S ℤ
  | 0, _ => Exec.fault .diverge
  | fuel + 1, arg => do
    match ← nextCommand arg with
    | .done => return 0
    | .malformed => return -EINVAL
    | .comment arg => bootLoop w fuel arg
    | .command arg => do
      let err ← doCommand w tok
      if err ≠ 0 then
        return err
      else
        bootLoop w fuel arg

/-- Sets the contents of the token buffer. -/
def setToken (bytes : Bytes) : Booting S Unit :=
  Exec.write fun s => { s with mem := Function.update s.mem .tok bytes }

/-- The report of a failure, which has the last token as a string unless that is empty. Nothing says
that there is a NUL in the token buffer. -/
def reportFailure : Booting S Unit := do
  let c ← byteAt tok
  if c = 0 then
    return ()
  else
    let _ ← cString tok
    return ()

/-- The way out of `_sysio_boot_namespace`. -/
def endBoot (err : ℤ) : Booting S ℤ := do
  if err ≠ 0 then
    reportFailure
  setToken []
  return err

/-- `_sysio_boot_namespace`, with the tracing that its makefiles build in. `heap` says what is in
the memory that `malloc` delivers, if it delivers any. -/
def sysioBootNamespace (w : Works S) (heap : Option (ℕ → UInt8)) (arg : Ptr) : Booting S ℤ := do
  let len ← strlen arg
  match heap with
  | none => return -ENOMEM
  | some junk => do
    setToken ((List.range (max len 1)).map junk)
    let left ← bytesLeft arg
    let err ← bootLoop w (left + 1) arg
    endBoot err

end SysioInit
