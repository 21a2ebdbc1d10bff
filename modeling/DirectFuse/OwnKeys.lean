import DirectFuse.BootOpens
import DirectFuse.BootOperations
import DirectFuse.QuotedValues

/-! The keys of boot commands: what each parameter of an operation is taken from, whatever the order
of the `key=value` pairs. -/
namespace OwnKeys

open ExecLogic Cutting SysioState SysioNamei SysioInit Numerals BootTokens BootArgs BootLoop BootCommands
open BootOpens BootOperations QuotedValues
open ArgGrammar (Named argsOf_at)

/-- A key and the text of its value, with what the text is read as. -/
structure Pair where
  key : Bytes
  text : Bytes
  value : Bytes

def Pair.item (a : Pair) : Bytes := a.key ++ EQUALS :: a.text

/-- Pairs as they stand in a command. -/
def joined : List Pair → Bytes
  | [] => []
  | [a] => a.item
  | a :: b :: pairs => a.item ++ COMMA :: joined (b :: pairs)

def commandText (cmd : Command) (pairs : List Pair) : Bytes := cmd.name ++ COMMA :: joined pairs

/-- The keys are those of the command, each at most once and the required ones with a value. -/
structure WellFormed (cmd : Command) (pairs : List Pair) : Prop where
  named : ∀ a ∈ pairs, Named cmd.options a.key
  reads : ∀ a ∈ pairs, Reads marks [COMMA] IGNORE_WHITE a.text a.value
  unended : ∀ a ∈ pairs, 0 ∉ a.text
  once : (pairs.map Pair.key).Nodup
  required : ∀ key ∈ cmd.options.take cmd.required, ∃ a ∈ pairs, a.key = key ∧ a.value ≠ []

/-- The value of a key; an empty one is as good as none. -/
def valueOf (pairs : List Pair) (key : Bytes) : Option Bytes :=
  ((pairs.find? (·.key = key)).map Pair.value).filter (· ≠ [])

/-- The text is a number for a descriptor. -/
structure Fildes (str : Bytes) (n : ℤ) : Prop where
  number : strtol str = ⟨n, [], false⟩
  low : 0 ≤ n
  high : n ≤ BootCommands.INT_MAX

/-- The text is a number with the access mode. The largest number is none where `errno` is left over
from another conversion. -/
structure Access (errno : ℤ) (str : Bytes) (mode : ℕ) : Prop where
  whole : (strtoul str).rest = []
  range : (strtoul str).range = false
  largest : ¬ ((strtoul str).value = ULONG_MAX ∧ errno = ERANGE)
  bits : (strtoul str).value &&& (O_RDONLY ||| SysioFile.O_WRONLY ||| SysioFile.O_RDWR) = mode

/-- What a command returns and does to the library. -/
def effect {S α : Type} (r : Except Fault (α × Boot S)) : Except Fault (α × S) :=
  r.map fun x => (x.1, x.2.sys)

/-- A command uses its own keys. -/
structure UsesKeys (cmd : Command) (pairs : List Pair) (errno : ℤ) : Prop where
  permuted : ∀ {S : Type} (c : Calls S) pairs' (s s' : Boot (Process S)), pairs.Perm pairs' →
    Text s.mem tok (commandText cmd pairs) → Text s'.mem tok (commandText cmd pairs') →
    s'.sys = s.sys → effect (doCommand (works c) tok s') = effect (doCommand (works c) tok s)
  own : ∀ {S : Type} (c : Calls S) (s : Boot (Process S)),
    Text s.mem tok (commandText cmd pairs) → s.sys.errno = errno →
    effect (doCommand (works c) tok s) = asked c cmd (valueOf pairs) s.sys
  record : cmd = .open_ → ∀ {D : Type} {closes : D → ℕ} (o : Outside D) (s t : Boot (Process (Sys D))),
    OffTable closes o.env → Made s.sys.lib → Text s.mem tok (commandText cmd pairs) →
    s.sys.errno = errno → doCommand (works (sysioCalls o)) tok s = .ok (0, t) →
    ∃ n f r, Fildes (given (valueOf pairs) FD) n ∧ t.sys.lib.ft.oftab[n.toNat]? = some (some f) ∧
      t.sys.lib.ft.file f = some r ∧ Access errno (given (valueOf pairs) M) r.flags

section Reading

variable {cmd : Command} {pairs pairs' : List Pair} {names : List Bytes}

theorem valueCut_last {text value : Bytes} (reads : Reads marks [COMMA] IGNORE_WHITE text value) :
    valueCut text = ⟨value, false, []⟩ := by
  have whole := cut_reads reads (by decide) []
  rw [List.append_nil] at whole
  rw [valueCut, whole]
  simp [cut]

theorem valueCut_more {text value : Bytes} (reads : Reads marks [COMMA] IGNORE_WHITE text value)
    (rest : Bytes) : valueCut (text ++ COMMA :: rest) = ⟨value, true, rest⟩ := by
  have ends : cut marks [COMMA] IGNORE_WHITE false false (COMMA :: rest) = ⟨[], true, rest⟩ := rfl
  rw [valueCut, cut_reads reads (by decide), ends, List.append_nil]

theorem argsOf_joined (named : ∀ a ∈ pairs, Named cmd.options a.key)
    (reads : ∀ a ∈ pairs, Reads marks [COMMA] IGNORE_WHITE a.text a.value) :
    argsOf cmd.options (joined pairs) = (pairs.map fun a => (a.key, a.value), some []) := by
  induction pairs with
  | nil => rfl
  | cons a pairs ih =>
    have here := named a List.mem_cons_self
    have value := reads a List.mem_cons_self
    have plain := option_plain here.known
    cases pairs with
    | nil =>
      rw [joined, Pair.item, argsOf_at here plain List.mem_cons_self, valueCut_last value]
      rfl
    | cons b pairs =>
      have later := ih (fun d hd => named d (List.mem_cons_of_mem a hd))
        fun d hd => reads d (List.mem_cons_of_mem a hd)
      rw [joined, Pair.item, List.append_assoc, List.cons_append,
        argsOf_at here plain List.mem_cons_self, valueCut_more value, later]
      rfl

theorem mem_find {key : Bytes} (once : (pairs.map Pair.key).Nodup) (a : Pair) :
    pairs.find? (·.key = key) = some a ↔ a ∈ pairs ∧ a.key = key := by
  induction pairs with
  | nil => simp
  | cons b pairs ih =>
    obtain ⟨new, once⟩ := List.nodup_cons.mp once
    by_cases here : b.key = key
    · rw [List.find?_cons_of_pos (by simpa using here)]
      constructor
      · intro same
        obtain rfl := Option.some.inj same
        exact ⟨List.mem_cons_self, here⟩
      · rintro ⟨member, named⟩
        rcases List.mem_cons.mp member with rfl | later
        · rfl
        · exact absurd (List.mem_map.mpr ⟨a, later, named.trans here.symm⟩) new
    · rw [List.find?_cons_of_neg (by simpa using here), ih once]
      constructor
      · rintro ⟨member, named⟩
        exact ⟨List.mem_cons_of_mem b member, named⟩
      · rintro ⟨member, named⟩
        rcases List.mem_cons.mp member with rfl | later
        · exact absurd named here
        · exact ⟨later, named⟩

/-- The order of the pairs is of no account. -/
theorem valueOf_perm (once : (pairs.map Pair.key).Nodup) (perm : pairs.Perm pairs') :
    valueOf pairs' = valueOf pairs := by
  have once' : (pairs'.map Pair.key).Nodup := (perm.map Pair.key).nodup_iff.mp once
  have found : ∀ key, pairs'.find? (·.key = key) = pairs.find? (·.key = key) := by
    intro key
    apply Option.ext
    intro a
    have left := @mem_find pairs' key once' a
    have right := @mem_find pairs key once a
    rw [left, right, perm.mem_iff]
  funext key
  unfold valueOf
  rw [found]

theorem lastValue_find (once : (pairs.map Pair.key).Nodup) (key : Bytes) :
    lastValue (pairs.map fun a => (a.key, a.value)) key =
      (pairs.find? (·.key = key)).map Pair.value := by
  induction pairs with
  | nil => rfl
  | cons b pairs ih =>
    obtain ⟨new, once⟩ := List.nodup_cons.mp once
    rw [List.map_cons, lastValue, ih once]
    by_cases here : b.key = key
    · have none : pairs.find? (·.key = key) = none := by
        apply List.find?_eq_none.mpr
        intro d hd
        have other : d.key ≠ key := fun same =>
          new (List.mem_map.mpr ⟨d, hd, same.trans here.symm⟩)
        simpa using other
      rw [List.find?_cons_of_pos (by simpa using here), none, if_pos here]
      rfl
    · rw [List.find?_cons_of_neg (by simpa using here), if_neg here, Option.or_none]

theorem commandGiven_text (wf : WellFormed cmd pairs) :
    commandGiven (commandText cmd pairs) = some (cmd, cmd.options.map (valueOf pairs)) := by
  rw [commandText, commandGiven_eq, argsOf_joined wf.named wf.reads, if_pos rfl]
  apply congrArg some
  apply congrArg (Prod.mk cmd)
  unfold optionsSeen
  apply List.map_congr_left
  intro name _
  rw [lastValue_find wf.once]
  rfl

theorem WellFormed.perm (wf : WellFormed cmd pairs) (perm : pairs.Perm pairs') :
    WellFormed cmd pairs' where
  named a ha := wf.named a (perm.mem_iff.mpr ha)
  reads a ha := wf.reads a (perm.mem_iff.mpr ha)
  unended a ha := wf.unended a (perm.mem_iff.mpr ha)
  once := (perm.map Pair.key).nodup_iff.mp wf.once
  required key hk := by
    obtain ⟨a, ha, named, full⟩ := wf.required key hk
    exact ⟨a, perm.mem_iff.mp ha, named, full⟩

/-- A required key has a value. -/
theorem WellFormed.given_some (wf : WellFormed cmd pairs) {key : Bytes}
    (required : key ∈ cmd.options.take cmd.required) :
    valueOf pairs key = some (given (valueOf pairs) key) := by
  obtain ⟨a, ha, named, full⟩ := wf.required key required
  have found : pairs.find? (·.key = key) = some a := (mem_find wf.once a).mpr ⟨ha, named⟩
  have value : valueOf pairs key = some a.value := by
    unfold valueOf
    rw [found]
    exact Option.filter_some_pos (by simpa using full)
  unfold given
  rw [value]
  rfl

theorem joined_unended (named : ∀ a ∈ pairs, Named cmd.options a.key)
    (unended : ∀ a ∈ pairs, 0 ∉ a.text) : 0 ∉ joined pairs := by
  have options : ∀ cmd : Command, ∀ name ∈ cmd.options, 0 ∉ name := by
    intro cmd
    cases cmd <;> decide
  have item : ∀ a ∈ pairs, 0 ∉ a.item := by
    intro a ha mem
    rcases List.mem_append.mp mem with key | text
    · exact options cmd a.key (named a ha).known key
    · rcases List.mem_cons.mp text with equals | text
      · exact absurd equals (by decide)
      · exact unended a ha text
  induction pairs with
  | nil => exact List.not_mem_nil
  | cons a pairs ih =>
    cases pairs with
    | nil => exact item a List.mem_cons_self
    | cons b pairs =>
      intro mem
      rcases List.mem_append.mp mem with first | later
      · exact item a List.mem_cons_self first
      · rcases List.mem_cons.mp later with comma | later
        · exact absurd comma (by decide)
        · exact ih (fun d hd => named d (List.mem_cons_of_mem a hd))
            (fun d hd => unended d (List.mem_cons_of_mem a hd))
            (fun d hd => item d (List.mem_cons_of_mem a hd)) later

theorem commandText_unended (wf : WellFormed cmd pairs) : 0 ∉ commandText cmd pairs := by
  have word : 0 ∉ cmd.name := by
    cases cmd <;> decide
  intro mem
  rcases List.mem_append.mp mem with name | rest
  · exact word name
  · rcases List.mem_cons.mp rest with comma | rest
    · exact absurd comma (by decide)
    · exact joined_unended wf.named wf.unended rest

end Reading

section Effects

variable {S : Type} {c : Calls S} {cmd : Command} {pairs pairs' : List Pair} {s t : Boot (Process S)}

theorem effect_onSys {α : Type} (m : Exec S Fault α) (s : Boot S) :
    effect (onSys m s) = m s.sys := by
  unfold onSys
  cases m s.sys with
  | error f => rfl
  | ok r => rfl

/-- What a command does is a matter of the values of its keys. -/
theorem doCommand_delivers (wf : WellFormed cmd pairs)
    (text : Text s.mem tok (commandText cmd pairs)) : effect (doCommand (works c) tok s) =
      deliver (works c) cmd (cmd.options.map (valueOf pairs)) s.sys := by
  obtain ⟨t, runs, sys, -⟩ := doCommand_means (works c) text
  rw [runs, effect_onSys, commandGiven_text wf, sys]
  rfl

theorem deliver_required (wf : WellFormed cmd pairs) :
    ((cmd.options.map (valueOf pairs)).take cmd.required).any Option.isNone = false := by
  apply List.any_eq_false.mpr
  intro o ho
  rw [← List.map_take] at ho
  obtain ⟨key, required, rfl⟩ := List.mem_map.mp ho
  rw [wf.given_some required]
  exact Bool.false_ne_true

/-- The commands but `open` do what their keys ask for. -/
theorem deliver_asked (wf : WellFormed cmd pairs) (other : cmd ≠ .open_) :
    deliver (works c) cmd (cmd.options.map (valueOf pairs)) = asked c cmd (valueOf pairs) := by
  unfold deliver
  rw [deliver_required wf, if_neg Bool.false_ne_true]
  cases cmd with
  | open_ => exact absurd rfl other
  | creat =>
    have ft : valueOf pairs FT = some (given (valueOf pairs) FT) := wf.given_some (by decide)
    have nm : valueOf pairs NM = some (given (valueOf pairs) NM) := wf.given_some (by decide)
    have pm : valueOf pairs PM = some (given (valueOf pairs) PM) := wf.given_some (by decide)
    change (works c).creat [valueOf pairs FT, valueOf pairs NM, valueOf pairs PM, valueOf pairs OW,
      valueOf pairs GR, valueOf pairs MM, valueOf pairs STR] = _
    rw [ft, nm, pm]
    exact doCreat_asked c
  | mnt =>
    have dev : valueOf pairs DEV = some (given (valueOf pairs) DEV) := wf.given_some (by decide)
    have dir : valueOf pairs DIR = some (given (valueOf pairs) DIR) := wf.given_some (by decide)
    have options : Command.mnt.options.map (valueOf pairs) =
        [some (given (valueOf pairs) DEV), some (given (valueOf pairs) DIR), valueOf pairs FL,
          valueOf pairs DA] := by
      rw [← dev, ← dir]
      rfl
    rw [options]
    exact doMnt_asked c
  | chmd =>
    have src : valueOf pairs SRC = some (given (valueOf pairs) SRC) := wf.given_some (by decide)
    have pm : valueOf pairs PM = some (given (valueOf pairs) PM) := wf.given_some (by decide)
    change (works c).chmd [valueOf pairs SRC, valueOf pairs PM] = _
    rw [src, pm]
    exact doChmd_asked c

theorem deliver_open (wf : WellFormed .open_ pairs) :
    deliver (works c) .open_ (Command.open_.options.map (valueOf pairs)) =
      doOpen c (given (valueOf pairs) NM) (given (valueOf pairs) FD) (given (valueOf pairs) M) := by
  have nm : valueOf pairs NM = some (given (valueOf pairs) NM) := wf.given_some (by decide)
  have fd : valueOf pairs FD = some (given (valueOf pairs) FD) := wf.given_some (by decide)
  have m : valueOf pairs M = some (given (valueOf pairs) M) := wf.given_some (by decide)
  unfold deliver
  rw [deliver_required wf, if_neg Bool.false_ne_true]
  change (works c).open_ [valueOf pairs NM, valueOf pairs FD, valueOf pairs M] = _
  rw [nm, fd, m]
  rfl

end Effects

section Numbers

variable {S : Type} {p q : Process S} {str : Bytes} {n : ℤ} {mode : ℕ}

theorem fildes_run (str : Bytes) (p : Process S) : ∃ o, fildes str p = .ok (o, marked (strtol str) p) ∧
    ∀ n, o = some n ↔ Fildes str n := by
  unfold fildes
  rw [bind_run (convert_run (strtol str) p)]
  dsimp only
  by_cases bad : (strtol str).rest ≠ [] ∨ (strtol str).value < 0 ∨
      BootCommands.INT_MAX < (strtol str).value
  · rw [if_pos bad]
    refine ⟨none, rfl, fun n => Iff.intro (fun h => nomatch h) fun number => ?_⟩
    rw [number.number] at bad
    rcases bad with bad | bad | bad
    · exact absurd rfl bad
    · exact absurd number.low (Int.not_le.mpr bad)
    · exact absurd number.high (Int.not_le.mpr bad)
  · rw [if_neg bad]
    obtain ⟨rest, bad⟩ := not_or.mp bad
    obtain ⟨low, high⟩ := not_or.mp bad
    have low := Int.not_lt.mp low
    have high := Int.not_lt.mp high
    have inside : (strtol str).value < LONG_MAX := by
      have less : BootCommands.INT_MAX < LONG_MAX := by decide
      exact Int.lt_of_le_of_lt high less
    refine ⟨_, rfl, fun n => ⟨fun same => ?_, fun number => ?_⟩⟩
    · obtain rfl := Option.some.inj same
      have range := (strtoul_of_strtol low inside).2
      refine ⟨?_, low, high⟩
      rw [← range, ← not_not.mp rest]
    · rw [number.number]

theorem accessMode_run (str : Bytes) (p : Process S) : ∃ o,
    accessMode str p = .ok (o, marked (strtoul str) p) ∧
      ∀ m, o = some m ↔ Access p.errno str m := by
  unfold accessMode
  rw [bind_run (convert_run (strtoul str) p)]
  dsimp only
  have err : (errno : Running S ℤ) (marked (strtoul str) p) =
      .ok ((marked (strtoul str) p).errno, marked (strtoul str) p) := rfl
  rw [bind_run err]
  by_cases bad : (strtoul str).rest ≠ [] ∨ (strtoul str).value = ULONG_MAX ∧
      (marked (strtoul str) p).errno = ERANGE
  · rw [if_pos bad]
    refine ⟨none, rfl, fun m => Iff.intro (fun h => nomatch h) fun access => ?_⟩
    rcases bad with bad | ⟨bad, left⟩
    · exact absurd access.whole bad
    · unfold marked at left
      rw [access.range] at left
      exact absurd ⟨bad, left⟩ access.largest
  · rw [if_neg bad]
    obtain ⟨rest, bad⟩ := not_or.mp bad
    have range : (strtoul str).range = false := by
      by_contra range
      have range := Bool.not_eq_false _ ▸ range
      apply bad
      refine ⟨strtoul_range range, ?_⟩
      unfold marked
      rw [if_pos range]
    refine ⟨_, rfl, fun m => ⟨fun same => ?_, fun access => ?_⟩⟩
    · refine ⟨not_not.mp rest, range, fun both => ?_, Option.some.inj same⟩
      apply bad
      unfold marked
      rw [range]
      exact both
    · rw [access.bits]

/-- The descriptor's text is a number for the access mode as well. -/
theorem Fildes.access (number : Fildes str n) (errno : ℤ) : Access errno str (n.toNat &&& 3) := by
  have value : (strtol str).value = n := by rw [number.number]
  have low : 0 ≤ (strtol str).value := value ▸ number.low
  have less : BootCommands.INT_MAX < LONG_MAX := by decide
  have inside : (strtol str).value < LONG_MAX := by
    rw [value]
    exact Int.lt_of_le_of_lt number.high less
  have same := (strtoul_of_strtol low inside).1
  rw [number.number] at same
  have high := number.high
  constructor
  · rw [same]
  · rw [same]
  · rw [same]
    rintro ⟨large, -⟩
    unfold ULONG_MAX at large
    unfold BootCommands.INT_MAX at high
    dsimp only at large
    omega
  · rw [same]
    rfl

end Numbers

section Opens

variable {S : Type} {c : Calls S} {p : Process S} {nm fd m : Bytes} {n : ℤ}

theorem marked_fildes (number : Fildes fd n) (p : Process S) : marked (strtol fd) p = p := by
  unfold marked
  rw [number.number]
  rfl

theorem marked_access {errno : ℤ} {mode : ℕ} (access : Access errno m mode) (p : Process S) :
    marked (strtoul m) p = p := by
  unfold marked
  rw [access.range]
  rfl

theorem fildes_some (number : Fildes fd n) (p : Process S) : fildes fd p = .ok (some n, p) := by
  obtain ⟨o, run, reads⟩ := fildes_run fd p
  rw [run, (reads n).mpr number, marked_fildes number]

theorem accessMode_some {mode : ℕ} (access : Access p.errno m mode) :
    accessMode m p = .ok (some mode, p) := by
  obtain ⟨o, run, reads⟩ := accessMode_run m p
  rw [run, (reads mode).mpr access, marked_access access]

/-- The access mode of an open is taken from its descriptor. -/
theorem doOpen_some (number : Fildes fd n) :
    doOpen c nm fd m p = openAt c nm n (n.toNat &&& 3) p := by
  unfold BootCommands.doOpen
  rw [bind_run (fildes_some number p)]
  exact bind_run (accessMode_some (number.access p.errno))

theorem doOpen_none (none : ∀ n, ¬ Fildes fd n) :
    doOpen c nm fd m p = .ok (-EINVAL, marked (strtol fd) p) := by
  obtain ⟨o, run, reads⟩ := fildes_run fd p
  unfold BootCommands.doOpen
  rw [bind_run run]
  cases o with
  | none => rfl
  | some n => exact absurd ((reads n).mp rfl) (none n)

/-- The mode's text is a number with the access mode that the descriptor's text has as a number, if
that is a descriptor at all. -/
def Alike (value : Bytes → Option Bytes) (errno : ℤ) : Prop :=
  ∀ n, Fildes (given value FD) n → Access errno (given value M) (n.toNat &&& 3)

theorem doOpen_asked {value : Bytes → Option Bytes} (alike : Alike value p.errno) :
    doOpen c (given value NM) (given value FD) (given value M) p = asked c .open_ value p := by
  change _ = askedOpen c value p
  unfold askedOpen
  by_cases number : ∃ n, Fildes (given value FD) n
  · obtain ⟨n, number⟩ := number
    rw [doOpen_some number, bind_run (fildes_some number p)]
    dsimp only
    rw [bind_run (accessMode_some (alike n number)), openAt_asked]
  · have none := not_exists.mp number
    rw [doOpen_none none]
    obtain ⟨o, run, reads⟩ := fildes_run (given value FD) p
    rw [bind_run run]
    cases o with
    | none => rfl
    | some n => exact absurd ((reads n).mp rfl) (none n)

/-- A library that finds every path and answers every open with its access mode. -/
def telling : Calls Unit where
  start := pure (some 0)
  namei _ _ _ _ := pure (0, some 0)
  mkdir _ _ := pure 0
  mknod _ _ _ := pure 0
  open_ _ flags _ := pure (flags + 1)
  setattr _ _ := pure 0
  mountRoot _ _ _ _ := pure 0
  mount _ _ _ _ _ _ := pure 0
  inoOf _ := pure none
  ioctx _ _ := pure 0
  wait _ := pure 0
  closeIno _ := pure 0
  fnew _ _ := pure none
  fdSet _ _ := pure 0
  fRele _ := pure ()
  pRele _ := pure ()

theorem openAt_tells (nm : Bytes) (n : ℤ) (mode : ℕ) (p : Process Unit) :
    openAt telling nm n mode p = .ok ((mode : ℤ) + 1, p) := by
  have answers : (mode : ℤ) + 1 ≠ 0 := by omega
  have start : telling.start p = .ok (some 0, p) := rfl
  have look : telling.namei 0 nm ND_NOPERMCHECK (some ⟨INT_OPEN, mode, none⟩) p =
      .ok ((0, some 0), p) := rfl
  have node : (Exec.deref .wild fun _ => some 0 : Running Unit Pno) p = .ok (0, p) := rfl
  have opened : telling.open_ 0 mode 0 p = .ok ((mode : ℤ) + 1, p) := rfl
  unfold openAt
  rw [bind_run start]
  dsimp only
  rw [bind_run look]
  dsimp only
  rw [if_neg (not_not.mpr rfl)]
  rw [bind_run node, bind_run opened, if_pos answers]
  rfl

/-- A buffer that holds a command. -/
def typed (str : Bytes) (errno : ℤ) : Boot (Process Unit) :=
  ⟨fun b => if b = Buffer.tok then str ++ [0] else [], ⟨errno, ()⟩⟩

theorem typed_text {str : Bytes} (unended : 0 ∉ str) (errno : ℤ) :
    Text (typed str errno).mem tok str := by
  refine ⟨?_, unended⟩
  change ((str ++ [0]).drop 0).take (str.length + 1) = str ++ [0]
  apply List.take_of_length_le
  simp

end Opens

theorem alike_of_uses {pairs : List Pair} {errno : ℤ} (wf : WellFormed .open_ pairs)
    (uses : UsesKeys .open_ pairs errno) : Alike (valueOf pairs) errno := by
  intro n number
  have text := typed_text (commandText_unended wf) errno
  have same := uses.own telling _ text rfl
  rw [doCommand_delivers wf text, deliver_open wf, doOpen_some number, openAt_tells] at same
  obtain ⟨o, run, reads⟩ := accessMode_run (given (valueOf pairs) M) (⟨errno, ()⟩ : Process Unit)
  have wanted : asked telling .open_ (valueOf pairs) ⟨errno, ()⟩ =
      (o.elim (pure (-EINVAL)) (openAt telling (given (valueOf pairs) NM) n) : Running Unit ℤ)
        (marked (strtoul (given (valueOf pairs) M)) ⟨errno, ()⟩) := by
    change askedOpen telling (valueOf pairs) ⟨errno, ()⟩ = _
    unfold askedOpen
    rw [bind_run (fildes_some number _)]
    dsimp only
    rw [bind_run run]
    cases o with
    | none => rfl
    | some m => rw [Option.elim_some, openAt_asked]
  have same := same.trans wanted
  cases o with
  | none =>
    have value := congrArg Prod.fst (Except.ok.inj same)
    unfold EINVAL at value
    dsimp only at value
    omega
  | some m =>
    rw [Option.elim_some, openAt_tells] at same
    have value := congrArg Prod.fst (Except.ok.inj same)
    dsimp only at value
    obtain rfl : m = n.toNat &&& 3 := by omega
    exact (reads _).mp rfl

/-- The commands use their own keys in any order, but for `open`, which has its access mode right
only where that of its own key is the one of the descriptor. -/
theorem own_keys {cmd : Command} {pairs : List Pair} (wf : WellFormed cmd pairs) (errno : ℤ) :
    UsesKeys cmd pairs errno ↔ (cmd = .open_ → Alike (valueOf pairs) errno) := by
  constructor
  · rintro uses rfl
    exact alike_of_uses wf uses
  · intro alike
    constructor
    case permuted =>
      intro S c pairs' s s' perm text text' sys
      rw [doCommand_delivers wf text, doCommand_delivers (wf.perm perm) text',
        valueOf_perm wf.once perm, sys]
    case own =>
      intro S c s text left
      rw [doCommand_delivers wf text]
      by_cases opens : cmd = .open_
      · subst opens
        rw [deliver_open wf]
        exact doOpen_asked (left ▸ alike rfl)
      · rw [deliver_asked wf opens]
    case record =>
      rintro rfl D closes o s t off made text left run
      have ran := doCommand_delivers (c := sysioCalls o) wf text
      rw [run, deliver_open wf] at ran
      have ran : doOpen (sysioCalls o) (given (valueOf pairs) NM) (given (valueOf pairs) FD)
          (given (valueOf pairs) M) s.sys = .ok (0, t.sys) := ran.symm
      by_cases number : ∃ n, Fildes (given (valueOf pairs) FD) n
      · obtain ⟨n, number⟩ := number
        rw [doOpen_some number] at ran
        obtain ⟨f, r, slot, record, flags⟩ := openAt_installs off number.low made ran
        refine ⟨n, f, r, number, slot, record, ?_⟩
        rw [flags]
        exact alike rfl n number
      · rw [doOpen_none (not_exists.mp number)] at ran
        have value := congrArg Prod.fst (Except.ok.inj ran)
        have refused : -EINVAL ≠ 0 := by decide
        exact absurd value refused

/-- The pairs of `{open,nm=x,fd=y,m=z}`. -/
def openPairs (x y z : UInt8) : List Pair := [⟨NM, [x], [x]⟩, ⟨FD, [y], [y]⟩, ⟨M, [z], [z]⟩]

def plainChar (c : UInt8) : Bool :=
  c ≠ marks.escape ∧ c ≠ marks.quote ∧ c ∉ [COMMA] ∧ c ∉ IGNORE_WHITE ∧ c ≠ 0

theorem openPairs_wellFormed {x y z : UInt8} (plain : ∀ c ∈ [x, y, z], plainChar c = true) :
    WellFormed .open_ (openPairs x y z) := by
  have one : ∀ c ∈ [x, y, z], Reads marks [COMMA] IGNORE_WHITE [c] [c] ∧ 0 ∉ [c] := by
    intro c hc
    obtain ⟨escape, quote, delim, ignore, full⟩ := of_decide_eq_true (plain c hc)
    refine ⟨Reads.ordinary ⟨escape, quote, delim, ignore⟩ Reads.nil, fun zero => ?_⟩
    exact full (List.mem_singleton.mp zero).symm
  have each : ∀ a ∈ openPairs x y z, ∃ c ∈ [x, y, z], a.text = [c] ∧ a.value = [c] ∧
      a.key ∈ [NM, FD, M] := by
    intro a ha
    simp only [openPairs, List.mem_cons, List.not_mem_nil, or_false] at ha
    rcases ha with rfl | rfl | rfl
    · exact ⟨x, by simp⟩
    · exact ⟨y, by simp⟩
    · exact ⟨z, by simp⟩
  have keys : ∀ key ∈ [NM, FD, M], key ∈ Command.open_.options ∧ key ≠ [] ∧
      (key.all fun c => decide (c ∉ [EQUALS, COMMA])) = true := by decide
  constructor
  case named =>
    intro a ha
    obtain ⟨c, -, -, -, key⟩ := each a ha
    obtain ⟨known, nonempty, free⟩ := keys a.key key
    exact ⟨known, nonempty, forall_mem_of_all free⟩
  case reads =>
    intro a ha
    obtain ⟨c, hc, text, value, -⟩ := each a ha
    rw [text, value]
    exact (one c hc).1
  case unended =>
    intro a ha
    obtain ⟨c, hc, text, -⟩ := each a ha
    rw [text]
    exact (one c hc).2
  case once =>
    change [NM, FD, M].Nodup
    decide
  case required =>
    intro key required
    have key : key ∈ [NM, FD, M] := required
    simp only [List.mem_cons, List.not_mem_nil, or_false] at key
    rcases key with rfl | rfl | rfl
    · exact ⟨⟨NM, [x], [x]⟩, by simp [openPairs]⟩
    · exact ⟨⟨FD, [y], [y]⟩, by simp [openPairs]⟩
    · exact ⟨⟨M, [z], [z]⟩, by simp [openPairs]⟩

/-- `{open,nm=/,fd=1,m=1}`. -/
theorem own_keys_alike : UsesKeys .open_ (openPairs 47 49 49) 0 := by
  apply (own_keys (openPairs_wellFormed (forall_mem_of_all (by decide))) 0).mpr
  intro _ n number
  have one : strtol (given (valueOf (openPairs 47 49 49)) FD) = ⟨1, [], false⟩ := by decide
  obtain rfl : n = 1 := congrArg Converted.value (number.number.symm.trans one)
  exact ⟨by decide, by decide, by decide, by decide⟩

/-- `{open,nm=/,fd=0,m=1}`. -/
theorem mode_from_descriptor : ¬ UsesKeys .open_ (openPairs 47 48 49) 0 := by
  intro uses
  have alike := alike_of_uses (openPairs_wellFormed (forall_mem_of_all (by decide))) uses 0
    ⟨by decide, by decide, by decide⟩
  exact absurd alike.bits (by decide)

end OwnKeys
