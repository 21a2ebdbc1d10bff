import DirectFuse.BootCommands
import Mathlib.Tactic.NormNum

/-! Device numbers between the boot parser, which packs them, and the device layer (dev.h, dev.c),
which takes them apart. -/
namespace DeviceNumbers

open ExecLogic SysioState SysioInit Numerals BootCommands

def ENXIO : ℤ := 6

/-- `SYSIO_MKDEV`. -/
def SYSIO_MKDEV (major minor : ℕ) : ℕ := ((major &&& 0xff) <<< 8) ||| (minor &&& 0xff)

/-- `SYSIO_MAJOR_DEV`. -/
def SYSIO_MAJOR_DEV (dev : ℕ) : ℕ := (dev >>> 8) &&& 0xff

/-- `SYSIO_MINOR_DEV`. -/
def SYSIO_MINOR_DEV (dev : ℕ) : ℕ := dev &&& 0xff

/-- `struct device`. -/
structure Device (O : Type) where
  name : Option Bytes
  ops : O

/-- `cdev`, by major number. -/
abbrev Devices (O : Type) := ℕ → Device O

section Tables

variable {O : Type} (nodev : O)

/-- `_sysio_dev_init`; `nodev` are `_sysio_nodev_ops`. -/
def sysioDevInit : Devices O := fun _ => ⟨none, nodev⟩

/-- The highest major number below `n` that is free. -/
def freeMajor (cdev : Devices O) : ℕ → Option ℕ
  | 0 => none
  | n + 1 => if (cdev n).name = none then some n else freeMajor cdev n

/-- A negative major number asks for a free one. -/
def chosenMajor (cdev : Devices O) (major : ℤ) : Option ℕ :=
  if major < 0 then freeMajor cdev 128 else some major.toNat

/-- `dev_register`; `none` for a major number that it asserts against. -/
def devRegister (cdev : Devices O) (major : ℤ) (name : Bytes) (ops : O) :
    Option (ℤ × Devices O) :=
  if 128 ≤ major then none
  else
    match chosenMajor cdev major with
    | none => some (- ENXIO, cdev)
    | some m =>
      if (cdev m).name.isSome then some (-EEXIST, cdev)
      else some (m, Function.update cdev m ⟨some name, ops⟩)

/-- The types of file that character devices serve. -/
def isCharacter (mode : ℕ) : Bool := mode &&& S_IFMT = S_IFCHR ∨ mode &&& S_IFMT = S_IFIFO

/-- The operations registered for a major number. -/
def registered (cdev : Devices O) (mode major : ℕ) : O :=
  if isCharacter mode ∧ major < 128 ∧ (cdev major).name.isSome then (cdev major).ops else nodev

/-- `_sysio_dev_lookup`. -/
def sysioDevLookup (cdev : Devices O) (mode dev : ℕ) : O :=
  if !isCharacter mode then nodev
  else
    let major := SYSIO_MAJOR_DEV dev
    if ¬ major < 128 ∨ (cdev major).name = none then nodev else (cdev major).ops

theorem sysioDevLookup_eq (cdev : Devices O) (mode dev : ℕ) :
    sysioDevLookup nodev cdev mode dev = registered nodev cdev mode (SYSIO_MAJOR_DEV dev) := by
  unfold sysioDevLookup registered
  by_cases character : isCharacter mode
  · by_cases small : SYSIO_MAJOR_DEV dev < 128
    · cases name : (cdev (SYSIO_MAJOR_DEV dev)).name <;> simp [character, small, name]
    · simp [small]
  · simp [character]

theorem freeMajor_some {cdev : Devices O} {n m : ℕ} (h : freeMajor cdev n = some m) :
    m < n ∧ (cdev m).name = none := by
  induction n with
  | zero => cases h
  | succ n ih =>
    rw [freeMajor] at h
    by_cases free : (cdev n).name = none
    · rw [if_pos free] at h
      obtain rfl := Option.some.inj h
      exact ⟨Nat.lt_succ_self n, free⟩
    · rw [if_neg free] at h
      obtain ⟨less, unnamed⟩ := ih h
      exact ⟨Nat.lt_succ_of_lt less, unnamed⟩

/-- What is registered under a major number serves it from then on, and the others are as they
were. -/
theorem devRegister_serves {cdev cdev' : Devices O} {major : ℤ} {name : Bytes} {ops : O} {m : ℕ}
    (run : devRegister cdev major name ops = some ((m : ℤ), cdev')) {mode : ℕ}
    (character : isCharacter mode = true) :
    registered nodev cdev' mode m = ops ∧
      ∀ n, n ≠ m → registered nodev cdev' mode n = registered nodev cdev mode n := by
  unfold devRegister at run
  split_ifs at run with large
  cases chosen : chosenMajor cdev major with
  | none =>
    rw [chosen] at run
    have negative : (m : ℤ) = - ENXIO := (congrArg Prod.fst (Option.some.inj run)).symm
    unfold ENXIO at negative
    omega
  | some k =>
    rw [chosen] at run
    dsimp only at run
    have small : k < 128 := by
      unfold chosenMajor at chosen
      by_cases dynamic : major < 0
      · rw [if_pos dynamic] at chosen
        exact (freeMajor_some chosen).1
      · rw [if_neg dynamic] at chosen
        have := Option.some.inj chosen
        omega
    split_ifs at run with taken
    · have negative : (m : ℤ) = -EEXIST := (congrArg Prod.fst (Option.some.inj run)).symm
      unfold EEXIST at negative
      omega
    · obtain ⟨same, rfl⟩ := Prod.mk.inj (Option.some.inj run)
      obtain rfl : k = m := by omega
      constructor
      · unfold registered
        rw [Function.update_self, if_pos ⟨character, small, rfl⟩]
      · intro n other
        unfold registered
        rw [Function.update_of_ne other]

end Tables

section Numbers

variable {S : Type} {a b : Bytes} {major minor : ℕ}

theorem plus_stops : Stops PLUS := ⟨by decide, by decide⟩

theorem convert_plain {α : Type} (value : α) (rest : Bytes) (p : Process S) :
    convert ⟨value, rest, false⟩ p = .ok ((value, rest), p) := rfl

/-- The boot parser puts the major number above the 16 bits of the minor one. -/
theorem parseMm_spelled (first : Spells a major) (second : Spells b minor)
    (high : major ≤ USHRT_MAX) (low : minor ≤ USHRT_MAX) (p : Process S) :
    parseMm (a ++ PLUS :: b) p = .ok (some (major <<< 16 ||| (minor &&& 0xffff)), p) := by
  have whole : strtoul (a ++ PLUS :: b) = ⟨major, PLUS :: b, false⟩ := by
    rw [strtoul_append plus_stops first.1, first.2]
    rfl
  unfold parseMm
  rw [whole, bind_run (convert_plain major (PLUS :: b) p)]
  dsimp only
  rw [if_neg (by simp [Nat.not_lt.mpr high]), List.tail_cons, second.2,
    bind_run (convert_plain minor [] p)]
  dsimp only
  rw [if_neg (by simp [Nat.not_lt.mpr low])]
  rfl

theorem packed_major (small : minor < 256) :
    SYSIO_MAJOR_DEV (major <<< 16 ||| (minor &&& 0xffff)) = 0 := by
  have low : (minor &&& 0xffff) >>> 8 = 0 := by
    have bound : minor &&& 0xffff ≤ minor := Nat.and_le_left
    rw [Nat.shiftRight_eq_div_pow]
    exact Nat.div_eq_of_lt (by omega)
  have high : (major <<< 16) >>> 8 = major * 256 := by
    rw [Nat.shiftLeft_eq, Nat.shiftRight_eq_div_pow]
    omega
  have mask : 0xff = 2 ^ 8 - 1 := by norm_num
  unfold SYSIO_MAJOR_DEV
  rw [Nat.shiftRight_or_distrib, low, high, Nat.or_zero, mask, Nat.and_two_pow_sub_one_eq_mod]
  omega

/-- The packing of dev.h and its unpacking belong together. -/
theorem mkdev_decodes (high : major < 256) (low : minor < 256) :
    SYSIO_MAJOR_DEV (SYSIO_MKDEV major minor) = major ∧
      SYSIO_MINOR_DEV (SYSIO_MKDEV major minor) = minor := by
  have mask : 0xff = 2 ^ 8 - 1 := by norm_num
  have first : major &&& 0xff = major := by
    rw [mask, Nat.and_two_pow_sub_one_eq_mod, Nat.mod_eq_of_lt high]
  have second : minor &&& 0xff = minor := by
    rw [mask, Nat.and_two_pow_sub_one_eq_mod, Nat.mod_eq_of_lt low]
  have under : minor >>> 8 = 0 := by
    rw [Nat.shiftRight_eq_div_pow]
    exact Nat.div_eq_of_lt low
  have cleared : (major <<< 8) &&& 0xff = 0 := by
    rw [mask, Nat.and_two_pow_sub_one_eq_mod, Nat.shiftLeft_eq]
    omega
  unfold SYSIO_MAJOR_DEV SYSIO_MINOR_DEV SYSIO_MKDEV
  rw [first, second]
  constructor
  · rw [Nat.shiftRight_or_distrib, under, Nat.or_zero, Nat.shiftLeft_shiftRight, first]
  · rw [Nat.and_or_distrib_right, cleared, Nat.zero_or, second]

/-- The parser packs a major number 0 as dev.h does. -/
theorem packed_zero (small : minor < 256) :
    0 <<< 16 ||| (minor &&& 0xffff) = SYSIO_MKDEV 0 minor := by
  have word : 0xffff = 2 ^ 16 - 1 := by norm_num
  have mask : 0xff = 2 ^ 8 - 1 := by norm_num
  unfold SYSIO_MKDEV
  rw [word, mask, Nat.and_two_pow_sub_one_eq_mod, Nat.and_two_pow_sub_one_eq_mod,
    Nat.and_two_pow_sub_one_eq_mod, Nat.mod_eq_of_lt small, Nat.mod_eq_of_lt (by omega)]
  simp

end Numbers

/-- The device number that the text stands for is taken apart into the numbers it was written with,
and what `creat` makes of it is served by what is registered for the major one. -/
structure Decodes (a b : Bytes) (major minor : ℕ) : Prop where
  numbers : ∀ {S : Type} (p q : Process S) dev, parseMm (a ++ PLUS :: b) p = .ok (some dev, q) →
    SYSIO_MAJOR_DEV dev = major ∧ SYSIO_MINOR_DEV dev = minor
  served : ∀ {S O : Type} (nodev : O) cdev ft perms (p q : Process S) mode dev,
    creation ft perms (some (a ++ PLUS :: b)) p = .ok (some (.node mode dev), q) →
    sysioDevLookup nodev cdev mode dev = registered nodev cdev mode major

/-- A node that `creat` makes has the device number that the parser reads. -/
theorem creation_parses {S : Type} {ft mm : Bytes} {perms mode dev : ℕ} {p q : Process S}
    (run : creation ft perms (some mm) p = .ok (some (.node mode dev), q)) :
    parseMm mm p = .ok (some dev, q) := by
  have one : ∀ fmt, (do
      let dev ← device (some mm)
      return dev.map (Creation.node fmt) : Running S (Option Creation)) p =
        .ok (some (.node mode dev), q) → parseMm mm p = .ok (some dev, q) := by
    intro fmt run
    obtain ⟨read, t, parsed, rest⟩ := bind_ok.mp run
    obtain ⟨made, rfl⟩ := pure_ok.mp rest
    cases read with
    | none => cases made
    | some d =>
      cases made
      exact parsed
  unfold creation at run
  split_ifs at run with dir chr blk file
  · cases run
  · exact one _ run
  · exact one _ run
  · cases run
  · cases run

/-- Device numbers decode as they were specified only where the major number is 0. -/
theorem device_numbers {a b : Bytes} {major minor : ℕ} (first : Spells a major)
    (second : Spells b minor) (high : major < 256) (low : minor < 256) :
    Decodes a b major minor ↔ major = 0 := by
  have parsed : ∀ {S : Type} (p : Process S), parseMm (a ++ PLUS :: b) p =
      .ok (some (major <<< 16 ||| (minor &&& 0xffff)), p) := fun p =>
    parseMm_spelled first second (by unfold USHRT_MAX; omega) (by unfold USHRT_MAX; omega) p
  constructor
  · intro decodes
    have decoded := (decodes.numbers ⟨0, ()⟩ _ _ (parsed ⟨0, ()⟩)).1
    rw [packed_major low] at decoded
    exact decoded.symm
  · rintro rfl
    have numbers : ∀ {S : Type} (p q : Process S) dev,
        parseMm (a ++ PLUS :: b) p = .ok (some dev, q) →
        SYSIO_MAJOR_DEV dev = 0 ∧ SYSIO_MINOR_DEV dev = minor := by
      intro S p q dev run
      obtain ⟨same, -⟩ := Prod.mk.inj (Except.ok.inj (run.symm.trans (parsed p)))
      rw [Option.some.inj same, packed_zero low]
      exact mkdev_decodes (by decide) low
    constructor
    · exact numbers
    · intro S O nodev cdev ft perms p q mode dev run
      rw [sysioDevLookup_eq, (numbers p q dev (creation_parses run)).1]

/-- A character node `0+3` is served by the first device that asks for major number 0. -/
theorem device_numbers_zero : Decodes [48] [51] 0 3 ∧
    ∃ cdev, devRegister (sysioDevInit 7) 0 [110] 9 = some (0, cdev) ∧
      sysioDevLookup 7 cdev (S_IFCHR ||| 0o644) 3 = 9 := by
  have decodes : Decodes [48] [51] 0 3 :=
    (device_numbers ⟨by decide, by decide⟩ ⟨by decide, by decide⟩ (by decide) (by decide)).mpr rfl
  refine ⟨decodes, _, rfl, ?_⟩
  have served := decodes.served 7 (Function.update (sysioDevInit 7) 0 ⟨some [110], 9⟩) [99, 104, 114]
    0o644 ⟨0, ()⟩ ⟨0, ()⟩ (S_IFCHR ||| 0o644) 3 rfl
  apply served.trans
  have registering : devRegister (sysioDevInit 7) 0 [110] 9 =
      some (((0 : ℕ) : ℤ), Function.update (sysioDevInit 7) 0 ⟨some [110], 9⟩) := rfl
  exact (devRegister_serves 7 registering rfl).1

/-- `5+3`. -/
theorem major_lost : ¬ Decodes [53] [51] 5 3 := by
  intro decodes
  have decoded := (decodes.numbers ⟨0, ()⟩ ⟨0, ()⟩ 0x50003 (by rfl)).1
  exact absurd decoded (by decide)

end DeviceNumbers
