import Mathlib.Algebra.Order.Ring.Int
import Mathlib.Data.List.TakeWhile
import Mathlib.Data.Nat.Notation

/-! Integer numerals in text, as the conversions of the C library read them: white space, a sign, a
prefix that gives the base, digits. Longs have 64 bits. -/
namespace Numerals

abbrev Chars := List UInt8

def MINUS : UInt8 := 45
def PLUS : UInt8 := 43
def ZERO : UInt8 := 48

def LONG_MAX : ℤ := 2 ^ 63 - 1
def LONG_MIN : ℤ := -2 ^ 63
def ULONG_MAX : ℕ := 2 ^ 64 - 1

/-- `isspace`. -/
def isSpace (c : UInt8) : Bool := c = 32 ∨ 9 ≤ c.toNat ∧ c.toNat ≤ 13

def digitValue (c : UInt8) : Option ℕ :=
  if 48 ≤ c.toNat ∧ c.toNat ≤ 57 then some (c.toNat - 48)
  else if 97 ≤ c.toNat ∧ c.toNat ≤ 122 then some (c.toNat - 87)
  else if 65 ≤ c.toNat ∧ c.toNat ≤ 90 then some (c.toNat - 55)
  else none

def isDigit (base : ℕ) (c : UInt8) : Bool := (digitValue c).any (· < base)

def magnitude (base : ℕ) (digits : Chars) : ℕ :=
  digits.foldl (fun n c => n * base + (digitValue c).getD 0) 0

/-- The sign in front of a numeral, and what is behind it. -/
def splitSign : Chars → Bool × Chars
  | [] => (false, [])
  | c :: str => if c = MINUS then (true, str) else if c = PLUS then (false, str) else (false, c :: str)

/-- Whether the digits of a hexadecimal numeral follow. -/
def isHex : Chars → Bool
  | z :: x :: h :: _ => z = ZERO ∧ (x = 120 ∨ x = 88) ∧ isDigit 16 h
  | _ => false

/-- The base that a prefix gives, and the digits from where they begin. -/
def splitBase (str : Chars) : ℕ × Chars :=
  if isHex str then (16, str.drop 2)
  else if str.head? = some ZERO then (8, str)
  else (10, str)

/-- The digits of a numeral, its base and its sign. -/
structure Numeral where
  negative : Bool
  base : ℕ
  digits : Chars
  deriving DecidableEq, Repr

/-- The digits at the front of a string; a numeral has at least one. -/
def readDigits (negative : Bool) (base : ℕ) (str : Chars) : Option (Numeral × Chars) :=
  if str.takeWhile (isDigit base) = [] then none
  else some (⟨negative, base, str.takeWhile (isDigit base)⟩,
    str.drop (str.takeWhile (isDigit base)).length)

def readBased (signed : Bool × Chars) : Option (Numeral × Chars) :=
  readDigits signed.1 (splitBase signed.2).1 (splitBase signed.2).2

/-- The numeral a string begins with and the rest of the string, if there is one. -/
def readNumeral (str : Chars) : Option (Numeral × Chars) :=
  readBased (splitSign (str.dropWhile isSpace))

/-- What a conversion delivers: its value, the text it leaves and whether the value is out of
range. -/
structure Converted (α : Type) where
  value : α
  rest : Chars
  range : Bool
  deriving DecidableEq, Repr

def signedValue (n : Numeral) : ℤ :=
  if n.negative then -magnitude n.base n.digits else magnitude n.base n.digits

/-- `strtol`, the base taken from the numeral. -/
def strtol (str : Chars) : Converted ℤ :=
  match readNumeral str with
  | none => ⟨0, str, false⟩
  | some (n, rest) =>
    if LONG_MAX < signedValue n then ⟨LONG_MAX, rest, true⟩
    else if signedValue n < LONG_MIN then ⟨LONG_MIN, rest, true⟩
    else ⟨signedValue n, rest, false⟩

/-- `strtoul`, the base taken from the numeral; a negative value wraps around. -/
def strtoul (str : Chars) : Converted ℕ :=
  match readNumeral str with
  | none => ⟨0, str, false⟩
  | some (n, rest) =>
    if ULONG_MAX < magnitude n.base n.digits then ⟨ULONG_MAX, rest, true⟩
    else ⟨(signedValue n % 2 ^ 64).toNat, rest, false⟩

/-- The string is a numeral with the value, as `strtoul` has it, and nothing behind it. -/
def Spells (str : Chars) (value : ℕ) : Prop :=
  (readNumeral str).isSome ∧ strtoul str = ⟨value, [], false⟩

section Reading

variable {str rest : Chars} {c : UInt8}

/-- A character that stands in no numeral. -/
structure Stops (c : UInt8) : Prop where
  space : isSpace c = false
  digit : digitValue c = none

theorem Stops.isDigit (stops : Stops c) (base : ℕ) : isDigit base c = false := by
  unfold Numerals.isDigit
  rw [stops.digit]
  rfl

theorem takeWhile_stop {test : UInt8 → Bool} (stop : test c = false) (str rest : Chars) :
    (str ++ c :: rest).takeWhile test = str.takeWhile test := by
  induction str with
  | nil => exact List.takeWhile_cons_of_neg (by simp [stop])
  | cons d str ih =>
    rw [List.cons_append]
    by_cases hd : test d
    · rw [List.takeWhile_cons_of_pos hd, List.takeWhile_cons_of_pos hd, ih]
    · rw [List.takeWhile_cons_of_neg hd, List.takeWhile_cons_of_neg hd]

theorem dropWhile_stop {test : UInt8 → Bool} (stop : test c = false) (str rest : Chars) :
    (str ++ c :: rest).dropWhile test = str.dropWhile test ++ c :: rest := by
  induction str with
  | nil => exact List.dropWhile_cons_of_neg (by simp [stop])
  | cons d str ih =>
    rw [List.cons_append]
    by_cases hd : test d
    · rw [List.dropWhile_cons_of_pos hd, List.dropWhile_cons_of_pos hd, ih]
    · rw [List.dropWhile_cons_of_neg hd, List.dropWhile_cons_of_neg hd, List.cons_append]

theorem splitSign_append (full : str ≠ []) (tail : Chars) :
    splitSign (str ++ tail) = ((splitSign str).1, (splitSign str).2 ++ tail) := by
  cases str with
  | nil => exact absurd rfl full
  | cons d str =>
    rw [List.cons_append, splitSign, splitSign]
    split_ifs
    · rfl
    · rfl
    · rfl

theorem isHex_append (stops : Stops c) (str rest : Chars) :
    isHex (str ++ c :: rest) = isHex str := by
  have letters : ¬ (c = 120 ∨ c = 88) := by
    rintro (same | same)
    · have none := stops.digit
      rw [same] at none
      exact absurd none (by decide)
    · have none := stops.digit
      rw [same] at none
      exact absurd none (by decide)
  have hex := stops.isDigit 16
  rcases str with _ | ⟨z, _ | ⟨x, _ | ⟨h, str⟩⟩⟩
  · cases rest with
    | nil => rfl
    | cons x rest =>
      cases rest with
      | nil => rfl
      | cons h rest =>
        have zero : c ≠ ZERO := by
          intro same
          have none := stops.digit
          rw [same] at none
          exact absurd none (by decide)
        simp [isHex, zero]
  · cases rest with
    | nil => rfl
    | cons h rest => simp [isHex, letters]
  · simp [isHex, hex]
  · rfl

theorem isHex_drop (hex : isHex str = true) : 2 ≤ str.length := by
  rcases str with _ | ⟨z, _ | ⟨x, str⟩⟩
  · cases hex
  · cases hex
  · exact Nat.le_add_left 2 _

theorem splitBase_append (stops : Stops c) (str rest : Chars) (full : str ≠ []) :
    splitBase (str ++ c :: rest) = ((splitBase str).1, (splitBase str).2 ++ c :: rest) := by
  have first : (str ++ c :: rest).head? = str.head? := by
    cases str with
    | nil => exact absurd rfl full
    | cons d str => rfl
  unfold splitBase
  rw [isHex_append stops str rest, first]
  split_ifs with hex
  · rw [List.drop_append_of_le_length (isHex_drop hex)]
  · rfl
  · rfl

theorem readDigits_append (stops : Stops c) {negative : Bool} {base : ℕ} {n : Numeral}
    {left : Chars} (read : readDigits negative base str = some (n, left)) (rest : Chars) :
    readDigits negative base (str ++ c :: rest) = some (n, left ++ c :: rest) := by
  unfold readDigits at read ⊢
  rw [takeWhile_stop (stops.isDigit base)]
  split_ifs at read ⊢ with empty
  obtain ⟨rfl, rfl⟩ := Prod.mk.inj (Option.some.inj read)
  have within := (List.takeWhile_prefix (isDigit base) (l := str)).length_le
  rw [List.drop_append_of_le_length within]

/-- A numeral is read up to a character that stands in none. -/
theorem readNumeral_append (stops : Stops c) {n : Numeral} {left : Chars}
    (read : readNumeral str = some (n, left)) (rest : Chars) :
    readNumeral (str ++ c :: rest) = some (n, left ++ c :: rest) := by
  have blank : str.dropWhile isSpace ≠ [] := by
    intro empty
    rw [readNumeral, empty] at read
    cases read
  have unsigned : (splitSign (str.dropWhile isSpace)).2 ≠ [] := by
    intro empty
    rw [readNumeral, readBased, empty] at read
    cases read
  rw [readNumeral, dropWhile_stop stops.space, splitSign_append blank, readBased,
    splitBase_append stops _ _ unsigned]
  exact readDigits_append stops read rest

theorem strtoul_append (stops : Stops c) (read : (readNumeral str).isSome) (rest : Chars) :
    strtoul (str ++ c :: rest) =
      { strtoul str with rest := (strtoul str).rest ++ c :: rest } := by
  obtain ⟨⟨n, left⟩, read⟩ := Option.isSome_iff_exists.mp read
  unfold strtoul
  rw [readNumeral_append stops read, read]
  dsimp only
  split_ifs
  · rfl
  · rfl

/-- Where `strtol` reads a value that is not negative, `strtoul` reads the same. -/
theorem strtoul_of_strtol (low : 0 ≤ (strtol str).value) (high : (strtol str).value < LONG_MAX) :
    strtoul str = ⟨(strtol str).value.toNat, (strtol str).rest, false⟩ ∧
      (strtol str).range = false := by
  unfold strtoul strtol at *
  cases read : readNumeral str with
  | none => exact ⟨rfl, rfl⟩
  | some found =>
    obtain ⟨n, left⟩ := found
    rw [read] at low high
    dsimp only at low high ⊢
    by_cases large : LONG_MAX < signedValue n
    · rw [if_pos large] at high
      exact (Int.lt_irrefl LONG_MAX high).elim
    rw [if_neg large] at low high ⊢
    by_cases small : signedValue n < LONG_MIN
    · rw [if_pos small] at low
      have negative : LONG_MIN < 0 := by decide
      exact (Int.not_lt.mpr low negative).elim
    rw [if_neg small] at low high ⊢
    dsimp only at low high ⊢
    have size : (magnitude n.base n.digits : ℤ) = signedValue n := by
      unfold signedValue at low ⊢
      split_ifs at low ⊢ with negative
      · omega
      · rfl
    have fits : ¬ ULONG_MAX < magnitude n.base n.digits := by
      unfold LONG_MAX at high
      unfold ULONG_MAX
      omega
    have wrap : signedValue n % 2 ^ 64 = signedValue n := by
      apply Int.emod_eq_of_lt low
      unfold LONG_MAX at high
      omega
    rw [if_neg fits, wrap]
    exact ⟨rfl, rfl⟩

end Reading

end Numerals
