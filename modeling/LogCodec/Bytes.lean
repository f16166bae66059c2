/-!
# `LogCodec.Bytes`: byte strings, spans and ASCII classes

Everything the codec reads or writes is a byte string.  Messages need not be valid UTF-8, so the character classes
below are classes of bytes and know ASCII only.

## Contents
- `Bytes`, `Span` and the part of a list that a span selects.
- ASCII classes: digits, letters, hexadecimal digits.
- `decimal` and `decimalValue`: a number as decimal digits, and the number that digits stand for.
-/

namespace LogCodec

/-- A byte string. -/
abbrev Bytes := List UInt8

/-- The positions from `start` up to, but not including, `stop`. -/
structure Span where
  start : Nat
  stop : Nat
deriving DecidableEq, Repr

namespace Span

/-- The number of positions in a span. -/
def length (s : Span) : Nat := s.stop - s.start

/-- The part of a list that the span selects. -/
def slice {α : Type} (s : Span) (text : List α) : List α :=
  (text.drop s.start).take s.length

/-- A span lies within a text of the given length and is not reversed. -/
def Fits (s : Span) (length : Nat) : Prop := s.start ≤ s.stop ∧ s.stop ≤ length

instance (s : Span) (length : Nat) : Decidable (s.Fits length) :=
  inferInstanceAs (Decidable (_ ∧ _))

end Span

namespace Bytes

/-- The byte of an ASCII character. -/
def ofChar (c : Char) : UInt8 := UInt8.ofNat c.toNat

/-- The UTF-8 form of a text. -/
def ofString (s : String) : Bytes := s.toUTF8.toList

/-! ## ASCII classes -/

/-- A decimal digit. -/
def isDigit (b : UInt8) : Bool := 0x30 ≤ b && b ≤ 0x39

/-- An uppercase letter. -/
def isUpper (b : UInt8) : Bool := 0x41 ≤ b && b ≤ 0x5A

/-- A lowercase letter. -/
def isLower (b : UInt8) : Bool := 0x61 ≤ b && b ≤ 0x7A

/-- A letter. -/
def isLetter (b : UInt8) : Bool := isUpper b || isLower b

/-- A hexadecimal digit of either case. -/
def isHexDigit (b : UInt8) : Bool :=
  isDigit b || (0x41 ≤ b && b ≤ 0x46) || (0x61 ≤ b && b ≤ 0x66)

/-- A printable ASCII byte, the space included. -/
def isPrintable (b : UInt8) : Bool := 0x20 ≤ b && b ≤ 0x7E

/-! ## Decimal numbers -/

/-- The digit of a number below ten. -/
def digit (n : Nat) : UInt8 := UInt8.ofNat (0x30 + n)

/-- The value of a digit. -/
def digitValue (b : UInt8) : Nat := b.toNat - 0x30

/-- The digits of a number, without leading zeros; zero is `0`. -/
def decimal (n : Nat) : Bytes :=
  if n < 10 then [digit n] else decimal (n / 10) ++ [digit (n % 10)]
termination_by n

/-- The last `count` decimal digits of a number, with leading zeros. -/
def fixedDecimal : (count : Nat) → Nat → Bytes
  | 0, _ => []
  | count + 1, n => fixedDecimal count (n / 10) ++ [digit (n % 10)]

/-- The number that a run of digits stands for. -/
def decimalValue (digits : Bytes) : Nat :=
  digits.foldl (fun value b => 10 * value + digitValue b) 0

theorem mul_pow_le_foldl (value : Nat) (digits : Bytes) :
    value * Nat.pow 10 digits.length ≤ digits.foldl (fun value b => 10 * value + digitValue b) value := by
  induction digits generalizing value with
  | nil => simp
  | cons b rest ih =>
    refine Nat.le_trans ?_ (ih (10 * value + digitValue b))
    rw [List.length_cons, Nat.pow]
    calc value * (Nat.pow 10 rest.length * 10) = 10 * value * Nat.pow 10 rest.length := by ac_rfl
      _ ≤ (10 * value + digitValue b) * Nat.pow 10 rest.length := Nat.mul_le_mul_right _ (by omega)

/-- A number that is written without a leading zero is large if it has many digits. -/
theorem pow_le_decimalValue {b : UInt8} {rest : Bytes} (hb : 0 < digitValue b) :
    Nat.pow 10 rest.length ≤ decimalValue (b :: rest) := by
  have h := mul_pow_le_foldl (10 * 0 + digitValue b) rest
  rw [decimalValue, List.foldl_cons]
  refine Nat.le_trans ?_ h
  exact Nat.le_mul_of_pos_left _ (by omega)

end Bytes

end LogCodec
