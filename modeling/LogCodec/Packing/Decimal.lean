import LogCodec.Packing.Integer

/-!
# `LogCodec.Packing.Decimal`: decimals packed into a word

A decimal is packed as what its text shows: the sign, the digits read as one number, how many digits there are, and
how many of them stand behind the point.  So leading and trailing zeros survive.  From the highest bit to the lowest,
a word holds the sign, the digits, the digit count less one and the number of decimal places less one.

## Contents
- `Decimal`, the fields; `Decimal.ofToken?` reads them, `Decimal.text` writes them.
- `Layout`, the sizes of the fields for a width.
- `Decimal.toBits` and `Decimal.ofBits`, the fields as a bit pattern and back.
-/

namespace LogCodec

/-- What the text of a decimal shows. -/
structure Decimal where
  negative : Bool
  /-- All digits, read as one number. -/
  digits : Nat
  /-- How many digits there are. -/
  count : Nat
  /-- How many digits stand behind the point. -/
  places : Nat
deriving DecidableEq, Repr

/-- The sizes of the packed fields. -/
structure Layout where
  /-- The most digits that can be packed. -/
  maxDigits : Nat
  /-- The bits for the digits. -/
  digitBits : Nat
  /-- The bits for the digit count and for the number of decimal places, each. -/
  fieldBits : Nat
  /-- The bit for the sign. -/
  signBit : Nat
deriving DecidableEq, Repr

/-- The layout of packed decimals. -/
def Width.layout : Width → Layout
  | .eight => ⟨16, 54, 4, 63⟩
  | .four => ⟨8, 25, 3, 31⟩

namespace Decimal

/-- The decimal that a token spells: an optional `-`, then digits and one point that is not last. -/
def ofToken? (token : Bytes) : Option Decimal :=
  let (negative, body) := Bytes.splitSign token
  let whole := body.takeWhile Bytes.isDigit
  match body.dropWhile Bytes.isDigit with
  | [] => none
  | point :: fraction =>
    if point = Bytes.ofChar '.' ∧ fraction ≠ [] ∧ fraction.all Bytes.isDigit then
      some ⟨negative, Bytes.decimalValue (whole ++ fraction), whole.length + fraction.length, fraction.length⟩
    else none

/-- Besides its digits, the token of a decimal has the point and at most a minus sign. -/
theorem length_le_of_ofToken? {token : Bytes} {d : Decimal} (h : ofToken? token = some d) :
    token.length ≤ d.count + 2 := by
  have hsign := Bytes.length_splitSign token
  unfold ofToken? at h
  generalize Bytes.splitSign token = parts at h hsign
  obtain ⟨negative, body⟩ := parts
  simp only at h hsign
  have hbody : body.length =
      (body.takeWhile Bytes.isDigit).length + (body.dropWhile Bytes.isDigit).length := by
    rw [← List.length_append, List.takeWhile_append_dropWhile]
  split at h
  · cases h
  · next point fraction hrest =>
    split at h
    · cases h
      rw [hrest, List.length_cons] at hbody
      simp only
      omega
    · cases h

/-- The text of a decimal. -/
def text (d : Decimal) : Bytes :=
  let digits := Bytes.fixedDecimal d.count d.digits
  Bytes.sign d.negative ++ digits.take (d.count - d.places) ++ Bytes.ofChar '.' :: digits.drop (d.count - d.places)

/-- The fields have room in a packed word. -/
def Fits (d : Decimal) (layout : Layout) : Prop :=
  d.count ≤ layout.maxDigits ∧ d.digits < Nat.pow 2 layout.digitBits

instance (d : Decimal) (layout : Layout) : Decidable (d.Fits layout) :=
  inferInstanceAs (Decidable (_ ∧ _))

/-- The point stands among the digits, and there are no more digits than the count says. -/
def Sound (d : Decimal) : Prop := d.places ≤ d.count ∧ d.digits < Nat.pow 10 d.count

instance (d : Decimal) : Decidable d.Sound := inferInstanceAs (Decidable (_ ∧ _))

/-- The bit pattern of the fields. -/
def toBits (layout : Layout) (d : Decimal) : Nat :=
  d.negative.toNat * Nat.pow 2 layout.signBit + d.digits * Nat.pow 2 (2 * layout.fieldBits) +
    (d.count - 1) * Nat.pow 2 layout.fieldBits + (d.places - 1)

/-- The fields of a bit pattern. -/
def ofBits (layout : Layout) (raw : Nat) : Decimal where
  negative := raw.testBit layout.signBit
  digits := raw / Nat.pow 2 (2 * layout.fieldBits) % Nat.pow 2 layout.digitBits
  count := raw / Nat.pow 2 layout.fieldBits % Nat.pow 2 layout.fieldBits + 1
  places := raw % Nat.pow 2 layout.fieldBits + 1

end Decimal

end LogCodec
