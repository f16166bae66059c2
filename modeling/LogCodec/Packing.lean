import LogCodec.DecodeError
import LogCodec.Misuse
import LogCodec.Packing.Decimal
import LogCodec.Placeholder

/-!
# `LogCodec.Packing`: tokens as packed numbers

A variable token that spells an integer or a decimal which fits the width is packed into a word; the word and its
kind give the token back.  Any other token is left for the dictionary.

## Contents
- `Width.packInteger`, `Width.packDecimal` and `Width.pack`: from tokens to words.
- `Width.renderInteger`, `Width.renderDecimal` and `Width.render`: from words to tokens.
-/

namespace LogCodec

/-- A packed number with its kind. -/
abbrev Packed := NumberKind × Int64

namespace Width

/-! ## From tokens to words -/

/-- The most bytes that an integer of some width takes: a minus sign and nineteen digits. -/
def maxIntegerLength : Nat := 20

/-- Packs a token that spells an integer within the range of the width.  A token that is too long for that is not
read. -/
def packInteger (width : Width) (token : Bytes) : Option Int64 :=
  if maxIntegerLength < token.length then none
  else
    match Bytes.toInt? token with
    | some value => if width.Holds value then some (Int64.ofInt value) else none
    | none => none

/-- Packs a token that spells a decimal whose fields have room in the width.  A token that has more bytes than the most
digits, a minus sign and the point is not read. -/
def packDecimal (width : Width) (token : Bytes) : Option Int64 :=
  if width.layout.maxDigits + 2 < token.length then none
  else
    match Decimal.ofToken? token with
    | some d => if d.Fits width.layout then some (width.ofBits (d.toBits width.layout)) else none
    | none => none

/-- No integer within the range of a width is too long to be read. -/
theorem packInteger_eq_some_iff {width : Width} {token : Bytes} {word : Int64} :
    width.packInteger token = some word ↔
      ∃ value, Bytes.toInt? token = some value ∧ width.Holds value ∧ word = Int64.ofInt value := by
  unfold packInteger
  constructor
  · intro h
    split at h
    · cases h
    · split at h
      · next value hvalue =>
        split at h
        · next hholds => cases h; exact ⟨value, hvalue, hholds, rfl⟩
        · cases h
      · cases h
  · rintro ⟨value, hvalue, hholds, rfl⟩
    have hshort : ¬ maxIntegerLength < token.length := by
      intro hlong
      simp only [maxIntegerLength] at hlong
      have hpow := Bytes.pow_le_natAbs_of_toInt? hvalue (by omega)
      have hdigits : Nat.pow 10 19 ≤ Nat.pow 10 (token.length - 2) := Nat.pow_le_pow_right (by omega) (by omega)
      have hbig : 10000000000000000000 ≤ value.natAbs := Nat.le_trans hdigits hpow
      have hrange : -0x8000000000000000 ≤ value ∧ value < 0x8000000000000000 := by
        cases width with
        | eight => exact hholds
        | four =>
          have hhalf : (Nat.pow 2 (four.bits - 1) : Int) = 0x80000000 := rfl
          obtain ⟨hlow, hhigh⟩ := hholds
          rw [hhalf] at hlow hhigh
          omega
      omega
    simp [hshort, hvalue, hholds]

/-- No decimal that has room in a width is too long to be read. -/
theorem packDecimal_eq_some_iff {width : Width} {token : Bytes} {word : Int64} :
    width.packDecimal token = some word ↔
      ∃ d, Decimal.ofToken? token = some d ∧ d.Fits width.layout ∧ word = width.ofBits (d.toBits width.layout) := by
  unfold packDecimal
  constructor
  · intro h
    split at h
    · cases h
    · split at h
      · next d hd =>
        split at h
        · next hfits => cases h; exact ⟨d, hd, hfits, rfl⟩
        · cases h
      · cases h
  · rintro ⟨d, hd, hfits, rfl⟩
    have hshort : ¬ width.layout.maxDigits + 2 < token.length := by
      have := Decimal.length_le_of_ofToken? hd
      have := hfits.1
      omega
    simp [hshort, hd, hfits]

/-- Packs a token that spells a number which fits the width. -/
def pack (width : Width) (token : Bytes) : Option Packed :=
  match width.packDecimal token with
  | some value => some (.float, value)
  | none => (width.packInteger token).map fun value => (.integer, value)

/-! ## From words to tokens -/

/-- Refuses a word outside the range of the width. -/
def check (width : Width) (value : Int64) : Except DecodeError Unit :=
  if width.Holds value.toInt then .ok () else .error (.outOfRange value)

/-- The text of a packed integer. -/
def renderInteger (width : Width) (value : Int64) : Except DecodeError Bytes := do
  width.check value
  return Bytes.ofInt value.toInt

/-- The text of a packed decimal. -/
def renderDecimal (width : Width) (value : Int64) : Except DecodeError Bytes := do
  width.check value
  let raw := width.bitsOf value
  -- Not every bit pattern comes from a decimal: the point may lie outside the digits.
  let d := Decimal.ofBits width.layout raw
  if d.Sound then return d.text else throw (.corruptDecimal raw)

/-- The text of a packed number. -/
def render (width : Width) : NumberKind → Int64 → Except DecodeError Bytes
  | .integer => width.renderInteger
  | .float => width.renderDecimal

end Width

/-- The kind of a packed number that is to be rendered; dictionary values are not. -/
def Placeholder.rendered : Placeholder → Except Misuse NumberKind
  | .number kind => .ok kind
  | .dictionary => .error .dictionaryRendered

end LogCodec
