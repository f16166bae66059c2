import LogCodec.Packing
import LogCodec.Written

/-!
# `LogCodec.Packing.InPlace`: rendering a packed number into a buffer

A packed number is rendered at the end of a buffer that already holds something.  For a decimal the buffer is made as
long as its text needs, with zeros for the digits; the point is set, and the digits are written around it from the
right.  Whether a word is a decimal shows only at the end, when digits are left that have no place.  Then the buffer is
cut back to what it held.

A position outside the buffer has no result here, so that rendering has one only if every position lies within it.

## Contents
- `Bytes.set?` and `Bytes.back?`, positions that are checked.
- `Decimal.writeDigits`, the loop over the digits.
- `Width.renderDecimalInPlace` and `Width.renderInPlace`.
-/

namespace LogCodec

namespace Bytes

/-- A byte string with another byte at a position, if it reaches that far. -/
def set? (bytes : Bytes) (position : Nat) (b : UInt8) : Option Bytes :=
  if position < bytes.length then some (bytes.set position b) else none

/-- The position a number of bytes before another, if there are so many. -/
def back? (position count : Nat) : Option Nat :=
  if count ≤ position then some (position - count) else none

end Bytes

/-- The number in some bits of a word, from a position on. -/
def Word.field (word : UInt64) (start size : Nat) : UInt64 :=
  (word >>> UInt64.ofNat start) &&& ((1 <<< UInt64.ofNat size) - 1)

/-- Writes digits in front of a position, the last one first, and passes over the point.  It stops when no digits are
left or when it comes to the body's start; what is returned besides the buffer are the digits that are left then. -/
def Decimal.writeDigits (body point : Nat) : (position : Nat) → (digits : Nat) → Bytes → Option (Bytes × Nat)
  | 0, digits, buffer => some (buffer, digits)
  | position + 1, digits, buffer =>
    if digits = 0 ∨ position + 1 ≤ body then some (buffer, digits)
    else if position = point then writeDigits body point position digits buffer
    else do
      let buffer ← buffer.set? position (Bytes.digit (digits % 10))
      writeDigits body point position (digits / 10) buffer

namespace Width

/-- The bits of a word that fits the width. -/
def rawWord : Width → Int64 → UInt64
  | eight, value => value.toUInt64
  | four, value => value.toUInt64.toUInt32.toUInt64

/-- Renders a packed decimal at the end of a buffer. -/
def renderDecimalInPlace (width : Width) (held : Bytes) (value : Int64) : Option (Written DecodeError) :=
  match width.check value with
  | .error e => some ⟨held, some e⟩
  | .ok () =>
    let layout := width.layout
    let raw := width.rawWord value
    let places := (Word.field raw 0 layout.fieldBits).toNat + 1
    let count := (Word.field raw layout.fieldBits layout.fieldBits).toNat + 1
    let digits := (Word.field raw (2 * layout.fieldBits) layout.digitBits).toNat
    if count < places then some ⟨held, some (.corruptDecimal raw.toNat)⟩
    else do
      let front := held ++ Bytes.sign (Word.field raw layout.signBit 1 == 1)
      let blank := front ++ List.replicate (count + 1) (Bytes.ofChar '0')
      let point ← Bytes.back? (front.length + count) places
      let pointed ← Bytes.set? blank point (Bytes.ofChar '.')
      let (buffer, left) ← Decimal.writeDigits front.length point pointed.length digits pointed
      if 0 < left then return ⟨buffer.take held.length, some (.corruptDecimal raw.toNat)⟩
      else return ⟨buffer, none⟩

/-- Renders a packed number at the end of a buffer. -/
def renderInPlace (width : Width) : NumberKind → Bytes → Int64 → Option (Written DecodeError)
  | .integer, held, value =>
    match width.check value with
    | .error e => some ⟨held, some e⟩
    | .ok () => some ⟨held ++ Bytes.ofInt value.toInt, none⟩
  | .float, held, value => width.renderDecimalInPlace held value

end Width

end LogCodec
