import LogCodec.Packing

/-!
# `LogCodec.Packing.Checked`: packing a token with every step checked

A token is packed in words of the machine, and its digits are added up while it is passed over.  Arithmetic that
overflows, a shift by more places than a word has, a bit that is shifted out and fields that overlap would all give a
wrong word and no sign of it.  Here each of them is a fault, so that packing ends with a word, or with a refusal, only
if none of them happened on the way.

## Contents
- `Halt`, and the steps on words: `Word.exact`, `Word.minus`, `Word.shift` and `Word.join`.
- `Decimal.Pass`, what a pass over a token has found, with `Decimal.Pass.visit` for one byte and `Decimal.scan` for all.
- `Decimal.joinFields`, which puts the fields of a decimal into one word.
- `Width.packDecimalChecked` and `Width.packChecked`.
-/

namespace LogCodec

/-- Why packing a token ends without a word. -/
inductive Halt where
  /-- The token spells no number that fits the width. -/
  | refused
  /-- A step had no result that a word of the machine holds. -/
  | fault
deriving DecidableEq, Repr

namespace Halt

/-- The end of packing when there was no fault. -/
def orRefused {α : Type} : Option α → Except Halt α
  | some a => .ok a
  | none => .error .refused

end Halt

namespace Word

/-- The word of an exact result, unless that overflows. -/
def exact (result : Nat) : Except Halt UInt64 :=
  if result < UInt64.size then .ok (UInt64.ofNat result) else .error .fault

/-- The difference of two counts, unless it is below zero. -/
def minus (a b : Nat) : Except Halt Nat :=
  if b ≤ a then .ok (a - b) else .error .fault

/-- Shifts a word to the left.  There must be as many places in a word, and no bit may be shifted out of it. -/
def shift (word : UInt64) (places : Nat) : Except Halt UInt64 :=
  if places < 64 then exact (word.toNat * Nat.pow 2 places) else .error .fault

/-- Joins two words that have no bit in common. -/
def join (a b : UInt64) : Except Halt UInt64 :=
  if a &&& b = 0 then .ok (a ||| b) else .error .fault

end Word

namespace Decimal

/-- What a pass over the body of a token, which is the token without its sign, has found so far. -/
structure Pass where
  /-- The digits, read as one number. -/
  digits : UInt64
  /-- How many digits there were. -/
  count : Nat
  /-- How many bytes stand behind the point, if there was one. -/
  places : Option Nat
deriving DecidableEq, Repr

/-- Passes over the byte at a position of a body. -/
def Pass.visit (length : Nat) (pass : Pass) (byte : UInt8 × Nat) : Except Halt Pass :=
  if Bytes.isDigit byte.1 then do
    let tens ← Word.exact (pass.digits.toNat * 10)
    let digits ← Word.exact (tens.toNat + Bytes.digitValue byte.1)
    return ⟨digits, pass.count + 1, pass.places⟩
  else if byte.1 = Bytes.ofChar '.' ∧ pass.places = none then do
    let last ← Word.minus length 1
    let places ← Word.minus last byte.2
    return ⟨pass.digits, pass.count, some places⟩
  else .error .refused

/-- Passes over a body from left to right. -/
def scan (body : Bytes) : Except Halt Pass :=
  body.zipIdx.foldlM (Pass.visit body.length) ⟨0, 0, none⟩

/-- Puts the fields of a decimal into one word, the sign in front. -/
def joinFields (layout : Layout) (negative : Bool) (digits : UInt64) (count places : Nat) : Except Halt UInt64 := do
  let sign ← Word.shift (if negative then 1 else 0) layout.signBit
  let digits ← Word.shift digits (2 * layout.fieldBits)
  let packed ← Word.join sign digits
  let count ← Word.exact (← Word.minus count 1)
  let packed ← Word.join packed (← Word.shift count layout.fieldBits)
  Word.join packed (← Word.exact (← Word.minus places 1))

end Decimal

namespace Width

/-- A word as it is kept for a width.  At width four it must fit the lower half, which is then sign-extended. -/
def keep : Width → UInt64 → Except Halt Int64
  | eight, word => .ok word.toInt64
  | four, word => if word.toNat < UInt32.size then .ok word.toUInt32.toInt32.toInt64 else .error .fault

/-- Packs a token that spells a decimal in one pass.  The pass is short: a body that has more bytes than the most digits
and the point is refused beforehand. -/
def packDecimalChecked (width : Width) (token : Bytes) : Except Halt Int64 :=
  let (negative, body) := Bytes.splitSign token
  if width.layout.maxDigits + 1 < body.length then .error .refused
  else do
    let pass ← Decimal.scan body
    let places ← Halt.orRefused (pass.places.filter (0 < ·))
    let bound ← Word.shift 1 width.layout.digitBits
    if pass.count = 0 ∨ bound ≤ pass.digits then .error .refused
    else do
      let packed ← Decimal.joinFields width.layout negative pass.digits pass.count places
      width.keep packed

/-- Packs a token that spells a number which fits the width.  An integer is read exactly and then compared with the
range, so that only a decimal can meet a fault. -/
def packChecked (width : Width) (token : Bytes) : Except Halt Packed :=
  match width.packDecimalChecked token with
  | .ok value => .ok (.float, value)
  | .error .refused => (Halt.orRefused (width.packInteger token)).map fun value => (.integer, value)
  | .error .fault => .error .fault

end Width

end LogCodec
