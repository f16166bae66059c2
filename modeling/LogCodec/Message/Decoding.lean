import LogCodec.Message
import LogCodec.Written

/-!
# `LogCodec.Message.Decoding`: from encoded messages to text

The places of a logtype are filled from left to right.  Before any text is made, the number of places is compared with
the number of values; after that only a packed number that cannot be rendered keeps a message from being decoded.

## Contents
- `fill`, which puts values into the places of a list of elements.
- `decode`, for the parts of a message, and `decodeOnto`, which appends the text to a buffer.
-/

namespace LogCodec

/-- The text of elements whose places are filled with the given values.  `shortage` is the error for a place that no
value is left for. -/
def fill (width : Width) (shortage : VariableGroup → DecodeError) :
    List Element → List Bytes → List Int64 → Except DecodeError Bytes
  | [], _, _ => .ok []
  | .text run :: rest, values, numbers => do
    return run ++ (← fill width shortage rest values numbers)
  | .variable .dictionary :: rest, value :: values, numbers => do
    return value ++ (← fill width shortage rest values numbers)
  | .variable .dictionary :: _, [], _ => .error (shortage .dictionary)
  | .variable (.number kind) :: rest, values, number :: numbers => do
    let text ← width.render kind number
    return text ++ (← fill width shortage rest values numbers)
  | .variable (.number _) :: _, _, [] => .error (shortage .numbers)

/-- The text of a message, from its parts. -/
def decode (width : Width) (logtype : Bytes) (values : List Bytes) (numbers : List Int64) :
    Except DecodeError Bytes := do
  let elements ← (Logtype.elements logtype).toExcept
  let counts := Logtype.countElements elements
  counts.check values.length numbers.length
  -- The counts agree, so `fill` never runs short; it only has to say what it would report.
  fill width (fun
    | .dictionary => .countMismatch .dictionary counts.dictionary values.length
    | .numbers => .tooFewNumbers numbers.length) elements values numbers

/-- Appends the text of a message to what a buffer holds. -/
def decodeOnto (held : Bytes) (width : Width) (logtype : Bytes) (values : List Bytes) (numbers : List Int64) :
    Written DecodeError :=
  .append held (decode width logtype values numbers)

/-- The text of an encoded message. -/
def EncodedMessage.decode (m : EncodedMessage) (width : Width) : Except DecodeError Bytes :=
  LogCodec.decode width m.logtype m.dictionary.toList m.numbers

end LogCodec
