import LogCodec.Message.Decoding
import LogCodec.Packing.InPlace

/-!
# `LogCodec.Message.InPlace`: decoding a message into a buffer

The text of a message is written piece by piece at the end of a buffer.  The logtype is read twice: once to count its
places, before anything is written, and once to fill them.  An error in the second reading finds text in the buffer
already, and the buffer is cut back to what it held.

## Contents
- `fillInPlace`, which fills the places of a list of elements.
- `writeMessage`, both readings, and `decodeInPlace`, which cuts the buffer back after an error by `Written.cutBack`.
-/

namespace LogCodec

/-- Cuts a buffer back to what it held, if an error came after that. -/
def Written.cutBack {ε : Type} (held : Bytes) (written : Written ε) : Written ε :=
  match written.failure with
  | some e => ⟨written.buffer.take held.length, some e⟩
  | none => written

/-- Writes elements behind what a buffer holds, with the given values in their places.  After an error the buffer has
what was written before it. -/
def fillInPlace (width : Width) (shortage : VariableGroup → DecodeError) :
    Bytes → List Element → List Bytes → List Int64 → Option (Written DecodeError)
  | buffer, [], _, _ => some ⟨buffer, none⟩
  | buffer, .text run :: rest, values, numbers => fillInPlace width shortage (buffer ++ run) rest values numbers
  | buffer, .variable .dictionary :: rest, value :: values, numbers =>
    fillInPlace width shortage (buffer ++ value) rest values numbers
  | buffer, .variable .dictionary :: _, [], _ => some ⟨buffer, some (shortage .dictionary)⟩
  | buffer, .variable (.number kind) :: rest, values, number :: numbers => do
    let written ← width.renderInPlace kind buffer number
    match written.failure with
    | some e => return ⟨written.buffer, some e⟩
    | none => fillInPlace width shortage written.buffer rest values numbers
  | buffer, .variable (.number _) :: _, _, [] => some ⟨buffer, some (shortage .numbers)⟩

/-- Writes a message behind what a buffer holds, once its places have been counted. -/
def writeMessage (width : Width) (held logtype : Bytes) (values : List Bytes) (numbers : List Int64) :
    Option (Written DecodeError) :=
  match Logtype.counts logtype with
  | .error e => some ⟨held, some e⟩
  | .ok counts =>
    match counts.check values.length numbers.length with
    | .error e => some ⟨held, some e⟩
    | .ok () => do
      let scan := Logtype.elements logtype
      let written ← fillInPlace width (fun
        | .dictionary => .countMismatch .dictionary counts.dictionary values.length
        | .numbers => .tooFewNumbers numbers.length) held scan.items values numbers
      -- An error of the reading stands behind the elements that were read.
      return { written with failure := written.failure.or scan.failure }

/-- Writes a message behind what a buffer holds, and cuts the buffer back if that fails. -/
def decodeInPlace (width : Width) (held logtype : Bytes) (values : List Bytes) (numbers : List Int64) :
    Option (Written DecodeError) :=
  (writeMessage width held logtype values numbers).map (Written.cutBack held)

end LogCodec
