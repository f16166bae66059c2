import LogCodec.Message.Json
import LogCodec.Misuse

/-!
# `LogCodec.Message.Operation`: what a caller does with a message

A caller starts with the empty message.  From then on it appends, starts over, or takes a message that is put together
from parts or read from JSON in place of the one it has.  An operation that fails leaves no message to go on with.

## Contents
- `EncodedMessage.Operation` and `Operation.apply`: a single operation.
- `EncodedMessage.run`: one operation after the other.
-/

namespace LogCodec.EncodedMessage

/-- An operation on a message. -/
inductive Operation where
  /-- Starts over. -/
  | clear
  /-- Appends static text. -/
  | text (text : Bytes)
  /-- Appends a dictionary variable. -/
  | dictionary (value : Bytes)
  /-- Appends a packed number under a placeholder. -/
  | encoded (placeholder : Placeholder) (value : Int64)
  /-- Takes a message from parts.  Readers of other formats hand over such parts. -/
  | parts (logtype dictionary : Bytes) (ends : List UInt32) (numbers : List Int64)
  /-- Takes a message from JSON. -/
  | json (text : String)
deriving DecidableEq

/-- The message after an operation on a message, if the operation succeeds. -/
def Operation.apply : Operation → EncodedMessage → Option EncodedMessage
  | clear, m => some m.clear
  | text bytes, m => some (m.appendText bytes)
  | dictionary value, m =>
    -- The end offset of the value has to fit four bytes.
    if (m.dictionary.bytes ++ value).length < 0x100000000 then some (m.appendDictionary value) else none
  | encoded placeholder value, m => (m.appendEncoded placeholder value).toOption
  | parts logtype bytes ends numbers, _ =>
    match FlatBytes.ofParts bytes (ends.map UInt32.toNat) with
    | .ok values => (ofParts logtype values numbers).toOption
    | .error _ => none
  | json content, _ => (ofJson content).toOption

/-- The message after operations on a message, if all of them succeed. -/
def run (operations : List Operation) (m : EncodedMessage) : Option EncodedMessage :=
  operations.foldlM (fun m operation => operation.apply m) m

end LogCodec.EncodedMessage
