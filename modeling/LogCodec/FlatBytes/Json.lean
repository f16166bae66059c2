import LogCodec.FlatBytes
import LogCodec.Json.Reader
import LogCodec.Json.Writer

/-!
# `LogCodec.FlatBytes.Json`: stored byte strings as JSON

The buffer is an array of bytes under `bytes`, and the end offsets are an array of numbers under `end_offsets`.  Other
fields are ignored.
-/

namespace LogCodec.FlatBytes

/-- The fields read so far. -/
structure Fields where
  bytes : Option Bytes
  ends : Option (List Nat)
deriving DecidableEq, Repr

/-- Takes in one field. -/
def Fields.put (held : Fields) (name : String) : Json.Reader Fields :=
  if name = "bytes" then
    Json.once held.bytes (Json.list Json.byte) fun bytes => { held with bytes := some bytes }
  else if name = "end_offsets" then
    Json.once held.ends (Json.list (Json.natBelow 0x100000000)) fun ends => { held with ends := some ends }
  else Json.skip held

/-- Reads byte strings; their end offsets are checked as soon as all fields are there. -/
def ofTree : Json.Reader FlatBytes := fun tree => do
  let fields ← Json.fields ["bytes", "end_offsets"] Fields.put ⟨none, none⟩ tree
  let bytes ← Json.required fields.bytes
  let ends ← Json.required fields.ends
  (ofParts bytes ends).mapError .offsets

/-- The byte strings that a JSON text describes. -/
def ofJson (text : String) : Except ReadError FlatBytes := Json.ofText ofTree text

/-- Byte strings as JSON text. -/
def toJson (f : FlatBytes) : String :=
  Json.writeObject
    [("bytes", Json.writeBytes f.bytes), ("end_offsets", Json.writeArray (f.ends.map toString))]

end LogCodec.FlatBytes
