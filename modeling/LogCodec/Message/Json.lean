import LogCodec.FlatBytes.Json
import LogCodec.Message

/-!
# `LogCodec.Message.Json`: encoded messages as JSON

The logtype is an array of bytes under `logtype`, the dictionary values stand under `dictionary_vars`, and the packed
numbers are an array of integers under `encoded_vars`.  Other fields are ignored.
-/

namespace LogCodec.EncodedMessage

/-- The fields read so far. -/
structure Fields where
  logtype : Option Bytes
  dictionary : Option FlatBytes
  numbers : Option (List Int64)

/-- Takes in one field. -/
def Fields.put (held : Fields) (name : String) : Json.Reader Fields :=
  if name = "logtype" then
    Json.once held.logtype (Json.list Json.byte) fun logtype => { held with logtype := some logtype }
  else if name = "dictionary_vars" then
    Json.once held.dictionary FlatBytes.ofTree fun dictionary => { held with dictionary := some dictionary }
  else if name = "encoded_vars" then
    Json.once held.numbers (Json.list Json.int64) fun numbers => { held with numbers := some numbers }
  else Json.skip held

/-- Reads a message; its parts are compared as soon as all of them are there. -/
def ofTree : Json.Reader EncodedMessage := fun tree => do
  let fields ← Json.fields ["logtype", "dictionary_vars", "encoded_vars"] Fields.put ⟨none, none, none⟩ tree
  let logtype ← Json.required fields.logtype
  let dictionary ← Json.required fields.dictionary
  let numbers ← Json.required fields.numbers
  (ofParts logtype dictionary numbers).mapError .parts

/-- The message that a JSON text describes. -/
def ofJson (text : String) : Except ReadError EncodedMessage := Json.ofText ofTree text

/-- A message as JSON text. -/
def toJson (m : EncodedMessage) : String :=
  Json.writeObject
    [("logtype", Json.writeBytes m.logtype),
     ("dictionary_vars", m.dictionary.toJson),
     ("encoded_vars", Json.writeArray (m.numbers.map fun number => toString number.toInt))]

end LogCodec.EncodedMessage
