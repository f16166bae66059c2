import LogCodec.Json.Reader
import LogCodec.Json.Writer
import LogCodec.Settings

/-!
# `LogCodec.Settings.Json`: settings as JSON

A missing field has its standard value, so an empty object is a complete text.  A field that is not known is refused.
The width is the string `eight` or `four`, or an object with that one name and `null` under it.
-/

namespace LogCodec

/-- The width with the given name. -/
def Width.ofName (name : String) : Except ReadError Width :=
  if name = Width.eight.name then .ok .eight
  else if name = Width.four.name then .ok .four
  else .error .malformed

/-- Reads a width. -/
def Width.ofTree : Json.Reader Width
  | .text (some name) => Width.ofName name
  | .object [(some name, .null)] true => Width.ofName name
  | _ => .error .malformed

namespace Settings

/-- The fields read so far. -/
structure Fields where
  schemaVersion : Option String
  packingVersion : Option String
  width : Option Width
  maxSubqueries : Option Nat
deriving DecidableEq, Repr

/-- The names of the fields, in their order in text. -/
def fieldNames : List String :=
  ["variables_schema_version", "variable_encoding_methods_version", "width", "max_subqueries"]

/-- Takes in one field. -/
def Fields.put (held : Fields) (name : String) : Json.Reader Fields :=
  if name = "variables_schema_version" then
    Json.once held.schemaVersion Json.text fun version => { held with schemaVersion := some version }
  else if name = "variable_encoding_methods_version" then
    Json.once held.packingVersion Json.text fun version => { held with packingVersion := some version }
  else if name = "width" then
    Json.once held.width Width.ofTree fun width => { held with width := some width }
  else if name = "max_subqueries" then
    Json.once held.maxSubqueries (Json.natBelow 0x10000000000000000) fun limit => { held with maxSubqueries := some limit }
  else fun _ => .error .malformed

/-- Reads settings. -/
def ofTree : Json.Reader Settings := fun tree => do
  let fields ← Json.fields fieldNames Fields.put ⟨none, none, none, none⟩ tree
  return ⟨fields.schemaVersion.getD standard.schemaVersion, fields.packingVersion.getD standard.packingVersion,
    fields.width.getD standard.width, fields.maxSubqueries.getD standard.maxSubqueries⟩

/-- The settings that a JSON text describes. -/
def ofJson (text : String) : Except ReadError Settings := Json.ofText ofTree text

/-- Settings as JSON text. -/
def toJson (s : Settings) : String :=
  Json.writeObject (fieldNames.zip
    [Json.writeText s.schemaVersion, Json.writeText s.packingVersion, Json.writeText s.width.name,
     toString s.maxSubqueries])

end Settings

end LogCodec
