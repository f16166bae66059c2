import LogCodec.Text.Quoted

/-!
# `LogCodec.Version`: versions of the rules

The rules for variables and the way in which numbers are packed each have a version, which is known by a name.  There
is one of each; a codec is made for a pair of them.
-/

namespace LogCodec

/-- Why a pair of version names was refused. -/
inductive VersionError where
  | unknownSchema (name : String)
  | unknownPacking (name : String)
deriving DecidableEq, Repr

/-- The wording of a refused version. -/
def VersionError.message : VersionError → String
  | .unknownSchema name => "unsupported variables schema version: " ++ Text.quoted name
  | .unknownPacking name => "unsupported variable encoding methods version: " ++ Text.quoted name

/-- A version of the rules that tell variables from static text. -/
inductive SchemaVersion where
  | v2
deriving DecidableEq, Repr

/-- A version of the way in which numbers are packed. -/
inductive PackingVersion where
  | v1
deriving DecidableEq, Repr

namespace SchemaVersion

/-- The name of a version. -/
def name : SchemaVersion → String
  | v2 => "com.yscope.clp.VariablesSchemaV2"

/-- The version with the given name. -/
def ofName (text : String) : Except VersionError SchemaVersion :=
  if text = v2.name then .ok v2 else .error (.unknownSchema text)

end SchemaVersion

namespace PackingVersion

/-- The name of a version. -/
def name : PackingVersion → String
  | v1 => "com.yscope.clp.VariableEncodingMethodsV1"

/-- The version with the given name. -/
def ofName (text : String) : Except VersionError PackingVersion :=
  if text = v1.name then .ok v1 else .error (.unknownPacking text)

end PackingVersion

/-- The versions that a codec follows. -/
structure Versions where
  schema : SchemaVersion
  packing : PackingVersion
deriving DecidableEq, Repr

/-- The versions with the given names; the name for the schema is looked at first. -/
def Versions.resolve (schema packing : String) : Except VersionError Versions := do
  return ⟨← SchemaVersion.ofName schema, ← PackingVersion.ofName packing⟩

end LogCodec
