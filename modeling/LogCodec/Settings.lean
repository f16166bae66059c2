import LogCodec.Version
import LogCodec.Width

/-!
# `LogCodec.Settings`: what a codec is made from

Settings name the versions of the rules, the width of packed numbers, and how many subqueries a query may have.
-/

namespace LogCodec

/-- The settings of a codec. -/
structure Settings where
  schemaVersion : String
  packingVersion : String
  width : Width
  /-- The most subqueries that a query may be decomposed into. -/
  maxSubqueries : Nat
deriving DecidableEq, Repr

namespace Settings

/-- The settings that apply where none are given. -/
def standard : Settings := ⟨SchemaVersion.v2.name, PackingVersion.v1.name, .eight, 4096⟩

/-- The versions that the settings name. -/
def resolve (s : Settings) : Except VersionError Versions :=
  Versions.resolve s.schemaVersion s.packingVersion

end Settings

end LogCodec
