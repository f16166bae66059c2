import LogCodec.Message.Decoding
import LogCodec.Message.Encoding
import LogCodec.Settings

/-!
# `LogCodec.Codec`: encoding and decoding under one set of rules

A codec is made once, from version names or from settings, and then encodes and decodes any number of messages.  The
names are looked at when it is made and never again.
-/

namespace LogCodec

/-- The rules that messages are encoded and queries are decomposed by. -/
structure Codec where
  versions : Versions
  width : Width
  /-- The most subqueries that a query may be decomposed into. -/
  maxSubqueries : Nat
deriving DecidableEq, Repr

namespace Codec

/-- The codec for a pair of versions, with packed numbers of eight bytes. -/
def ofVersions (schema packing : String) : Except VersionError Codec := do
  let versions ← Versions.resolve schema packing
  return ⟨versions, Settings.standard.width, Settings.standard.maxSubqueries⟩

/-- The codec that settings describe. -/
def ofSettings (s : Settings) : Except VersionError Codec := do
  let versions ← s.resolve
  return ⟨versions, s.width, s.maxSubqueries⟩

/-- The rules that tell variables from static text. -/
def schema (c : Codec) : Schema :=
  match c.versions.schema with
  | .v2 => .standard

/-- Encodes a message. -/
def encode (c : Codec) (text : Bytes) : Except EncodeError EncodedMessage :=
  EncodedMessage.encode c.width c.schema.locator text

/-- Decodes a message. -/
def decode (c : Codec) (m : EncodedMessage) : Except DecodeError Bytes := m.decode c.width

end Codec

end LogCodec
