import LogCodec.Checksum
import LogCodec.Message
import LogCodec.Record.Header

/-!
# `LogCodec.Record`: one encoded message in a byte string

Behind its header a record has the logtype, the dictionary bytes, the end offset of each dictionary value in four
bytes, and each packed number in eight.

## Contents
- `Record`, `toBytes` and `ofBytes`.
- `RecordError`: why a byte string is no record.  The first cause wins, in the order in which they are listed there.
-/

namespace LogCodec

/-- Why a byte string is no record. -/
inductive RecordError where
  | tooShort (length : Nat)
  | wrongMagic
  | unknownVersion (version : UInt16)
  /-- The header does not account for all bytes; both sizes include it. -/
  | wrongSize (expected actual : Nat)
  | wrongChecksum (expected actual : UInt32)
  | badOffsets (cause : OffsetError)
  /-- The last dictionary value ends before the dictionary bytes do. -/
  | unusedBytes (stop length : Nat)
  | inconsistent (cause : DecodeError)
deriving DecidableEq, Repr

namespace RecordError

/-- The wording of a record error. -/
def message : RecordError → String
  | tooShort length => s!"record too small: {length} bytes (minimum {Record.Header.size})"
  | wrongMagic => "invalid magic: expected CLPM"
  | unknownVersion version =>
    s!"unsupported record version: {version} (expected {Record.Header.layoutVersion})"
  | wrongSize expected actual => s!"size mismatch: header implies {expected} bytes, got {actual}"
  | wrongChecksum expected actual =>
    s!"checksum mismatch: header says 0x{Hex.fixed 8 expected.toNat}, " ++
    s!"payload hashes to 0x{Hex.fixed 8 actual.toNat}"
  | badOffsets cause => "invalid dictionary offsets: " ++ cause.message
  | unusedBytes stop length =>
    s!"dictionary offsets end at {stop} but the section holds {length} bytes"
  | inconsistent cause => "inconsistent variables: " ++ cause.message

end RecordError

/-- An encoded message with the width of its packed numbers. -/
structure Record where
  width : Width
  message : EncodedMessage
deriving DecidableEq

namespace Record

/-- What comes behind the header. -/
def payload (r : Record) : Bytes :=
  r.message.logtype
    ++ r.message.dictionary.bytes
    ++ r.message.dictionary.ends.flatMap (Bytes.littleEndian 4)
    ++ r.message.numbers.flatMap fun number => Bytes.littleEndian 8 number.toUInt64.toNat

/-- The header; lengths and counts are cut to 32 bits. -/
def header (r : Record) : Header where
  magic := Header.magicBytes
  version := Header.layoutVersion
  flags := Header.flagsOf r.width
  logtypeLength := UInt32.ofNat r.message.logtype.length
  dictionaryLength := UInt32.ofNat r.message.dictionary.bytes.length
  dictionaryCount := UInt32.ofNat r.message.dictionary.size
  numberCount := UInt32.ofNat r.message.numbers.length
  checksum := Checksum.ofBytes r.payload
  reserved := [0, 0, 0, 0]

/-- A record as it is written. -/
def toBytes (r : Record) : Bytes := r.header.toBytes ++ r.payload

/-- The sections of a payload. -/
structure Sections where
  logtype : Bytes
  dictionary : Bytes
  ends : List Nat
  numbers : List Int64
deriving DecidableEq, Repr

/-- Cuts a payload into the sections that a header describes. -/
def sections (h : Header) (payload : Bytes) : Sections :=
  let behindLogtype := payload.drop h.logtypeLength.toNat
  let behindDictionary := behindLogtype.drop h.dictionaryLength.toNat
  let behindEnds := behindDictionary.drop (h.dictionaryCount.toNat * 4)
  { logtype := payload.take h.logtypeLength.toNat
    dictionary := behindLogtype.take h.dictionaryLength.toNat
    ends := (Bytes.chunks 4 h.dictionaryCount.toNat behindDictionary).map Bytes.ofLittleEndian
    numbers := (Bytes.chunks 8 h.numberCount.toNat behindEnds).map fun chunk =>
      (UInt64.ofNat (Bytes.ofLittleEndian chunk)).toInt64 }

/-- The message of sections that fit together. -/
def Sections.message (s : Sections) : Except RecordError EncodedMessage :=
  match FlatBytes.ofParts s.dictionary s.ends with
  | .error cause => .error (.badOffsets cause)
  | .ok dictionary =>
    let stop := s.ends.getLastD 0
    if stop ≠ s.dictionary.length then .error (.unusedBytes stop s.dictionary.length)
    else (EncodedMessage.ofParts s.logtype dictionary s.numbers).mapError .inconsistent

/-- The record that a byte string holds. -/
def ofBytes (bytes : Bytes) : Except RecordError Record :=
  if bytes.length < Header.size then .error (.tooShort bytes.length)
  else
    let h := Header.read bytes
    let payload := bytes.drop Header.size
    let checksum := Checksum.ofBytes payload
    if !h.hasMagic then .error .wrongMagic
    else if !h.hasVersion then .error (.unknownVersion h.version)
    else if h.payloadSize ≠ payload.length then
      .error (.wrongSize (Header.size + h.payloadSize) bytes.length)
    else if h.checksum ≠ checksum then .error (.wrongChecksum h.checksum checksum)
    else (sections h payload).message.map (⟨h.width, ·⟩)

end Record

end LogCodec
