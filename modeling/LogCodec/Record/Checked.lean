import LogCodec.Bytes.Slices
import LogCodec.Record

/-!
# `LogCodec.Record.Checked`: reading a record with every cut checked

A program that slices a byte string outside its bounds stops, and no caller can go on from there.  Here a record is read
by slices and splits that have no result in that case, so that reading one has a result only if each of its cuts lies
within what it cuts.

## Contents
- `Bytes.splitAt?` and `Bytes.numberAt?`, cuts beside `Span.slice?`.
- `Record.Header.read?`, `Record.sections?` and `Record.ofBytesChecked`: the header, the sections and the whole record.
-/

namespace LogCodec

/-- What stands before a position and what stands from it on, if the byte string reaches that far. -/
def Bytes.splitAt? (position : Nat) (bytes : Bytes) : Option (Bytes × Bytes) :=
  if position ≤ bytes.length then some (bytes.take position, bytes.drop position) else none

/-- The number in a part of a byte string, if the part lies within it. -/
def Bytes.numberAt? (bytes : Bytes) (start width : Nat) : Option Nat :=
  ((Span.mk start (start + width)).slice? bytes).map Bytes.ofLittleEndian

namespace Record

/-- The fields of a header, each cut out of the bytes. -/
def Header.read? (bytes : Bytes) : Option Header := do
  let magic ← (Span.mk 0 4).slice? bytes
  let version ← bytes.numberAt? 4 2
  let flags ← bytes.numberAt? 6 2
  let logtypeLength ← bytes.numberAt? 8 4
  let dictionaryLength ← bytes.numberAt? 12 4
  let dictionaryCount ← bytes.numberAt? 16 4
  let numberCount ← bytes.numberAt? 20 4
  let checksum ← bytes.numberAt? 24 4
  let reserved ← (Span.mk 28 32).slice? bytes
  return {
    magic
    version := UInt16.ofNat version
    flags := UInt16.ofNat flags
    logtypeLength := UInt32.ofNat logtypeLength
    dictionaryLength := UInt32.ofNat dictionaryLength
    dictionaryCount := UInt32.ofNat dictionaryCount
    numberCount := UInt32.ofNat numberCount
    checksum := UInt32.ofNat checksum
    reserved }

/-- Splits a payload three times.  What is left holds the packed numbers, whose count in the header is not looked at
again. -/
def sections? (h : Header) (payload : Bytes) : Option Sections := do
  let (logtype, behindLogtype) ← Bytes.splitAt? h.logtypeLength.toNat payload
  let (dictionary, behindDictionary) ← Bytes.splitAt? h.dictionaryLength.toNat behindLogtype
  let (endBytes, numberBytes) ← Bytes.splitAt? (h.dictionaryCount.toNat * 4) behindDictionary
  let ends ← (Bytes.chunks 4 (endBytes.length / 4) endBytes).mapM (·.numberAt? 0 4)
  let numbers ← (Bytes.chunks 8 (numberBytes.length / 8) numberBytes).mapM (·.numberAt? 0 8)
  return {
    logtype
    dictionary
    ends
    numbers := numbers.map fun number => (UInt64.ofNat number).toInt64 }

/-- The record that a byte string holds, or why it holds none; nothing if a cut is out of range. -/
def ofBytesChecked (bytes : Bytes) : Option (Except RecordError Record) :=
  if bytes.length < Header.size then some (.error (.tooShort bytes.length))
  else do
    let (front, payload) ← Bytes.splitAt? Header.size bytes
    let h ← Header.read? front
    let checksum := Checksum.ofBytes payload
    if !h.hasMagic then return .error .wrongMagic
    else if !h.hasVersion then return .error (.unknownVersion h.version)
    else if h.payloadSize ≠ payload.length then
      return .error (.wrongSize (Header.size + h.payloadSize) bytes.length)
    else if h.checksum ≠ checksum then return .error (.wrongChecksum h.checksum checksum)
    else
      let s ← sections? h payload
      return s.message.map (⟨h.width, ·⟩)

end Record

end LogCodec
