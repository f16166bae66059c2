import LogCodec.Bytes.LittleEndian
import LogCodec.Misuse
import LogCodec.Width

/-!
# `LogCodec.Record.Header`: the first 32 bytes of a record

The header says how a record is to be cut up: the lengths of its sections, the width of its packed numbers, and a
checksum of all that comes behind the header.  Numbers are written with the least significant byte first.

| bytes | field |
|---|---|
| 4 | magic bytes |
| 2 | version of the layout |
| 2 | flags; the lowest bit tells a width of four bytes |
| 4 | length of the logtype |
| 4 | length of the dictionary bytes |
| 4 | number of dictionary values |
| 4 | number of packed numbers |
| 4 | checksum |
| 4 | reserved |
-/

namespace LogCodec

/-- The header of a record. -/
structure Record.Header where
  magic : Bytes
  version : UInt16
  flags : UInt16
  logtypeLength : UInt32
  dictionaryLength : UInt32
  dictionaryCount : UInt32
  numberCount : UInt32
  checksum : UInt32
  reserved : Bytes
deriving DecidableEq, Repr

namespace Record.Header

/-- The length of a header. -/
def size : Nat := 32

/-- The bytes that a record starts with, `CLPM`. -/
def magicBytes : Bytes := [0x43, 0x4C, 0x50, 0x4D]

/-- The version of the layout. -/
def layoutVersion : UInt16 := 1

/-- The flags of a record whose packed numbers have the given width. -/
def flagsOf : Width → UInt16
  | .eight => 0
  | .four => 1

/-- The width that the flags tell. -/
def width (h : Header) : Width := if h.flags &&& 1 = 1 then .four else .eight

/-- The header starts with the magic bytes. -/
def hasMagic (h : Header) : Bool := h.magic == magicBytes

/-- The header is of the layout that is read here. -/
def hasVersion (h : Header) : Bool := h.version == layoutVersion

/-- The number of bytes behind the header: the logtype, the dictionary bytes, four bytes for every end offset and eight
for every packed number. -/
def payloadSize (h : Header) : Nat :=
  h.logtypeLength.toNat + h.dictionaryLength.toNat + h.dictionaryCount.toNat * 4 + h.numberCount.toNat * 8

/-- The number in a part of a byte string. -/
def numberAt (bytes : Bytes) (start width : Nat) : Nat :=
  Bytes.ofLittleEndian ((Span.mk start (start + width)).slice bytes)

/-- The fields of a header; bytes behind it do not matter. -/
def read (bytes : Bytes) : Header where
  magic := (Span.mk 0 4).slice bytes
  version := UInt16.ofNat (numberAt bytes 4 2)
  flags := UInt16.ofNat (numberAt bytes 6 2)
  logtypeLength := UInt32.ofNat (numberAt bytes 8 4)
  dictionaryLength := UInt32.ofNat (numberAt bytes 12 4)
  dictionaryCount := UInt32.ofNat (numberAt bytes 16 4)
  numberCount := UInt32.ofNat (numberAt bytes 20 4)
  checksum := UInt32.ofNat (numberAt bytes 24 4)
  reserved := (Span.mk 28 32).slice bytes

/-- The header at the front of a byte string that is long enough to have one. -/
def ofBytes (bytes : Bytes) : Except Misuse Header :=
  if bytes.length < size then .error .headerTooShort else .ok (read bytes)

/-- A header as it is written. -/
def toBytes (h : Header) : Bytes :=
  h.magic
    ++ Bytes.littleEndian 2 h.version.toNat
    ++ Bytes.littleEndian 2 h.flags.toNat
    ++ Bytes.littleEndian 4 h.logtypeLength.toNat
    ++ Bytes.littleEndian 4 h.dictionaryLength.toNat
    ++ Bytes.littleEndian 4 h.dictionaryCount.toNat
    ++ Bytes.littleEndian 4 h.numberCount.toNat
    ++ Bytes.littleEndian 4 h.checksum.toNat
    ++ h.reserved

end Record.Header

end LogCodec
