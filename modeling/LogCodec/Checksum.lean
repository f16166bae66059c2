import LogCodec.Bytes

/-!
# `LogCodec.Checksum`: CRC-32

The cyclic redundancy check with the reflected polynomial `0xEDB88320`.  The register starts with all bits set, takes
in one byte after the other, and is complemented at the end.
-/

namespace LogCodec.Checksum

/-- The reflected polynomial. -/
def polynomial : UInt32 := 0xEDB88320

/-- Moves the register on by one bit. -/
def stepBit (register : UInt32) : UInt32 :=
  if register &&& 1 = 1 then (register >>> 1) ^^^ polynomial else register >>> 1

/-- Moves the register on by one byte. -/
def stepByte (register : UInt32) (b : UInt8) : UInt32 :=
  Nat.repeat stepBit 8 (register ^^^ b.toUInt32)

/-- The register after a byte string. -/
def run (register : UInt32) (bytes : Bytes) : UInt32 := bytes.foldl stepByte register

/-- The checksum of a byte string. -/
def ofBytes (bytes : Bytes) : UInt32 := ~~~ (run 0xFFFFFFFF bytes)

end LogCodec.Checksum
