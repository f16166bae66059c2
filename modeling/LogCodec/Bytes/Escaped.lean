import LogCodec.Bytes.Hex

/-!
# `LogCodec.Bytes.Escaped`: byte strings as ASCII text

Escaped ASCII shows any byte string on one line of printable characters: tab, line feed and carriage return have
their short escapes, quotes and the backslash are escaped, other printable bytes stand for themselves, and the rest
is written with two hexadecimal digits.
-/

namespace LogCodec.Bytes

/-- One byte in escaped ASCII. -/
def escapedByte (b : UInt8) : List Char :=
  if b = 0x09 then ['\\', 't']
  else if b = 0x0A then ['\\', 'n']
  else if b = 0x0D then ['\\', 'r']
  else if b = 0x22 ∨ b = 0x27 ∨ b = 0x5C then ['\\', Char.ofNat b.toNat]
  else if isPrintable b then [Char.ofNat b.toNat]
  else '\\' :: 'x' :: Hex.fixedDigits 2 b.toNat

/-- A byte string in escaped ASCII. -/
def escaped (bytes : Bytes) : String := String.ofList (bytes.flatMap escapedByte)

end LogCodec.Bytes
