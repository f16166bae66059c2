import LogCodec.Bytes

/-!
# `LogCodec.Bytes.Hex`: hexadecimal text

Lowercase digits throughout.  `Hex.fixed` fills a number up with zeros to a given width and `Hex.shortestDigits`
writes it without leading zeros.
-/

namespace LogCodec.Hex

/-- The lowercase hexadecimal digit of a number below sixteen. -/
def digit (n : Nat) : Char :=
  if n < 10 then Char.ofNat (0x30 + n) else Char.ofNat (0x57 + n)

/-- The last `count` hexadecimal digits of a number, with leading zeros. -/
def fixedDigits : (count : Nat) → Nat → List Char
  | 0, _ => []
  | count + 1, n => fixedDigits count (n / 16) ++ [digit (n % 16)]

/-- The hexadecimal digits of a number, without leading zeros. -/
def shortestDigits (n : Nat) : List Char :=
  if n < 16 then [digit n] else shortestDigits (n / 16) ++ [digit (n % 16)]
termination_by n

/-- A number as text of `count` digits. -/
def fixed (count n : Nat) : String := String.ofList (fixedDigits count n)

/-- The two digits of every byte, without separators. -/
def ofBytes (bytes : Bytes) : String :=
  String.ofList (bytes.flatMap fun b => fixedDigits 2 b.toNat)

/-- The value of a hexadecimal digit of either case. -/
def digitValue? (c : Char) : Option Nat :=
  if '0' ≤ c ∧ c ≤ '9' then some (c.toNat - 0x30)
  else if 'a' ≤ c ∧ c ≤ 'f' then some (c.toNat - 0x57)
  else if 'A' ≤ c ∧ c ≤ 'F' then some (c.toNat - 0x37)
  else none

end LogCodec.Hex
