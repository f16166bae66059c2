import LogCodec.Bytes

/-!
# `LogCodec.Placeholder`: kinds of variables

A variable is a packed number (an integer or a decimal) or a dictionary value.  In the bytes of a logtype each kind
has a placeholder byte of its own; where static text holds such a byte, or the escape byte, it is escaped.
-/

namespace LogCodec

/-- The two kinds of packed numbers. -/
inductive NumberKind where
  | integer
  | float
deriving DecidableEq, Repr

/-- The kinds of variables that a logtype has a place for. -/
inductive Placeholder where
  | number (kind : NumberKind)
  | dictionary
deriving DecidableEq, Repr

/-- The byte that makes the next byte of a logtype, or of a pattern, stand for itself. -/
def escapeByte : UInt8 := 0x5C

namespace Placeholder

/-- The byte that stands for a variable in a logtype. -/
def toByte : Placeholder → UInt8
  | number .integer => 0x11
  | dictionary => 0x12
  | number .float => 0x13

/-- The kind of variable that a byte stands for. -/
def ofByte? (b : UInt8) : Option Placeholder :=
  if b = 0x11 then some (number .integer)
  else if b = 0x12 then some dictionary
  else if b = 0x13 then some (number .float)
  else none

/-- The short name of a kind of variable. -/
def name : Placeholder → String
  | number .integer => "int"
  | dictionary => "dict"
  | number .float => "float"

/-- The kind of packed number; dictionary values are not packed. -/
def number? : Placeholder → Option NumberKind
  | number kind => some kind
  | dictionary => none

/-- Variables of the kind are packed. -/
def isPacked (p : Placeholder) : Bool := p.number?.isSome

@[simp] theorem ofByte?_toByte (p : Placeholder) : ofByte? p.toByte = some p := by
  rcases p with (_ | _) | _ <;> rfl

/-- Each kind of variable has a byte of its own. -/
theorem toByte_injective {p q : Placeholder} (h : p.toByte = q.toByte) : p = q := by
  have hsome := congrArg ofByte? h
  rw [ofByte?_toByte, ofByte?_toByte] at hsome
  exact Option.some.inj hsome

theorem toByte_of_ofByte? {b : UInt8} {p : Placeholder} (h : ofByte? b = some p) : p.toByte = b := by
  unfold ofByte? at h
  split at h
  · obtain rfl := Option.some.inj h; simp_all [toByte]
  · split at h
    · obtain rfl := Option.some.inj h; simp_all [toByte]
    · split at h
      · obtain rfl := Option.some.inj h; simp_all [toByte]
      · cases h

end Placeholder

/-- The byte stands for a variable. -/
def isPlaceholder (b : UInt8) : Bool := (Placeholder.ofByte? b).isSome

/-- The byte has to be escaped where it is static text. -/
def needsEscape (b : UInt8) : Bool := b = escapeByte || isPlaceholder b

end LogCodec
