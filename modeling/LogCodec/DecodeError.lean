import LogCodec.Bytes.Hex

/-!
# `LogCodec.DecodeError`: what may be wrong with an encoded message

Whoever reads an encoded message, be it to decode it or to search it, can meet the same few faults.  They are listed
here, and `DecodeError.message` words them.
-/

namespace LogCodec

/-- The two lists in which an encoded message keeps its variables. -/
inductive VariableGroup where
  | dictionary
  | numbers
deriving DecidableEq, Repr

namespace VariableGroup

/-- What the variables of the group are called. -/
def name : VariableGroup → String
  | dictionary => "dictionary"
  | numbers => "encoded"

end VariableGroup

/-- Why an encoded message could not be read. -/
inductive DecodeError where
  /-- The logtype has more or fewer places for a group of variables than there are values. -/
  | countMismatch (group : VariableGroup) (places provided : Nat)
  /-- The logtype has more places for packed numbers than there are numbers. -/
  | tooFewNumbers (provided : Nat)
  /-- The logtype ends between an escape byte and the byte that it should escape. -/
  | danglingEscape
  /-- A packed decimal has fields that no decimal is packed to. -/
  | corruptDecimal (raw : Nat)
  /-- A number of width four lies outside the 32-bit range. -/
  | outOfRange (value : Int64)
deriving DecidableEq, Repr

namespace DecodeError

/-- The wording of a decoding error. -/
def message : DecodeError → String
  | countMismatch group places provided =>
    s!"logtype has {places} {group.name} placeholders but {provided} {group.name} variables were given"
  | tooFewNumbers provided => s!"logtype references more encoded variables than the {provided} provided"
  | danglingEscape => "logtype ends with a dangling escape byte"
  | corruptDecimal raw => s!"corrupt encoded float 0x{Hex.fixed 16 raw}: decimal point lies beyond its digits"
  | outOfRange value => s!"encoded variable {value.toInt} is out of range for four-byte encoding"

end DecodeError

end LogCodec
