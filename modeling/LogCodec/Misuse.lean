import LogCodec.Bytes

/-!
# `LogCodec.Misuse`: rules of the interface

Errors tell of bad data.  A `Misuse` is apart from them: it is what a caller gets for breaking a rule that it could
have checked beforehand.
-/

namespace LogCodec

/-- A rule of the interface that the caller broke. -/
inductive Misuse where
  /-- A dictionary value was to be rendered like a packed number. -/
  | dictionaryRendered
  /-- A packed number was appended under the placeholder of dictionary values. -/
  | dictionaryGivenNumber
  /-- A record header was read from fewer bytes than it has. -/
  | headerTooShort
  /-- A view was cut outside its bytes, or reversed. -/
  | viewOutOfBounds (range : Span) (length : Nat)
  /-- A view was cut outside another view, or reversed. -/
  | subviewOutOfBounds (range : Span) (length : Nat)
deriving DecidableEq, Repr

namespace Misuse

/-- The wording of a broken rule. -/
def message : Misuse → String
  | dictionaryRendered => "dictionary variables are not encoded"
  | dictionaryGivenNumber => "dictionary placeholder given an encoded value"
  | headerTooShort => "header too short"
  | viewOutOfBounds range length =>
    s!"byte view {range.start}..{range.stop} out of bounds for buffer of {length} bytes"
  | subviewOutOfBounds range length =>
    s!"sub-view {range.start}..{range.stop} out of bounds for view of {length} bytes"

end Misuse

end LogCodec
