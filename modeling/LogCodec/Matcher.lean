import LogCodec.Packing
import LogCodec.Logtype
import LogCodec.FlatBytes
import LogCodec.Query.Subquery

/-!
# `LogCodec.Matcher`: patterns for packed numbers, in order

A matcher has a list of patterns, each for one kind of packed number.  It accepts a message when some of the packed
numbers of the message, taken in order, have the kinds of the patterns and match them one by one.  Taking for each
pattern the first number behind the previous one that matches loses nothing, so a number is rendered only when it has
the kind of the pattern that is next.

## Contents
- `Matcher`, made from a list of patterns, from a subquery, or from serialized parts.
- `Matcher.accepts`.
- `anyNumberMatches`: the search for one number that matches a pattern.
-/

namespace LogCodec

/-- A pattern for one kind of packed number. -/
abbrev NumberPattern := NumberKind × Pattern

/-- Patterns for packed numbers. -/
structure Matcher where
  width : Width
  patterns : List NumberPattern
deriving DecidableEq, Repr

/-- Why a matcher could not be made. -/
inductive MatcherError where
  /-- There is not one end offset for every placeholder byte. -/
  | offsetCount (expected actual : Nat)
  | offsets (cause : OffsetError)
  /-- The byte stands for no kind of variable. -/
  | noPlaceholder (byte : UInt8)
  /-- A pattern is for a kind of variable that is not packed. -/
  | notPacked (placeholder : Placeholder)
deriving DecidableEq, Repr

/-- The wording of a list that is too short or too long. -/
def lengthMessage (what : String) (expected actual : Nat) : String :=
  s!"{what}: expected {expected} entries, got {actual}"

/-- The wording of a matcher error. -/
def MatcherError.message : MatcherError → String
  | .offsetCount expected actual => lengthMessage "wildcard query end offsets" expected actual
  | .offsets cause => cause.message
  | .noPlaceholder byte => s!"invalid variable placeholder byte 0x{Hex.fixed 2 byte.toNat}"
  | .notPacked placeholder => s!"{placeholder.name} variables are not encoded variables"

/-- A pattern for a kind of variable, which has to be packed. -/
def NumberPattern.make : Placeholder × Bytes → Except MatcherError NumberPattern
  | (.number kind, text) => .ok (kind, Pattern.ofBytes text)
  | (.dictionary, _) => .error (.notPacked .dictionary)

namespace Matcher

/-- The matcher for some kinds of variables and spelled patterns. -/
def ofQueries (width : Width) (queries : List (Placeholder × Bytes)) : Except MatcherError Matcher := do
  return ⟨width, ← queries.mapM NumberPattern.make⟩

/-- The matcher for the packed numbers of a subquery. -/
def ofSubquery (width : Width) (s : Subquery) : Matcher :=
  ⟨width, s.numberPatterns.map fun p => (p.1, Pattern.ofBytes p.2.bytes)⟩

/-- The kind of variable that a byte stands for. -/
def placeholder (b : UInt8) : Except MatcherError Placeholder :=
  match Placeholder.ofByte? b with
  | some p => .ok p
  | none => .error (.noPlaceholder b)

/-- The matcher for serialized parts: a placeholder byte for each pattern, and the patterns stored back to back.  The
number of end offsets is looked at first, then the offsets, then all placeholder bytes, then their kinds. -/
def ofSerialized (width : Width) (placeholders patterns : Bytes) (ends : List Nat) :
    Except MatcherError Matcher := do
  if placeholders.length ≠ ends.length then
    throw (.offsetCount placeholders.length ends.length)
  let texts ← (FlatBytes.ofParts patterns ends).mapError .offsets
  let kinds ← placeholders.mapM placeholder
  ofQueries width (kinds.zip texts.toList)

/-- The number of patterns. -/
def size (m : Matcher) : Nat := m.patterns.length

/-- Looks for numbers that match the patterns, in order. -/
def acceptsFrom (width : Width) : List NumberPattern → List Packed → Except DecodeError Bool
  | [], _ => .ok true
  | _ :: _, [] => .ok false
  | next :: later, number :: rest =>
    if next.1 ≠ number.1 then acceptsFrom width (next :: later) rest
    else do
      let text ← width.render number.1 number.2
      if next.2.isMatch text then acceptsFrom width later rest
      else acceptsFrom width (next :: later) rest

/-- Decides whether the packed numbers of a message match the patterns, in order.  Without patterns nothing is looked
at; otherwise the logtype and the numbers have to fit together up to the end. -/
def accepts (m : Matcher) (logtype : Bytes) (numbers : List Int64) : Except DecodeError Bool :=
  if m.patterns.isEmpty then .ok true
  else do
    -- What is wrong with the logtype or the numbers is reported even if the patterns cannot all match.
    let packed ← (Logtype.typedNumbers logtype numbers).toExcept
    if packed.length < m.size then return false
    acceptsFrom m.width m.patterns packed

end Matcher

/-- The parts from which the matcher for the packed numbers of a subquery can be made again: the placeholder bytes, and
the patterns stored back to back. -/
def Subquery.serialize (s : Subquery) : Bytes × FlatBytes :=
  (s.numberPatterns.map fun p => (Placeholder.number p.1).toByte, .ofList (s.numberPatterns.map (·.2.bytes)))

/-! ## One pattern -/

/-- Looks for a number of the given kind that matches a pattern. -/
def anyMatches (width : Width) (kind : Placeholder) (pattern : Pattern) : List Packed → Except DecodeError Bool
  | [] => .ok false
  | number :: rest =>
    if Placeholder.number number.1 ≠ kind then anyMatches width kind pattern rest
    else do
      let text ← width.render number.1 number.2
      if pattern.isMatch text then return true
      anyMatches width kind pattern rest

/-- Decides whether some packed number of the given kind matches a pattern.  The search ends at the first one that
does; what is wrong with the logtype behind it does not matter.  Dictionary variables are not packed, so none
matches. -/
def anyNumberMatches (width : Width) (kind : Placeholder) (pattern : Pattern) (logtype : Bytes)
    (numbers : List Int64) : Except DecodeError Bool := do
  let scan := Logtype.typedNumbers logtype numbers
  if ← anyMatches width kind pattern scan.items then return true
  match scan.failure with
  | none => return false
  | some e => throw e

end LogCodec
