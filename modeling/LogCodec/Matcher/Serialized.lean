import LogCodec.Bytes.Escaped
import LogCodec.Bytes.Slices
import LogCodec.FlatBytes.Operation
import LogCodec.Matcher
import LogCodec.Text.Quoted

/-!
# `LogCodec.Matcher.Serialized`: matchers for subqueries that are put together

A subquery does not have to come from a query.  It can be put together from a pattern for the logtype and a descriptor
for each variable, and nothing says that these fit together.  A matcher for it is made in one of two ways: from its
descriptors, or from a placeholder byte and a text for each pattern, which are written one behind the other and cut
again at their end offsets.

Each pattern is handed to an engine, which may refuse it.  A cut that misses the buffer stops everything, and so does an
end offset that does not fit four bytes.

## Contents
- `Descriptor` and `SubqueryParts`, with `SubqueryParts.ofSubquery` for a subquery that comes from a query.
- `BuildError` and `Matcher.build`, the matcher for some patterns.
- `SubqueryParts.matcher`, the first way.
- `SubqueryParts.serialize` and `Matcher.buildSerialized`, the second.
-/

namespace LogCodec

/-- What a subquery says about one variable.  The kind that a packed number is said to have may be any. -/
inductive Descriptor where
  /-- A dictionary variable with this value. -/
  | value (text : Bytes)
  /-- This packed number. -/
  | number (kind : Placeholder) (value : Int64)
  /-- A variable of this kind whose text matches a pattern. -/
  | pattern (kind : Placeholder) (text : Bytes)
deriving DecidableEq, Repr

namespace Descriptor

/-- The pattern, with the kind of variable that it is for. -/
def pattern? : Descriptor → Option (Placeholder × Bytes)
  | pattern kind text => some (kind, text)
  | _ => none

/-- The condition of a subquery that comes from a query. -/
def ofCondition : VariableQuery Bytes → Descriptor
  | .value text => value text
  | .number kind packed => number (.number kind) packed
  | .pattern kind text => pattern kind text

end Descriptor

/-- A subquery that is put together from parts. -/
structure SubqueryParts where
  /-- The spelled pattern for the bytes of the logtype. -/
  logtypeQuery : Bytes
  hasWildcards : Bool
  descriptors : List Descriptor
deriving DecidableEq, Repr

/-- Why a matcher could not be made of patterns, if the engine may refuse some. -/
inductive BuildError where
  | parts (cause : MatcherError)
  /-- The engine refuses a pattern. -/
  | refused (pattern : Bytes) (message : String)
deriving DecidableEq, Repr

/-- The wording of such an error. -/
def BuildError.message : BuildError → String
  | .parts cause => cause.message
  | .refused pattern message =>
    "failed to compile wildcard pattern " ++ Text.quoted (Bytes.escaped pattern) ++ ": " ++ message

namespace Matcher

section
-- The message with which the engine refuses a pattern, if it does.
variable (refusal : Bytes → Option String)

/-- Hands a pattern to the engine, if it is for a kind of packed number. -/
def compile : Placeholder × Bytes → Except BuildError NumberPattern
  | (.dictionary, _) => .error (.parts (.notPacked .dictionary))
  | (.number kind, text) =>
    match refusal text with
    | some message => .error (.refused text message)
    | none => .ok (kind, Pattern.ofBytes text)

/-- The matcher for some patterns. -/
def build (width : Width) (queries : List (Placeholder × Bytes)) : Except BuildError Matcher := do
  return ⟨width, ← queries.mapM (compile refusal)⟩

/-- Cuts a pattern for each placeholder byte, from a position of the buffer on. -/
def cutFrom (patterns : Bytes) : (start : Nat) → List (UInt8 × UInt32) →
    Option (Except MatcherError (List (Placeholder × Bytes)))
  | _, [] => some (.ok [])
  | start, (byte, stop) :: rest =>
    match placeholder byte with
    | .error cause => some (.error cause)
    | .ok kind => do
      let text ← (Span.mk start stop.toNat).slice? patterns
      let later ← cutFrom patterns stop.toNat rest
      return later.map ((kind, text) :: ·)

/-- The matcher for serialized parts.  The number of end offsets is looked at first, then the offsets, then all
placeholder bytes, and then one pattern after the other. -/
def buildSerialized (width : Width) (placeholders patterns : Bytes) (ends : List UInt32) :
    Option (Except BuildError Matcher) :=
  if placeholders.length ≠ ends.length then
    some (.error (.parts (.offsetCount placeholders.length ends.length)))
  else
    match checkEnds (ends.map UInt32.toNat) patterns.length with
    | .error cause => some (.error (.parts (.offsets cause)))
    | .ok () => do
      let queries ← cutFrom patterns 0 (placeholders.zip ends)
      return (queries.mapError .parts).bind (build refusal width)

end

end Matcher

namespace SubqueryParts

/-- A subquery that comes from a query, in parts. -/
def ofSubquery (s : Subquery) : SubqueryParts :=
  ⟨s.logtypeQuery, s.hasWildcards, s.conditions.map Descriptor.ofCondition⟩

/-- The patterns for packed numbers, which are found by their kinds. -/
def packedQueries (s : SubqueryParts) : List (Placeholder × Bytes) :=
  (s.descriptors.filterMap Descriptor.pattern?).filter (·.1.isPacked)

/-- The matcher for the patterns for packed numbers. -/
def matcher (s : SubqueryParts) (refusal : Bytes → Option String) (width : Width) : Except BuildError Matcher :=
  Matcher.build refusal width s.packedQueries

/-- Writes the placeholder byte of a pattern behind the others, and the pattern behind the other patterns. -/
def writeQuery (written : Bytes × FlatBytes) (query : Placeholder × Bytes) : Option (Bytes × FlatBytes) := do
  let patterns ← (FlatBytes.Operation.push query.2).apply written.2
  return (written.1 ++ [query.1.toByte], patterns)

/-- The placeholder bytes of the patterns for packed numbers, and the patterns stored back to back. -/
def serialize (s : SubqueryParts) : Option (Bytes × FlatBytes) := s.packedQueries.foldlM writeQuery ([], .empty)

end SubqueryParts

end LogCodec
