import LogCodec.Placeholder
import LogCodec.Query.Cut
import LogCodec.Roster

/-!
# `LogCodec.Query.Reading`: how a token may be encoded in a matching message

Each piece of a token has alternatives: it may be static text, or a variable of some kind.  A reading of the token
takes one alternative for each piece; neighbouring static text is one segment, so two ways of cutting a token may give
the same reading, which then counts once.

## Contents
- `Segment` and `Reading`, with `Reading.cons`, which joins static text.
- `Cut.alternatives`: the alternatives of a piece, static text first.
- `readingsOf`, all readings for given alternatives, and `Piece.readings`, those of a token, within a limit.
-/

namespace LogCodec.Query

/-- A part of a piece, read as static text or as a variable; positions count from the first symbol of the piece. -/
inductive Segment where
  | static (span : Span)
  /-- A variable that is spelled without wildcards. -/
  | exact (span : Span)
  /-- A variable of the given kind that the symbols match. -/
  | wildcard (span : Span) (kind : Placeholder)
deriving DecidableEq, Repr

/-- The kind and the positions of a segment, as numbers. -/
def Segment.key : Segment → List Nat
  | static span => [0, span.start, span.stop]
  | exact span => [1, span.start, span.stop]
  | wildcard span kind => [kind.toByte.toNat, span.start, span.stop]

/-- Different segments have different keys. -/
theorem Segment.key_injective {s t : Segment} (h : s.key = t.key) : s = t := by
  rcases s with ⟨_, _⟩ | ⟨_, _⟩ | ⟨⟨_, _⟩, (_ | _) | _⟩ <;> rcases t with ⟨_, _⟩ | ⟨_, _⟩ | ⟨⟨_, _⟩, (_ | _) | _⟩ <;>
    simp_all [key, Placeholder.toByte]

/-- A token as a list of segments. -/
abbrev Reading := List Segment

/-- Puts a segment in front.  Static text that touches or overlaps the static text behind it is joined to it. -/
def Reading.cons : Segment → Reading → Reading
  | .static span, .static next :: rest =>
    -- Two pieces that share a star overlap by it; the overlap is kept once.
    if next.start ≤ span.stop then .static ⟨span.start, max span.stop next.stop⟩ :: rest
    else .static span :: .static next :: rest
  | segment, rest => segment :: rest

/-! ## Alternatives -/

/-- A number of the given kind could be spelled by what the pattern matches.  Literals have to be digits, a minus sign
that only stars come before, or, for a decimal, one point. -/
def couldBeNumber (kind : NumberKind) (starsOnly pointSeen : Bool) : Pattern → Bool
  | [] => true
  | .star :: rest => couldBeNumber kind starsOnly pointSeen rest
  | .any :: rest => couldBeNumber kind false pointSeen rest
  | .literal b :: rest =>
    if Bytes.isDigit b || (b == Bytes.ofChar '-' && starsOnly) then couldBeNumber kind false pointSeen rest
    else if b == Bytes.ofChar '.' && kind == .float && !pointSeen then couldBeNumber kind false true rest
    else false

/-- A literal token behind the given byte is a variable. -/
def isVariableAfter (schema : Schema) (precededBy : Option UInt8) (literal : Bytes) : Bool :=
  schema.isVariable ⟨.between precededBy.toList literal, literal.length⟩

/-- The alternatives of a piece without wildcards.  Behind a split they are those that some delimiter before the piece
gives. -/
def exactAlternatives (schema : Schema) (span : Span) (literal : Bytes) : Context → List Segment
  | .known precededBy => if isVariableAfter schema precededBy literal then [.exact span] else [.static span]
  | .split =>
    -- Different delimiters may decide differently, so the piece may be both.
    let delimiters := schema.delimiters
    (if delimiters.any fun d => !isVariableAfter schema (some d) literal then [.static span] else []) ++
      (if delimiters.any fun d => isVariableAfter schema (some d) literal then [.exact span] else [])

/-- The alternatives of a piece with wildcards: static text unless it is a variable in any case, a number of each kind
that it could match, and a dictionary value.  A piece of stars alone adds no variable. -/
def wildcardAlternatives (schema : Schema) (span : Span) (symbols : Pattern) (precededBy : Option UInt8) :
    List Segment :=
  if symbols.isStars then [.static span]
  else
    (if schema.isDefinite ⟨symbols.literals, symbols.leading, precededBy⟩ then [] else [.static span]) ++
      (if couldBeNumber .integer true false symbols then [.wildcard span (.number .integer)] else []) ++
      (if couldBeNumber .float true false symbols then [.wildcard span (.number .float)] else []) ++
      [.wildcard span .dictionary]

/-- The alternatives of a part of a token. -/
def Cut.alternatives (schema : Schema) (token : Piece) : Cut → List Segment
  | .delimiter index => [.static ⟨index, index + 1⟩]
  | .piece span context =>
    let symbols := token.slice span
    if symbols.isExact then exactAlternatives schema span symbols.literals context
    else wildcardAlternatives schema span symbols context.precededBy

/-! ## Readings -/

/-- The readings that take one of the given alternatives for each piece; the alternative of the last piece changes
fastest. -/
def readingsOf : List (List Segment) → List Reading
  | [] => [[]]
  | alternatives :: rest =>
    let readings := readingsOf rest
    alternatives.flatMap fun segment => readings.map (Reading.cons segment)

/-- No product of the first counts, on top of what was counted before, is more than the limit. -/
def productsWithin (limit counted : Nat) : List Nat → Bool
  | [] => true
  | count :: rest => counted * count ≤ limit && productsWithin limit (counted * count) rest

/-- The readings of a token for one selection of split points.  There is no answer if the first pieces, however many,
have more readings than the limit between them. -/
def Piece.readingsAt (schema : Schema) (limit : Nat) (token : Piece) (precededBy : Option UInt8)
    (selected : List SplitPoint) : Option (List Reading) :=
  let alternatives := (cuts token.symbols.length precededBy selected).map (·.alternatives schema token)
  if productsWithin limit 1 (alternatives.map List.length) then some (readingsOf alternatives) else none

/-- The readings of a token, each in the place where it is first met when the selections of split points are gone
through in order.  There is no answer if there are more than the limit. -/
def Piece.readings (schema : Schema) (limit : Nat) (token : Piece) (precededBy : Option UInt8) :
    Option (List Reading) :=
  let points := splitPoints token.symbols
  if limit < Nat.pow 2 points.length then none
  else do
    -- Readings are compared as a whole, so each is its own key.
    let found ← (selections points).foldlM (fun (found : Roster (id : Reading → List Segment)) selected => do
      let found := found.addAll (← token.readingsAt schema limit precededBy selected)
      if limit < found.size then none else some found) .empty
    return found.toList

/-- The readings of a part of a query; a gap is always static text. -/
def Part.readings (schema : Schema) (limit : Nat) : Part → Option (List Reading)
  | gap piece => some [[.static ⟨0, piece.symbols.length⟩]]
  | token piece precededBy => piece.readings schema limit precededBy

end LogCodec.Query
