import LogCodec.Query.Decomposition
import LogCodec.View
import LogCodec.Wildcard.Placed

/-!
# `LogCodec.Query.Ranges`: the readings of a token as ranges of bytes

A query is taken apart without copying: what is said of it are ranges of its bytes.  The units of the query are found
once, with their places; a token is a run of units, and a piece of the token a part of the run.  Values without
wildcards that take an escape are not in the query as they are.  They are appended to a buffer, once for each range of
the query that spells one, and shown from there.

Every access to a list is by index or by range.  One that goes wrong stops everything, so that it can be said that none
does.

## Contents
- `Stop`, with `itemAt` and `partOf`, which stop at an access that goes wrong.
- `unitsFrom`: the units of a query by their places.
- `RangeSegment`, and `Store`, which keeps the buffer; `Store.readPiece` for the alternatives of a piece.
- `Store.pieces`: the pieces of a token for one set of split points, given by the binary digits of a number.
- `pushSegment`, `grow`, and `Store.choices`, which collects the readings of a token.
-/

namespace LogCodec

/-- What ends the work on a query early. -/
inductive Query.Stop where
  /-- The query is refused. -/
  | refused (e : QueryError)
  /-- A list has nothing at an index. -/
  | noItem (index length : Nat)
  /-- A range is reversed, or does not lie within a list. -/
  | noPart (range : Span) (length : Nat)
  /-- A view does not lie within its bytes. -/
  | misuse (m : Misuse)
deriving DecidableEq, Repr

/-- The unit takes two bytes of the query. -/
def PlacedSymbol.isEscaped (unit : PlacedSymbol) : Bool := unit.span.length == 2

namespace Query

/-- What a list has at an index. -/
def itemAt {α : Type} (xs : List α) (index : Nat) : Except Stop α :=
  match xs[index]? with
  | some x => .ok x
  | none => .error (.noItem index xs.length)

/-- What a list has in a range. -/
def partOf {α : Type} (xs : List α) (range : Span) : Except Stop (List α) :=
  if range.Fits xs.length then .ok (range.slice xs) else .error (.noPart range xs.length)

/-! ## Units -/

/-- The units of a query from an index on. -/
def unitsFrom (query : Bytes) (index : Nat) : Except Stop (List PlacedSymbol) :=
  if index < query.length then do
    let b ← itemAt query index
    if b = escapeByte ∧ index + 1 < query.length then
      let c ← itemAt query (index + 1)
      let later ← unitsFrom query (index + 2)
      return ⟨.literal c, ⟨index, index + 2⟩⟩ :: later
    else
      let later ← unitsFrom query (index + 1)
      return ⟨Symbol.ofByte b, ⟨index, index + 1⟩⟩ :: later
  else .ok []
termination_by query.length - index

/-! ## Pieces -/

/-- A part of a token, read as static text or as a variable, by ranges of bytes. -/
inductive RangeSegment where
  | static (range : Span)
  /-- A variable without wildcards: where its value is in the buffer, and what it is packed as. -/
  | exact (value : Span) (packed : Option Packed)
  /-- A variable of the given kind that a part of the query matches, and whether a star is at its ends. -/
  | wildcard (range : Span) (kind : Placeholder) (starBefore starBehind : Bool)
deriving DecidableEq, Repr

/-- The bytes that variables are shown from. -/
structure Store where
  buffer : Bytes
  /-- The ranges of the values that have been appended, each behind the range of the query that spells it. -/
  values : List (Span × Span)
deriving DecidableEq, Repr

/-- What is known of a piece once its units have been gone through. -/
structure PieceSummary where
  range : Span
  /-- The bytes that the literals stand for. -/
  literal : Bytes
  isEscaped : Bool
  starBefore : Bool
  starBehind : Bool
deriving DecidableEq, Repr

/-- Goes through the units of a piece. -/
def PieceSummary.ofUnits (piece : List PlacedSymbol) : Except Stop PieceSummary := do
  let first ← itemAt piece 0
  let last ← itemAt piece (piece.length - 1)
  return {
    range := ⟨first.span.start, last.span.stop⟩
    literal := piece.filterMap (·.symbol.literal?)
    isEscaped := piece.any PlacedSymbol.isEscaped
    starBefore := first.symbol == .star
    starBehind := last.symbol == .star }

namespace Store

/-- Where the value of a piece without wildcards is in the buffer.  It is appended if it takes an escape, unless that
has been done. -/
def valueOf (store : Store) (piece : PieceSummary) : Span × Store :=
  if piece.isEscaped then
    match store.values.lookup piece.range with
    | some value => (value, store)
    | none =>
      let value : Span := ⟨store.buffer.length, store.buffer.length + piece.literal.length⟩
      (value, ⟨store.buffer ++ piece.literal, store.values ++ [(piece.range, value)]⟩)
  else (piece.range, store)

/-- An alternative of a piece by its ranges. -/
def readSegment (width : Width) (piece : PieceSummary) (store : Store) : Segment → RangeSegment × Store
  | .static range => (.static range, store)
  | .exact _ =>
    let (value, store) := store.valueOf piece
    (.exact value (width.pack piece.literal), store)
  | .wildcard range kind => (.wildcard range kind piece.starBefore piece.starBehind, store)

/-- The alternatives of a piece by their ranges. -/
def readSegments (width : Width) (piece : PieceSummary) (store : Store) : List Segment → List RangeSegment × Store
  | [] => ([], store)
  | segment :: rest =>
    let (first, store) := store.readSegment width piece segment
    let (later, store) := store.readSegments width piece rest
    (first :: later, store)

/-- The alternatives of a piece that is given by its units. -/
def readPiece (schema : Schema) (width : Width) (store : Store) (piece : List PlacedSymbol) (context : Context) :
    Except Stop (List RangeSegment × Store) := do
  let summary ← PieceSummary.ofUnits piece
  let alternatives :=
    if summary.literal.length = piece.length then exactAlternatives schema summary.range summary.literal context
    else wildcardAlternatives schema summary.range (piece.map PlacedSymbol.symbol) context.precededBy
  return store.readSegments width summary alternatives

/-- The alternatives of the piece between two units, unless there is nothing between them. -/
def readBetween (schema : Schema) (width : Width) (run : List PlacedSymbol) (store : Store) (first last : Nat)
    (context : Context) : Except Stop (List (List RangeSegment) × Store) :=
  if first < last then do
    let piece ← partOf run ⟨first, last⟩
    let (slot, store) ← store.readPiece schema width piece context
    return ([slot], store)
  else .ok ([], store)

/-- The alternatives of each piece of a token from a unit on.  The split points are given by their indices, and those
at which the token is split by the digits of a number; `digit` is the digit for the first of them. -/
def pieces (schema : Schema) (width : Width) (run : List PlacedSymbol) (mask digit first : Nat) (context : Context)
    (store : Store) : List Nat → Except Stop (List (List RangeSegment) × Store)
  | [] => store.readBetween schema width run first run.length context
  | index :: rest =>
    if mask.testBit digit then do
      let unit ← itemAt run index
      let (last, next) := if unit.symbol = .star then (index + 1, index) else (index, index + 1)
      let (slots, store) ← store.readBetween schema width run first last context
      let delimiter := if unit.symbol = .any then [[.static unit.span]] else []
      let (later, store) ← pieces schema width run mask (digit + 1) next .split store rest
      return (slots ++ delimiter ++ later, store)
    else pieces schema width run mask (digit + 1) first context store rest

end Store

/-! ## Readings -/

/-- Adds a segment to a reading.  Static text that touches or overlaps the static text before it is joined to it. -/
def pushSegment (reading : List RangeSegment) (segment : RangeSegment) : List RangeSegment :=
  match reading.getLast?, segment with
  | some (.static last), .static next =>
    if next.start ≤ last.stop then reading.dropLast ++ [.static ⟨last.start, max last.stop next.stop⟩]
    else reading ++ [segment]
  | _, _ => reading ++ [segment]

/-- The product of two numbers, if it can be counted in a machine word. -/
def mulWord (m n : Nat) : Option Nat := if m * n < UInt64.size then some (m * n) else none

/-- The query has more subqueries than the limit. -/
def tooMany {α : Type} (limit : UInt64) : Except Stop α := .error (.refused (.tooManySubqueries limit.toNat))

/-- Goes on with each of some readings in every way that some pieces allow. -/
def grow (limit : UInt64) (readings : List (List RangeSegment)) :
    List (List RangeSegment) → Except Stop (List (List RangeSegment))
  | [] => .ok readings
  | slot :: slots =>
    match mulWord readings.length slot.length with
    | none => tooMany limit
    | some count =>
      if limit.toNat < count then tooMany limit
      else grow limit (readings.flatMap fun reading => slot.map (pushSegment reading)) slots

/-- Adds a reading unless it is there. -/
def addReading (readings : List (List RangeSegment)) (reading : List RangeSegment) : List (List RangeSegment) :=
  if readings.contains reading then readings else readings ++ [reading]

/-- A unit may stand for delimiters, given its index in a token of some length. -/
def isSplitPoint (length index : Nat) : Symbol → Bool
  | .any => true
  | .star => 0 < index && index + 1 < length
  | .literal _ => false

/-- The indices of the split points of a token. -/
def splitIndices (run : List PlacedSymbol) : List Nat :=
  (run.zipIdx.filter fun unit => isSplitPoint run.length unit.2 unit.1.symbol).map Prod.snd

namespace Store

/-- Collects the readings of a token for some sets of split points. -/
def collect (schema : Schema) (width : Width) (limit : UInt64) (run : List PlacedSymbol) (precededBy : Option UInt8)
    (readings : List (List RangeSegment)) (store : Store) :
    (masks : List Nat) → Except Stop (List (List RangeSegment) × Store)
  | [] => .ok (readings, store)
  | mask :: masks => do
    let (slots, store) ← store.pieces schema width run mask 0 0 (.known precededBy) (splitIndices run)
    let found ← grow limit [[]] slots
    let readings := found.foldl addReading readings
    if limit.toNat < readings.length then tooMany limit
    else collect schema width limit run precededBy readings store masks

/-- The readings of a token. -/
def choices (schema : Schema) (width : Width) (limit : UInt64) (run : List PlacedSymbol) (precededBy : Option UInt8)
    (store : Store) : Except Stop (List (List RangeSegment) × Store) :=
  let splits := (splitIndices run).length
  -- So many points that the number of their sets is no machine word are too many for every limit.
  if 64 ≤ splits ∨ limit.toNat < Nat.pow 2 splits then tooMany limit
  else store.collect schema width limit run precededBy [] (List.range (Nat.pow 2 splits))

end Store

end Query

end LogCodec
