import LogCodec.Codec
import LogCodec.Query.Combination
import LogCodec.Query.Reading
import LogCodec.Query.Subquery

/-!
# `LogCodec.Query.Decomposition`: from a query to its subqueries

A query is normalized and cut into gaps and tokens.  Every combination of one reading for each of them makes one
subquery; a message meets the query if its encoded form meets one of the subqueries.

The byte strings in the conditions are excerpts of one buffer, which starts with the normalized query.  A value without
wildcards whose spelling takes escapes does not lie there as it is; such values are appended to the buffer, in the order
in which they are met.

## Contents
- `Part.appended` and `buffer`: what the excerpts are excerpts of.
- `ReadPart`, with `items`, and `readParts`: the parts of a query with their readings.
- `Decomposition`, with `subqueries`, and `subquery?`, which makes one of them alone (`subquery?_eq_getElem?`).
- `QueryError`, and `decompose`, which takes a query apart within a limit.
-/

namespace LogCodec

namespace Query

/-- Why a query has no subqueries. -/
inductive QueryError where
  /-- The normal form of the query is empty. -/
  | empty
  | tooManySubqueries (limit : Nat)
deriving DecidableEq, Repr

/-- The wording of a query error. -/
def QueryError.message : QueryError → String
  | .empty => "wildcard query cannot be empty"
  | .tooManySubqueries limit => s!"query expands to more than {limit} subqueries"

/-! ## The buffer -/

/-- The places in a part of the values that are appended to the buffer: those that may be a variable without wildcards
and whose spelling takes an escape, as they are met when the part is read. -/
def Part.appended (schema : Schema) : Part → List Span
  | gap _ => []
  | token piece precededBy =>
    -- No part of a token takes an escape unless the token does, so most tokens need no search.
    if piece.symbols.isEscaped then
      ((selections (splitPoints piece.symbols)).flatMap fun selected =>
        (cuts piece.symbols.length precededBy selected).flatMap fun cut =>
          (cut.alternatives schema piece).filterMap fun
            | .exact span => if (piece.slice span).isEscaped then some span else none
            | _ => none).eraseDups
    else []

/-- The values at some places of a piece, one behind the other. -/
def Piece.values (p : Piece) (spans : List Span) : Bytes :=
  spans.flatMap fun span => Pattern.literals (p.slice span)

/-- The buffer for a query: its spelling, and the values that are appended. -/
def buffer (schema : Schema) (symbols : Pattern) : Bytes :=
  symbols.spell ++ (parts schema symbols).flatMap fun part => part.piece.values (part.appended schema)

/-- The spelling of a part of a piece. -/
def Piece.spelled (p : Piece) (span : Span) : Excerpt := ⟨(p.part span).start, (p.part span).symbols.spell⟩

/-- The value of a part of a piece without wildcards: its spelling, if that takes no escape, or what is appended for it
to a buffer that has `filled` bytes before the values of the piece are appended. -/
def Piece.value (p : Piece) (filled : Nat) (appended : List Span) (span : Span) : Excerpt :=
  let symbols := p.slice span
  if symbols.isEscaped then ⟨filled + (p.values (appended.takeWhile (· != span))).length, symbols.literals⟩
  else p.spelled span

/-! ## Items -/

/-- The condition that a value without wildcards puts on a variable. -/
def exactQuery (width : Width) (value : Excerpt) : VariableQuery Excerpt :=
  match width.pack value.bytes with
  | some (kind, packed) => .number kind packed
  | none => .value value

/-- A part of a query with all its readings. -/
structure ReadPart where
  piece : Piece
  readings : List Reading
  /-- The number of bytes that the buffer has before the values of the part are appended. -/
  filled : Nat
  /-- The places of the values that are appended. -/
  appended : List Span
deriving DecidableEq, Repr

namespace ReadPart

/-- The items for a segment. -/
def items (p : ReadPart) (width : Width) : Segment → List Item
  | .static span => (p.piece.slice span).map Item.ofSymbol
  | .exact span => [.variable (exactQuery width (p.piece.value p.filled p.appended span))]
  | .wildcard span kind =>
    (if (p.piece.slice span).startsWithStar then [.star] else []) ++
      .variable (.pattern kind (p.piece.spelled span)) ::
      (if (p.piece.slice span).endsWithStar then [.star] else [])

/-- The segments of the readings, each of them once. -/
def segments (p : ReadPart) : List Segment := distinctBy Segment.key p.readings.flatten

end ReadPart

/-- The parts of a query with their readings, given how many bytes the buffer has before the values of the first part
are appended.  There is no answer if some part has more readings than the limit. -/
def readParts (schema : Schema) (limit filled : Nat) : List Part → Option (List ReadPart)
  | [] => some []
  | part :: rest => do
    let readings ← part.readings schema limit
    let appended := part.appended schema
    let later ← readParts schema limit (filled + (part.piece.values appended).length) rest
    return ⟨part.piece, readings, filled, appended⟩ :: later

/-! ## Subqueries -/

/-- A query taken apart. -/
structure Decomposition where
  /-- The width of the packed numbers that are searched. -/
  width : Width
  parts : List ReadPart
deriving DecidableEq, Repr

namespace Decomposition

/-- The readings of each part. -/
def choices (d : Decomposition) : List (List Reading) := d.parts.map ReadPart.readings

/-- The number of subqueries. -/
def count (d : Decomposition) : Nat := combinationCount d.choices

/-- The subquery for one reading of each part. -/
def subqueryOf (d : Decomposition) (readings : List Reading) : Subquery :=
  ⟨Item.collapse ((d.parts.zip readings).flatMap fun (part, reading) => reading.flatMap (part.items d.width))⟩

/-- All subqueries. -/
def subqueries (d : Decomposition) : List Subquery := (combinations d.choices).map d.subqueryOf

/-- The subquery at an index, made without making those before it. -/
def subquery? (d : Decomposition) (index : Nat) : Option Subquery :=
  if index < d.count then (combination? d.choices index).map d.subqueryOf else none

/-- The subquery that is made alone is the one at its index among all. -/
theorem subquery?_eq_getElem? (d : Decomposition) (index : Nat) : d.subquery? index = d.subqueries[index]? := by
  rw [subquery?, subqueries, List.getElem?_map]
  split
  · next h => rw [getElem?_combinations h]
  · next h => rw [List.getElem?_eq_none (by rw [length_combinations]; exact Nat.le_of_not_lt h)]; rfl

/-- The first subqueries, not more than the given number. -/
def first (d : Decomposition) (most : Nat) : List Subquery := (List.range (min most d.count)).filterMap d.subquery?

/-- The last subquery. -/
def last? (d : Decomposition) : Option Subquery := d.subquery? (d.count - 1)

theorem length_subqueries (d : Decomposition) : d.subqueries.length = d.count := by
  rw [subqueries, List.length_map, length_combinations, count]

theorem first_eq_take (d : Decomposition) (most : Nat) : d.first most = d.subqueries.take most := by
  have hrange : ∀ n, (List.range n).filterMap d.subquery? = d.subqueries.take n := by
    intro n
    induction n with
    | zero => simp
    | succ n ih =>
      rw [List.range_succ, List.filterMap_append, ih, List.take_add_one, ← d.subquery?_eq_getElem?]
      cases h : d.subquery? n <;> simp [h]
  rw [first, hrange, ← length_subqueries, ← List.take_eq_take_min]

theorem last?_eq_getLast? (d : Decomposition) : d.last? = d.subqueries.getLast? := by
  rw [last?, d.subquery?_eq_getElem?, List.getLast?_eq_getElem?, length_subqueries]

/-- The number of different conditions on variables.  Every segment of every reading has its place in some subquery, so
the segments are gone through and not the subqueries. -/
def distinctConditions (d : Decomposition) : Nat :=
  let items := d.parts.flatMap fun part => part.segments.flatMap (part.items d.width)
  (distinctBy VariableQuery.key (Subquery.mk items).conditions).length

end Decomposition

/-- Takes a query apart.  It may not have more subqueries than the limit. -/
def decompose (schema : Schema) (width : Width) (limit : Nat) (query : Bytes) : Except QueryError Decomposition :=
  let symbols := Pattern.ofQuery query
  if symbols = [] then .error .empty
  else
    match readParts schema limit symbols.spell.length (parts schema symbols) with
    | none => .error (.tooManySubqueries limit)
    | some parts =>
      let d : Decomposition := ⟨width, parts⟩
      if limit < d.count then .error (.tooManySubqueries limit) else .ok d

end Query

/-- Takes a query apart. -/
def Codec.decompose (c : Codec) (query : Bytes) : Except Query.QueryError Query.Decomposition :=
  Query.decompose c.schema c.width c.maxSubqueries query

end LogCodec
