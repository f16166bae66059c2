import LogCodec.Schema
import LogCodec.Wildcard.Normal

/-!
# `LogCodec.Query.Part`: gaps and tokens of a query

The symbols of a query are cut where delimiters start and end.  A gap is a run of literal delimiters.  A token is a
run of wildcards and literals that are no delimiters; whether it is static text or holds variables is for the schema
to say.

## Contents
- `Piece`: a run of symbols that knows its place in the query.
- `Part`, and `parts`, which cuts a query.
-/

namespace LogCodec.Query

/-- A run of symbols of a query. -/
structure Piece where
  /-- The number of bytes that spell the symbols before the run. -/
  start : Nat
  symbols : Pattern
deriving DecidableEq, Repr

namespace Piece

/-- The number of bytes that spell the symbols up to the end of the run. -/
def stop (p : Piece) : Nat := p.start + p.symbols.spell.length

/-- The symbols of a piece between two positions, which count from its first symbol. -/
def slice (p : Piece) (span : Span) : Pattern := span.slice p.symbols

/-- The part of a piece between two positions, which count from its first symbol. -/
def part (p : Piece) (span : Span) : Piece :=
  ⟨p.start + (Pattern.spell (p.symbols.take span.start)).length, p.slice span⟩

end Piece

/-- A part of a query. -/
inductive Part where
  /-- A run of delimiters. -/
  | gap (piece : Piece)
  /-- A token, with the byte before it unless it stands at the start of the query. -/
  | token (piece : Piece) (precededBy : Option UInt8)
deriving DecidableEq, Repr

/-- The symbols of a part. -/
def Part.piece : Part → Piece
  | gap piece => piece
  | token piece _ => piece

/-- The symbol belongs to a token. -/
def inToken (schema : Schema) : Symbol → Bool
  | .literal b => !schema.isDelimiter b
  | _ => true

/-- Cuts the symbols from a place on, given the byte before them. -/
def partsFrom (schema : Schema) (start : Nat) (precededBy : Option UInt8) : Pattern → List Part
  | [] => []
  | s :: rest =>
    let member := inToken schema s
    let piece : Piece := ⟨start, s :: rest.takeWhile fun r => inToken schema r == member⟩
    let part := if member then Part.token piece precededBy else Part.gap piece
    part :: partsFrom schema piece.stop (piece.symbols.getLast?.bind Symbol.literal?)
      (rest.dropWhile fun r => inToken schema r == member)
termination_by symbols => symbols.length
decreasing_by
  have := (List.dropWhile_suffix (l := rest) fun r => inToken schema r == inToken schema s).length_le
  simp only [List.length_cons]
  omega

/-- Cuts the symbols of a query into gaps and tokens. -/
def parts (schema : Schema) (symbols : Pattern) : List Part := partsFrom schema 0 none symbols

end LogCodec.Query
