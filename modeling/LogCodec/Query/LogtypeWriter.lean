import LogCodec.Query.Subquery

/-!
# `LogCodec.Query.LogtypeWriter`: the pattern for a logtype, written from left to right

The spelled pattern for the logtype of a subquery is written once for each subquery, part by part, with nothing taken
back.  Two escapes meet in it: a byte of static text is escaped as logtypes escape it, and what comes out is escaped
again where a pattern would read it as something else.  Parts of a query that were split at a star both have the star,
so the writer remembers whether it has just written one.

## Contents
- `LogtypeWriter`, with `star`, `any`, `literal` and `place`, which write one item each.
- `LogtypeWriter.text`, which writes a part of a query as static text.
-/

namespace LogCodec

/-- The pattern for a logtype as far as it is written. -/
structure LogtypeWriter where
  bytes : Bytes
  /-- A wildcard has been written. -/
  hasWildcards : Bool
  /-- The last byte is a star that is not escaped. -/
  afterStar : Bool
deriving DecidableEq, Repr

namespace LogtypeWriter

/-- Nothing is written. -/
def empty : LogtypeWriter := ⟨[], false, false⟩

/-- Writes a star, unless there is one already. -/
def star (w : LogtypeWriter) : LogtypeWriter where
  bytes := if w.afterStar then w.bytes else w.bytes ++ [starByte]
  hasWildcards := true
  afterStar := true

/-- Writes the wildcard for one byte. -/
def any (w : LogtypeWriter) : LogtypeWriter := ⟨w.bytes ++ [anyByte], true, false⟩

/-- A byte of static text as it is written: escaped for the logtype, and then for the pattern. -/
def spelled (b : UInt8) : Bytes :=
  if b = starByte ∨ b = anyByte then [escapeByte, b]
  else if b = escapeByte then [escapeByte, escapeByte, escapeByte, escapeByte]
  else if isPlaceholder b then [escapeByte, escapeByte, b]
  else [b]

/-- Writes a byte of static text. -/
def literal (w : LogtypeWriter) (b : UInt8) : LogtypeWriter := ⟨w.bytes ++ spelled b, w.hasWildcards, false⟩

/-- Writes the place of a variable. -/
def place (w : LogtypeWriter) (p : Placeholder) : LogtypeWriter := ⟨w.bytes ++ [p.toByte], w.hasWildcards, false⟩

/-- Writes a symbol of a query as static text. -/
def symbol (w : LogtypeWriter) : Symbol → LogtypeWriter
  | .star => w.star
  | .any => w.any
  | .literal b => w.literal b

/-- Writes a part of a query as static text. -/
def text (w : LogtypeWriter) (query : Bytes) : LogtypeWriter := (Pattern.ofBytes query).foldl symbol w

end LogtypeWriter

end LogCodec
