import LogCodec.Bytes.Escaped
import LogCodec.Text.Quoted
import LogCodec.Wildcard.Match

/-!
# `LogCodec.Wildcard.Normal`: the normal form of a query

A query is normalized before it is decomposed: an escape byte at the end that escapes nothing is dropped, runs of `*`
become one, and an escape is kept only where the next byte would not stand for itself without it.  The symbols of a
query are read once, and its normal form is their spelling.  The same can be had without symbols, byte by byte.

## Contents
- `Pattern.collapse`, and `Pattern.ofQuery`, the symbols of a query in normal form.
- `Wildcard.normalize`, the normal form as a byte string, and `Wildcard.normalizeFrom`, which goes along the bytes.
- `Wildcard.isMatch` and `Wildcard.dump`, for spelled patterns.
-/

namespace LogCodec

namespace Pattern

/-- Replaces every run of stars by one star. -/
def collapse : Pattern → Pattern
  | .star :: .star :: p => collapse (.star :: p)
  | s :: p => s :: collapse p
  | [] => []

/-- The symbols of a query in normal form. -/
def ofQuery (query : Bytes) : Pattern := collapse (ofBytes (dropDangling query))

end Pattern

namespace Wildcard

/-- The normal form of a query. -/
def normalize (query : Bytes) : Bytes := Pattern.spell (Pattern.ofQuery query)

/-- The normal form of what follows in a query, byte by byte, given whether the byte before it is a star that is not
escaped. -/
def normalizeFrom (afterStar : Bool) : Bytes → Bytes
  | [] => []
  | b :: rest =>
    if b = starByte then if afterStar then normalizeFrom true rest else b :: normalizeFrom true rest
    else if b = escapeByte then
      match rest with
      | [] => []
      | c :: rest =>
        if Symbol.isReserved c then escapeByte :: c :: normalizeFrom false rest else c :: normalizeFrom false rest
    else b :: normalizeFrom false rest

/-- Decides whether a spelled pattern matches the whole text. -/
def isMatch (pattern text : Bytes) : Bool := Pattern.isMatch (Pattern.ofBytes pattern) text

/-- A spelled pattern as readable text. -/
def dump (pattern : Bytes) : String := "WildcardPattern(" ++ Text.quoted (Bytes.escaped pattern) ++ ")"

end Wildcard

end LogCodec
