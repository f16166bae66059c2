import LogCodec.Packing.Checked
import LogCodec.Query.InPlace

/-!
# `LogCodec.Query.Words`: a query taken apart with machine words

The set of points at which a token is split is a word of the machine: the digit of a point is set if the token is split
there.  A digit is looked at by means of a word that has no other one, and that word is made by a shift.  The number of
sets is made by a shift, too.  Shifted by as many places as a word has or more, a word would be anything, so here such a
shift stops everything.

## Contents
- `WordStop`, with `powerOfTwo`, the shift that may stop.
- `Store.piecesInWords`, `collectInWords` and `choicesInWords`: the readings of a token.
- `tokensFromInWords`, `tokenizeInWords` and `decomposeInWords`: the tokens and the subqueries of a query.
-/

namespace LogCodec

/-- What ends the work on a query early when it is done with machine words. -/
inductive Query.WordStop where
  | stop (cause : Stop)
  /-- A shift has no result that a word of the machine holds. -/
  | overflow
deriving DecidableEq, Repr

namespace Query

/-- Work that needs no shift. -/
def unshifted {α : Type} (work : Except Stop α) : Except WordStop α := work.mapError .stop

/-- The word that has one digit, at the given place. -/
def powerOfTwo (place : Nat) : Except WordStop UInt64 := (Word.shift 1 place).mapError fun _ => .overflow

namespace Store

/-- The alternatives of each piece of a token from a unit on, with the points at which it is split given by the digits
of a word. -/
def piecesInWords (schema : Schema) (width : Width) (run : List PlacedSymbol) (mask : UInt64) (digit first : Nat)
    (context : Context) (store : Store) : List Nat → Except WordStop (List (List RangeSegment) × Store)
  | [] => unshifted (store.readBetween schema width run first run.length context)
  | index :: rest => do
    let place ← powerOfTwo digit
    if mask &&& place = 0 then piecesInWords schema width run mask (digit + 1) first context store rest
    else
      let unit ← unshifted (itemAt run index)
      let (last, next) := if unit.symbol = .star then (index + 1, index) else (index, index + 1)
      let (slots, store) ← unshifted (store.readBetween schema width run first last context)
      let delimiter := if unit.symbol = .any then [[.static unit.span]] else []
      let (later, store) ← piecesInWords schema width run mask (digit + 1) next .split store rest
      return (slots ++ delimiter ++ later, store)

end Store

end Query

end LogCodec
