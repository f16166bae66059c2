import LogCodec.Query.Part

/-!
# `LogCodec.Query.Cut`: where the wildcards of a token may stand for delimiters

A wildcard within a token may match delimiters, and then the token is several tokens of the message.  This can happen
at every `?` and at every `*` that has symbols on both sides: these are the split points.  For each selection of split
points the token is cut into pieces.  A `*` that is split belongs to the piece that it ends and to the piece that it
starts; a `?` that is split is the delimiter itself.

## Contents
- `SplitPoint`, with `splitPoints`, which lists those of a token, and `selections`, which lists what can be selected
  from them.
- `Cut`, and `cuts`, which cuts a token at the selected points.
-/

namespace LogCodec.Query

/-- A wildcard of a token that may stand for delimiters, by its position in the token. -/
inductive SplitPoint where
  | star (index : Nat)
  | any (index : Nat)
deriving DecidableEq, Repr

/-- The points at which a token may be split, from a position on. -/
def splitPointsFrom (index : Nat) : Pattern → List SplitPoint
  | [] => []
  | .any :: rest => .any index :: splitPointsFrom (index + 1) rest
  | .star :: rest =>
    -- A star at either end of the token need not be split: what it stands for lies outside.
    if 0 < index && !rest.isEmpty then .star index :: splitPointsFrom (index + 1) rest
    else splitPointsFrom (index + 1) rest
  | .literal _ :: rest => splitPointsFrom (index + 1) rest

/-- The points at which a token may be split. -/
def splitPoints (symbols : Pattern) : List SplitPoint := splitPointsFrom 0 symbols

/-- All selections from a list, in the order in which binary counting goes through them: the first member of the list
is the lowest digit. -/
def selections {α : Type} : List α → List (List α)
  | [] => [[]]
  | x :: rest => (selections rest).flatMap fun selected => [selected, x :: selected]

/-- What is known of the byte before a piece in a matching message. -/
inductive Context where
  /-- The byte before the token in the query, or nothing at the start of the query. -/
  | known (precededBy : Option UInt8)
  /-- Some delimiter that a wildcard stands for. -/
  | split
deriving DecidableEq, Repr

namespace Context

/-- The byte before a piece, if it is known. -/
def precededBy : Context → Option UInt8
  | known b => b
  | split => none

end Context

/-- A part of a token that is cut at split points; positions count from the first symbol of the token. -/
inductive Cut where
  /-- A piece between split points. -/
  | piece (span : Span) (context : Context)
  /-- A `?` that stands for a delimiter. -/
  | delimiter (index : Nat)
deriving DecidableEq, Repr

/-- The piece between two positions, unless there is nothing between them. -/
def cutBetween (first last : Nat) (context : Context) : List Cut :=
  if first < last then [.piece ⟨first, last⟩ context] else []

/-- Cuts what a token of the given length has from a position on at the selected points. -/
def cutsFrom (length first : Nat) (context : Context) : List SplitPoint → List Cut
  | [] => cutBetween first length context
  -- A star that is split ends one piece and starts the next; a `?` that is split belongs to neither.
  | .star index :: rest => cutBetween first (index + 1) context ++ cutsFrom length index .split rest
  | .any index :: rest =>
    cutBetween first index context ++ .delimiter index :: cutsFrom length (index + 1) .split rest

/-- Cuts a token of the given length, with the given byte before it, at the selected points. -/
def cuts (length : Nat) (precededBy : Option UInt8) (selected : List SplitPoint) : List Cut :=
  cutsFrom length 0 (.known precededBy) selected

end LogCodec.Query
