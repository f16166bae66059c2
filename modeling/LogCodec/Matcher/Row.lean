import LogCodec.Matcher

/-!
# `LogCodec.Matcher.Row`: the search as a table of one row

Whether patterns match numbers in order is a recurrence: the first `j + 1` patterns match among some numbers if they
match among all but the last of them, or if the first `j` do and the last number matches the pattern that is left.  Of
the table of this recurrence one row is enough.  It is updated in place for each number, from its end to its front, so
that a cell still finds the cell before it as the earlier numbers left it and no number serves two patterns.

`Matcher.accepts` keeps no row, but how many patterns have been matched; the row shows what that number stands for.

## Contents
- `Row`, with `visit` for one cell and `sweep` for all of them.
- `Matcher.acceptsByRow`, the search with a row.
-/

namespace LogCodec.Matcher

/-- The state of the search while a number is looked at. -/
structure Row where
  /-- Cell `j` tells whether the first `j` patterns match among the numbers so far. -/
  cells : List Bool
  /-- The text of the number, once a cell has asked for it. -/
  text : Option Bytes
deriving DecidableEq, Repr

namespace Row

/-- What a cell tells. -/
def holds (row : Row) (j : Nat) : Bool := row.cells.getD j false

/-- The text of the number, which is rendered only once. -/
def render (row : Row) (width : Width) (number : Packed) : Except DecodeError Bytes :=
  match row.text with
  | some text => .ok text
  | none => width.render number.1 number.2

/-- Updates the cell behind the pattern at a position.  Nothing is to be done if the cell is set already, or the one
before it is not, or the number is of another kind. -/
def visit (width : Width) (number : Packed) (row : Row) (pattern : NumberPattern × Nat) : Except DecodeError Row :=
  if row.holds (pattern.2 + 1) ∨ ¬ row.holds pattern.2 ∨ pattern.1.1 ≠ number.1 then .ok row
  else do
    let text ← row.render width number
    let cells := if pattern.1.2.isMatch text then row.cells.set (pattern.2 + 1) true else row.cells
    return ⟨cells, some text⟩

end Row

/-- Updates all cells for a number, the one behind the last pattern first. -/
def sweep (m : Matcher) (number : Packed) (cells : List Bool) : Except DecodeError Row :=
  m.patterns.zipIdx.reverse.foldlM (Row.visit m.width number) ⟨cells, none⟩

/-- Updates the cells for one number after the other, until the cell behind the last pattern is set. -/
def searchRows (m : Matcher) : List Bool → List Packed → Except DecodeError Bool
  | _, [] => .ok false
  | cells, number :: rest => do
    let row ← m.sweep number cells
    if row.holds m.size then return true
    m.searchRows row.cells rest

/-- Decides with a row whether the packed numbers of a message match the patterns, in order.  Before the first number
only the empty list of patterns matches. -/
def acceptsByRow (m : Matcher) (logtype : Bytes) (numbers : List Int64) : Except DecodeError Bool :=
  if m.patterns.isEmpty then .ok true
  else do
    let packed ← (Logtype.typedNumbers logtype numbers).toExcept
    if packed.length < m.size then return false
    m.searchRows (true :: List.replicate m.size false) packed

end LogCodec.Matcher
