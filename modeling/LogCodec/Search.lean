import LogCodec.Matcher.Batch
import LogCodec.Message

/-!
# `LogCodec.Search`: encoded messages searched with subqueries

To be searched, encoded messages are laid out in two columns: their logtypes and their rows of packed numbers.  A
subquery is tried on each column by itself.
-/

namespace LogCodec

/-- Encoded messages, laid out for a search. -/
structure Columns where
  logtypes : List Bytes
  rows : List (List Int64)
deriving DecidableEq, Repr

namespace Columns

/-- Lays out encoded messages. -/
def ofMessages (messages : List EncodedMessage) : Columns where
  logtypes := messages.map (·.logtype)
  rows := messages.map (·.numbers)

/-- Which of the logtypes meet a subquery. -/
def logtypeResults (columns : Columns) (s : Subquery) : List Bool := columns.logtypes.map s.logtypePattern.isMatch

/-- Which of the rows have numbers that match the patterns of a subquery, in order. -/
def numberResults (columns : Columns) (width : Width) (s : Subquery) : Except BatchError (List Bool) :=
  ((Matcher.ofSubquery width s).acceptsBatch columns.logtypes columns.rows
    (List.replicate columns.logtypes.length false)).toExcept

/-- For each row, how many of some subqueries have patterns that its numbers match. -/
def counts (columns : Columns) (width : Width) (subqueries : List Subquery) : List Nat :=
  subqueries.foldl
    (fun counts s => ((Matcher.ofSubquery width s).countBatch columns.logtypes columns.rows counts).slots)
    (List.replicate columns.logtypes.length 0)

end Columns

end LogCodec
