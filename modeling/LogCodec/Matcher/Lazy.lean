import LogCodec.Logtype.NumberReader
import LogCodec.Matcher.Row

/-!
# `LogCodec.Matcher.Lazy`: the searches on a reader of numbers

The search for one number takes the numbers from a reader, one after the other, and leaves off at the first that
matches.  A matcher first collects all that the reader gives.

## Contents
- `Logtype.NumberReader.search`, the search for one number.
- `Matcher.acceptsCollected`, the search of a matcher.
-/

namespace LogCodec

/-- Looks for a number of the given kind that matches a pattern, among the numbers that a reader gives. -/
def Logtype.NumberReader.search (width : Width) (kind : Placeholder) (pattern : Pattern) (r : NumberReader) :
    Except DecodeError Bool :=
  match _h : r.next? with
  | none => .ok false
  | some (item, rest) => do
    let number ← item
    if Placeholder.number number.1 ≠ kind then search width kind pattern rest
    else
      let text ← width.render number.1 number.2
      if pattern.isMatch text then return true
      search width kind pattern rest
termination_by r.reader.left
decreasing_by all_goals exact left_lt_of_next? _h

/-- Decides whether the packed numbers of a message match the patterns, in order, once all of them are collected. -/
def Matcher.acceptsCollected (m : Matcher) (logtype : Bytes) (numbers : List Int64) : Except DecodeError Bool :=
  if m.patterns.isEmpty then .ok true
  else do
    let packed ← (Logtype.NumberReader.ofLogtype logtype numbers).collect
    if packed.length < m.size then return false
    m.searchRows (true :: List.replicate m.size false) packed

end LogCodec
