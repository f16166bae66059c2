import LogCodec.Matcher.Batch
import LogCodec.Matcher.Lazy

/-!
# `LogCodec.Matcher.InPlace`: a batch on its slots

The slots of a batch are gone through once, and each is updated where it is.  The logtype and the numbers of a row are
looked up by its number, and the row is searched with a table.  A look-up that misses its list stops everything, and so
may a counter: it has four bytes, and a full one either stops everything or starts over at zero.

## Contents
- `countUp`, a counter with one added.
- `Matcher.updateFrom` and `Matcher.runInPlace`, the loop over the slots.
- `Matcher.acceptsBatchInPlace` and `Matcher.countBatchInPlace`, its two uses.
-/

namespace LogCodec

/-- Adds one to a counter.  A full one starts over if it `wraps`, and else there is no result. -/
def countUp (wraps : Bool) (count : UInt32) : Option UInt32 :=
  if count = 0xFFFFFFFF ∧ wraps = false then none else some (count + 1)

namespace Matcher

/-- Matches the rows from a row on, and updates the slot of each. -/
def updateFrom {α : Type} (m : Matcher) (update : Bool → α → Option α) (logtypes : List Bytes)
    (rows : List (List Int64)) (row : Nat) (slots : List α) : Option (BatchOutcome α) :=
  match _h : slots[row]? with
  | none => some ⟨slots, none⟩
  | some slot => do
    let logtype ← logtypes[row]?
    let numbers ← rows[row]?
    match m.acceptsCollected logtype numbers with
    | .error cause => return ⟨slots, some (.row row cause)⟩
    | .ok accepted =>
      let updated ← update accepted slot
      updateFrom m update logtypes rows (row + 1) (slots.set row updated)
termination_by slots.length - row
decreasing_by
  have hlt : row < slots.length := (List.getElem?_eq_some_iff.mp _h).1
  rw [List.length_set]
  omega

/-- Matches a batch and updates the slot of each row. -/
def runInPlace {α : Type} (m : Matcher) (update : Bool → α → Option α) (logtypes : List Bytes)
    (rows : List (List Int64)) (slots : List α) : Option (BatchOutcome α) :=
  match checkBatch logtypes.length rows.length slots.length with
  | .error cause => some ⟨slots, some cause⟩
  | .ok () => m.updateFrom update logtypes rows 0 slots

/-- Matches a batch and stores the result of each row. -/
def acceptsBatchInPlace (m : Matcher) (logtypes : List Bytes) (rows : List (List Int64)) (results : List Bool) :
    Option (BatchOutcome Bool) :=
  m.runInPlace (fun accepted _ => some accepted) logtypes rows results

/-- Matches a batch and adds one to the counter of each row that is accepted. -/
def countBatchInPlace (m : Matcher) (wraps : Bool) (logtypes : List Bytes) (rows : List (List Int64))
    (counts : List UInt32) : Option (BatchOutcome UInt32) :=
  m.runInPlace (fun accepted count => if accepted then countUp wraps count else some count) logtypes rows counts

end Matcher

end LogCodec
