import LogCodec.Matcher

/-!
# `LogCodec.Matcher.Batch`: matching many messages

A batch has a logtype and a row of packed numbers for each message, and a slot for each result.  The lengths of the
three lists are compared before anything is matched.  Then the rows are matched in order, and each result is put into
its slot at once; the first row that cannot be matched ends the batch, and the slots of the rows before it keep what
was put into them.

## Contents
- `BatchError` and `BatchOutcome`.
- `Matcher.run`, and its two uses: `acceptsBatch` stores the results, `countBatch` counts them.
-/

namespace LogCodec

/-- Why a batch was not matched to its end. -/
inductive BatchError where
  /-- There is not one row of numbers for every logtype. -/
  | rowCount (expected actual : Nat)
  /-- There is not one slot for every logtype. -/
  | slotCount (expected actual : Nat)
  /-- The numbers of a row and its logtype do not fit together, or a number cannot be rendered. -/
  | row (index : Nat) (cause : DecodeError)
deriving DecidableEq, Repr

/-- The wording of a batch error. -/
def BatchError.message : BatchError → String
  | .rowCount expected actual => lengthMessage "encoded variable rows" expected actual
  | .slotCount expected actual => lengthMessage "batch results" expected actual
  | .row index cause => s!"row {index}: " ++ cause.message

/-- The slots after a batch, and the error that ended it, if one did. -/
structure BatchOutcome (α : Type) where
  slots : List α
  failure : Option BatchError
deriving DecidableEq, Repr

/-- The slots of a batch that no error ended. -/
def BatchOutcome.toExcept {α : Type} (outcome : BatchOutcome α) : Except BatchError (List α) :=
  match outcome.failure with
  | none => .ok outcome.slots
  | some e => .error e

namespace Matcher

/-- Compares the lengths of the lists of a batch. -/
def checkBatch (logtypes rows slots : Nat) : Except BatchError Unit :=
  if rows ≠ logtypes then .error (.rowCount logtypes rows)
  else if slots ≠ logtypes then .error (.slotCount logtypes slots)
  else .ok ()

/-- Matches rows in order, numbered from `row`, and updates the slot of each. -/
def runFrom {α : Type} (m : Matcher) (update : Bool → α → α) (row : Nat) :
    List (Bytes × List Int64) → List α → BatchOutcome α
  | message :: messages, slot :: slots =>
    match m.accepts message.1 message.2 with
    | .ok accepted =>
      let rest := m.runFrom update (row + 1) messages slots
      ⟨update accepted slot :: rest.slots, rest.failure⟩
    | .error cause => ⟨slot :: slots, some (.row row cause)⟩
  | _, slots => ⟨slots, none⟩

/-- Matches a batch and updates the slot of each row. -/
def run {α : Type} (m : Matcher) (update : Bool → α → α) (logtypes : List Bytes) (rows : List (List Int64))
    (slots : List α) : BatchOutcome α :=
  match checkBatch logtypes.length rows.length slots.length with
  | .error cause => ⟨slots, some cause⟩
  | .ok () => m.runFrom update 0 (logtypes.zip rows) slots

/-- Matches a batch and stores the result of each row. -/
def acceptsBatch (m : Matcher) (logtypes : List Bytes) (rows : List (List Int64)) (results : List Bool) :
    BatchOutcome Bool :=
  m.run (fun accepted _ => accepted) logtypes rows results

/-- Matches a batch and adds one to the counter of each row that is accepted. -/
def countBatch (m : Matcher) (logtypes : List Bytes) (rows : List (List Int64)) (counts : List Nat) :
    BatchOutcome Nat :=
  m.run (fun accepted count => if accepted then count + 1 else count) logtypes rows counts

end Matcher

end LogCodec
