import LogCodec.Query.LogtypeWriter
import LogCodec.Query.Ranges

/-!
# `LogCodec.Query.InPlace`: a query taken apart by ranges

The units of a query are gone through once to find its tokens.  Tokens that are always static text are left out, and
each of the others keeps its range and its readings.  Then the subqueries are built one after the other: a choice of one
reading for each token is a list of indices, which counts up like an odometer with the first token fastest.  Building
goes along the tokens and writes what lies between them as static text.

## Contents
- `QueryToken`, and `tokensFrom`, which finds the tokens from a unit on.
- `Draft`, and `build`, which makes the subquery for one choice.
- `advance`, and `buildAll`, which goes on until every choice has had its turn.
- `decomposeInPlace`: all subqueries of a query, within a limit.
-/

namespace LogCodec.Query

/-! ## Tokens -/

/-- A token that holds a variable in some reading. -/
structure QueryToken where
  range : Span
  choices : List (List RangeSegment)
deriving DecidableEq, Repr

/-- The only reading is static text. -/
def isAlwaysStatic : List (List RangeSegment) → Bool
  | [[.static _]] => true
  | _ => false

/-- Where the run of members of tokens ends that goes on at an index. -/
def runEnd (schema : Schema) (units : List PlacedSymbol) (index : Nat) : Nat :=
  if _h : index < units.length then
    if inToken schema units[index].symbol then runEnd schema units (index + 1) else index
  else index
termination_by units.length - index

theorem le_runEnd (schema : Schema) (units : List PlacedSymbol) (index : Nat) :
    index ≤ runEnd schema units index := by
  fun_induction runEnd schema units index with
  | case1 index _ _ ih => exact Nat.le_of_succ_le ih
  | case2 index _ _ => exact Nat.le_refl index
  | case3 index _ => exact Nat.le_refl index

theorem lt_runEnd {schema : Schema} {units : List PlacedSymbol} {index : Nat} (h : index < units.length)
    (hmember : inToken schema units[index].symbol = true) : index < runEnd schema units index := by
  unfold runEnd
  rw [dif_pos h, if_pos hmember]
  exact le_runEnd schema units (index + 1)

/-- The byte before a unit, if a literal stands there. -/
def byteBefore (units : List PlacedSymbol) : (index : Nat) → Except Stop (Option UInt8)
  | 0 => .ok none
  | index + 1 => do
    let unit ← itemAt units index
    return unit.symbol.literal?

/-- The tokens from a unit on, and the buffer behind them. -/
def tokensFrom (schema : Schema) (width : Width) (limit : UInt64) (units : List PlacedSymbol) (index : Nat)
    (store : Store) : Except Stop (List QueryToken × Store) :=
  if _h : index < units.length then
    if _hmember : inToken schema units[index].symbol = true then do
      let run ← partOf units ⟨index, runEnd schema units index⟩
      let first ← itemAt run 0
      let last ← itemAt run (run.length - 1)
      let precededBy ← byteBefore units index
      let (choices, store) ← store.choices schema width limit run precededBy
      let (later, store) ← tokensFrom schema width limit units (runEnd schema units index) store
      if isAlwaysStatic choices then return (later, store)
      else return (⟨⟨first.span.start, last.span.stop⟩, choices⟩ :: later, store)
    else tokensFrom schema width limit units (index + 1) store
  else .ok ([], store)
termination_by units.length - index
decreasing_by
  · have := lt_runEnd _h _hmember
    omega
  · omega

/-! ## Subqueries -/

/-- Conditions on encoded messages, with byte strings as views of a buffer. -/
structure BuiltSubquery where
  logtypeQuery : Bytes
  hasWildcards : Bool
  vars : List (VariableQuery View)
deriving DecidableEq, Repr

/-- A subquery of which the front is built. -/
structure Draft where
  writer : LogtypeWriter
  vars : List (VariableQuery View)
deriving DecidableEq, Repr

/-- The view of a range of a buffer. -/
def viewOf (buffer : Bytes) (range : Span) : Except Stop View := (View.cut buffer range).mapError .misuse

namespace Draft

/-- Nothing is built. -/
def empty : Draft := ⟨.empty, []⟩

/-- Adds a range of the query as static text. -/
def text (query : Bytes) (draft : Draft) (range : Span) : Except Stop Draft := do
  let part ← partOf query range
  return ⟨draft.writer.text part, draft.vars⟩

/-- Adds a segment. -/
def segment (buffer query : Bytes) (draft : Draft) : RangeSegment → Except Stop Draft
  | .static range => draft.text query range
  | .exact _ (some (kind, packed)) =>
    .ok ⟨draft.writer.place (.number kind), draft.vars ++ [.number kind packed]⟩
  | .exact value none => do
    let view ← viewOf buffer value
    return ⟨draft.writer.place .dictionary, draft.vars ++ [.value view]⟩
  | .wildcard range kind starBefore starBehind => do
    let writer := if starBefore then draft.writer.star else draft.writer
    let writer := writer.place kind
    let writer := if starBehind then writer.star else writer
    let view ← viewOf buffer range
    return ⟨writer, draft.vars ++ [.pattern kind view]⟩

/-- Adds tokens with the index of a reading for each, and what lies between them from a position of the query on. -/
def tokens (buffer query : Bytes) (draft : Draft) (position : Nat) : List (QueryToken × Nat) → Except Stop Draft
  | [] => draft.text query ⟨position, query.length⟩
  | (token, choice) :: rest => do
    let draft ← draft.text query ⟨position, token.range.start⟩
    let reading ← itemAt token.choices choice
    let draft ← reading.foldlM (segment buffer query) draft
    tokens buffer query draft token.range.stop rest

end Draft

/-- The subquery for one reading of each token. -/
def build (buffer query : Bytes) (tokens : List QueryToken) (choices : List Nat) : Except Stop BuiltSubquery := do
  let draft ← Draft.empty.tokens buffer query 0 (tokens.zip choices)
  return ⟨draft.writer.bytes, draft.writer.hasWildcards, draft.vars⟩

/-! ## Choices -/

/-- The next choice, given how many readings each token has; the first index changes fastest.  There is none behind the
last choice. -/
def advance : (counts choices : List Nat) → Option (List Nat)
  | count :: counts, choice :: choices =>
    if choice + 1 < count then some ((choice + 1) :: choices) else (advance counts choices).map (0 :: ·)
  | _, _ => none

/-- How many choices follow a choice. -/
def ahead : (counts choices : List Nat) → Nat
  | count :: counts, choice :: choices => (count - 1 - choice) + max count 1 * ahead counts choices
  | _, _ => 0

theorem ahead_lt_of_advance {counts choices next : List Nat} (h : advance counts choices = some next) :
    ahead counts next < ahead counts choices := by
  induction counts generalizing choices next with
  | nil => cases h
  | cons count counts ih =>
    cases choices with
    | nil => cases h
    | cons choice choices =>
      rw [advance] at h
      split at h
      · next hlt =>
        cases h
        simp only [ahead]
        omega
      · obtain ⟨later, hlater, rfl⟩ := Option.map_eq_some_iff.mp h
        have hmore := Nat.mul_le_mul_left (max count 1) (Nat.succ_le_of_lt (ih hlater))
        rw [Nat.mul_succ] at hmore
        simp only [ahead]
        omega

/-- The subqueries for a choice and all that follow it. -/
def buildAll {α : Type} (make : List Nat → Except Stop α) (counts choices : List Nat) : Except Stop (List α) := do
  let first ← make choices
  match _h : advance counts choices with
  | none => return [first]
  | some next =>
    let later ← buildAll make counts next
    return first :: later
termination_by ahead counts choices
decreasing_by exact ahead_lt_of_advance _h

/-! ## Queries -/

/-- Takes a query apart.  It may not have more subqueries than the limit. -/
def decomposeInPlace (schema : Schema) (width : Width) (limit : UInt64) (query : Bytes) :
    Except Stop (List BuiltSubquery) := do
  let normal := Wildcard.normalizeFrom false query
  if normal = [] then .error (.refused .empty)
  else
    let units ← unitsFrom normal 0
    let (tokens, store) ← tokensFrom schema width limit units 0 ⟨normal, []⟩
    match tokens.foldlM (fun total token => mulWord total token.choices.length) 1 with
    | none => tooMany limit
    | some total =>
      if limit.toNat < total then tooMany limit
      else
        let text ← partOf store.buffer ⟨0, normal.length⟩
        buildAll (build store.buffer text tokens) (tokens.map (·.choices.length)) (tokens.map fun _ => 0)

end LogCodec.Query
