import LogCodec.DecodeError
import LogCodec.FlatBytes
import LogCodec.Json.Tree

/-!
# `LogCodec.Json.Reader`: values of the library from JSON

A reader turns a tree into a value or says why it cannot.  Two causes are told apart: the JSON is not of the right
form, or it is and the value breaks a rule of its own.  A reader goes through a tree from the front, so that of two
faults the one that comes first in the text is reported.

## Contents
- `ReadError`.
- `natBelow`, `int64`, `text` and `list`: readers of simple values.
- `fields`: the reader of a value with named fields.
- `ofText`: reads a whole text.
-/

namespace LogCodec

/-- Why a JSON text was refused. -/
inductive ReadError where
  /-- The text is no JSON of the right form. -/
  | malformed
  /-- End offsets are out of order or out of bounds. -/
  | offsets (cause : OffsetError)
  /-- The parts of a message do not fit together. -/
  | parts (cause : DecodeError)
deriving DecidableEq, Repr

namespace ReadError

/-- The wording of a broken rule; there is none for a wrong form. -/
def message? : ReadError → Option String
  | malformed => none
  | offsets cause => some cause.message
  | parts cause => some cause.message

end ReadError

namespace Json

/-- A reader of values. -/
abbrev Reader (α : Type) := Tree → Except ReadError α

/-- The tree is an integer from zero up to, but not including, a bound. -/
def natBelow (bound : Nat) : Reader Nat
  | .integer false magnitude => if magnitude < bound then .ok magnitude else .error .malformed
  | _ => .error .malformed

/-- The tree is a byte. -/
def byte : Reader UInt8 := fun tree => (natBelow 256 tree).map UInt8.ofNat

/-- The tree is an integer in the 64-bit range. -/
def int64 : Reader Int64
  | .integer false magnitude =>
    if magnitude < 0x8000000000000000 then .ok (Int64.ofInt magnitude) else .error .malformed
  | .integer true magnitude =>
    if magnitude ≤ 0x8000000000000000 then .ok (Int64.ofInt (-magnitude)) else .error .malformed
  | _ => .error .malformed

/-- The tree is a string. -/
def text : Reader String
  | .text (some content) => .ok content
  | _ => .error .malformed

/-- The tree is an array. -/
def list {α : Type} (item : Reader α) : Reader (List α)
  | .array items closed => do
    -- An item that breaks a rule stands before the place where the text breaks off.
    let values ← items.mapM item
    if closed then return values else throw .malformed
  | _ => .error .malformed

/-- Accepts a value that nobody asked for, if it is whole. -/
def skip {σ : Type} (state : σ) : Reader σ
  | tree => if tree.isWhole then .ok state else .error .malformed

/-- Sets a field that has to be unset so far. -/
def once {α σ : Type} (held : Option α) (read : Reader α) (set : α → σ) : Reader σ
  | tree => if held.isSome then .error .malformed else (read tree).map set

/-- Reads a value with named fields: an object gives each field with its name, and an array gives the fields in the
order of their names.  `put` takes the fields in one by one. -/
def fields {σ : Type} (names : List String) (put : σ → String → Reader σ) (none : σ) : Reader σ
  | .object given closed => do
    let state ← given.foldlM (fun state field =>
      match field.1 with
      | some name => put state name field.2
      | .none => throw .malformed) none
    if closed then return state else throw .malformed
  | .array items closed => do
    let state ← (names.zip items).foldlM (fun state field => put state field.1 field.2) none
    if closed ∧ items.length ≤ names.length then return state else throw .malformed
  | _ => .error .malformed

/-- A field that must not be missing. -/
def required {α : Type} : Option α → Except ReadError α
  | some value => .ok value
  | none => .error .malformed

/-- Reads a whole text. -/
def ofText {α : Type} (read : Reader α) (text : String) : Except ReadError α := do
  let document := Document.ofText text
  let value ← read document.tree
  if document.isClean then return value else throw .malformed

end Json

end LogCodec
