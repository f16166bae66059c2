import LogCodec.DecodeError
import LogCodec.Placeholder

/-!
# `LogCodec.Logtype`: static text with places for variables

A logtype is a byte string: static text in which a placeholder byte marks the place of a variable.  Where the text
itself has a placeholder byte or the escape byte, an escape byte comes before it, so that every byte string can be
static text.

## Contents
- `Element`: a run of static text or a place for a variable; `elements` reads them, `write` writes them.
- `Cell`: one byte of static text or one place; `cells` is the view in which escapes and runs no longer show.
- `Scan`: what a reader found, with the error that ended it.
- `counts` and `typedNumbers`: the number of places, and the packed numbers with their kinds.
-/

namespace LogCodec

/-- What reading from the front gave, and the error that ended it, if one did. -/
structure Scan (α : Type) where
  items : List α
  failure : Option DecodeError
deriving DecidableEq, Repr

namespace Scan

/-- The items of a reading that no error ended. -/
def toExcept {α : Type} (scan : Scan α) : Except DecodeError (List α) :=
  match scan.failure with
  | none => .ok scan.items
  | some e => .error e

end Scan

/-- A part of a logtype. -/
inductive Element where
  | text (bytes : Bytes)
  | variable (placeholder : Placeholder)
deriving DecidableEq, Repr

/-- The smallest part of a logtype: one byte of static text or the place of a variable. -/
inductive Cell where
  | byte (b : UInt8)
  | variable (placeholder : Placeholder)
deriving DecidableEq, Repr

namespace Element

/-- The kind of packed number that has its place here. -/
def number? : Element → Option NumberKind
  | text _ => none
  | .variable p => p.number?

/-- The cells of an element. -/
def cells : Element → List Cell
  | text bytes => bytes.map .byte
  | .variable p => [.variable p]

end Element

namespace Logtype

/-! ## Writing -/

/-- A byte of static text as it is written. -/
def writeByte (b : UInt8) : Bytes := if needsEscape b then [escapeByte, b] else [b]

/-- Static text as it is written. -/
def writeText (text : Bytes) : Bytes := text.flatMap writeByte

/-- An element as it is written. -/
def writeElement : Element → Bytes
  | .text bytes => writeText bytes
  | .variable p => [p.toByte]

/-- The logtype with the given elements. -/
def write (elements : List Element) : Bytes := elements.flatMap writeElement

/-! ## Reading -/

/-- Puts a byte of static text in front of what was read behind it.  It joins the run that follows when the next byte
is written as it is; any other next byte starts an element of its own. -/
def joinByte (b : UInt8) (next : Option UInt8) (scan : Scan Element) : Scan Element :=
  match next, scan.items with
  | some c, .text run :: rest =>
    if needsEscape c then ⟨.text [b] :: .text run :: rest, scan.failure⟩
    else ⟨.text (b :: run) :: rest, scan.failure⟩
  | _, items => ⟨.text [b] :: items, scan.failure⟩

/-- The elements of a logtype.  An escaped byte starts a new run of static text. -/
def elements : Bytes → Scan Element
  | [] => ⟨[], none⟩
  | [b] =>
    match Placeholder.ofByte? b with
    | some p => ⟨[.variable p], none⟩
    | none => if b = escapeByte then ⟨[], some .danglingEscape⟩ else ⟨[.text [b]], none⟩
  | b :: c :: rest =>
    match Placeholder.ofByte? b with
    | some p => let scan := elements (c :: rest); ⟨.variable p :: scan.items, scan.failure⟩
    | none =>
      if b = escapeByte then joinByte c rest.head? (elements rest)
      else joinByte b (some c) (elements (c :: rest))

/-- The cells of a logtype.  An escape byte with nothing behind it has none. -/
def cells : Bytes → List Cell
  | [] => []
  | [b] =>
    match Placeholder.ofByte? b with
    | some p => [.variable p]
    | none => if b = escapeByte then [] else [.byte b]
  | b :: c :: rest =>
    match Placeholder.ofByte? b with
    | some p => .variable p :: cells (c :: rest)
    | none => if b = escapeByte then .byte c :: cells rest else .byte b :: cells (c :: rest)

theorem cells_joinByte (b : UInt8) (next : Option UInt8) (scan : Scan Element) :
    (joinByte b next scan).items.flatMap Element.cells = .byte b :: scan.items.flatMap Element.cells := by
  unfold joinByte
  split
  · next hitems =>
    split <;> simp [hitems, Element.cells]
  · simp [Element.cells]

/-- The elements of a logtype cover its cells. -/
theorem flatMap_cells_elements (logtype : Bytes) :
    (elements logtype).items.flatMap Element.cells = cells logtype := by
  fun_induction elements logtype with
  | case1 => rfl
  | case2 b p hp => simp [cells, hp, Element.cells]
  | case3 hp => simp [cells, hp]
  | case4 b hp hb => simp [cells, hp, hb, Element.cells]
  | case5 b c rest p hp scan ih =>
    simp only [cells, hp, List.flatMap_cons, Element.cells, List.singleton_append]
    exact congrArg _ ih
  | case6 c rest hp ih => rw [cells_joinByte, ih]; simp [cells, hp]
  | case7 b c rest hp hb ih => rw [cells_joinByte, ih]; simp [cells, hp, hb]

/-! ## Places for variables -/

/-- How many places a logtype has for each group of variables. -/
structure Counts where
  dictionary : Nat
  encoded : Nat
deriving DecidableEq, Repr

/-- Counts the places among elements. -/
def countElements (items : List Element) : Counts where
  dictionary := items.countP (· == .variable .dictionary)
  encoded := items.countP (·.number?.isSome)

/-- Counts the places of a logtype. -/
def counts (logtype : Bytes) : Except DecodeError Counts :=
  (elements logtype).toExcept.map countElements

/-- The packed numbers with their kinds.  The places are filled from left to right; the reading ends at the first
place for which there is no number. -/
def typedNumbers (logtype : Bytes) (numbers : List Int64) : Scan (NumberKind × Int64) :=
  let scan := elements logtype
  let kinds := scan.items.filterMap Element.number?
  -- A missing number stands before the end of the logtype, so it is reported before a dangling escape.
  if numbers.length < kinds.length then ⟨kinds.zip numbers, some (.tooFewNumbers numbers.length)⟩
  else ⟨kinds.zip numbers, scan.failure⟩

end Logtype

end LogCodec
