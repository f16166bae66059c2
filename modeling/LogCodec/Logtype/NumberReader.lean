import LogCodec.Logtype.InPlace
import LogCodec.Packing

/-!
# `LogCodec.Logtype.NumberReader`: packed numbers, taken one after the other

A reader of numbers holds a reader of the logtype, the numbers, and how many of them are taken.  Each time it is asked
for the next number it reads on to the next place for one, and so it meets what is wrong with the logtype or the numbers
only when it comes there.  Behind the first place for which there is no number it reads nothing more.

## Contents
- `NumberReader`, with `next?`, which takes one number; `left_lt_of_next?`.
- `NumberReader.drain`: everything that a reader gives, and `collect`: the numbers, if none of it is an error.
-/

namespace LogCodec.Logtype

/-- A logtype and its numbers, of which a part is taken. -/
structure NumberReader where
  reader : Reader
  numbers : List Int64
  /-- How many numbers are taken. -/
  taken : Nat
deriving DecidableEq, Repr

namespace NumberReader

/-- A reader that has taken nothing. -/
def ofLogtype (logtype : Bytes) (numbers : List Int64) : NumberReader := ⟨.ofLogtype logtype, numbers, 0⟩

/-- Takes the next number.  Static text and places for dictionary values are passed over. -/
def next? (r : NumberReader) : Option (Except DecodeError Packed × NumberReader) :=
  match _h : r.reader.next? with
  | none => none
  | some (.error e, rest) => some (.error e, ⟨rest, r.numbers, r.taken⟩)
  | some (.ok item, rest) =>
    match item.number? with
    | none => next? ⟨rest, r.numbers, r.taken⟩
    | some kind =>
      match r.numbers[r.taken]? with
      | none => some (.error (.tooFewNumbers r.numbers.length), ⟨.ofLogtype [], r.numbers, r.taken⟩)
      | some number => some (.ok (kind, number), ⟨rest, r.numbers, r.taken + 1⟩)
termination_by r.reader.left
decreasing_by exact Reader.left_lt_of_next? _h

section
variable {r r' : NumberReader} {item : Except DecodeError Packed} {rest : Reader}

theorem next?_of_none (h : r.reader.next? = none) : r.next? = none := by
  rw [next?]
  split <;> simp_all

theorem next?_of_error {e : DecodeError} (h : r.reader.next? = some (.error e, rest)) :
    r.next? = some (.error e, ⟨rest, r.numbers, r.taken⟩) := by
  rw [next?]
  split <;> simp_all

/-- What is no place for a number is passed over. -/
theorem next?_of_other {element : Element} (h : r.reader.next? = some (.ok element, rest))
    (hother : element.number? = none) : r.next? = next? ⟨rest, r.numbers, r.taken⟩ := by
  rw [next?]
  split <;> simp_all

/-- At a place for a number the next number is taken. -/
theorem next?_of_number {element : Element} {kind : NumberKind} {number : Int64}
    (h : r.reader.next? = some (.ok element, rest)) (hplace : element.number? = some kind)
    (hnumber : r.numbers[r.taken]? = some number) :
    r.next? = some (.ok (kind, number), ⟨rest, r.numbers, r.taken + 1⟩) := by
  rw [next?]
  split <;> simp_all

/-- At a place for which there is no number nothing more is read. -/
theorem next?_of_missing {element : Element} {kind : NumberKind}
    (h : r.reader.next? = some (.ok element, rest)) (hplace : element.number? = some kind)
    (hmissing : r.numbers[r.taken]? = none) :
    r.next? = some (.error (.tooFewNumbers r.numbers.length), ⟨.ofLogtype [], r.numbers, r.taken⟩) := by
  rw [next?]
  split <;> simp_all

/-- To take a number, or to meet an error, leaves less of the logtype. -/
theorem left_lt_of_next? (h : r.next? = some (item, r')) : r'.reader.left < r.reader.left := by
  fun_induction next? r with
  | case1 => cases h
  | case2 r e rest hnext =>
    cases h
    exact Reader.left_lt_of_next? hnext
  | case3 r element rest hnext hother ih => exact Nat.lt_trans (ih h) (Reader.left_lt_of_next? hnext)
  | case4 r element rest hnext kind hplace hmissing =>
    cases h
    exact Nat.zero_lt_of_lt (Reader.left_lt_of_next? hnext)
  | case5 r element rest hnext kind hplace number hnumber =>
    cases h
    exact Reader.left_lt_of_next? hnext

end

/-- What a reader gives until it gives nothing more. -/
def drain (r : NumberReader) : List (Except DecodeError Packed) :=
  match _h : r.next? with
  | none => []
  | some (item, r') => item :: drain r'
termination_by r.reader.left
decreasing_by exact left_lt_of_next? _h

theorem drain_of_next?_eq_none {r : NumberReader} (h : r.next? = none) : r.drain = [] := by
  rw [drain]
  split <;> simp_all

theorem drain_of_next?_eq_some {r r' : NumberReader} {item : Except DecodeError Packed}
    (h : r.next? = some (item, r')) : r.drain = item :: r'.drain := by
  rw [drain]
  split <;> simp_all

/-- The numbers that a reader gives, if it meets no error. -/
def collect (r : NumberReader) : Except DecodeError (List Packed) := r.drain.mapM id

end NumberReader

end LogCodec.Logtype
