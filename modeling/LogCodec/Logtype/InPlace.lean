import LogCodec.Logtype

/-!
# `LogCodec.Logtype.InPlace`: a logtype that is read by position and written at its end

A reader holds the bytes of a logtype and the position up to which they are read.  Each time it is asked for the next
element it takes a placeholder byte, or a run of static text that stops before the next byte that is reserved; only the
first byte of a run may be a reserved one, behind an escape.  Writing adds bytes at the end of a logtype.

## Contents
- `pushText` and `push`, which add one element, and `pushAll`.
- `Reader`, with `textEnd`, `takeText` and `next?`, which takes one element; `fits_textSpan`.
- `Reader.drain`: everything that a reader gives.  It ends because each step leaves less (`left_lt_of_next?`).
- `Reader.kinds`, the places for packed numbers on the way, and `Reader.count`, which counts places until an error.
-/

namespace LogCodec.Logtype

/-! ## Writing -/

/-- Adds static text at the end of a logtype. -/
def pushText (logtype : Bytes) : Bytes → Bytes
  | [] => logtype
  | b :: text => pushText ((if needsEscape b then logtype ++ [escapeByte] else logtype) ++ [b]) text

/-- Adds an element at the end of a logtype. -/
def push (logtype : Bytes) : Element → Bytes
  | .text bytes => pushText logtype bytes
  | .variable p => logtype ++ [p.toByte]

/-- Adds elements at the end of a logtype, one after the other. -/
def pushAll (logtype : Bytes) (items : List Element) : Bytes := items.foldl push logtype

/-! ## Reading -/

/-- A logtype of which a part is read. -/
structure Reader where
  logtype : Bytes
  /-- The place of the first byte that is not read. -/
  position : Nat
deriving DecidableEq, Repr

/-- A reader that has read nothing. -/
def Reader.ofLogtype (logtype : Bytes) : Reader := ⟨logtype, 0⟩

/-- The first place, from the given one on, where a reserved byte stands or the logtype ends. -/
def textEnd (logtype : Bytes) (position : Nat) : Nat :=
  if _h : position < logtype.length then
    if needsEscape logtype[position] then position else textEnd logtype (position + 1)
  else position
termination_by logtype.length - position

theorem le_textEnd (logtype : Bytes) (position : Nat) : position ≤ textEnd logtype position := by
  fun_induction textEnd logtype position with
  | case1 position _ _ => exact Nat.le_refl position
  | case2 position _ _ ih => exact Nat.le_of_succ_le ih
  | case3 position _ => exact Nat.le_refl position

theorem textEnd_le {logtype : Bytes} {position : Nat} (h : position ≤ logtype.length) :
    textEnd logtype position ≤ logtype.length := by
  fun_induction textEnd logtype position with
  | case1 position _ _ => exact h
  | case2 position hlt _ ih => exact ih hlt
  | case3 position _ => exact h

namespace Reader

/-- How many bytes are not read. -/
def left (r : Reader) : Nat := r.logtype.length - r.position

/-- The place of the run of static text whose first byte stands at the given place. -/
def textSpan (r : Reader) (start : Nat) : Span := ⟨start, textEnd r.logtype (start + 1)⟩

/-- Takes the run of static text whose first byte stands at the given place. -/
def takeText (r : Reader) (start : Nat) : Except DecodeError Element × Reader :=
  (.ok (.text ((r.textSpan start).slice r.logtype)), ⟨r.logtype, (r.textSpan start).stop⟩)

/-- A run of static text lies within the logtype. -/
theorem fits_textSpan {r : Reader} {start : Nat} (h : start < r.logtype.length) :
    (r.textSpan start).Fits r.logtype.length :=
  ⟨Nat.le_of_succ_le (le_textEnd r.logtype (start + 1)), textEnd_le h⟩

/-- Takes the next element.  Behind a dangling escape nothing is left. -/
def next? (r : Reader) : Option (Except DecodeError Element × Reader) :=
  match r.logtype[r.position]? with
  | none => none
  | some b =>
    match Placeholder.ofByte? b with
    | some p => some (.ok (.variable p), ⟨r.logtype, r.position + 1⟩)
    | none =>
      if b = escapeByte then
        if r.logtype.length ≤ r.position + 1 then some (.error .danglingEscape, ⟨r.logtype, r.logtype.length⟩)
        else some (r.takeText (r.position + 1))
      else some (r.takeText r.position)

/-- To take an element leaves less. -/
theorem left_lt_of_next? {r r' : Reader} {item : Except DecodeError Element} (h : r.next? = some (item, r')) :
    r'.left < r.left := by
  -- Whatever is taken, the position goes up within the same logtype.
  suffices hposition : r.position < r.logtype.length ∧ r'.logtype = r.logtype ∧ r.position < r'.position by
    unfold left
    rw [hposition.2.1]
    omega
  have htext : ∀ start, r.position ≤ start → r.takeText start = (item, r') →
      r'.logtype = r.logtype ∧ r.position < r'.position := by
    intro start hstart htake
    cases htake
    exact ⟨rfl, Nat.lt_of_lt_of_le (Nat.lt_succ_of_le hstart) (le_textEnd _ _)⟩
  unfold next? at h
  split at h
  · cases h
  · next b hb =>
    obtain ⟨hlt, -⟩ := List.getElem?_eq_some_iff.mp hb
    refine ⟨hlt, ?_⟩
    split at h
    · cases h
      exact ⟨rfl, Nat.lt_succ_self _⟩
    · split at h
      · split at h
        · cases h
          exact ⟨rfl, hlt⟩
        · exact htext _ (Nat.le_succ _) (Option.some.inj h)
      · exact htext _ (Nat.le_refl _) (Option.some.inj h)

/-- What a reader gives until it gives nothing more. -/
def drain (r : Reader) : List (Except DecodeError Element) :=
  match _h : r.next? with
  | none => []
  | some (item, r') => item :: drain r'
termination_by r.left
decreasing_by exact left_lt_of_next? _h

theorem drain_of_next?_eq_none {r : Reader} (h : r.next? = none) : r.drain = [] := by
  rw [drain]
  split
  · rfl
  · next hsome =>
    rw [h] at hsome
    cases hsome

theorem drain_of_next?_eq_some {r r' : Reader} {item : Except DecodeError Element} (h : r.next? = some (item, r')) :
    r.drain = item :: r'.drain := by
  rw [drain]
  split
  · next hnone =>
    rw [h] at hnone
    cases hnone
  · next hsome =>
    rw [h] at hsome
    cases hsome
    rfl

/-- The kinds of packed numbers that a reader finds places for. -/
def kinds (r : Reader) : List NumberKind := r.drain.filterMap fun item => item.toOption.bind Element.number?

end Reader

/-- The counts with one more place, if the element is one. -/
def Counts.add (counts : Counts) : Element → Counts
  | .text _ => counts
  | .variable .dictionary => ⟨counts.dictionary + 1, counts.encoded⟩
  | .variable _ => ⟨counts.dictionary, counts.encoded + 1⟩

namespace Reader

/-- Counts the places that are not read yet, on top of those that are counted. -/
def countFrom (r : Reader) (counts : Counts) : Except DecodeError Counts :=
  match _h : r.next? with
  | none => .ok counts
  | some (.error e, _) => .error e
  | some (.ok item, rest) => countFrom rest (counts.add item)
termination_by r.left
decreasing_by exact left_lt_of_next? _h

/-- Counts the places of a logtype, element by element. -/
def count (r : Reader) : Except DecodeError Counts := r.countFrom ⟨0, 0⟩

section
variable {r rest : Reader} {counts : Counts}

theorem countFrom_of_none (h : r.next? = none) : r.countFrom counts = .ok counts := by
  rw [countFrom]
  split <;> simp_all

theorem countFrom_of_error {e : DecodeError} (h : r.next? = some (.error e, rest)) :
    r.countFrom counts = .error e := by
  rw [countFrom]
  split <;> simp_all

theorem countFrom_of_ok {item : Element} (h : r.next? = some (.ok item, rest)) :
    r.countFrom counts = rest.countFrom (counts.add item) := by
  rw [countFrom]
  split <;> simp_all

end

end Reader

end LogCodec.Logtype
