import LogCodec.Bytes

/-!
# `LogCodec.Bytes.Slices`: the parts of a list that spans select

A span selects a part of a list, whatever its bounds are.  Where the bounds have to make sense, the part is cut out with
a check.

## Contents
- `Span.slice?`, the checked cut; `Span.slice?_of_fits`.
- `Span.slice_append_slice`, `Span.slice_take` and `Span.getElem?_slice`: what a part has.
- `Span.slice_set_of_outside` and `Span.slice_set_ne`: which parts see that one member is changed.
-/

namespace LogCodec.Span

/-- The part of a byte string that a span selects, if the span lies within it. -/
def slice? (s : Span) (bytes : Bytes) : Option Bytes :=
  if s.Fits bytes.length then some (s.slice bytes) else none

theorem slice?_of_fits {s : Span} {bytes : Bytes} (h : s.Fits bytes.length) : s.slice? bytes = some (s.slice bytes) :=
  if_pos h

variable {α : Type}

/-- Two slices that meet are one. -/
theorem slice_append_slice (text : List α) {first middle last : Nat} (h : first ≤ middle) (h' : middle ≤ last) :
    (Span.mk first middle).slice text ++ (Span.mk middle last).slice text = (Span.mk first last).slice text := by
  have hmiddle : first + (middle - first) = middle := by omega
  have hlength : last - first = (middle - first) + (last - middle) := by omega
  unfold slice length
  show _ = (text.drop first).take (last - first)
  rw [hlength, List.take_add, List.drop_drop, hmiddle]

/-- A slice within the front of a text. -/
theorem slice_take (text : List α) {s : Span} {length : Nat} (h : s.Fits length) :
    s.slice (text.take length) = s.slice text := by
  obtain ⟨hle, hstop⟩ := h
  have hlength : s.length ≤ length - s.start := by
    unfold Span.length
    omega
  rw [slice, slice, List.drop_take, List.take_take, Nat.min_eq_left hlength]

theorem length_slice (text : List α) {s : Span} (h : s.Fits text.length) : (s.slice text).length = s.length := by
  obtain ⟨hle, hstop⟩ := h
  rw [slice, List.length_take, List.length_drop, length]
  omega

theorem getElem?_slice (s : Span) (text : List α) (index : Nat) :
    (s.slice text)[index]? = if index < s.length then text[s.start + index]? else none := by
  unfold slice
  rw [List.getElem?_take, List.getElem?_drop]

theorem slice_singleton {text : List α} {position : Nat} {x : α} (h : text[position]? = some x) :
    (Span.mk position (position + 1)).slice text = [x] := by
  obtain ⟨hposition, hx⟩ := List.getElem?_eq_some_iff.mp h
  simp only [slice, length, Nat.add_sub_cancel_left]
  rw [List.drop_eq_getElem_cons hposition, hx]
  rfl

@[simp] theorem slice_all (text : List α) : (Span.mk 0 text.length).slice text = text := by
  simp [slice, length]

section
variable {s : Span} {position : Nat}

/-- A slice does not see what is changed in front of it or behind it. -/
theorem slice_set_of_outside (h : position < s.start ∨ s.stop ≤ position) (text : List α) (a : α) :
    s.slice (text.set position a) = s.slice text := by
  apply List.ext_getElem?
  intro index
  rw [getElem?_slice, getElem?_slice]
  split
  · next hindex =>
    unfold length at hindex
    rw [List.getElem?_set_ne (by omega)]
  · rfl

/-- A slice sees what is changed within it. -/
theorem slice_set_ne {text : List α} {a : α} (hstart : s.start ≤ position) (hstop : position < s.stop)
    (hposition : position < text.length) (ha : text[position]? ≠ some a) :
    s.slice (text.set position a) ≠ s.slice text := by
  intro hsame
  have hindex : position - s.start < s.length := by
    unfold length
    omega
  have hget := congrArg (fun part => part[position - s.start]?) hsame
  simp only [getElem?_slice, if_pos hindex, Nat.add_sub_cancel' hstart, List.getElem?_set_self hposition] at hget
  exact ha hget.symm

end

end LogCodec.Span
