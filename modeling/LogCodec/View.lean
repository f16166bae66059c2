import LogCodec.Bytes.Escaped
import LogCodec.Misuse

/-!
# `LogCodec.View`: parts of a byte string

A view is a part of some byte string, which it keeps.  Views are compared by the bytes that they show and not by where
these bytes lie.

## Contents
- `View`, with `whole`, `cut` (a part of a byte string) and `narrow` (a part of a view).
- `View.InBounds`, which `whole`, `cut` and `narrow` give and keep.
-/

namespace LogCodec

/-- A part of a byte string. -/
structure View where
  source : Bytes
  span : Span
deriving DecidableEq, Repr

namespace View

/-- The view lies within its byte string. -/
def InBounds (v : View) : Prop := v.span.Fits v.source.length

/-- The bytes that a view shows. -/
def bytes (v : View) : Bytes := v.span.slice v.source

/-- The number of bytes that a view shows. -/
def length (v : View) : Nat := v.span.length

/-- The view of a whole byte string. -/
def whole (source : Bytes) : View := ⟨source, 0, source.length⟩

/-- The view of a part of a byte string. -/
def cut (source : Bytes) (range : Span) : Except Misuse View :=
  if range.Fits source.length then .ok ⟨source, range⟩
  else .error (.viewOutOfBounds range source.length)

/-- A part of a view; the range counts from the start of the view. -/
def narrow (v : View) (range : Span) : Except Misuse View :=
  if range.Fits v.length then .ok ⟨v.source, v.span.start + range.start, v.span.start + range.stop⟩
  else .error (.subviewOutOfBounds range v.length)

/-- Two views show the same bytes. -/
def SameBytes (v w : View) : Prop := v.bytes = w.bytes

instance (v w : View) : Decidable (v.SameBytes w) := inferInstanceAs (Decidable (_ = _))

/-- A view as readable text. -/
def dump (v : View) : String := "b\"" ++ Bytes.escaped v.bytes ++ "\""

theorem whole_inBounds (source : Bytes) : (whole source).InBounds := ⟨Nat.zero_le _, Nat.le_refl _⟩

theorem cut_inBounds {source : Bytes} {range : Span} {v : View} (h : cut source range = .ok v) : v.InBounds := by
  unfold cut at h
  split at h
  · next hfits => cases h; exact hfits
  · cases h

theorem narrow_inBounds {v w : View} {range : Span} (hv : v.InBounds) (h : v.narrow range = .ok w) :
    w.InBounds := by
  unfold narrow at h
  split at h
  · next hfits =>
    cases h
    have h1 := hfits.1
    have h2 := hfits.2
    have h3 := hv.1
    have h4 := hv.2
    simp only [View.length, Span.length] at h2
    exact ⟨by simp only; omega, by simp only; omega⟩
  · cases h

end View

end LogCodec
