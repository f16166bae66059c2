import LogCodec.Bytes

/-!
# `LogCodec.Cursor`: a place in a text

A cursor stands between two bytes of a text.  It has what comes before it with the nearest byte first, so that moving
on takes time only for the bytes that are passed, and the bytes on both sides are at hand.

## Contents
- `Cursor`, with `ofText`, `inText` and `advance`; `Cursor.text` is the whole text.
- `Token`: a part of a text, seen from the cursor at its first byte.
-/

namespace LogCodec

/-- A place between two bytes of a text. -/
structure Cursor where
  /-- How many bytes come before. -/
  position : Nat
  /-- The bytes that come before, the nearest one first. -/
  before : Bytes
  /-- The bytes that come behind. -/
  rest : Bytes
  position_eq : position = before.length := by simp
deriving DecidableEq, Repr

namespace Cursor

/-- The start of a text. -/
def ofText (text : Bytes) : Cursor := ⟨0, [], text, rfl⟩

/-- The place between two parts of a text. -/
def between (front back : Bytes) : Cursor := ⟨front.length, front.reverse, back, by simp⟩

/-- The place with the given number of bytes before it, or the end of the text if there are fewer. -/
def inText (text : Bytes) (position : Nat) : Cursor := between (text.take position) (text.drop position)

/-- The whole text. -/
def text (c : Cursor) : Bytes := c.before.reverse ++ c.rest

/-- Moves on by a number of bytes, or to the end of the text if there are fewer. -/
def advance (c : Cursor) (count : Nat) : Cursor :=
  let passed := c.rest.take count
  ⟨c.position + passed.length, passed.reverse ++ c.before, c.rest.drop count, by simp [c.position_eq]; omega⟩

@[simp] theorem text_ofText (text : Bytes) : (ofText text).text = text := by simp [ofText, Cursor.text]

@[simp] theorem text_advance (c : Cursor) (count : Nat) : (c.advance count).text = c.text := by
  simp [advance, Cursor.text]

@[simp] theorem rest_advance (c : Cursor) (count : Nat) : (c.advance count).rest = c.rest.drop count := rfl

theorem position_advance (c : Cursor) (count : Nat) :
    (c.advance count).position = c.position + min count c.rest.length := by
  simp [advance]

theorem length_text (c : Cursor) : c.text.length = c.position + c.rest.length := by
  simp [Cursor.text, c.position_eq]

end Cursor

/-- A part of a text: so many bytes behind a cursor. -/
structure Token where
  start : Cursor
  length : Nat
deriving DecidableEq, Repr

namespace Token

/-- The bytes of the token. -/
def bytes (t : Token) : Bytes := t.start.rest.take t.length

/-- The byte directly before the token; nothing comes before the start of a text. -/
def before? (t : Token) : Option UInt8 := t.start.before.head?

/-- The place behind the token. -/
def stop (t : Token) : Cursor := t.start.advance t.length

/-- Where the token stands in its text. -/
def span (t : Token) : Span := ⟨t.start.position, t.start.position + t.length⟩

/-- The text is long enough for the token. -/
def IsWhole (t : Token) : Prop := t.bytes.length = t.length

instance (t : Token) : Decidable t.IsWhole := inferInstanceAs (Decidable (_ = _))

/-- The token at a span of a text. -/
def ofSpan (text : Bytes) (span : Span) : Token := ⟨.inText text span.start, span.length⟩

theorem isWhole_iff {t : Token} : t.IsWhole ↔ t.span.stop ≤ t.start.text.length := by
  simp only [IsWhole, bytes, span, List.length_take, Cursor.length_text]
  omega

theorem length_rest_stop (t : Token) : t.stop.rest.length = t.start.rest.length - t.length := by
  simp [stop]

end Token

end LogCodec
