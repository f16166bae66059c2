import LogCodec.Proofs.Consistency

/-!
# `LogCodec.Proofs.RoundTrip`: encoding and decoding with any locator

A locator may answer whatever it likes, and may answer differently each time it is asked.  What it answers during one
encoding is a run: it ends when the locator names nothing more, or at the first span that is no token.  The run alone
decides what encoding gives: after a run to the end the message decodes to the text, and after a bad span the error
tells that span and nothing is left of the message.

## Contents
- `Span.Follows`, which spans are accepted, and `LocatorRun`, the answers of a locator call by call.
- `LocatorRun.unique`: there is one run.
- `chunksFrom_run`: the run that cutting a text follows; `bytes_of_chunks`.
- `encode_eq_ok_iff`, `decode_encode` and `encode_run`, the round trip.
-/

namespace LogCodec

/-- The span comes after the previous token, holds at least one byte and lies within a text of the given length. -/
def Span.Follows (s : Span) (previous length : Nat) : Prop :=
  previous ≤ s.start ∧ s.start < s.stop ∧ s.stop ≤ length

/-- What a locator answers on a text, asked again behind each span that it names: the spans that are accepted, and the
first one that is not, with the end of the token before it. -/
inductive LocatorRun (locate : Locator) (text : Bytes) :
    (named previous : Nat) → List Span → Option (Span × Nat) → Prop where
  | done {named previous : Nat} (hanswer : locate named (.inText text previous) = none) :
      LocatorRun locate text named previous [] none
  | bad {named previous : Nat} {span : Span} (hanswer : locate named (.inText text previous) = some span)
      (hbad : ¬ span.Follows previous text.length) :
      LocatorRun locate text named previous [] (some (span, previous))
  | next {named previous : Nat} {span : Span} {spans : List Span} {failure : Option (Span × Nat)}
      (hanswer : locate named (.inText text previous) = some span) (hgood : span.Follows previous text.length)
      (hrest : LocatorRun locate text (named + 1) span.stop spans failure) :
      LocatorRun locate text named previous (span :: spans) failure

/-- A locator has one run on a text. -/
theorem LocatorRun.unique {locate : Locator} {text : Bytes} {named previous : Nat} {spans spans' : List Span}
    {failure failure' : Option (Span × Nat)} (h : LocatorRun locate text named previous spans failure)
    (h' : LocatorRun locate text named previous spans' failure') : spans = spans' ∧ failure = failure' := by
  induction h generalizing spans' with
  | done hanswer =>
    cases h' with
    | done => exact ⟨rfl, rfl⟩
    | bad hother => simp [hanswer] at hother
    | next hother => simp [hanswer] at hother
  | bad hanswer hbad =>
    cases h' with
    | done hother => simp [hanswer] at hother
    | bad hother =>
      obtain rfl := Option.some.inj (hanswer.symm.trans hother)
      exact ⟨rfl, rfl⟩
    | next hother hgood =>
      obtain rfl := Option.some.inj (hanswer.symm.trans hother)
      exact absurd hgood hbad
  | next hanswer hgood _ ih =>
    cases h' with
    | done hother => simp [hanswer] at hother
    | bad hother hbad =>
      obtain rfl := Option.some.inj (hanswer.symm.trans hother)
      exact absurd hgood hbad
    | next hother _ hrest =>
      obtain rfl := Option.some.inj (hanswer.symm.trans hother)
      obtain ⟨rfl, rfl⟩ := ih hrest
      exact ⟨rfl, rfl⟩

namespace Cursor

/-- A cursor is known by its text and its position. -/
theorem eq_inText (c : Cursor) : c = inText c.text c.position := by
  obtain ⟨position, before, rest, hposition⟩ := c
  have hlength : position = before.reverse.length := by rw [hposition, List.length_reverse]
  simp only [inText, between, Cursor.text, mk.injEq]
  rw [hlength, List.take_left, List.drop_left]
  exact ⟨rfl, (List.reverse_reverse before).symm, rfl⟩

end Cursor

section

variable {locate : Locator} {named : Nat} {c : Cursor} {span : Span}

/-- The test that cutting a text makes for a span is whether the span follows the previous token. -/
theorem follows_iff :
    span.Follows c.position c.text.length ↔ c.position ≤ span.start ∧ 0 < span.length ∧
      Token.IsWhole ⟨c.advance (span.start - c.position), span.length⟩ := by
  rw [Token.isWhole_iff, Cursor.text_advance]
  simp only [Span.Follows, Span.length, Token.span, Cursor.position_advance, c.length_text]
  omega

/-- The place behind an accepted span is where the span ends. -/
theorem position_stop (h : span.Follows c.position c.text.length) :
    (Token.stop ⟨c.advance (span.start - c.position), span.length⟩).position = span.stop := by
  obtain ⟨hstart, hlength, hstop⟩ := h
  rw [c.length_text] at hstop
  simp only [Token.stop, Cursor.position_advance, Cursor.rest_advance, List.length_drop, Span.length]
  omega

/-- **Cutting a text follows the run of the locator.**  If the run comes to an end the chunks cover what lies behind the
cursor, and otherwise its last span is reported. -/
theorem chunksFrom_run :
    (∃ spans cs, LocatorRun locate c.text named c.position spans none ∧ chunksFrom locate named c = .ok cs ∧
      cs.flatMap Chunk.bytes = c.rest) ∨
    (∃ spans span previous, LocatorRun locate c.text named c.position spans (some (span, previous)) ∧
      chunksFrom locate named c = .error (.badToken span previous c.text.length)) := by
  fun_induction chunksFrom locate named c with
  | case1 named c hanswer =>
    rw [c.eq_inText] at hanswer
    exact .inl ⟨[], _, .done hanswer, rfl, by simp [Chunk.bytes]⟩
  | case2 named c span hanswer token hgood ih =>
    rw [c.eq_inText] at hanswer
    have hfollows := follows_iff.mpr hgood
    have htext : token.stop.text = c.text := by rw [Token.stop, Cursor.text_advance, Cursor.text_advance]
    have hposition : token.stop.position = span.stop := position_stop hfollows
    rw [htext, hposition] at ih
    rcases ih with ⟨spans, cs, hrun, hcs, hbytes⟩ | ⟨spans, bad, previous, hrun, herror⟩
    · refine .inl ⟨span :: spans, _, .next hanswer hfollows hrun, by rw [hcs]; rfl, ?_⟩
      -- What lies behind the cursor is the text before the token, the token and what lies behind the token.
      simp only [List.flatMap_cons, Chunk.bytes, hbytes, token, Token.bytes, Token.stop, Cursor.rest_advance]
      rw [List.take_append_drop, List.take_append_drop]
    · refine .inr ⟨span :: spans, bad, previous, .next hanswer hfollows hrun, ?_⟩
      rw [herror]
      rfl
  | case3 named c span hanswer token hbad =>
    rw [c.eq_inText] at hanswer
    refine .inr ⟨[], span, c.position, .bad hanswer fun hfollows => hbad (follows_iff.mp hfollows), ?_⟩
    rw [c.length_text]

/-- The chunks of a text cover it. -/
theorem bytes_of_chunks {text : Bytes} {cs : List Chunk} (h : chunks locate text = .ok cs) :
    cs.flatMap Chunk.bytes = text := by
  rcases @chunksFrom_run locate 0 (.ofText text) with ⟨_, found, -, hfound, hbytes⟩ | ⟨_, _, _, -, herror⟩
  · obtain rfl := Except.ok.inj (hfound.symm.trans h)
    exact hbytes
  · cases herror.symm.trans h

end

namespace EncodedMessage

section
variable {width : Width} {locate : Locator} {text : Bytes} {m : EncodedMessage}

theorem encode_eq_ok_iff :
    encode width locate text = .ok m ↔
      text.length ≤ maxMessageLength ∧ ∃ cs, chunks locate text = .ok cs ∧ ofChunks width cs = m := by
  rw [encode, error_else_eq_ok_iff, map_eq_ok_iff, Nat.not_lt]

theorem decode_encode (he : encode width locate text = .ok m) : m.decode width = .ok text := by
  obtain ⟨-, cs, hcs, rfl⟩ := encode_eq_ok_iff.mp he
  rw [ofChunks_eq, decode_ofAtoms, Chunk.textOf_atoms, bytes_of_chunks hcs]

/-- **Encoding round-trips for every locator.**  A text that is not too long is encoded, and decoding gives it back,
unless the locator names a span that is no token; the first such span is then reported. -/
theorem encode_run (hlength : text.length ≤ maxMessageLength) :
    (∃ spans, LocatorRun locate text 0 0 spans none ∧
      ∃ m, encode width locate text = .ok m ∧ m.decode width = .ok text) ∨
    (∃ spans span previous, LocatorRun locate text 0 0 spans (some (span, previous)) ∧
      encode width locate text = .error (.badToken span previous text.length)) := by
  have hrun := @chunksFrom_run locate 0 (.ofText text)
  rw [Cursor.text_ofText] at hrun
  rcases hrun with ⟨spans, cs, hrun, hcs, -⟩ | ⟨spans, span, previous, hrun, herror⟩
  · have he : encode width locate text = .ok (ofChunks width cs) := encode_eq_ok_iff.mpr ⟨hlength, cs, hcs, rfl⟩
    exact .inl ⟨spans, hrun, _, he, decode_encode he⟩
  · refine .inr ⟨spans, span, previous, hrun, ?_⟩
    rw [encode, if_neg (Nat.not_lt.mpr hlength), chunks, herror]
    rfl

end

end EncodedMessage

end LogCodec
