import LogCodec.Message.EncodingInPlace
import LogCodec.Proofs.Operations
import LogCodec.Proofs.PackedToken
import LogCodec.Proofs.RoundTrip

/-!
# `LogCodec.Proofs.EncodingInPlace`: encoding appends to a message that has been cleared

To encode a text is to append its chunks one by one, and each chunk is appended by an operation that any caller of a
message has.  The dictionary values of a text have no more bytes than the text, so that their end offsets fit four bytes
as long as the length of the text does, and none of the steps goes wrong.  What the message held is cleared first, and
what has been appended is cleared when a span is no token, so that nothing is left of it either way.

## Contents
- **Chunks.** `Chunk.operation`, and `run_operations`: chunks are appended in one go or one by one.
- **Encoding.** `encodeFrom_eq`, for what lies behind a position, and `encodeInPlace_eq`.
- `encodeInPlace_run`, the main statement, and `run_of_encode`: an encoded text is what operations make.
-/

namespace LogCodec

/-! ## Chunks -/

namespace Chunk

/-- The operation that appends a chunk. -/
def operation (width : Width) : Chunk → EncodedMessage.Operation
  | text bytes => .text bytes
  | token bytes =>
    match width.pack bytes with
    | some (kind, word) => .encoded (.number kind) word
    | none => .dictionary bytes

/-- The dictionary values of chunks have no more bytes than the chunks. -/
theorem length_values_le (width : Width) (cs : List Chunk) :
    (cs.filterMap (Chunk.dictionary? width)).flatten.length ≤ (cs.flatMap Chunk.bytes).length := by
  induction cs with
  | nil => exact Nat.le_refl 0
  | cons c cs ih =>
    rw [List.flatMap_cons, List.length_append]
    cases c with
    | text bytes =>
      rw [List.filterMap_cons_none rfl]
      exact Nat.le_add_left_of_le ih
    | token bytes =>
      by_cases hpack : (width.pack bytes).isSome
      · have hvalue : (token bytes).dictionary? width = none := if_pos hpack
        rw [List.filterMap_cons_none hvalue]
        exact Nat.le_add_left_of_le ih
      · have hvalue : (token bytes).dictionary? width = some bytes := if_neg hpack
        rw [List.filterMap_cons_some hvalue, List.flatten_cons, List.length_append]
        exact Nat.add_le_add_left ih bytes.length

/-- A chunk brings no bytes that belong to no value. -/
theorem bringsTight_operation (width : Width) (c : Chunk) : (c.operation width).BringsTight := by
  cases c with
  | text bytes => trivial
  | token bytes =>
    rw [operation]
    cases width.pack bytes with
    | some packed => trivial
    | none => trivial

end Chunk

namespace EncodedMessage

section
variable {width : Width} {m : EncodedMessage}

theorem appendChunks_nil (width : Width) (m : EncodedMessage) : m.appendChunks width [] = m := by
  simp [appendChunks, Logtype.write]

/-- Chunks may be appended in several goes. -/
theorem appendChunks_append (width : Width) (m : EncodedMessage) (cs more : List Chunk) :
    m.appendChunks width (cs ++ more) = (m.appendChunks width cs).appendChunks width more := by
  simp [appendChunks, Logtype.write, FlatBytes.pushAll_append]

theorem length_dictionary_appendChunks_le (width : Width) (m : EncodedMessage) (cs : List Chunk) :
    (m.appendChunks width cs).dictionary.bytes.length ≤
      m.dictionary.bytes.length + (cs.flatMap Chunk.bytes).length := by
  show (m.dictionary.bytes ++ (cs.filterMap (Chunk.dictionary? width)).flatten).length ≤ _
  rw [List.length_append]
  exact Nat.add_le_add_left (Chunk.length_values_le width cs) m.dictionary.bytes.length

/-- **A chunk is appended by its operation**, as long as end offsets fit four bytes. -/
theorem apply_operation {c : Chunk} (hroom : m.dictionary.bytes.length + c.bytes.length < 0x100000000) :
    (c.operation width).apply m = some (m.appendChunks width [c]) := by
  cases c with
  | text bytes =>
    have hlogtype : Logtype.write [(Chunk.text bytes).element width] = Logtype.writeText bytes := List.append_nil _
    simp [Chunk.operation, Operation.apply, appendText, appendChunks, hlogtype, Chunk.dictionary?, Chunk.packed?]
  | token bytes =>
    cases hpack : width.pack bytes with
    | some packed =>
      have hlogtype : Logtype.write [(Chunk.token bytes).element width] = [(Placeholder.number packed.1).toByte] := by
        simp [Chunk.element, hpack, Logtype.write, Logtype.writeElement]
      simp [Chunk.operation, Operation.apply, appendEncoded, appendNumber, appendChunks, hlogtype, hpack,
        Chunk.dictionary?, Chunk.packed?, Except.toOption]
    | none =>
      have hlogtype : Logtype.write [(Chunk.token bytes).element width] = [Placeholder.dictionary.toByte] := by
        simp [Chunk.element, hpack, Logtype.write, Logtype.writeElement]
      have hfits : (m.dictionary.bytes ++ bytes).length < 0x100000000 := by rwa [List.length_append]
      simp only [Chunk.operation, hpack, Operation.apply, if_pos hfits]
      simp [appendDictionary, appendChunks, hlogtype, hpack, Chunk.dictionary?, Chunk.packed?,
        FlatBytes.pushAll_singleton]

/-- **Chunks are appended in one go or one by one.** -/
theorem run_operations {cs : List Chunk}
    (hroom : m.dictionary.bytes.length + (cs.flatMap Chunk.bytes).length < 0x100000000) :
    run (cs.map (Chunk.operation width)) m = some (m.appendChunks width cs) := by
  induction cs generalizing m with
  | nil => rw [appendChunks_nil]; rfl
  | cons c cs ih =>
    rw [List.flatMap_cons, List.length_append] at hroom
    have hfirst : (c.operation width).apply m = some (m.appendChunks width [c]) := apply_operation (by omega)
    have hgrown := length_dictionary_appendChunks_le width m [c]
    rw [List.flatMap_singleton] at hgrown
    have hlater := @ih (m.appendChunks width [c]) (by omega)
    rw [← appendChunks_append, List.singleton_append] at hlater
    rw [List.map_cons, run, List.foldlM_cons, hfirst]
    exact hlater

end

/-! ## Encoding -/

theorem Operation.ofToken?_eq (width : Width) (token : Bytes) :
    Operation.ofToken? width token = some ((Chunk.token token).operation width) := by
  rw [ofToken?, Width.packChecked_eq, Chunk.operation]
  cases width.pack token with
  | some packed => rfl
  | none => rfl

end EncodedMessage

/-- A slice of a text from the place of a cursor on. -/
theorem Cursor.slice_text (c : Cursor) (stop : Nat) :
    (Span.mk c.position stop).slice c.text = c.rest.take (stop - c.position) := by
  have hrest : c.rest = c.text.drop c.position := congrArg Cursor.rest c.eq_inText
  rw [hrest]
  rfl

/-- What an accepted span cuts off behind a place: the static text before it, and the token. -/
def Cursor.chunksTo (c : Cursor) (span : Span) : List Chunk :=
  [.text (c.rest.take (span.start - c.position)), .token (Token.bytes ⟨c.advance (span.start - c.position), span.length⟩)]

section
variable {c : Cursor} {span : Span} (h : span.Follows c.position c.text.length)
include h

/-- What is cut off has no more bytes than stand between the two places. -/
theorem length_chunksTo_le : ((c.chunksTo span).flatMap Chunk.bytes).length ≤ span.stop - c.position := by
  obtain ⟨hstart, hne, -⟩ := h
  have hbefore := List.length_take_le (span.start - c.position) c.rest
  have htoken := List.length_take_le span.length (c.advance (span.start - c.position)).rest
  rw [Cursor.chunksTo, List.flatMap_cons, List.flatMap_singleton, List.length_append]
  show (c.rest.take (span.start - c.position)).length +
    ((c.advance (span.start - c.position)).rest.take span.length).length ≤ _
  rw [Span.length] at htoken ⊢
  omega

/-- The static text before an accepted span is a slice of the text. -/
theorem slice?_before :
    (Span.mk c.position span.start).slice? c.text = some (c.rest.take (span.start - c.position)) := by
  obtain ⟨hstart, hne, hstop⟩ := h
  rw [Span.slice?_of_fits ⟨hstart, Nat.le_trans (Nat.le_of_lt hne) hstop⟩, c.slice_text]

/-- An accepted span is a slice of the text. -/
theorem slice?_token :
    span.slice? c.text = some (Token.bytes ⟨c.advance (span.start - c.position), span.length⟩) := by
  obtain ⟨hstart, hne, hstop⟩ := h
  have hposition : (c.advance (span.start - c.position)).position = span.start := by
    rw [Cursor.position_advance]
    rw [c.length_text] at hstop
    omega
  have hslice := (c.advance (span.start - c.position)).slice_text span.stop
  rw [hposition, Cursor.text_advance] at hslice
  rw [Span.slice?_of_fits ⟨Nat.le_of_lt hne, hstop⟩, hslice]
  rfl

end

namespace EncodedMessage

section
variable {width : Width} {locate : Locator} {named : Nat} {c : Cursor} {span : Span} {out : EncodedMessage}

/-- Behind the last token there is only static text. -/
theorem encodeFrom_of_none (h : locate named c = none)
    (hroom : out.dictionary.bytes.length + c.rest.length < 0x100000000) :
    encodeFrom width locate c.text named c.position out = some (out.appendChunks width [.text c.rest], none) := by
  have hrun : (Span.mk c.position c.text.length).slice? c.text = some c.rest := by
    rw [Span.slice?_of_fits ⟨c.length_text ▸ Nat.le_add_right _ _, Nat.le_refl _⟩, c.slice_text, c.length_text,
      Nat.add_sub_cancel_left, List.take_length]
  have happend : (Operation.text c.rest).apply out = some (out.appendChunks width [.text c.rest]) :=
    @apply_operation width out (.text c.rest) hroom
  rw [c.eq_inText] at h
  rw [encodeFrom, h]
  simp only [hrun, happend, Option.bind_eq_bind, Option.bind_some]
  rfl

/-- A span that is not accepted ends the encoding. -/
theorem encodeFrom_of_not_follows (h : locate named c = some span) (hbad : ¬ span.Follows c.position c.text.length) :
    encodeFrom width locate c.text named c.position out =
      some (out.clear, some (.badToken span c.position c.text.length)) := by
  have hrefused : span.start < c.position ∨ span.stop ≤ span.start ∨ c.text.length < span.stop := by
    by_contra hkept
    exact hbad ⟨by omega, by omega, by omega⟩
  rw [c.eq_inText] at h
  rw [encodeFrom, h]
  exact dif_pos hrefused

/-- What an accepted span cuts off is appended. -/
theorem encodeFrom_of_follows (h : locate named c = some span) (hgood : span.Follows c.position c.text.length)
    (hroom : out.dictionary.bytes.length + (span.stop - c.position) < 0x100000000) :
    encodeFrom width locate c.text named c.position out =
      encodeFrom width locate c.text (named + 1) span.stop (out.appendChunks width (c.chunksTo span)) := by
  have hfirst : (Operation.text (c.rest.take (span.start - c.position))).apply out =
      some (out.appendText (c.rest.take (span.start - c.position))) := rfl
  have hsecond : ((Chunk.token (Token.bytes ⟨c.advance (span.start - c.position), span.length⟩)).operation width).apply
      (out.appendText (c.rest.take (span.start - c.position))) = some (out.appendChunks width (c.chunksTo span)) := by
    have happend := @run_operations width out (c.chunksTo span)
      (Nat.lt_of_le_of_lt (Nat.add_le_add_left (length_chunksTo_le hgood) _) hroom)
    rw [← happend]
    exact (bind_pure _).symm
  have hbefore := slice?_before hgood
  have hvalue := slice?_token hgood
  have hkept : ¬ (span.start < c.position ∨ span.stop ≤ span.start ∨ c.text.length < span.stop) := by
    obtain ⟨hstart, hne, hstop⟩ := hgood
    omega
  rw [c.eq_inText] at h
  rw [encodeFrom, h]
  simp only [dif_neg hkept, hbefore, hvalue, hfirst, hsecond, Operation.ofToken?_eq, Option.bind_eq_bind,
    Option.bind_some]

/-- **Encoding what lies behind a place appends its chunks**, or clears the message.  The dictionary has no more bytes
than stand before the place. -/
theorem encodeFrom_eq (hlength : c.text.length ≤ maxMessageLength) :
    ∀ out : EncodedMessage, out.dictionary.bytes.length ≤ c.position →
      encodeFrom width locate c.text named c.position out =
        some (match chunksFrom locate named c with
          | .ok cs => (out.appendChunks width cs, none)
          | .error e => (out.clear, some e)) := by
  have hmax : maxMessageLength < 0x100000000 := by decide
  fun_induction chunksFrom locate named c with
  | case1 named c hanswer =>
    intro out hroom
    rw [c.length_text] at hlength
    exact encodeFrom_of_none hanswer (by omega)
  | case2 named c span hanswer token hgood ih =>
    intro out hroom
    have hfollows := follows_iff.mpr hgood
    have hposition : token.stop.position = span.stop := position_stop hfollows
    have htext : token.stop.text = c.text := by rw [Token.stop, Cursor.text_advance, Cursor.text_advance]
    rw [htext, hposition] at ih
    have hcut := length_chunksTo_le hfollows
    have hgrown := length_dictionary_appendChunks_le width out (c.chunksTo span)
    have hbounds : c.position ≤ span.stop ∧ span.stop ≤ c.text.length :=
      ⟨Nat.le_trans hfollows.1 (Nat.le_of_lt hfollows.2.1), hfollows.2.2⟩
    rw [encodeFrom_of_follows hanswer hfollows (by omega), ih hlength _ (by omega)]
    cases chunksFrom locate (named + 1) token.stop with
    | error e => rfl
    | ok rest =>
      simp only [← appendChunks_append]
      rfl
  | case3 named c span hanswer token hbad =>
    intro out _
    rw [← c.length_text]
    exact encodeFrom_of_not_follows hanswer fun hfollows => hbad (follows_iff.mp hfollows)

end

section
variable (width : Width) (locate : Locator) {text : Bytes}

/-- **To encode step by step is to append all chunks in one go**, and no step goes wrong. -/
theorem encodeInPlace_eq (held : EncodedMessage) (text : Bytes) :
    encodeInPlace held width locate text = some (reencode held width locate text) := by
  unfold encodeInPlace reencode
  by_cases hlong : maxMessageLength < text.length
  · rw [if_pos hlong, if_pos hlong]
  · have hlength : (Cursor.ofText text).text.length ≤ maxMessageLength := by
      rw [Cursor.text_ofText]
      exact Nat.le_of_not_lt hlong
    have hencode := @encodeFrom_eq width locate 0 (.ofText text) hlength held.clear (Nat.le_refl 0)
    rw [Cursor.text_ofText] at hencode
    rw [if_neg hlong, if_neg hlong]
    exact hencode

/-- What the message held does not matter. -/
theorem reencode_eq (held : EncodedMessage) (text : Bytes) :
    reencode held width locate text =
      match encode width locate text with
      | .ok m => (m, none)
      | .error e => (empty, some e) := by
  unfold reencode encode
  by_cases hlong : maxMessageLength < text.length
  · rw [if_pos hlong, if_pos hlong]
    rfl
  · rw [if_neg hlong, if_neg hlong]
    cases chunks locate text with
    | error e => rfl
    | ok cs => rfl

/-- **Encoding round-trips for every locator, whatever the message held.**  A text that is not too long is encoded, and
decoding gives it back, unless the locator names a span that is no token; the first such span is then reported and the
message is empty.  Either way nothing is left of what the message held before, and no step goes wrong. -/
theorem encodeInPlace_run (hlength : text.length ≤ maxMessageLength) :
    (∃ spans, LocatorRun locate text 0 0 spans none ∧
      ∃ m : EncodedMessage, (∀ held, encodeInPlace held width locate text = some (m, none)) ∧
        encode width locate text = .ok m ∧ m.decode width = .ok text) ∨
    (∃ spans span previous, LocatorRun locate text 0 0 spans (some (span, previous)) ∧
      (∀ held, encodeInPlace held width locate text = some (empty, some (.badToken span previous text.length))) ∧
        encode width locate text = .error (.badToken span previous text.length)) := by
  rcases @encode_run width locate text hlength with ⟨spans, hrun, m, he, hdecode⟩ | ⟨spans, span, previous, hrun, he⟩
  · refine .inl ⟨spans, hrun, m, ?_, he, hdecode⟩
    intro held
    rw [encodeInPlace_eq, reencode_eq, he]
  · refine .inr ⟨spans, span, previous, hrun, ?_, he⟩
    intro held
    rw [encodeInPlace_eq, reencode_eq, he]

/-- A locator that names the digit of `a1` and nothing more, and a message that holds a value. -/
theorem encodeInPlace_run_digit :
    ∃ m : EncodedMessage, encodeInPlace (empty.appendDictionary [0x62]) .eight (.script #[⟨1, 2⟩]) [0x61, 0x31] =
      some (m, none) ∧ m.decode .eight = .ok [0x61, 0x31] := by
  have hrun : LocatorRun (.script #[⟨1, 2⟩]) [0x61, 0x31] 0 0 [⟨1, 2⟩] none :=
    .next rfl ⟨by decide, by decide, by decide⟩ (.done rfl)
  rcases encodeInPlace_run .eight (.script #[⟨1, 2⟩]) (show ([0x61, 0x31] : Bytes).length ≤ maxMessageLength by decide)
    with ⟨_, _, m, hm, -, hdecode⟩ | ⟨_, _, _, hbad, -⟩
  · exact ⟨m, hm _, hdecode⟩
  · cases (hrun.unique hbad).2

/-- **An encoded text is what operations make** of any message: it is cleared, and the chunks are appended one by one. -/
theorem run_of_encode {m : EncodedMessage} (he : encode width locate text = .ok m) :
    ∃ cs, chunks locate text = .ok cs ∧ ∀ held, run (.clear :: cs.map (Chunk.operation width)) held = some m := by
  obtain ⟨hlength, cs, hcs, rfl⟩ := encode_eq_ok_iff.mp he
  refine ⟨cs, hcs, ?_⟩
  intro held
  have hroom : held.clear.dictionary.bytes.length + (cs.flatMap Chunk.bytes).length < 0x100000000 := by
    rw [bytes_of_chunks hcs]
    show 0 + text.length < 0x100000000
    unfold maxMessageLength at hlength
    omega
  exact run_operations hroom

end

end EncodedMessage

end LogCodec
