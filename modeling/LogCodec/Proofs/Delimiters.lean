import LogCodec.Proofs.Fields

/-!
# `LogCodec.Proofs.Delimiters`: encoding is local at delimiters

A delimiter ends the token before it, so a text can be cut there and its fields with it.  What is left to compare is the
part behind the delimiter with the same part as a text of its own: its first token has a byte before it in the one and
nothing in the other.  Delimiters that the rules do not tell from nothing are neutral, and at these the encodings of
both parts are put together as they are.  By the rules of version 2 only `=` is not neutral.

## Contents
- `Schema.IsNeutral`, with `fieldsFrom_of_neutral` for the fields behind a neutral delimiter.
- `standard_isNeutral_iff`: the neutral bytes of version 2.
- `EncodedMessage.joinAt`, with `ofAtoms_append_byte`; `encode_append_neutral` for any local rules, and
  `encode_append_delimiter` for those of version 2.
-/

namespace LogCodec

open Query

/-! ## Neutral delimiters -/

namespace Schema

/-- Whether a token is a variable is the same behind the byte as at the start of a text. -/
def IsNeutral (schema : Schema) (d : UInt8) : Prop :=
  ∀ run, isVariableAfter schema (some d) run = isVariableAfter schema none run

section
variable {schema : Schema} {d : UInt8}

/-- The fields behind a neutral delimiter are those of a text of its own. -/
theorem fieldsFrom_of_neutral (hneutral : schema.IsNeutral d) (run text : Bytes) :
    schema.fieldsFrom id (some d) run text = schema.fieldsFrom id none run text := by
  have hrun : ∀ run : Bytes, schema.runFields id (some d) run = schema.runFields id none run := by
    intro run
    unfold runFields
    rw [hneutral]
  induction text generalizing run with
  | nil =>
    unfold fieldsFrom
    exact hrun run
  | cons b text ih =>
    by_cases hb : schema.isDelimiter b = true
    · -- Behind the next delimiter both go on in the same way.
      rw [fieldsFrom_delimiter hb, fieldsFrom_delimiter hb, hrun]
    · rw [Bool.not_eq_true] at hb
      rw [fieldsFrom_member hb, fieldsFrom_member hb, ih]

/-- The fields of a text with a neutral delimiter in it are those of the part before, the delimiter, and those of the
part behind. -/
theorem fields_append_neutral (hdelimiter : schema.isDelimiter d = true) (hneutral : schema.IsNeutral d)
    (front back : Bytes) :
    schema.fields id (front ++ [d] ++ back) = schema.fields id front ++ .byte d :: schema.fields id back := by
  unfold fields
  rw [List.append_assoc, List.singleton_append, fieldsFrom_append_delimiter hdelimiter]
  show _ ++ .byte d :: schema.fieldsFrom id (some d) [] back = _
  rw [fieldsFrom_of_neutral hneutral]

/-- **By the rules of version 2 every byte but `=` is neutral.** -/
theorem standard_isNeutral_iff : standard.IsNeutral d ↔ d ≠ Bytes.ofChar '=' := by
  constructor
  · rintro hneutral rfl
    -- One letter is a variable behind `=` only.
    have hletter := hneutral [Bytes.ofChar 'x']
    revert hletter
    decide
  · intro hne run
    unfold isVariableAfter
    simp only [standard, isStandardVariable, bytes_between, before?_between]
    have hbefore : (some d == some (Bytes.ofChar '=')) = false := by simpa using hne
    rw [hbefore]
    rfl

end

end Schema

/-! ## Encoding -/

namespace EncodedMessage

/-- The message that shows one message, a byte of static text, and another message. -/
def joinAt (d : UInt8) (front back : EncodedMessage) : EncodedMessage where
  logtype := front.logtype ++ Logtype.writeByte d ++ back.logtype
  dictionary := .ofList (front.dictionary.toList ++ back.dictionary.toList)
  numbers := front.numbers ++ back.numbers

/-- Messages are put together as their atoms are. -/
theorem ofAtoms_append_byte (front back : List Atom) (d : UInt8) :
    ofAtoms (front ++ .byte d :: back) = joinAt d (ofAtoms front) (ofAtoms back) := by
  have hlogtype : (front ++ .byte d :: back).flatMap Atom.wire =
      front.flatMap Atom.wire ++ Logtype.writeByte d ++ back.flatMap Atom.wire := by
    rw [List.flatMap_append, List.flatMap_cons, List.append_assoc]
    rfl
  have hvalues : (front ++ .byte d :: back).filterMap Atom.value? =
      front.filterMap Atom.value? ++ back.filterMap Atom.value? := by
    rw [List.filterMap_append, List.filterMap_cons_none rfl]
  have hnumbers : (front ++ .byte d :: back).filterMap Atom.packed? =
      front.filterMap Atom.packed? ++ back.filterMap Atom.packed? := by
    rw [List.filterMap_append, List.filterMap_cons_none rfl]
  simp only [ofAtoms, joinAt, FlatBytes.toList_ofList]
  rw [hlogtype, hvalues, hnumbers, List.map_append]

/-- Encoding a text with a neutral delimiter in it is encoding both parts, as long as the whole text is not too long. -/
theorem encode_append_neutral {schema : Schema} (hlocal : schema.IsLocal) (width : Width) {d : UInt8}
    (hdelimiter : schema.isDelimiter d = true) (hneutral : schema.IsNeutral d) (front back : Bytes)
    (hlength : (front ++ [d] ++ back).length ≤ maxMessageLength) :
    ∃ a b, encode width schema.locator front = .ok a ∧ encode width schema.locator back = .ok b ∧
      encode width schema.locator (front ++ [d] ++ back) = .ok (joinAt d a b) := by
  have hencode : ∀ text : Bytes, text.length ≤ maxMessageLength → encode width schema.locator text =
      .ok (ofAtoms ((schema.fields id text).map (Field.atom width))) := by
    intro text htext
    rw [encode_eq hlocal, if_neg (Nat.not_lt.mpr htext)]
  have hparts : front.length ≤ maxMessageLength ∧ back.length ≤ maxMessageLength := by
    simp only [List.length_append] at hlength
    omega
  refine ⟨_, _, hencode front hparts.1, hencode back hparts.2, ?_⟩
  rw [hencode _ hlength, Schema.fields_append_neutral hdelimiter hneutral, List.map_append, List.map_cons]
  show Except.ok (ofAtoms (_ ++ Atom.byte d :: _)) = _
  rw [ofAtoms_append_byte]

/-- **Encoding is local at delimiters.**  By the rules of version 2, a text with a delimiter other than `=` in it has
the logtype of the part before the delimiter, the delimiter, with an escape if it is reserved, and the logtype of the
part behind it; its dictionary values are those of the first part and then those of the second, and so are its packed
numbers.  Only a text that is too long is not encoded. -/
theorem encode_append_delimiter (width : Width) {d : UInt8} (hdelimiter : Schema.standard.isDelimiter d = true)
    (hne : d ≠ Bytes.ofChar '=') (front back : Bytes) :
    (maxMessageLength < (front ++ [d] ++ back).length →
      encode width Schema.standard.locator (front ++ [d] ++ back) =
        .error (.tooLong (front ++ [d] ++ back).length)) ∧
    ((front ++ [d] ++ back).length ≤ maxMessageLength →
      ∃ a b, encode width Schema.standard.locator front = .ok a ∧
        encode width Schema.standard.locator back = .ok b ∧
        encode width Schema.standard.locator (front ++ [d] ++ back) = .ok {
          logtype := a.logtype ++ (if needsEscape d then [escapeByte, d] else [d]) ++ b.logtype
          dictionary := .ofList (a.dictionary.toList ++ b.dictionary.toList)
          numbers := a.numbers ++ b.numbers }) := by
  constructor
  · intro hlong
    rw [encode_eq Schema.standard_isLocal, if_pos hlong]
  · intro hlength
    exact encode_append_neutral Schema.standard_isLocal width hdelimiter (Schema.standard_isNeutral_iff.mpr hne) front
      back hlength

/-- The places for variables are marked by delimiters: `a1` and `7` are cut apart at the byte that marks an integer. -/
theorem encode_append_delimiter_reserved :
    ∃ a b, encode .eight Schema.standard.locator [0x61, 0x31] = .ok a ∧
      encode .eight Schema.standard.locator [0x37] = .ok b ∧
      encode .eight Schema.standard.locator ([0x61, 0x31] ++ [0x11] ++ [0x37]) = .ok {
        logtype := a.logtype ++ (if needsEscape 0x11 then [escapeByte, 0x11] else [0x11]) ++ b.logtype
        dictionary := .ofList (a.dictionary.toList ++ b.dictionary.toList)
        numbers := a.numbers ++ b.numbers } := by
  have hdelimiter : Schema.standard.isDelimiter 0x11 = true := by decide
  exact (encode_append_delimiter .eight hdelimiter (by decide) [0x61, 0x31] [0x37]).2 (by decide)

/-- Behind `=` the letter `x` is a dictionary value, and as a text of its own it is static text. -/
example : encode .eight Schema.standard.locator ([] ++ [Bytes.ofChar '='] ++ [Bytes.ofChar 'x']) =
      .ok ⟨[Bytes.ofChar '=', Placeholder.dictionary.toByte], .ofList [[Bytes.ofChar 'x']], []⟩ ∧
    encode .eight Schema.standard.locator [Bytes.ofChar 'x'] = .ok ⟨[Bytes.ofChar 'x'], .ofList [], []⟩ := by
  decide +kernel

end EncodedMessage

end LogCodec
