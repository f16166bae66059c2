import LogCodec.Message.InPlace
import LogCodec.Proofs.AppendedText
import LogCodec.Proofs.DigitLoop

/-!
# `LogCodec.Proofs.DecodedText`: decoding decides by the parts of a message

Text is written into a buffer while the places of a logtype are filled, so an error can come after any amount of it.
What was written is behind what the buffer held before, and the buffer is cut back to that.  So all of the text is
appended or nothing.

Which of the two it is shows in the parts.  A logtype is read as cells unless it ends with an escape that has nothing
behind it; then there has to be a value for every cell that is a place; then every number has to have a text.  The first
of these that fails gives the error, and that numbers run out is never among them.

## Contents
- **Buffer.** `Written.Leaves`, what is in the buffer before it is cut back; `fillInPlace_leaves` and
  `decodeInPlace_eq`.
- **Logtypes.** `Logtype.Reads` and `Logtype.Dangling`: which logtypes are read, and as which cells.
- **Text.** `Fills`, the text of cells with their values, and `Width.FirstRefused`, the number that keeps them from
  having one; `Atom.textOf_eq_ok_iff` and `Atom.textOf_eq_error_iff`.
- **Outcome.** `Decodes`, what decoding comes to, and `decode_eq_iff`; `decodeInPlace_decides`, the main statement.
-/

namespace LogCodec

/-! ## Buffer -/

/-- What is in a buffer after a text was written into it piece by piece: all of the text, or after an error some of what
came before it. -/
inductive Written.Leaves {ε : Type} (held : Bytes) : Except ε Bytes → Written ε → Prop where
  | text (text : Bytes) : Leaves held (.ok text) ⟨held ++ text, none⟩
  | failed (e : ε) (front : Bytes) : Leaves held (.error e) ⟨held ++ front, some e⟩

section
variable {ε : Type} {held : Bytes} {result : Except ε Bytes} {written : Written ε}

/-- An error can come before anything was written. -/
theorem Written.Leaves.nothing (held : Bytes) (e : ε) : Leaves held (.error e) ⟨held, some e⟩ := by
  have h : Leaves held (.error e) ⟨held ++ [], some e⟩ := .failed e []
  rw [List.append_nil] at h
  exact h

/-- A piece that was written first belongs to the text. -/
theorem Written.Leaves.of_append {piece : Bytes} (h : Leaves (held ++ piece) result written) :
    Leaves held (result.map (piece ++ ·)) written := by
  cases h with
  | text text =>
    rw [List.append_assoc]
    exact .text (piece ++ text)
  | failed e front =>
    rw [List.append_assoc]
    exact .failed e (piece ++ front)

/-- A buffer that is cut back after an error has all of the text or nothing. -/
theorem Written.Leaves.cutBack_eq (h : Leaves held result written) : written.cutBack held = .append held result := by
  cases h with
  | text text => rfl
  | failed e front => exact congrArg (Written.mk · (some e)) List.take_left

end

/-! A piece in front of the elements that are left to fill. -/

section
variable (width : Width) (shortage : VariableGroup → DecodeError) (rest : List Element) (values : List Bytes)
  (numbers : List Int64)

theorem fill_text (run : Bytes) :
    fill width shortage (.text run :: rest) values numbers =
      (fill width shortage rest values numbers).map (run ++ ·) := by
  rw [fill]
  exact bind_pure_comp (run ++ ·) (fill width shortage rest values numbers)

theorem fill_value (value : Bytes) :
    fill width shortage (.variable .dictionary :: rest) (value :: values) numbers =
      (fill width shortage rest values numbers).map (value ++ ·) := by
  rw [fill]
  exact bind_pure_comp (value ++ ·) (fill width shortage rest values numbers)

theorem fill_number {kind : NumberKind} {number : Int64} {piece : Bytes} (h : width.render kind number = .ok piece) :
    fill width shortage (.variable (.number kind) :: rest) values (number :: numbers) =
      (fill width shortage rest values numbers).map (piece ++ ·) := by
  rw [fill, h]
  exact bind_pure_comp (piece ++ ·) (fill width shortage rest values numbers)

end

/-- Filling the places in a buffer leaves all of the text in it, or some of it. -/
theorem fillInPlace_leaves (width : Width) (shortage : VariableGroup → DecodeError) (items : List Element)
    (values : List Bytes) (numbers : List Int64) (buffer : Bytes) :
    ∃ written, fillInPlace width shortage buffer items values numbers = some written ∧
      Written.Leaves buffer (fill width shortage items values numbers) written := by
  induction items generalizing values numbers buffer with
  | nil =>
    have hnothing : Written.Leaves buffer (.ok []) (⟨buffer ++ [], none⟩ : Written DecodeError) := .text []
    rw [List.append_nil] at hnothing
    exact ⟨_, by rw [fillInPlace], hnothing⟩
  | cons item rest ih =>
    cases item with
    | text run =>
      obtain ⟨written, hwritten, hleaves⟩ := ih values numbers (buffer ++ run)
      rw [fill_text]
      exact ⟨written, by rw [fillInPlace, hwritten], hleaves.of_append⟩
    | «variable» p =>
      cases p with
      | dictionary =>
        cases values with
        | nil => exact ⟨_, by rw [fillInPlace], Written.Leaves.nothing buffer _⟩
        | cons value values =>
          obtain ⟨written, hwritten, hleaves⟩ := ih values numbers (buffer ++ value)
          rw [fill_value]
          exact ⟨written, by rw [fillInPlace, hwritten], hleaves.of_append⟩
      | number kind =>
        cases numbers with
        | nil => exact ⟨_, by rw [fillInPlace], Written.Leaves.nothing buffer _⟩
        | cons number numbers =>
          have hrendered := width.renderInPlace_eq kind buffer number
          cases hpiece : width.render kind number with
          | error e =>
            rw [hpiece] at hrendered
            refine ⟨⟨buffer, some e⟩, ?_, ?_⟩
            · rw [fillInPlace, hrendered]
              rfl
            · rw [fill, hpiece]
              exact Written.Leaves.nothing buffer e
          | ok piece =>
            rw [hpiece] at hrendered
            obtain ⟨written, hwritten, hleaves⟩ := ih values numbers (buffer ++ piece)
            rw [fill_number _ _ _ _ _ hpiece]
            refine ⟨written, ?_, hleaves.of_append⟩
            rw [fillInPlace, hrendered]
            exact hwritten

/-- Cut back after an error, the buffer has all of the text or nothing. -/
theorem fillInPlace_cutBack (width : Width) (shortage : VariableGroup → DecodeError) (items : List Element)
    (values : List Bytes) (numbers : List Int64) (held : Bytes) :
    (fillInPlace width shortage held items values numbers).map (Written.cutBack held) =
      some (.append held (fill width shortage items values numbers)) := by
  obtain ⟨written, hwritten, hleaves⟩ := fillInPlace_leaves width shortage items values numbers held
  rw [hwritten, Option.map_some, hleaves.cutBack_eq]

/-- **Decoding into a buffer appends the text of the message, or leaves the buffer as it was.** -/
theorem decodeInPlace_eq (width : Width) (held logtype : Bytes) (values : List Bytes) (numbers : List Int64) :
    decodeInPlace width held logtype values numbers = some (.append held (decode width logtype values numbers)) := by
  have hkept : ∀ e : DecodeError, Written.cutBack held ⟨held, some e⟩ = .append held (.error e) := by
    intro e
    exact (Written.Leaves.nothing held e).cutBack_eq
  unfold decodeInPlace writeMessage decode Logtype.counts Scan.toExcept
  cases hfailure : (Logtype.elements logtype).failure with
  | some e => exact congrArg some (hkept e)
  | none =>
    simp only [Except.map, bind, Except.bind]
    cases hcheck : (Logtype.countElements (Logtype.elements logtype).items).check values.length numbers.length with
    | error e => exact congrArg some (hkept e)
    | ok =>
      -- Behind elements that were read without an error nothing more can fail.
      simp only [hfailure, Option.or_none]
      rw [← fillInPlace_cutBack]
      exact congrArg (Option.map (Written.cutBack held)) (Option.bind_fun_some _)

/-! ## Logtypes -/

namespace Logtype

/-- The logtype is read as the cells: it is made of places, escaped bytes and bytes that need no escape. -/
inductive Reads : Bytes → List Cell → Prop where
  | nil : Reads [] []
  | place (p : Placeholder) {rest : Bytes} {shown : List Cell} (h : Reads rest shown) :
      Reads (p.toByte :: rest) (.variable p :: shown)
  | escaped (b : UInt8) {rest : Bytes} {shown : List Cell} (h : Reads rest shown) :
      Reads (escapeByte :: b :: rest) (.byte b :: shown)
  | plain {b : UInt8} (hb : needsEscape b = false) {rest : Bytes} {shown : List Cell} (h : Reads rest shown) :
      Reads (b :: rest) (.byte b :: shown)

/-- The logtype ends with an escape that has nothing behind it. -/
def Dangling (logtype : Bytes) : Prop := ∃ front shown, logtype = front ++ [escapeByte] ∧ Reads front shown

section
variable {logtype : Bytes}

theorem Reads.failure_eq {shown : List Cell} (h : Reads logtype shown) : (elements logtype).failure = none := by
  induction h with
  | nil => rfl
  | place p h ih => rw [failure_placeholder, ih]
  | escaped b h ih => rw [failure_escaped, ih]
  | plain hb h ih => rw [failure_plain hb, ih]

theorem Reads.cells_eq {shown : List Cell} (h : Reads logtype shown) : cells logtype = shown := by
  induction h with
  | nil => rfl
  | place p h ih => rw [cells_placeholder, ih]
  | escaped b h ih => rw [cells_escaped, ih]
  | plain hb h ih => rw [cells_plain hb, ih]

theorem reads_of_failure (h : (elements logtype).failure = none) : Reads logtype (cells logtype) := by
  refine readable_induction (motive := fun logtype => Reads logtype (cells logtype)) .nil ?place ?escaped ?plain h
  case place =>
    intro p rest ih
    rw [cells_placeholder]
    exact .place p ih
  case escaped =>
    intro b rest ih
    rw [cells_escaped]
    exact .escaped b ih
  case plain =>
    intro b rest hb ih
    rw [cells_plain hb]
    exact .plain hb ih

/-- An error in the reading of a logtype is that it ends with an escape that has nothing behind it. -/
theorem dangling_of_failure {e : DecodeError} (h : (elements logtype).failure = some e) :
    e = .danglingEscape ∧ Dangling logtype := by
  induction logtype using Bytes.escape_induction with
  | nil => cases h
  | lone =>
    cases h
    exact ⟨rfl, [], [], rfl, .nil⟩
  | pair b rest ih =>
    rw [failure_escaped] at h
    obtain ⟨rfl, front, shown, hfront, hreads⟩ := ih h
    exact ⟨rfl, escapeByte :: b :: front, _, by rw [hfront, List.cons_append, List.cons_append], .escaped b hreads⟩
  | single b rest hb ih =>
    rcases placeholder_or_plain hb with ⟨p, rfl⟩ | hplain
    · rw [failure_placeholder] at h
      obtain ⟨rfl, front, shown, hfront, hreads⟩ := ih h
      exact ⟨rfl, p.toByte :: front, _, by rw [hfront, List.cons_append], .place p hreads⟩
    · rw [failure_plain hplain] at h
      obtain ⟨rfl, front, shown, hfront, hreads⟩ := ih h
      exact ⟨rfl, b :: front, _, by rw [hfront, List.cons_append], .plain hplain hreads⟩

theorem Dangling.failure_eq (h : Dangling logtype) : (elements logtype).failure = some .danglingEscape := by
  obtain ⟨front, shown, rfl, hfront⟩ := h
  rw [failure_append hfront.failure_eq]
  rfl

end

end Logtype

/-! ## Text -/

/-- The text of cells whose places are filled with the given values, none of which is left over. -/
inductive Fills (width : Width) : List Cell → List Bytes → List Int64 → Bytes → Prop where
  | nil : Fills width [] [] [] []
  | byte (b : UInt8) {shown : List Cell} {values : List Bytes} {numbers : List Int64} {text : Bytes}
      (h : Fills width shown values numbers text) : Fills width (.byte b :: shown) values numbers (b :: text)
  | value (value : Bytes) {shown : List Cell} {values : List Bytes} {numbers : List Int64} {text : Bytes}
      (h : Fills width shown values numbers text) :
      Fills width (.variable .dictionary :: shown) (value :: values) numbers (value ++ text)
  | number {kind : NumberKind} {word : Int64} {piece : Bytes} (hpiece : width.render kind word = .ok piece)
      {shown : List Cell} {values : List Bytes} {numbers : List Int64} {text : Bytes}
      (h : Fills width shown values numbers text) :
      Fills width (.variable (.number kind) :: shown) values (word :: numbers) (piece ++ text)

/-- The first number that has no text, behind numbers that have one, is refused with the error. -/
inductive Width.FirstRefused (width : Width) : List Packed → DecodeError → Prop where
  | here {kind : NumberKind} {word : Int64} {e : DecodeError} (h : width.render kind word = .error e)
      (rest : List Packed) : FirstRefused width ((kind, word) :: rest) e
  | behind {kind : NumberKind} {word : Int64} {piece : Bytes} (hpiece : width.render kind word = .ok piece)
      {rest : List Packed} {e : DecodeError} (h : FirstRefused width rest e) :
      FirstRefused width ((kind, word) :: rest) e

/-- The error is that of a number. -/
theorem Width.FirstRefused.isOfNumber {width : Width} {packed : List Packed} {e : DecodeError}
    (h : width.FirstRefused packed e) : e.IsOfNumber := by
  induction h with
  | here h rest => exact Width.isOfNumber_of_render h
  | behind hpiece h ih => exact ih

namespace Atom

variable {width : Width}

/-- The text of atoms is that of their cells, with their values in the places. -/
theorem textOf_eq_ok_iff {as : List Atom} {text : Bytes} :
    textOf width as = .ok text ↔
      Fills width (as.map cell) (as.filterMap value?) ((as.filterMap packed?).map Prod.snd) text := by
  induction as generalizing text with
  | nil =>
    constructor
    · intro h
      cases h
      exact .nil
    · intro h
      cases h
      rfl
  | cons a as ih =>
    cases a with
    | byte b =>
      rw [textOf_cons_of_ok rfl, map_eq_ok_iff]
      constructor
      · rintro ⟨later, hlater, rfl⟩
        exact .byte b (ih.mp hlater)
      · intro h
        cases h with
        | byte _ hlater => exact ⟨_, ih.mpr hlater, rfl⟩
    | value value =>
      rw [textOf_cons_of_ok rfl, map_eq_ok_iff]
      constructor
      · rintro ⟨later, hlater, rfl⟩
        exact .value value (ih.mp hlater)
      · intro h
        cases h with
        | value _ hlater => exact ⟨_, ih.mpr hlater, rfl⟩
    | number kind word =>
      constructor
      · intro h
        obtain ⟨piece, hpiece, h⟩ := bind_eq_ok_iff.mp h
        obtain ⟨later, hlater, h⟩ := bind_eq_ok_iff.mp h
        cases h
        exact .number hpiece (ih.mp hlater)
      · intro h
        cases h with
        | number hpiece hlater =>
          have htext : (number kind word).text width = .ok _ := hpiece
          rw [textOf_cons_of_ok htext, map_eq_ok_iff]
          exact ⟨_, ih.mpr hlater, rfl⟩

/-- Atoms have no text exactly if some number has none, and the first of these gives the error. -/
theorem textOf_eq_error_iff {as : List Atom} {e : DecodeError} :
    textOf width as = .error e ↔ width.FirstRefused (as.filterMap packed?) e := by
  induction as with
  | nil =>
    constructor
    · intro h
      cases h
    · intro h
      cases h
  | cons a as ih =>
    cases a with
    | byte b =>
      rw [textOf_cons_of_ok rfl, map_eq_error_iff]
      exact ih
    | value value =>
      rw [textOf_cons_of_ok rfl, map_eq_error_iff]
      exact ih
    | number kind word =>
      show _ ↔ width.FirstRefused ((kind, word) :: as.filterMap packed?) e
      constructor
      · intro h
        cases hpiece : width.render kind word with
        | error cause =>
          rw [textOf, text, hpiece] at h
          cases h
          exact .here hpiece _
        | ok piece =>
          have htext : (number kind word).text width = .ok piece := hpiece
          rw [textOf_cons_of_ok htext, map_eq_error_iff] at h
          exact .behind hpiece (ih.mp h)
      · intro h
        cases h with
        | here herror =>
          rw [textOf, text, herror]
          rfl
        | behind hpiece hrest =>
          have htext : (number kind word).text width = .ok _ := hpiece
          rw [textOf_cons_of_ok htext, map_eq_error_iff]
          exact ih.mpr hrest

/-- Atoms have a text exactly if each of their numbers has one. -/
theorem exists_textOf_iff_numbers {as : List Atom} :
    (∃ text, textOf width as = .ok text) ↔
      ∀ packed ∈ as.filterMap packed?, ∃ text, width.render packed.1 packed.2 = .ok text := by
  rw [exists_textOf_iff]
  constructor
  · intro hall packed hmem
    obtain ⟨a, ha, hpacked⟩ := List.mem_filterMap.mp hmem
    cases a with
    | byte b => cases hpacked
    | value value => cases hpacked
    | number kind word =>
      cases hpacked
      exact hall _ ha
  · intro hall a ha
    cases a with
    | byte b => exact ⟨[b], rfl⟩
    | value value => exact ⟨value, rfl⟩
    | number kind word => exact hall (kind, word) (List.mem_filterMap.mpr ⟨_, ha, rfl⟩)

/-! The places that cells show are those of the values. -/

theorem count_cell (as : List Atom) :
    (as.map cell).count (.variable .dictionary) = (as.filterMap value?).length := by
  induction as with
  | nil => rfl
  | cons a as ih =>
    cases a with
    | byte b => exact ih
    | value value =>
      show List.count _ (Cell.variable .dictionary :: as.map cell) = (as.filterMap value?).length + 1
      rw [List.count_cons_self, ih]
    | number kind word => exact ih

theorem filterMap_number?_cell (as : List Atom) :
    (as.map cell).filterMap Cell.number? = (as.filterMap packed?).map Prod.fst := by
  induction as with
  | nil => rfl
  | cons a as ih =>
    cases a with
    | byte b => exact ih
    | value value => exact ih
    | number kind word => exact congrArg (kind :: ·) ih

theorem zip_numbers (as : List Atom) :
    ((as.map cell).filterMap Cell.number?).zip ((as.filterMap packed?).map Prod.snd) = as.filterMap packed? := by
  rw [filterMap_number?_cell, List.zip_map', List.map_id']

/-- Cells with as many values as they have places are those of atoms with these values. -/
theorem exists_of_counts {shown : List Cell} {values : List Bytes} {numbers : List Int64}
    (hvalues : shown.count (.variable .dictionary) = values.length)
    (hnumbers : (shown.filterMap Cell.number?).length = numbers.length) :
    ∃ as : List Atom, as.map cell = shown ∧ as.filterMap value? = values ∧
      (as.filterMap packed?).map Prod.snd = numbers := by
  obtain ⟨held, rfl⟩ := Logtype.exists_atoms shown
  rw [count_cell] at hvalues
  rw [filterMap_number?_cell, List.length_map] at hnumbers
  exact exists_refilled held hvalues hnumbers

end Atom

/-- What fills the places among cells are the values of atoms. -/
theorem Fills.exists_atoms {width : Width} {shown : List Cell} {values : List Bytes} {numbers : List Int64}
    {text : Bytes} (h : Fills width shown values numbers text) :
    ∃ as : List Atom, as.map Atom.cell = shown ∧ as.filterMap Atom.value? = values ∧
      (as.filterMap Atom.packed?).map Prod.snd = numbers := by
  induction h with
  | nil => exact ⟨[], rfl, rfl, rfl⟩
  | byte b h ih =>
    obtain ⟨as, rfl, rfl, rfl⟩ := ih
    exact ⟨.byte b :: as, rfl, rfl, rfl⟩
  | value value h ih =>
    obtain ⟨as, rfl, rfl, rfl⟩ := ih
    exact ⟨.value value :: as, rfl, rfl, rfl⟩
  | @number kind word piece hpiece shown values numbers text h ih =>
    obtain ⟨as, rfl, rfl, rfl⟩ := ih
    exact ⟨.number kind word :: as, rfl, rfl, rfl⟩

/-! ## Outcome -/

/-- What decoding comes to, as it is decided by the parts of a message: by its logtype, by how many values there are for
the places of the logtype, and by its numbers. -/
inductive Decodes (width : Width) (logtype : Bytes) (values : List Bytes) (numbers : List Int64) :
    Except DecodeError Bytes → Prop where
  | dangling (h : Logtype.Dangling logtype) : Decodes width logtype values numbers (.error .danglingEscape)
  | values {shown : List Cell} (h : Logtype.Reads logtype shown)
      (hvalues : shown.count (.variable .dictionary) ≠ values.length) :
      Decodes width logtype values numbers
        (.error (.countMismatch .dictionary (shown.count (.variable .dictionary)) values.length))
  | numbers {shown : List Cell} (h : Logtype.Reads logtype shown)
      (hvalues : shown.count (.variable .dictionary) = values.length)
      (hnumbers : (shown.filterMap Cell.number?).length ≠ numbers.length) :
      Decodes width logtype values numbers
        (.error (.countMismatch .numbers (shown.filterMap Cell.number?).length numbers.length))
  | number {shown : List Cell} (h : Logtype.Reads logtype shown)
      (hvalues : shown.count (.variable .dictionary) = values.length)
      (hnumbers : (shown.filterMap Cell.number?).length = numbers.length)
      {e : DecodeError} (hrefused : width.FirstRefused ((shown.filterMap Cell.number?).zip numbers) e) :
      Decodes width logtype values numbers (.error e)
  | text {shown : List Cell} (h : Logtype.Reads logtype shown) {text : Bytes}
      (htext : Fills width shown values numbers text) : Decodes width logtype values numbers (.ok text)

section
variable {width : Width} {logtype : Bytes} {values : List Bytes} {numbers : List Int64}

/-- The places of a logtype are counted among its cells. -/
theorem Logtype.Reads.countElements_eq {shown : List Cell} (h : Logtype.Reads logtype shown) :
    Logtype.countElements (Logtype.elements logtype).items =
      ⟨shown.count (.variable .dictionary), (shown.filterMap Cell.number?).length⟩ := by
  obtain ⟨as, rfl⟩ := Logtype.exists_atoms shown
  have hcells : (Logtype.elements logtype).items.flatMap Element.cells = as.map Atom.cell := by
    rw [Logtype.flatMap_cells_elements, h.cells_eq]
  rw [Logtype.countElements_eq hcells, Atom.count_cell, Atom.filterMap_number?_cell, List.length_map]

theorem decode_of_failure {e : DecodeError} (h : (Logtype.elements logtype).failure = some e) :
    decode width logtype values numbers = .error e := by
  unfold decode Scan.toExcept
  rw [h]
  rfl

/-- Counts that do not agree are told before anything else of what the places are filled with. -/
theorem decode_of_check {shown : List Cell} (h : Logtype.Reads logtype shown) {e : DecodeError}
    (hcheck : Logtype.Counts.check ⟨shown.count (.variable .dictionary), (shown.filterMap Cell.number?).length⟩
      values.length numbers.length = .error e) : decode width logtype values numbers = .error e := by
  unfold decode Scan.toExcept
  rw [h.failure_eq]
  simp only [bind, Except.bind, h.countElements_eq, hcheck]

/-- A message that is read as the cells of atoms, with their values, has the text of the atoms. -/
theorem decode_of_atoms {as : List Atom} (h : Logtype.Reads logtype (as.map Atom.cell)) :
    decode width logtype (as.filterMap Atom.value?) ((as.filterMap Atom.packed?).map Prod.snd) =
      Atom.textOf width as := by
  have hatoms : EncodedMessage.HasAtoms
      ⟨logtype, .ofList (as.filterMap Atom.value?), (as.filterMap Atom.packed?).map Prod.snd⟩ as :=
    ⟨h.cells_eq.symm, (FlatBytes.toList_ofList _).symm, rfl⟩
  have hdecode := hatoms.decode_eq h.failure_eq width
  rw [EncodedMessage.decode, FlatBytes.toList_ofList] at hdecode
  exact hdecode

/-- Decoding comes to one of the outcomes that the parts decide. -/
theorem decodes_decode (width : Width) (logtype : Bytes) (values : List Bytes) (numbers : List Int64) :
    Decodes width logtype values numbers (decode width logtype values numbers) := by
  cases hfailure : (Logtype.elements logtype).failure with
  | some e =>
    obtain ⟨rfl, hdangling⟩ := Logtype.dangling_of_failure hfailure
    rw [decode_of_failure hfailure]
    exact .dangling hdangling
  | none =>
    have hreads := Logtype.reads_of_failure hfailure
    generalize Logtype.cells logtype = shown at hreads
    by_cases hvalues : shown.count (.variable .dictionary) = values.length
    · by_cases hnumbers : (shown.filterMap Cell.number?).length = numbers.length
      · obtain ⟨as, rfl, rfl, rfl⟩ := Atom.exists_of_counts hvalues hnumbers
        rw [decode_of_atoms hreads]
        cases htext : Atom.textOf width as with
        | ok text => exact .text hreads (Atom.textOf_eq_ok_iff.mp htext)
        | error e =>
          have hrefused := Atom.textOf_eq_error_iff.mp htext
          rw [← Atom.zip_numbers] at hrefused
          exact .number hreads hvalues hnumbers hrefused
      · rw [decode_of_check hreads (by rw [Logtype.Counts.check, if_neg (not_not_intro hvalues), if_pos hnumbers])]
        exact .numbers hreads hvalues hnumbers
    · rw [decode_of_check hreads (by rw [Logtype.Counts.check, if_pos hvalues])]
      exact .values hreads hvalues

/-- **What decoding comes to is decided by the parts of a message.** -/
theorem decode_eq_iff {outcome : Except DecodeError Bytes} :
    decode width logtype values numbers = outcome ↔ Decodes width logtype values numbers outcome := by
  constructor
  · rintro rfl
    exact decodes_decode width logtype values numbers
  · intro h
    cases h with
    | dangling hdangling => exact decode_of_failure hdangling.failure_eq
    | values hreads hvalues => exact decode_of_check hreads (if_pos hvalues)
    | numbers hreads hvalues hnumbers =>
      apply decode_of_check hreads
      rw [Logtype.Counts.check, if_neg (not_not_intro hvalues), if_pos hnumbers]
    | number hreads hvalues hnumbers hrefused =>
      obtain ⟨as, rfl, rfl, rfl⟩ := Atom.exists_of_counts hvalues hnumbers
      rw [Atom.zip_numbers] at hrefused
      rw [decode_of_atoms hreads]
      exact Atom.textOf_eq_error_iff.mpr hrefused
    | text hreads htext =>
      obtain ⟨as, rfl, rfl, rfl⟩ := htext.exists_atoms
      rw [decode_of_atoms hreads]
      exact Atom.textOf_eq_ok_iff.mpr htext

/-- Decoding succeeds exactly if nothing stands against it. -/
theorem exists_decode_eq_ok_iff :
    (∃ text, decode width logtype values numbers = .ok text) ↔
      ∃ shown, Logtype.Reads logtype shown ∧ shown.count (.variable .dictionary) = values.length ∧
        (shown.filterMap Cell.number?).length = numbers.length ∧
        ∀ packed ∈ (shown.filterMap Cell.number?).zip numbers, ∃ text, width.render packed.1 packed.2 = .ok text := by
  constructor
  · rintro ⟨text, htext⟩
    cases decode_eq_iff.mp htext with
    | text hreads hfills =>
      obtain ⟨as, rfl, rfl, rfl⟩ := hfills.exists_atoms
      refine ⟨_, hreads, Atom.count_cell as, ?_, ?_⟩
      · rw [Atom.filterMap_number?_cell, List.length_map, List.length_map]
      · rw [Atom.zip_numbers]
        exact Atom.exists_textOf_iff_numbers.mp ⟨text, Atom.textOf_eq_ok_iff.mpr hfills⟩
  · rintro ⟨shown, hreads, hvalues, hnumbers, hrendered⟩
    obtain ⟨as, rfl, rfl, rfl⟩ := Atom.exists_of_counts hvalues hnumbers
    rw [Atom.zip_numbers] at hrendered
    rw [decode_of_atoms hreads]
    exact Atom.exists_textOf_iff_numbers.mpr hrendered

end

/-- **Decoding into a buffer appends all of the text or nothing, and the parts of a message decide which.**  There is a
text exactly if the logtype has no dangling escape, as many places of each group as there are values, and only numbers
that have a text; it is made of the cells of the logtype with the values in their places.  Otherwise the error is, in
this order, the dangling escape, the number of dictionary values, that of numbers, or what is wrong with the first
number that has no text; that numbers run out is never the error. -/
theorem decodeInPlace_decides (width : Width) (held logtype : Bytes) (values : List Bytes) (numbers : List Int64) :
    decodeInPlace width held logtype values numbers = some (.append held (decode width logtype values numbers)) ∧
    (∀ outcome, decode width logtype values numbers = outcome ↔ Decodes width logtype values numbers outcome) ∧
    ((∃ text, decode width logtype values numbers = .ok text) ↔
      ∃ shown, Logtype.Reads logtype shown ∧ shown.count (.variable .dictionary) = values.length ∧
        (shown.filterMap Cell.number?).length = numbers.length ∧
        ∀ packed ∈ (shown.filterMap Cell.number?).zip numbers, ∃ text, width.render packed.1 packed.2 = .ok text) ∧
    ∀ provided, decode width logtype values numbers ≠ .error (.tooFewNumbers provided) := by
  refine ⟨decodeInPlace_eq width held logtype values numbers, fun _ => decode_eq_iff, exists_decode_eq_ok_iff, ?_⟩
  intro provided h
  cases decode_eq_iff.mp h with
  | number _ _ _ hrefused => exact hrefused.isOfNumber

end LogCodec
