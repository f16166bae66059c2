import LogCodec.Bytes.EscapePairs
import LogCodec.Proofs.Atom

/-!
# `LogCodec.Proofs.Consistency`: one value for every place

A message is consistent if its logtype has as many places of each group as there are values.  Appending keeps a message
consistent: a logtype that is read without an error is read in the same way whatever is written behind it, so that an
escape at its end cannot reach into what is appended.

## Contents
- **Readings that succeed.** `bind_eq_ok_iff` and its like.
- **Appending to a logtype.** `Logtype.readable_induction`; from it `Logtype.cells_append` and `Logtype.failure_append`,
  and from these `Logtype.counts_append_wire`.
- **Messages.** `EncodedMessage.ofParts_eq_ok_iff`, and the appending operations: `Consistent.appendText`,
  `.appendDictionary` and `.appendNumber`.
-/

namespace LogCodec

/-! ## Readings that succeed -/

section
variable {ε ε' α β : Type} {read : Except ε α} {a : α}

/-- Two readings, one after the other. -/
theorem bind_eq_ok_iff {next : α → Except ε β} {b : β} :
    (read >>= next) = .ok b ↔ ∃ a, read = .ok a ∧ next a = .ok b := by
  cases read with
  | error e => simp [bind, Except.bind]
  | ok a => simp [bind, Except.bind]

/-- A reading of which something is made. -/
theorem map_eq_ok_iff {f : α → β} {b : β} : read.map f = .ok b ↔ ∃ a, read = .ok a ∧ f a = b := by
  cases read with
  | error e => simp [Except.map]
  | ok a => simp [Except.map]

theorem map_eq_error_iff {f : α → β} {e : ε} : read.map f = .error e ↔ read = .error e := by
  cases read with
  | error e => simp [Except.map]
  | ok a => simp [Except.map]

/-- A check in front of a reading. -/
theorem error_else_eq_ok_iff {p : Prop} [Decidable p] {e : ε} :
    (if p then .error e else read) = .ok a ↔ ¬ p ∧ read = .ok a := by
  by_cases hp : p
  · simp [hp]
  · simp [hp]

/-- A reading whose errors are told in another way. -/
theorem mapError_eq_ok_iff {tell : ε → ε'} : read.mapError tell = .ok a ↔ read = .ok a := by
  cases read with
  | error e => simp [Except.mapError]
  | ok b => simp [Except.mapError]

/-- A reading whose errors are not told. -/
theorem toOption_eq_some_iff : read.toOption = some a ↔ read = .ok a := by
  cases read with
  | error e => simp [Except.toOption]
  | ok b => simp [Except.toOption]

end

namespace Logtype

/-! ## Appending to a logtype -/

theorem counts_eq_ok_iff {logtype : Bytes} {counts : Counts} :
    Logtype.counts logtype = .ok counts ↔
      (elements logtype).failure = none ∧ countElements (elements logtype).items = counts := by
  rw [Logtype.counts, Scan.toExcept]
  cases (elements logtype).failure with
  | none => simp [Except.map]
  | some e => simp [Except.map]

/-- A byte that is no escape byte is a placeholder byte or needs no escape. -/
theorem placeholder_or_plain {b : UInt8} (hb : b ≠ escapeByte) :
    (∃ p : Placeholder, b = p.toByte) ∨ needsEscape b = false := by
  cases hp : Placeholder.ofByte? b with
  | some p => exact .inl ⟨p, (Placeholder.toByte_of_ofByte? hp).symm⟩
  | none => exact .inr (by simp [needsEscape, isPlaceholder, hp, hb])

/-- A logtype that is read without an error is made of places, escaped bytes and bytes that need no escape. -/
theorem readable_induction {motive : Bytes → Prop} (nil : motive [])
    (place : ∀ (p : Placeholder) (rest : Bytes), motive rest → motive (p.toByte :: rest))
    (escaped : ∀ (b : UInt8) (rest : Bytes), motive rest → motive (escapeByte :: b :: rest))
    (plain : ∀ (b : UInt8) (rest : Bytes), needsEscape b = false → motive rest → motive (b :: rest))
    {logtype : Bytes} (h : (elements logtype).failure = none) : motive logtype := by
  induction logtype using Bytes.escape_induction with
  | nil => exact nil
  | lone => cases h
  | pair b rest ih =>
    rw [failure_escaped] at h
    exact escaped b rest (ih h)
  | single b rest hb ih =>
    rcases placeholder_or_plain hb with ⟨p, rfl⟩ | hplain
    · rw [failure_placeholder] at h
      exact place p rest (ih h)
    · rw [failure_plain hplain] at h
      exact plain b rest hplain (ih h)

section
variable {front : Bytes} (hfront : (elements front).failure = none) (back : Bytes)
include hfront

/-- What stands behind a logtype that is read without an error does not change how it is read. -/
theorem cells_append : cells (front ++ back) = cells front ++ cells back := by
  refine readable_induction (motive := fun front => cells (front ++ back) = cells front ++ cells back)
    rfl ?place ?escaped ?plain hfront
  case place =>
    intro p rest ih
    rw [List.cons_append, cells_placeholder, ih, cells_placeholder, List.cons_append]
  case escaped =>
    intro b rest ih
    rw [List.cons_append, List.cons_append, cells_escaped, ih, cells_escaped, List.cons_append]
  case plain =>
    intro b rest hb ih
    rw [List.cons_append, cells_plain hb, ih, cells_plain hb, List.cons_append]

/-- What stands behind a logtype that is read without an error is read as if it stood alone. -/
theorem failure_append : (elements (front ++ back)).failure = (elements back).failure := by
  refine readable_induction (motive := fun front => (elements (front ++ back)).failure = (elements back).failure)
    rfl ?place ?escaped ?plain hfront
  case place =>
    intro p rest ih
    rw [List.cons_append, failure_placeholder, ih]
  case escaped =>
    intro b rest ih
    rw [List.cons_append, List.cons_append, failure_escaped, ih]
  case plain =>
    intro b rest hb ih
    rw [List.cons_append, failure_plain hb, ih]

end

/-- Any cells are what a logtype shows of some atoms. -/
theorem exists_atoms (shown : List Cell) : ∃ as : List Atom, as.map Atom.cell = shown := by
  induction shown with
  | nil => exact ⟨[], rfl⟩
  | cons cell shown ih =>
    obtain ⟨as, rfl⟩ := ih
    cases cell with
    | byte b => exact ⟨.byte b :: as, rfl⟩
    | «variable» p =>
      cases p with
      | dictionary => exact ⟨.value [] :: as, rfl⟩
      | number kind => exact ⟨.number kind 0 :: as, rfl⟩

/-- **The places of what is written behind a logtype come to its own.** -/
theorem counts_append_wire {logtype : Bytes} {counts : Counts} (h : Logtype.counts logtype = .ok counts)
    (as : List Atom) :
    Logtype.counts (logtype ++ as.flatMap Atom.wire) =
      .ok ⟨counts.dictionary + (as.filterMap Atom.value?).length,
        counts.encoded + (as.filterMap Atom.packed?).length⟩ := by
  obtain ⟨hfailure, rfl⟩ := counts_eq_ok_iff.mp h
  -- Of the values in the logtype only the number matters, so that any will do.
  obtain ⟨held, hheld⟩ := exists_atoms (cells logtype)
  have hcells : (elements logtype).items.flatMap Element.cells = held.map Atom.cell := by
    rw [flatMap_cells_elements, hheld]
  have hgrown : (elements (logtype ++ as.flatMap Atom.wire)).items.flatMap Element.cells =
      (held ++ as).map Atom.cell := by
    rw [flatMap_cells_elements, cells_append hfailure, cells_wire, List.map_append, hheld]
  refine counts_eq_ok_iff.mpr ⟨?_, ?_⟩
  · rw [failure_append hfailure, failure_wire]
  · rw [countElements_eq hgrown, countElements_eq hcells]
    simp only [List.filterMap_append, List.length_append]

end Logtype

/-! ## Messages -/

theorem Logtype.Counts.check_eq_ok_iff {counts : Logtype.Counts} {dictionary encoded : Nat} :
    counts.check dictionary encoded = .ok () ↔ counts = ⟨dictionary, encoded⟩ := by
  obtain ⟨places, numbers⟩ := counts
  unfold Counts.check
  by_cases hplaces : places = dictionary
  · by_cases hnumbers : numbers = encoded
    · simp [hplaces, hnumbers]
    · simp [hplaces, hnumbers]
  · simp [hplaces]

namespace EncodedMessage

/-- Parts are put together exactly if they are consistent. -/
theorem ofParts_eq_ok_iff {logtype : Bytes} {dictionary : FlatBytes} {numbers : List Int64} {m : EncodedMessage} :
    ofParts logtype dictionary numbers = .ok m ↔ m = ⟨logtype, dictionary, numbers⟩ ∧ m.Consistent := by
  rw [ofParts, bind_eq_ok_iff]
  constructor
  · rintro ⟨counts, hcounts, h⟩
    obtain ⟨_, hcheck, hmake⟩ := bind_eq_ok_iff.mp h
    obtain rfl := Logtype.Counts.check_eq_ok_iff.mp hcheck
    obtain rfl := Except.ok.inj hmake
    exact ⟨rfl, hcounts⟩
  · rintro ⟨rfl, hconsistent⟩
    exact ⟨_, hconsistent, bind_eq_ok_iff.mpr ⟨(), Logtype.Counts.check_eq_ok_iff.mpr rfl, rfl⟩⟩

theorem consistent_empty : empty.Consistent := rfl

/-- A message that is made of atoms has a value for every place. -/
theorem HasAtoms.consistent {m : EncodedMessage} {as : List Atom} (h : m.HasAtoms as)
    (hfailure : (Logtype.elements m.logtype).failure = none) : m.Consistent := by
  refine Logtype.counts_eq_ok_iff.mpr ⟨hfailure, ?_⟩
  rw [Logtype.countElements_eq h.cells_elements, ← FlatBytes.length_toList, ← h.values, ← h.numbers, List.length_map]

section
variable {m : EncodedMessage} (h : m.Consistent)
include h

theorem Consistent.appendText (text : Bytes) : (m.appendText text).Consistent := by
  have hcounts := Logtype.counts_append_wire h (text.map Atom.byte)
  rw [Atom.filterMap_value?_bytes, Atom.filterMap_packed?_bytes, Atom.flatMap_wire_bytes] at hcounts
  exact hcounts

theorem Consistent.appendDictionary (value : Bytes) : (m.appendDictionary value).Consistent := by
  have hcounts := Logtype.counts_append_wire h [.value value]
  rw [Consistent, EncodedMessage.appendDictionary, FlatBytes.size_push]
  exact hcounts

theorem Consistent.appendNumber (packed : Packed) : (m.appendNumber packed).Consistent := by
  have hcounts := Logtype.counts_append_wire h [.number packed.1 packed.2]
  rw [Consistent, EncodedMessage.appendNumber, List.length_append]
  exact hcounts

end

end EncodedMessage

end LogCodec
