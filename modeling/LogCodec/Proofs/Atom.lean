import LogCodec.Message.Decoding
import LogCodec.Message.Encoding
import LogCodec.Proofs.PackedText
import Mathlib.Data.List.Basic
import Mathlib.Data.List.Flatten

/-!
# `LogCodec.Proofs.Atom`: an encoded message as a list of atoms

An encoded message keeps its variables apart from its static text.  Its atoms bring the two together again: each is a
byte of static text, or a variable with its value.  A message that is made of chunks has the atoms of its chunks, and
all that readers of encoded messages do can be said of atoms.

## Contents
- `Atom`, `EncodedMessage.atoms`, and `EncodedMessage.ofAtoms`, the message with given atoms.
- **Reading.** `writeCell`, and the cells of a written logtype; `HasAtoms`, `atoms_ofAtoms` and `typedNumbers_ofAtoms`.
- **Decoding.** `HasAtoms.decode_eq` and `decode_ofAtoms`: the text of a message is the text of its atoms.
- **Chunks.** `ofChunks_eq`: a message made of chunks is made of their atoms.
-/

namespace LogCodec

/-- The kind of packed number that has its place at a cell. -/
def Cell.number? : Cell → Option NumberKind
  | byte _ => none
  | .variable p => p.number?

/-- A part of an encoded message: a byte of static text, or a variable with its value. -/
inductive Atom where
  | byte (b : UInt8)
  | value (text : Bytes)
  | number (kind : NumberKind) (word : Int64)
deriving DecidableEq

namespace Atom

/-- What a logtype shows of an atom. -/
def cell : Atom → Cell
  | byte b => .byte b
  | value _ => .variable .dictionary
  | number kind _ => .variable (.number kind)

/-- How an atom is written in a logtype. -/
def wire : Atom → Bytes
  | byte b => Logtype.writeByte b
  | value _ => [Placeholder.dictionary.toByte]
  | number kind _ => [(Placeholder.number kind).toByte]

/-- The value of a dictionary variable. -/
def value? : Atom → Option Bytes
  | value text => some text
  | _ => none

/-- The packed number of a variable. -/
def packed? : Atom → Option Packed
  | number kind word => some (kind, word)
  | _ => none

/-- The text that an atom stands for. -/
def text (width : Width) : Atom → Except DecodeError Bytes
  | byte b => .ok [b]
  | value text => .ok text
  | number kind word => width.render kind word

/-- The variable that a token is encoded as. -/
def ofToken (width : Width) (token : Bytes) : Atom :=
  match width.pack token with
  | some (kind, word) => number kind word
  | none => value token

/-- The text that atoms stand for together. -/
def textOf (width : Width) : List Atom → Except DecodeError Bytes
  | [] => .ok []
  | a :: rest => do
    let front ← a.text width
    return front ++ (← textOf width rest)

/-- Fills the places among cells with values, until there is none left for a place. -/
def fillCells : List Cell → List Bytes → List Int64 → List Atom
  | .byte b :: cells, values, numbers => byte b :: fillCells cells values numbers
  | .variable .dictionary :: cells, text :: values, numbers => value text :: fillCells cells values numbers
  | .variable (.number kind) :: cells, values, word :: numbers => number kind word :: fillCells cells values numbers
  | _, _, _ => []

@[simp] theorem text_ofToken (width : Width) (token : Bytes) : (ofToken width token).text width = .ok token := by
  unfold ofToken
  split
  · next kind word h => exact Width.render_of_pack h
  · rfl

theorem textOf_cons_of_ok {width : Width} {a : Atom} {front : Bytes} (h : a.text width = .ok front) (as : List Atom) :
    textOf width (a :: as) = (textOf width as).map (front ++ ·) := by
  rw [textOf, h]
  cases textOf width as <;> rfl

theorem textOf_append_of_ok {width : Width} {as : List Atom} {front : Bytes} (h : textOf width as = .ok front)
    (bs : List Atom) : textOf width (as ++ bs) = (textOf width bs).map (front ++ ·) := by
  induction as generalizing front with
  | nil =>
    cases h
    cases h : textOf width bs <;> simp [h, Except.map]
  | cons a as ih =>
    rw [textOf] at h
    cases ha : a.text width with
    | error e => rw [ha] at h; cases h
    | ok first =>
      cases has : textOf width as with
      | error e => rw [ha, has] at h; cases h
      | ok later =>
        rw [ha, has] at h
        cases h
        rw [List.cons_append, textOf_cons_of_ok ha, ih has]
        cases textOf width bs <;> simp [Except.map]

@[simp] theorem textOf_bytes (width : Width) (bytes : Bytes) : textOf width (bytes.map byte) = .ok bytes := by
  induction bytes with
  | nil => rfl
  | cons b bytes ih =>
    rw [List.map_cons, textOf_cons_of_ok rfl, ih]
    rfl

/-! Static text has no variables. -/

theorem filterMap_value?_bytes (bytes : Bytes) : (bytes.map byte).filterMap value? = [] := by
  rw [List.filterMap_map]
  exact List.filterMap_eq_nil_iff.mpr fun _ _ => rfl

theorem filterMap_packed?_bytes (bytes : Bytes) : (bytes.map byte).filterMap packed? = [] := by
  rw [List.filterMap_map]
  exact List.filterMap_eq_nil_iff.mpr fun _ _ => rfl

theorem flatMap_wire_bytes (bytes : Bytes) : (bytes.map byte).flatMap wire = Logtype.writeText bytes := by
  rw [List.flatMap_map]
  rfl

theorem fillCells_cells (as : List Atom) :
    fillCells (as.map cell) (as.filterMap value?) ((as.filterMap packed?).map Prod.snd) = as := by
  induction as with
  | nil => rfl
  | cons a as ih => cases a <;> simpa [cell, value?, packed?, fillCells, List.filterMap_cons] using ih

/-- Atoms that show nothing but bytes are bytes. -/
theorem eq_bytes_of_cells {as : List Atom} {bytes : Bytes} (h : as.map cell = bytes.map .byte) :
    as = bytes.map byte := by
  induction as generalizing bytes with
  | nil =>
    rw [List.map_nil, eq_comm, List.map_eq_nil_iff] at h
    rw [h]
    rfl
  | cons a as ih =>
    cases bytes with
    | nil => cases h
    | cons b bytes =>
      rw [List.map_cons, List.map_cons, List.cons.injEq] at h
      cases a with
      | byte c =>
        cases h.1
        rw [List.map_cons, ih h.2]
      | value text => cases h.1
      | number kind word => cases h.1

end Atom

namespace EncodedMessage

/-- The atoms of a message. -/
def atoms (m : EncodedMessage) : List Atom :=
  Atom.fillCells (Logtype.cells m.logtype) m.dictionary.toList m.numbers

/-- The message with the given atoms. -/
def ofAtoms (as : List Atom) : EncodedMessage where
  logtype := as.flatMap Atom.wire
  dictionary := .ofList (as.filterMap Atom.value?)
  numbers := (as.filterMap Atom.packed?).map Prod.snd

end EncodedMessage

/-! ## Reading -/

namespace Logtype

theorem needsEscape_toByte (p : Placeholder) : needsEscape p.toByte = true := by
  rcases p with (_ | _) | _ <;> rfl

theorem length_writeByte_pos (b : UInt8) : 0 < (writeByte b).length := by
  unfold writeByte
  split
  · exact Nat.succ_pos _
  · exact Nat.succ_pos _

theorem ofByte?_of_not_needsEscape {b : UInt8} (h : needsEscape b = false) :
    Placeholder.ofByte? b = none ∧ b ≠ escapeByte := by
  simp only [needsEscape, isPlaceholder, Bool.or_eq_false_iff, decide_eq_false_iff_not,
    Option.isSome_eq_false_iff, Option.isNone_iff_eq_none] at h
  exact ⟨h.2, h.1⟩

theorem cells_placeholder (p : Placeholder) (rest : Bytes) : cells (p.toByte :: rest) = .variable p :: cells rest := by
  cases rest with
  | nil => simp [cells]
  | cons c rest => simp [cells]

theorem cells_escaped (b : UInt8) (rest : Bytes) : cells (escapeByte :: b :: rest) = .byte b :: cells rest := by
  rw [cells]
  rfl

theorem cells_plain {b : UInt8} (hb : needsEscape b = false) (rest : Bytes) :
    cells (b :: rest) = .byte b :: cells rest := by
  obtain ⟨hnone, hne⟩ := ofByte?_of_not_needsEscape hb
  cases rest <;> simp [cells, hnone, hne]

theorem cells_writeByte (b : UInt8) (rest : Bytes) : cells (writeByte b ++ rest) = .byte b :: cells rest := by
  unfold writeByte
  cases hb : needsEscape b with
  | true => exact cells_escaped b rest
  | false => exact cells_plain hb rest

theorem failure_joinByte (b : UInt8) (next : Option UInt8) (scan : Scan Element) :
    (joinByte b next scan).failure = scan.failure := by
  unfold joinByte
  split
  · split <;> rfl
  · rfl

theorem elements_placeholder (p : Placeholder) (rest : Bytes) :
    elements (p.toByte :: rest) = ⟨.variable p :: (elements rest).items, (elements rest).failure⟩ := by
  cases rest with
  | nil => simp [elements]
  | cons c rest => simp [elements]

theorem elements_escaped (b : UInt8) (rest : Bytes) :
    elements (escapeByte :: b :: rest) = joinByte b rest.head? (elements rest) := by
  have hnone : Placeholder.ofByte? escapeByte = none := rfl
  rw [elements]
  simp only [hnone, if_true]

theorem elements_plain {b : UInt8} (hb : needsEscape b = false) (rest : Bytes) :
    elements (b :: rest) = joinByte b rest.head? (elements rest) := by
  obtain ⟨hnone, hne⟩ := ofByte?_of_not_needsEscape hb
  cases rest with
  | nil => simp [elements, hnone, hne, joinByte]
  | cons c rest => simp [elements, hnone, hne]

theorem failure_placeholder (p : Placeholder) (rest : Bytes) :
    (elements (p.toByte :: rest)).failure = (elements rest).failure := by
  rw [elements_placeholder]

theorem failure_escaped (b : UInt8) (rest : Bytes) :
    (elements (escapeByte :: b :: rest)).failure = (elements rest).failure := by
  rw [elements_escaped, failure_joinByte]

theorem failure_plain {b : UInt8} (hb : needsEscape b = false) (rest : Bytes) :
    (elements (b :: rest)).failure = (elements rest).failure := by
  rw [elements_plain hb, failure_joinByte]

theorem failure_writeByte (b : UInt8) (rest : Bytes) :
    (elements (writeByte b ++ rest)).failure = (elements rest).failure := by
  unfold writeByte
  cases hb : needsEscape b with
  | true => exact failure_escaped b rest
  | false => exact failure_plain hb rest

/-- A cell as it is written. -/
def writeCell : Cell → Bytes
  | .byte b => writeByte b
  | .variable p => [p.toByte]

/-- Cells that are written are read back. -/
theorem cells_flatMap_writeCell (shown : List Cell) : cells (shown.flatMap writeCell) = shown := by
  induction shown with
  | nil => rfl
  | cons cell shown ih =>
    rw [List.flatMap_cons]
    cases cell with
    | byte b => rw [writeCell, cells_writeByte, ih]
    | «variable» p => rw [writeCell, List.singleton_append, cells_placeholder, ih]

/-- What is written for cells has no dangling escape. -/
theorem failure_flatMap_writeCell (shown : List Cell) : (elements (shown.flatMap writeCell)).failure = none := by
  induction shown with
  | nil => rfl
  | cons cell shown ih =>
    rw [List.flatMap_cons]
    cases cell with
    | byte b => rw [writeCell, failure_writeByte, ih]
    | «variable» p => rw [writeCell, List.singleton_append, failure_placeholder, ih]

/-- What is written for an atom shows its cell and nothing else of it. -/
theorem flatMap_wire_eq (as : List Atom) : as.flatMap Atom.wire = (as.map Atom.cell).flatMap writeCell := by
  rw [List.flatMap_map]
  congr 1
  funext a
  cases a <;> rfl

/-- What is written for atoms is read back as their cells. -/
theorem cells_wire (as : List Atom) : cells (as.flatMap Atom.wire) = as.map Atom.cell := by
  rw [flatMap_wire_eq, cells_flatMap_writeCell]

/-- What is written for atoms has no dangling escape. -/
theorem failure_wire (as : List Atom) : (elements (as.flatMap Atom.wire)).failure = none := by
  rw [flatMap_wire_eq, failure_flatMap_writeCell]

/-- The elements of a logtype show the same kinds of numbers as its cells. -/
theorem filterMap_number? {items : List Element} {as : List Atom}
    (h : items.flatMap Element.cells = as.map Atom.cell) :
    items.filterMap Element.number? = (as.filterMap Atom.packed?).map Prod.fst := by
  have hcells : ∀ items : List Element,
      items.filterMap Element.number? = (items.flatMap Element.cells).filterMap Cell.number? := by
    intro items
    induction items with
    | nil => rfl
    | cons item items ih =>
      cases item with
      | text run =>
        have hrun : (run.map Cell.byte).filterMap Cell.number? = [] := by simp [List.filterMap_eq_nil_iff, Cell.number?]
        rw [List.filterMap_cons_none rfl, List.flatMap_cons, List.filterMap_append, Element.cells, hrun, ih]
        rfl
      | «variable» p =>
        rw [List.flatMap_cons, List.filterMap_append, ← ih]
        rcases p with kind | _ <;> rfl
  rw [hcells, h, List.filterMap_map, List.map_filterMap]
  refine congrFun (congrArg List.filterMap (funext fun a => ?_)) as
  cases a <;> rfl

/-- Counting the places among elements counts the variables among atoms. -/
theorem countElements_eq {items : List Element} {as : List Atom}
    (h : items.flatMap Element.cells = as.map Atom.cell) :
    countElements items = ⟨(as.filterMap Atom.value?).length, (as.filterMap Atom.packed?).length⟩ := by
  have hcells : ∀ items : List Element, items.countP (· == .variable .dictionary) =
      (items.flatMap Element.cells).countP (· == .variable .dictionary) := by
    intro items
    induction items with
    | nil => rfl
    | cons item items ih =>
      cases item with
      | text run =>
        have hrun : (run.map Cell.byte).countP (· == .variable .dictionary) = 0 := by simp [List.countP_eq_zero]
        simp [Element.cells, List.countP_append, hrun, ih]
      | «variable» p => simp [Element.cells, List.countP_cons, ih, Nat.add_comm]
  have hdictionary : ∀ as : List Atom,
      (as.map Atom.cell).countP (· == .variable .dictionary) = (as.filterMap Atom.value?).length := by
    intro as
    induction as with
    | nil => rfl
    | cons a as ih => cases a <;> simp [Atom.cell, Atom.value?, List.filterMap_cons, ih]
  have hnumbers : items.countP (·.number?.isSome) = (items.filterMap Element.number?).length := by
    rw [List.length_filterMap_eq_countP]
  rw [countElements, hcells, h, hdictionary, hnumbers, filterMap_number? h, List.length_map]

end Logtype

namespace EncodedMessage

/-- The message is made of the atoms: its logtype shows them, and its values are theirs, in order. -/
structure HasAtoms (m : EncodedMessage) (as : List Atom) : Prop where
  cells : as.map Atom.cell = Logtype.cells m.logtype
  values : as.filterMap Atom.value? = m.dictionary.toList
  numbers : (as.filterMap Atom.packed?).map Prod.snd = m.numbers

section
variable {m : EncodedMessage} {as : List Atom} (h : m.HasAtoms as)
include h

theorem HasAtoms.atoms_eq : m.atoms = as := by
  rw [atoms, ← h.cells, ← h.values, ← h.numbers, Atom.fillCells_cells]

theorem HasAtoms.cells_elements : (Logtype.elements m.logtype).items.flatMap Element.cells = as.map Atom.cell := by
  rw [Logtype.flatMap_cells_elements, h.cells]

end

theorem hasAtoms_ofAtoms (as : List Atom) : (ofAtoms as).HasAtoms as where
  cells := (Logtype.cells_wire as).symm
  values := (FlatBytes.toList_ofList _).symm
  numbers := rfl

/-- The atoms of a message are read back. -/
@[simp] theorem atoms_ofAtoms (as : List Atom) : (ofAtoms as).atoms = as := (hasAtoms_ofAtoms as).atoms_eq

theorem cells_elements_ofAtoms (as : List Atom) :
    (Logtype.elements (ofAtoms as).logtype).items.flatMap Element.cells = as.map Atom.cell :=
  (hasAtoms_ofAtoms as).cells_elements

/-- The packed numbers of a message with their kinds are those of its atoms. -/
theorem typedNumbers_ofAtoms (as : List Atom) :
    Logtype.typedNumbers (ofAtoms as).logtype (ofAtoms as).numbers = ⟨as.filterMap Atom.packed?, none⟩ := by
  have hkinds := Logtype.filterMap_number? (cells_elements_ofAtoms as)
  have hfailure : (Logtype.elements (ofAtoms as).logtype).failure = none := Logtype.failure_wire as
  have hnumbers : (ofAtoms as).numbers = (as.filterMap Atom.packed?).map Prod.snd := rfl
  have hlength : ¬ ((as.filterMap Atom.packed?).map Prod.snd).length <
      ((as.filterMap Atom.packed?).map Prod.fst).length := by
    simp
  have hzip : ((as.filterMap Atom.packed?).map Prod.fst).zip ((as.filterMap Atom.packed?).map Prod.snd) =
      as.filterMap Atom.packed? := by
    rw [List.zip_map', List.map_id']
  simp only [Logtype.typedNumbers, hkinds, if_neg hlength, hfailure, hnumbers, hzip]

/-! ## Decoding -/

/-- Filling the places of a message gives the text of its atoms, whatever would be reported for a shortage. -/
theorem fill_eq {width : Width} {shortage : VariableGroup → DecodeError} {items : List Element} {as : List Atom}
    (h : items.flatMap Element.cells = as.map Atom.cell) :
    fill width shortage items (as.filterMap Atom.value?) ((as.filterMap Atom.packed?).map Prod.snd) =
      Atom.textOf width as := by
  induction items generalizing as with
  | nil =>
    rw [List.flatMap_nil, eq_comm, List.map_eq_nil_iff] at h
    rw [h]
    rfl
  | cons item items ih =>
    cases item with
    | text run =>
      rw [List.flatMap_cons, Element.cells, eq_comm, List.map_eq_append_iff] at h
      obtain ⟨front, back, rfl, hfront, hback⟩ := h
      obtain rfl := Atom.eq_bytes_of_cells hfront
      rw [Atom.textOf_append_of_ok (Atom.textOf_bytes width run), List.filterMap_append, List.filterMap_append,
        Atom.filterMap_value?_bytes, Atom.filterMap_packed?_bytes, List.nil_append, List.nil_append, ← ih hback.symm,
        fill]
      cases fill width shortage items (back.filterMap Atom.value?) _ <;> rfl
    | «variable» p =>
      rw [List.flatMap_cons, Element.cells, List.singleton_append, eq_comm, List.map_eq_cons_iff] at h
      obtain ⟨a, rest, rfl, ha, hrest⟩ := h
      have ih := ih hrest.symm
      cases a with
      | byte b => cases ha
      | value text =>
        cases ha
        rw [Atom.textOf, ← ih]
        rfl
      | number kind word =>
        cases ha
        rw [Atom.textOf, ← ih]
        rfl

/-- A message that is made of atoms, and whose logtype is read without an error, decodes to the text of the atoms. -/
theorem HasAtoms.decode_eq {m : EncodedMessage} {as : List Atom} (h : m.HasAtoms as)
    (hfailure : (Logtype.elements m.logtype).failure = none) (width : Width) :
    m.decode width = Atom.textOf width as := by
  have hcounts := Logtype.countElements_eq h.cells_elements
  have hcheck : Logtype.Counts.check ⟨(as.filterMap Atom.value?).length, (as.filterMap Atom.packed?).length⟩
      (as.filterMap Atom.value?).length ((as.filterMap Atom.packed?).map Prod.snd).length = .ok () := by
    simp [Logtype.Counts.check]
  simp only [EncodedMessage.decode, LogCodec.decode, Scan.toExcept, hfailure, ← h.values, ← h.numbers, hcounts, bind,
    Except.bind, hcheck]
  exact fill_eq h.cells_elements

/-- **The text of a message is the text of its atoms.** -/
theorem decode_ofAtoms (width : Width) (as : List Atom) : (ofAtoms as).decode width = Atom.textOf width as :=
  (hasAtoms_ofAtoms as).decode_eq (Logtype.failure_wire as) width

end EncodedMessage

/-! ## Chunks -/

namespace Chunk

/-- The atoms of a chunk. -/
def atoms (width : Width) : Chunk → List Atom
  | text bytes => bytes.map .byte
  | token bytes => [.ofToken width bytes]

theorem writeElement_element (width : Width) (c : Chunk) :
    Logtype.writeElement (c.element width) = (c.atoms width).flatMap Atom.wire := by
  cases c with
  | text bytes => simp [element, atoms, Logtype.writeElement, Logtype.writeText, List.flatMap_map, Atom.wire]
  | token bytes =>
    simp only [element, atoms, Atom.ofToken]
    cases width.pack bytes <;> rfl

theorem filterMap_value? (width : Width) (c : Chunk) :
    (c.atoms width).filterMap Atom.value? = (c.dictionary? width).toList := by
  cases c with
  | text bytes => simp [atoms, dictionary?, List.filterMap_eq_nil_iff, Atom.value?]
  | token bytes =>
    simp only [atoms, dictionary?, Atom.ofToken]
    cases width.pack bytes <;> rfl

theorem filterMap_packed? (width : Width) (c : Chunk) :
    (c.atoms width).filterMap Atom.packed? = (c.packed? width).toList := by
  cases c with
  | text bytes => simp [atoms, packed?, List.filterMap_eq_nil_iff, Atom.packed?]
  | token bytes =>
    simp only [atoms, packed?, Atom.ofToken]
    cases width.pack bytes <;> rfl

end Chunk

/-- **A message made of chunks is made of their atoms.** -/
theorem EncodedMessage.ofChunks_eq (width : Width) (chunks : List Chunk) :
    ofChunks width chunks = ofAtoms (chunks.flatMap (Chunk.atoms width)) := by
  have hlogtype : Logtype.write (chunks.map (Chunk.element width)) =
      (chunks.flatMap (Chunk.atoms width)).flatMap Atom.wire := by
    rw [Logtype.write, List.flatMap_map, List.flatMap_assoc]
    exact List.flatMap_congr fun c _ => c.writeElement_element width
  have hvalues : chunks.filterMap (Chunk.dictionary? width) =
      (chunks.flatMap (Chunk.atoms width)).filterMap Atom.value? := by
    rw [List.filterMap_eq_flatMap_toList, List.filterMap_flatMap]
    exact List.flatMap_congr fun c _ => (c.filterMap_value? width).symm
  have hnumbers : chunks.filterMap (Chunk.packed? width) =
      (chunks.flatMap (Chunk.atoms width)).filterMap Atom.packed? := by
    rw [List.filterMap_eq_flatMap_toList, List.filterMap_flatMap]
    exact List.flatMap_congr fun c _ => (c.filterMap_packed? width).symm
  rw [ofChunks_parts, ofAtoms, hlogtype, hvalues, hnumbers]

/-- The text that chunks stand for is what they cover. -/
theorem Chunk.textOf_atoms (width : Width) (chunks : List Chunk) :
    Atom.textOf width (chunks.flatMap (Chunk.atoms width)) = .ok (chunks.flatMap Chunk.bytes) := by
  induction chunks with
  | nil => rfl
  | cons c chunks ih =>
    have hc : Atom.textOf width (c.atoms width) = .ok c.bytes := by
      cases c with
      | text bytes => exact Atom.textOf_bytes width bytes
      | token bytes =>
        rw [atoms, Atom.textOf_cons_of_ok (Atom.text_ofToken width bytes)]
        simp [Atom.textOf, Except.map, Chunk.bytes]
    rw [List.flatMap_cons, Atom.textOf_append_of_ok hc, ih]
    rfl

end LogCodec
