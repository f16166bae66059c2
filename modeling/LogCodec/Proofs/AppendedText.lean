import LogCodec.Proofs.Alignment
import LogCodec.Proofs.Operations
import LogCodec.Proofs.Segments

/-!
# `LogCodec.Proofs.AppendedText`: the text of a message is what was appended to it

A consistent message is its atoms: there is a value for every place, in order, and so only a packed number that cannot
be rendered keeps the message from being decoded.  Appending adds atoms behind those that are there, whatever the
logtype ends with.  A message that was made by appending alone therefore decodes to what was appended, piece by piece.

## Contents
- **Atoms.** `Consistent.hasAtoms`: the atoms of a consistent message leave nothing out.
- **Decoding.** `Consistent.decode_eq`, and `Consistent.isOfNumber`, what can keep a message from being decoded.
- **Appending.** `Operation.Leads.atoms_eq` for one operation, and `atoms_run` for all.
- **Text.** `textOf_flatMap_atoms` and `exists_textOf_iff`; `decode_run`, which brings all of this together.
-/

namespace LogCodec

/-- The error tells of a packed number, and not of the logtype or of how many values there are. -/
def DecodeError.IsOfNumber : DecodeError → Prop
  | .corruptDecimal _ => True
  | .outOfRange _ => True
  | _ => False

theorem Width.isOfNumber_of_render {width : Width} {kind : NumberKind} {word : Int64} {e : DecodeError}
    (h : width.render kind word = .error e) : e.IsOfNumber := by
  have hcheck : ∀ {e}, width.check word = .error e → e.IsOfNumber := by
    intro e he
    unfold check at he
    split at he
    · cases he
    · cases he
      trivial
  cases kind with
  | integer =>
    rw [render, renderInteger] at h
    cases hword : width.check word with
    | error cause =>
      rw [hword] at h
      cases h
      exact hcheck hword
    | ok =>
      rw [hword] at h
      cases h
  | float =>
    rw [render, renderDecimal] at h
    cases hword : width.check word with
    | error cause =>
      rw [hword] at h
      cases h
      exact hcheck hword
    | ok =>
      rw [hword] at h
      simp only [bind, Except.bind] at h
      split at h
      · cases h
      · cases h
        trivial

namespace Atom

/-- The values of variables can be exchanged for as many others. -/
theorem exists_refilled (held : List Atom) {values : List Bytes} {numbers : List Int64}
    (hvalues : (held.filterMap value?).length = values.length)
    (hnumbers : (held.filterMap packed?).length = numbers.length) :
    ∃ as : List Atom, as.map cell = held.map cell ∧ as.filterMap value? = values ∧
      (as.filterMap packed?).map Prod.snd = numbers := by
  induction held generalizing values numbers with
  | nil =>
    obtain rfl := List.length_eq_zero_iff.mp hvalues.symm
    obtain rfl := List.length_eq_zero_iff.mp hnumbers.symm
    exact ⟨[], rfl, rfl, rfl⟩
  | cons a held ih =>
    cases a with
    | byte b =>
      obtain ⟨as, hcells, rfl, rfl⟩ := ih hvalues hnumbers
      exact ⟨.byte b :: as, by rw [List.map_cons, List.map_cons, hcells], rfl, rfl⟩
    | value text =>
      cases values with
      | nil => cases hvalues
      | cons found values =>
        obtain ⟨as, hcells, rfl, rfl⟩ := ih (Nat.succ.inj hvalues) hnumbers
        exact ⟨.value found :: as, by rw [List.map_cons, List.map_cons, hcells]; rfl, rfl, rfl⟩
    | number kind word =>
      cases numbers with
      | nil => cases hnumbers
      | cons found numbers =>
        obtain ⟨as, hcells, rfl, rfl⟩ := ih hvalues (Nat.succ.inj hnumbers)
        exact ⟨.number kind found :: as, by rw [List.map_cons, List.map_cons, hcells]; rfl, rfl, rfl⟩

/-- Where atoms have no text together, one of them has none. -/
theorem exists_of_textOf_eq_error {width : Width} {as : List Atom} {e : DecodeError} (h : textOf width as = .error e) :
    ∃ a ∈ as, a.text width = .error e := by
  induction as with
  | nil => cases h
  | cons a as ih =>
    rw [textOf] at h
    cases ha : a.text width with
    | error cause =>
      rw [ha] at h
      cases h
      exact ⟨a, List.mem_cons_self, ha⟩
    | ok front =>
      cases has : textOf width as with
      | error cause =>
        rw [ha, has] at h
        cases h
        obtain ⟨b, hb, hbad⟩ := ih has
        exact ⟨b, List.mem_cons_of_mem a hb, hbad⟩
      | ok back =>
        rw [ha, has] at h
        cases h

/-- Where atoms in front have no text, those behind them do not matter. -/
theorem textOf_append_of_error {width : Width} {as : List Atom} {e : DecodeError} (h : textOf width as = .error e)
    (bs : List Atom) : textOf width (as ++ bs) = .error e := by
  induction as with
  | nil => cases h
  | cons a as ih =>
    rw [textOf] at h
    rw [List.cons_append, textOf]
    cases ha : a.text width with
    | error cause =>
      rw [ha] at h
      cases h
      rfl
    | ok front =>
      cases has : textOf width as with
      | error cause =>
        rw [ha, has] at h
        cases h
        rw [ih has]
        rfl
      | ok back =>
        rw [ha, has] at h
        cases h

/-- Atoms have a text together exactly if each of them has one. -/
theorem exists_textOf_iff {width : Width} {as : List Atom} :
    (∃ text, textOf width as = .ok text) ↔ ∀ a ∈ as, ∃ text, a.text width = .ok text := by
  constructor
  · rintro ⟨text, htext⟩ a ha
    exact ⟨_, (text_eq_of_textOf htext).2 a ha⟩
  · intro hall
    cases h : textOf width as with
    | ok text => exact ⟨text, rfl⟩
    | error e =>
      obtain ⟨a, ha, hbad⟩ := exists_of_textOf_eq_error h
      obtain ⟨text, htext⟩ := hall a ha
      rw [htext] at hbad
      cases hbad

end Atom

namespace EncodedMessage

/-! ## Atoms -/

section
variable {m : EncodedMessage} (h : m.Consistent)
include h

/-- The atoms of a consistent message leave nothing out. -/
theorem Consistent.hasAtoms : m.HasAtoms m.atoms := by
  obtain ⟨-, hcounts⟩ := Logtype.counts_eq_ok_iff.mp h
  -- Any values will do to say how many there are; then those of the message are put in their place.
  obtain ⟨held, hheld⟩ := Logtype.exists_atoms (Logtype.cells m.logtype)
  have hplaces : (Logtype.elements m.logtype).items.flatMap Element.cells = held.map Atom.cell := by
    rw [Logtype.flatMap_cells_elements, hheld]
  rw [Logtype.countElements_eq hplaces, Logtype.Counts.mk.injEq, ← FlatBytes.length_toList] at hcounts
  obtain ⟨as, hcells, hvalues, hnumbers⟩ := Atom.exists_refilled held hcounts.1 hcounts.2
  have has : m.HasAtoms as := ⟨hcells.trans hheld, hvalues, hnumbers⟩
  rw [has.atoms_eq]
  exact has

/-! ## Decoding -/

/-- **The text of a consistent message is the text of its atoms.** -/
theorem Consistent.decode_eq (width : Width) : m.decode width = Atom.textOf width m.atoms :=
  h.hasAtoms.decode_eq (Logtype.counts_eq_ok_iff.mp h).1 width

/-- **Only a packed number keeps a consistent message from being decoded.** -/
theorem Consistent.isOfNumber {width : Width} {e : DecodeError} (he : m.decode width = .error e) : e.IsOfNumber := by
  rw [h.decode_eq] at he
  obtain ⟨a, -, hbad⟩ := Atom.exists_of_textOf_eq_error he
  cases a with
  | byte b => cases hbad
  | value text => cases hbad
  | number kind word => exact Width.isOfNumber_of_render hbad

/-! ## Appending -/

/-- What is written behind the logtype of a consistent message is read as it was written. -/
theorem Consistent.cells_append_wire (as : List Atom) :
    (m.atoms ++ as).map Atom.cell = Logtype.cells (m.logtype ++ as.flatMap Atom.wire) := by
  obtain ⟨hfailure, -⟩ := Logtype.counts_eq_ok_iff.mp h
  rw [Logtype.cells_append hfailure, Logtype.cells_wire, List.map_append, h.hasAtoms.cells]

end

/-- The operation appends to the message. -/
def Operation.IsAppend : Operation → Prop
  | .text _ => True
  | .dictionary _ => True
  | .encoded _ _ => True
  | _ => False

/-- The atoms that an operation appends. -/
def Operation.atoms : Operation → List Atom
  | .text bytes => bytes.map .byte
  | .dictionary value => [.value value]
  | .encoded (.number kind) word => [.number kind word]
  | _ => []

section
variable {operation : Operation} {operations : List Operation} {m m' : EncodedMessage}

/-- **An operation that appends adds its atoms behind those of the message.** -/
theorem Operation.Leads.atoms_eq (h : operation.Leads m m') (happend : operation.IsAppend) (hconsistent : m.Consistent)
    (htight : m.dictionary.Tight) : m'.atoms = m.atoms ++ operation.atoms := by
  have hatoms := hconsistent.hasAtoms
  apply HasAtoms.atoms_eq
  cases h with
  | clear => exact absurd happend id
  | parts => exact absurd happend id
  | json => exact absurd happend id
  | text bytes =>
    rw [Operation.atoms]
    constructor
    case cells =>
      rw [appendText, ← Atom.flatMap_wire_bytes]
      exact hconsistent.cells_append_wire (bytes.map .byte)
    case values =>
      rw [List.filterMap_append, Atom.filterMap_value?_bytes, List.append_nil, hatoms.values]
      rfl
    case numbers =>
      rw [List.filterMap_append, Atom.filterMap_packed?_bytes, List.append_nil, hatoms.numbers]
      rfl
  | dictionary value =>
    constructor
    case cells => exact hconsistent.cells_append_wire [.value value]
    case values =>
      -- The value starts where the one before it ends, since no bytes stand between them.
      rw [List.filterMap_append, hatoms.values]
      exact (FlatBytes.toList_push_eq_iff.mpr htight).symm
    case numbers =>
      rw [List.filterMap_append, List.map_append, hatoms.numbers]
      exact List.append_nil m.numbers
  | encoded kind word =>
    constructor
    case cells => exact hconsistent.cells_append_wire [.number kind word]
    case values =>
      rw [List.filterMap_append, hatoms.values]
      exact List.append_nil m.dictionary.toList
    case numbers =>
      rw [List.filterMap_append, List.map_append, hatoms.numbers]
      rfl

theorem Operation.IsAppend.bringsTight (h : operation.IsAppend) : operation.BringsTight := by
  cases operation with
  | clear => trivial
  | text => trivial
  | dictionary => trivial
  | encoded => trivial
  | parts => exact absurd h id
  | json => exact absurd h id

/-- Operations that append add their atoms one behind the other. -/
theorem atoms_run (h : run operations m = some m') (happend : ∀ operation ∈ operations, operation.IsAppend)
    (hconsistent : m.Consistent) (htight : m.dictionary.Tight) :
    m'.atoms = m.atoms ++ operations.flatMap Operation.atoms := by
  unfold run at h
  induction operations generalizing m with
  | nil =>
    obtain rfl := Option.some.inj h
    rw [List.flatMap_nil, List.append_nil]
  | cons operation operations ih =>
    obtain ⟨next, hnext, hrest⟩ := Option.bind_eq_some_iff.mp h
    obtain ⟨hfirst, hlater⟩ := List.forall_mem_cons.mp happend
    have hleads := Operation.apply_eq_some_iff.mp hnext
    have hatoms := ih hrest hlater (hleads.consistent hconsistent) (hleads.tight hfirst.bringsTight htight)
    rw [hatoms, hleads.atoms_eq hfirst hconsistent htight, List.append_assoc, List.flatMap_cons]

/-- Behind an operation that starts over there is nothing. -/
theorem eq_empty_of_run (h : run operations .empty = some m)
    (hlast : ∀ operation ∈ operations.getLast?, operation = .clear) : m = empty := by
  cases operations using List.reverseRecOn with
  | nil => exact (Option.some.inj h).symm
  | append_singleton front last =>
    obtain rfl := hlast last List.getLast?_concat
    rw [run, List.foldlM_append] at h
    obtain ⟨held, -, hclear⟩ := Option.bind_eq_some_iff.mp h
    exact (Option.some.inj hclear).symm

/-! ## Text -/

/-- The text that an operation appends. -/
def Operation.rendered (width : Width) : Operation → Except DecodeError Bytes
  | .text bytes => .ok bytes
  | .dictionary value => .ok value
  | .encoded (.number kind) word => width.render kind word
  | _ => .ok []

theorem Operation.textOf_atoms (width : Width) (operation : Operation) :
    Atom.textOf width operation.atoms = operation.rendered width := by
  have hsingle : ∀ a : Atom, Atom.textOf width [a] = a.text width := by
    intro a
    rw [Atom.textOf]
    cases a.text width with
    | error e => rfl
    | ok text => exact congrArg Except.ok (List.append_nil text)
  cases operation with
  | clear => rfl
  | text bytes => exact Atom.textOf_bytes width bytes
  | dictionary value => exact hsingle (.value value)
  | encoded placeholder word =>
    cases placeholder with
    | number kind => exact hsingle (.number kind word)
    | dictionary => rfl
  | parts => rfl
  | json => rfl

/-- The text of all that operations append is what each of them appends, one behind the other. -/
theorem textOf_flatMap_atoms (width : Width) (operations : List Operation) :
    Atom.textOf width (operations.flatMap Operation.atoms) =
      (operations.mapM (Operation.rendered width)).map List.flatten := by
  induction operations with
  | nil => rfl
  | cons operation operations ih =>
    have hfirst := operation.textOf_atoms width
    rw [List.flatMap_cons, List.mapM_cons]
    cases hrendered : operation.rendered width with
    | error e =>
      rw [Atom.textOf_append_of_error (hfirst.trans hrendered)]
      rfl
    | ok front =>
      rw [Atom.textOf_append_of_ok (hfirst.trans hrendered), ih]
      cases operations.mapM (Operation.rendered width) with
      | error e => rfl
      | ok texts => rfl

/-- Operations that append add a text exactly if every number among them can be rendered. -/
theorem exists_textOf_flatMap_atoms_iff (width : Width) :
    (∃ text, Atom.textOf width (operations.flatMap Operation.atoms) = .ok text) ↔
      ∀ kind word, .encoded (.number kind) word ∈ operations → ∃ text, width.render kind word = .ok text := by
  rw [Atom.exists_textOf_iff]
  constructor
  · intro hall kind word hmem
    exact hall (.number kind word) (List.mem_flatMap.mpr ⟨_, hmem, List.mem_singleton_self _⟩)
  · intro hnumbers a ha
    obtain ⟨operation, hmem, ha⟩ := List.mem_flatMap.mp ha
    cases a with
    | byte b => exact ⟨[b], rfl⟩
    | value text => exact ⟨text, rfl⟩
    | number kind word =>
      cases operation with
      | clear => cases ha
      | text bytes =>
        obtain ⟨b, -, hb⟩ := List.mem_map.mp ha
        cases hb
      | dictionary value => cases List.mem_singleton.mp ha
      | encoded placeholder value =>
        cases placeholder with
        | number shown =>
          cases List.mem_singleton.mp ha
          exact hnumbers kind word hmem
        | dictionary => cases ha
      | parts => cases ha
      | json => cases ha

/-- Operations split where they start over: what follows runs on the empty message. -/
theorem run_of_append {earlier appends : List Operation} (h : run (earlier ++ appends) .empty = some m)
    (hlast : ∀ operation ∈ earlier.getLast?, operation = .clear) : run appends .empty = some m := by
  rw [run, List.foldlM_append] at h
  obtain ⟨start, hstart, happends⟩ := Option.bind_eq_some_iff.mp h
  obtain rfl := eq_empty_of_run hstart hlast
  exact happends

/-- **What a caller can have.**  There is one value for every place of the message, so that only a packed number can
keep it from being decoded.  If it was made by appending to nothing, it decodes to what was appended, piece by piece,
and it does so exactly if every number that was appended can be rendered. -/
theorem decode_run (hrun : run operations .empty = some m) :
    Logtype.counts m.logtype = .ok ⟨m.dictionary.size, m.numbers.length⟩ ∧
    (∀ width e, m.decode width = .error e → e.IsOfNumber) ∧
    ∀ earlier appends, operations = earlier ++ appends → (∀ operation ∈ earlier.getLast?, operation = .clear) →
      (∀ operation ∈ appends, operation.IsAppend) → ∀ width,
        m.decode width = (appends.mapM (Operation.rendered width)).map List.flatten ∧
        ((∃ text, m.decode width = .ok text) ↔
          ∀ kind word, .encoded (.number kind) word ∈ appends → ∃ text, width.render kind word = .ok text) := by
  have hconsistent : m.Consistent := consistent_run hrun
  refine ⟨hconsistent, ?_, ?_⟩
  · intro width e he
    exact hconsistent.isOfNumber he
  · rintro earlier appends rfl hlast happend width
    have hatoms : m.atoms = appends.flatMap Operation.atoms :=
      atoms_run (run_of_append hrun hlast) happend consistent_empty FlatBytes.tight_empty
    rw [hconsistent.decode_eq, hatoms]
    exact ⟨textOf_flatMap_atoms width appends, exists_textOf_flatMap_atoms_iff width⟩

/-- Text that looks like a place and like an escape, a dictionary value and a number of more than 32 bits, appended
behind a message that was taken from elsewhere and given up. -/
theorem decode_run_behind_clear :
    ∃ m, run [.parts [0x12] [0x61, 0x62] [1] [], .clear, .text [0x11, 0x5C], .dictionary [0x61], .text [0x5C],
        .encoded (.number .integer) 0x100000000, .text [0x12]] .empty = some m ∧
      Logtype.counts m.logtype = .ok ⟨1, 1⟩ ∧
      m.decode .eight = .ok [0x11, 0x5C, 0x61, 0x5C, 0x34, 0x32, 0x39, 0x34, 0x39, 0x36, 0x37, 0x32, 0x39, 0x36, 0x12] ∧
      m.decode .four = .error (.outOfRange 0x100000000) := by
  have hrun : run [.parts [0x12] [0x61, 0x62] [1] [], .clear, .text [0x11, 0x5C], .dictionary [0x61], .text [0x5C],
      .encoded (.number .integer) 0x100000000, .text [0x12]] .empty =
      some ⟨[0x5C, 0x11, 0x5C, 0x5C, 0x12, 0x5C, 0x5C, 0x11, 0x5C, 0x12], .push .empty [0x61], [0x100000000]⟩ := by rfl
  obtain ⟨hcounts, -, hgrown⟩ := decode_run hrun
  have happend : ∀ operation ∈ ([.text [0x11, 0x5C], .dictionary [0x61], .text [0x5C],
      .encoded (.number .integer) 0x100000000, .text [0x12]] : List Operation), operation.IsAppend := by
    intro operation hmem
    simp only [List.mem_cons, List.not_mem_nil, or_false] at hmem
    obtain rfl | rfl | rfl | rfl | rfl := hmem <;> trivial
  have htext := hgrown [.parts [0x12] [0x61, 0x62] [1] [], .clear] _ rfl
    (fun operation hlast => (Option.some.inj hlast).symm) happend
  have hrendered : Width.eight.render .integer 0x100000000 =
      .ok [0x34, 0x32, 0x39, 0x34, 0x39, 0x36, 0x37, 0x32, 0x39, 0x36] := Width.render_of_pack (by decide)
  have hwide := (htext .eight).1
  simp only [List.mapM_cons, List.mapM_nil, Operation.rendered, hrendered] at hwide
  exact ⟨_, hrun, hcounts, hwide, (htext .four).1.trans rfl⟩

end

end EncodedMessage

end LogCodec
