import LogCodec.Logtype.InPlace
import LogCodec.Proofs.Consistency
import Mathlib.Data.List.TakeWhile

/-!
# `LogCodec.Proofs.LogtypeRoundTrip`: elements are read as they were written

How static text is cut into elements is lost when elements are written, and a reader has reasons of its own to cut it:
an escaped byte starts a new element.  What both keep are the cells.  Elements that have the same cells are the same
once adjacent static text is joined, so both directions of the round trip are about cells.  The reader goes along a
logtype by position; it is followed here from one run of static text to the next.

## Contents
- **Merged elements.** `Element.merge`, and `merge_eq_merge_iff`, which says that it keeps the cells and nothing else.
- **Writing.** `pushAll_eq`; `failure_write` and `merge_elements_write`, for what is read again.
- **Reading.** `failure_eq`: when a reading fails.  `run_induction`, along the runs of a logtype, and
  `elements_escapedRun` and `elements_plainRun`, what a run is read as.
- **By position.** `drain_eq`: the reader gives the elements, and then the error if there is one.
- **Writing again.** `write_elements_eq_self_iff`, and `read_write_read`, the result.
-/

namespace LogCodec

open Bytes

/-! ## Merged elements -/

namespace Element

/-- Puts static text in front of elements.  It is joined to static text that they start with, and left out if it is
empty. -/
def joinText : Bytes → List Element → List Element
  | [], items => items
  | b :: bytes, .text run :: items => .text (b :: bytes ++ run) :: items
  | b :: bytes, items => .text (b :: bytes) :: items

/-- The elements with adjacent static text joined and without empty static text. -/
def merge : List Element → List Element
  | [] => []
  | .text bytes :: items => joinText bytes (merge items)
  | .variable p :: items => .variable p :: merge items

/-- Cells as merged elements. -/
def ofCells : List Cell → List Element
  | [] => []
  | .byte b :: shown => joinText [b] (ofCells shown)
  | .variable p :: shown => .variable p :: ofCells shown

theorem flatMap_cells_joinText (bytes : Bytes) (items : List Element) :
    (joinText bytes items).flatMap cells = bytes.map .byte ++ items.flatMap cells := by
  fun_cases joinText bytes items with
  | case1 items => rfl
  | case2 b bytes run items => simp [cells]
  | case3 b bytes items _ => simp [cells]

/-- Text is joined byte by byte. -/
theorem joinText_cons (b : UInt8) (bytes : Bytes) (items : List Element) :
    joinText (b :: bytes) items = joinText [b] (joinText bytes items) := by
  fun_cases joinText bytes items with
  | case1 items => rfl
  | case2 c bytes run items => rfl
  | case3 c bytes items hitems =>
    cases items with
    | nil => rfl
    | cons item items =>
      cases item with
      | text run => exact absurd rfl (hitems run items)
      | «variable» p => rfl

theorem joinText_ofCells (bytes : Bytes) (shown : List Cell) :
    joinText bytes (ofCells shown) = ofCells (bytes.map .byte ++ shown) := by
  induction bytes with
  | nil => rfl
  | cons b bytes ih =>
    rw [joinText_cons, ih]
    rfl

theorem merge_eq_ofCells (items : List Element) : merge items = ofCells (items.flatMap cells) := by
  induction items with
  | nil => rfl
  | cons item items ih =>
    rw [List.flatMap_cons]
    cases item with
    | text bytes => rw [merge, ih, joinText_ofCells, cells]
    | «variable» p =>
      rw [merge, ih]
      rfl

theorem flatMap_cells_merge (items : List Element) : (merge items).flatMap cells = items.flatMap cells := by
  induction items with
  | nil => rfl
  | cons item items ih =>
    cases item with
    | text bytes => rw [merge, flatMap_cells_joinText, ih, List.flatMap_cons, cells]
    | «variable» p => rw [merge, List.flatMap_cons, ih, List.flatMap_cons]

/-- Merging keeps the cells and nothing else. -/
theorem merge_eq_merge_iff {items items' : List Element} :
    merge items = merge items' ↔ items.flatMap cells = items'.flatMap cells := by
  constructor
  · intro h
    rw [← flatMap_cells_merge items, h, flatMap_cells_merge]
  · intro h
    rw [merge_eq_ofCells, merge_eq_ofCells, h]

end Element

namespace Logtype

/-! ## Writing -/

theorem pushText_eq (logtype text : Bytes) : pushText logtype text = logtype ++ writeText text := by
  induction text generalizing logtype with
  | nil => exact (List.append_nil logtype).symm
  | cons b text ih =>
    have hcons : writeText (b :: text) = writeByte b ++ writeText text := rfl
    rw [pushText, ih, hcons, writeByte]
    by_cases hb : needsEscape b = true
    · simp [hb]
    · simp [hb]

theorem push_eq (logtype : Bytes) (item : Element) : push logtype item = logtype ++ writeElement item := by
  cases item with
  | text bytes => exact pushText_eq logtype bytes
  | «variable» p => rfl

/-- To add elements one after the other is to write them at the end. -/
theorem pushAll_eq (logtype : Bytes) (items : List Element) : pushAll logtype items = logtype ++ write items := by
  unfold pushAll write
  induction items generalizing logtype with
  | nil => exact (List.append_nil logtype).symm
  | cons item items ih => rw [List.foldl_cons, push_eq, ih, List.flatMap_cons, List.append_assoc]

theorem write_eq_flatMap_cells (items : List Element) :
    write items = (items.flatMap Element.cells).flatMap writeCell := by
  unfold write
  rw [List.flatMap_assoc]
  congr 1
  funext item
  cases item with
  | text bytes =>
    rw [Element.cells, List.flatMap_map]
    rfl
  | «variable» p => rfl

/-- What is written is read without an error. -/
theorem failure_write (items : List Element) : (elements (write items)).failure = none := by
  rw [write_eq_flatMap_cells, failure_flatMap_writeCell]

/-- What is written is read as the same elements once both are merged. -/
theorem merge_elements_write (items : List Element) :
    Element.merge (elements (write items)).items = Element.merge items := by
  rw [Element.merge_eq_merge_iff, flatMap_cells_elements, write_eq_flatMap_cells, cells_flatMap_writeCell]

/-! ## Reading -/

/-- A reading fails exactly if the logtype ends in an escape byte that has nothing to escape. -/
theorem failure_eq (logtype : Bytes) :
    (elements logtype).failure = if EndsInEscape logtype then some .danglingEscape else none := by
  induction logtype using Bytes.escape_induction with
  | nil => rfl
  | lone => rfl
  | pair b rest ih =>
    rw [failure_escaped, ih]
    simp only [endsInEscape_pair_iff]
  | single b rest hb ih =>
    simp only [endsInEscape_single_iff hb]
    rcases placeholder_or_plain hb with ⟨p, rfl⟩ | hplain
    · rw [failure_placeholder, ih]
    · rw [failure_plain hplain, ih]

/-- The bytes are written as they are in static text. -/
def Plain (run : Bytes) : Prop := ∀ b ∈ run, needsEscape b = false

/-- No run of static text goes on into the bytes. -/
def StopsRun (rest : Bytes) : Prop := ∀ b ∈ rest.head?, needsEscape b = true

/-- A byte string starts with a run of static text, which may be empty. -/
theorem exists_run (bytes : Bytes) : ∃ run rest, bytes = run ++ rest ∧ Plain run ∧ StopsRun rest := by
  refine ⟨bytes.takeWhile (!needsEscape ·), bytes.dropWhile (!needsEscape ·), List.takeWhile_append_dropWhile.symm, ?_, ?_⟩
  · intro b hb
    have hplain := List.mem_takeWhile_imp hb
    simpa using hplain
  · intro b hb
    have hreserved := List.head?_dropWhile_not (!needsEscape ·) bytes
    rw [Option.mem_def.mp hb] at hreserved
    simpa using hreserved

/-- A logtype is made of placeholder bytes and of runs of static text, each run up to the next reserved byte, with a
dangling escape behind them at most. -/
theorem run_induction {motive : Bytes → Prop} (nil : motive []) (dangling : motive [escapeByte])
    (place : ∀ (p : Placeholder) (rest : Bytes), motive rest → motive (p.toByte :: rest))
    (escapedRun : ∀ (b : UInt8) (run rest : Bytes), Plain run → StopsRun rest → motive rest →
      motive (escapeByte :: b :: run ++ rest))
    (plainRun : ∀ (b : UInt8) (run rest : Bytes), needsEscape b = false → Plain run → StopsRun rest → motive rest →
      motive (b :: run ++ rest))
    (logtype : Bytes) : motive logtype := by
  -- A run takes any number of bytes at once, so the induction is on the length.
  induction hlength : logtype.length using Nat.strongRecOn generalizing logtype with
  | ind n ih =>
    subst hlength
    match logtype with
    | [] => exact nil
    | b :: bytes =>
      by_cases hb : b = escapeByte
      · rw [hb]
        match bytes with
        | [] => exact dangling
        | c :: bytes =>
          obtain ⟨run, rest, rfl, hrun, hrest⟩ := exists_run bytes
          have hshorter : rest.length < (escapeByte :: c :: (run ++ rest)).length := by
            simp only [List.length_cons, List.length_append]
            omega
          exact escapedRun c run rest hrun hrest (ih rest.length hshorter rest rfl)
      · rcases placeholder_or_plain hb with ⟨p, rfl⟩ | hplain
        · exact place p bytes (ih bytes.length (by simp) bytes rfl)
        · obtain ⟨run, rest, rfl, hrun, hrest⟩ := exists_run bytes
          have hshorter : rest.length < (b :: (run ++ rest)).length := by
            simp only [List.length_cons, List.length_append]
            omega
          exact plainRun b run rest hplain hrun hrest (ih rest.length hshorter rest rfl)

/-- A byte of static text takes the rest of its run into its element. -/
theorem joinByte_run (b : UInt8) {run rest : Bytes} (hrun : Plain run) (hrest : StopsRun rest) :
    joinByte b (run ++ rest).head? (elements (run ++ rest)) =
      ⟨.text (b :: run) :: (elements rest).items, (elements rest).failure⟩ := by
  induction run generalizing b with
  | nil =>
    -- What stops the run starts an element of its own, even if that is static text.
    rw [List.nil_append]
    unfold joinByte
    split
    · next c bytes items hhead hitems => simp [hrest c hhead, hitems]
    · rfl
  | cons c run ih =>
    have hc : needsEscape c = false := hrun c List.mem_cons_self
    rw [List.cons_append, List.head?_cons, elements_plain hc, ih c fun d hd => hrun d (List.mem_cons_of_mem c hd)]
    simp [joinByte, hc]

theorem elements_escapedRun (b : UInt8) {run rest : Bytes} (hrun : Plain run) (hrest : StopsRun rest) :
    elements (escapeByte :: b :: run ++ rest) =
      ⟨.text (b :: run) :: (elements rest).items, (elements rest).failure⟩ := by
  rw [List.cons_append, List.cons_append, elements_escaped, joinByte_run b hrun hrest]

theorem elements_plainRun {b : UInt8} (hb : needsEscape b = false) {run rest : Bytes} (hrun : Plain run)
    (hrest : StopsRun rest) :
    elements (b :: run ++ rest) = ⟨.text (b :: run) :: (elements rest).items, (elements rest).failure⟩ := by
  rw [List.cons_append, elements_plain hb, joinByte_run b hrun hrest]

/-! ## By position -/

/-- A run ends where the next reserved byte stands. -/
theorem textEnd_eq (front : Bytes) {run rest : Bytes} (hrun : Plain run) (hrest : StopsRun rest) :
    textEnd (front ++ run ++ rest) front.length = (front ++ run).length := by
  induction run generalizing front with
  | nil =>
    rw [textEnd, List.append_nil]
    cases rest with
    | nil => simp
    | cons b rest => simp [hrest b rfl]
  | cons b run ih =>
    have hb : needsEscape b = false := hrun b List.mem_cons_self
    have hbehind := ih (front ++ [b]) fun c hc => hrun c (List.mem_cons_of_mem b hc)
    rw [List.append_assoc front, List.singleton_append, List.length_append, List.length_singleton] at hbehind
    rw [textEnd, dif_pos (by simp)]
    simp only [List.append_assoc, List.cons_append] at hbehind ⊢
    rw [List.getElem_append_right (Nat.le_refl _)]
    simp [hb, hbehind]

namespace Reader

/-- The reader at a place of a logtype, with `back` still to be read. -/
def between (front back : Bytes) : Reader := ⟨front ++ back, front.length⟩

section
variable (front : Bytes) {run rest : Bytes}

theorem next?_nil : (between front []).next? = none := by
  simp [between, next?]

theorem next?_dangling :
    (between front [escapeByte]).next? = some (.error .danglingEscape, between (front ++ [escapeByte]) []) := by
  have hnone : Placeholder.ofByte? escapeByte = none := rfl
  simp [between, next?, hnone]

theorem next?_placeholder (p : Placeholder) :
    (between front (p.toByte :: rest)).next? = some (.ok (.variable p), between (front ++ [p.toByte]) rest) := by
  simp [between, next?]

/-- A run is taken together with the byte that it starts with. -/
theorem takeText_run (b : UInt8) (hrun : Plain run) (hrest : StopsRun rest) (position : Nat) :
    takeText ⟨front ++ b :: run ++ rest, position⟩ front.length =
      (.ok (.text (b :: run)), between (front ++ b :: run) rest) := by
  have hend := textEnd_eq (front ++ [b]) hrun hrest
  rw [List.append_assoc front, List.singleton_append, List.length_append, List.length_singleton,
    List.length_append] at hend
  have hspan : textSpan ⟨front ++ b :: run ++ rest, position⟩ front.length =
      ⟨front.length, front.length + (b :: run).length⟩ := congrArg (Span.mk front.length) hend
  have hlength : (Span.mk front.length (front.length + (b :: run).length)).length = (b :: run).length :=
    Nat.add_sub_cancel_left ..
  rw [takeText, hspan, Span.slice, hlength, List.append_assoc, List.drop_left, List.take_left, between,
    List.length_append, List.append_assoc]

theorem next?_escapedRun (b : UInt8) (hrun : Plain run) (hrest : StopsRun rest) :
    (between front (escapeByte :: b :: run ++ rest)).next? =
      some (.ok (.text (b :: run)), between (front ++ escapeByte :: b :: run) rest) := by
  have hnone : Placeholder.ofByte? escapeByte = none := rfl
  have htake := takeText_run (front ++ [escapeByte]) b hrun hrest front.length
  simp only [List.append_assoc, List.cons_append, List.nil_append, List.length_append,
    List.length_singleton] at htake
  simp [between, next?, hnone, htake]

theorem next?_plainRun {b : UInt8} (hb : needsEscape b = false) (hrun : Plain run) (hrest : StopsRun rest) :
    (between front (b :: run ++ rest)).next? =
      some (.ok (.text (b :: run)), between (front ++ b :: run) rest) := by
  obtain ⟨hnone, hne⟩ := ofByte?_of_not_needsEscape hb
  have htake := takeText_run front b hrun hrest front.length
  simp only [List.append_assoc, List.cons_append] at htake
  simp [between, next?, hnone, hne, htake]

end

/-- What a reading gives one after the other: its items, and then the error that ended it, if one did. -/
def outcomes {α : Type} (scan : Scan α) : List (Except DecodeError α) :=
  scan.items.map .ok ++ scan.failure.toList.map .error

/-- **From every place where an element starts the reader gives what is left of the logtype.** -/
theorem drain_between (front back : Bytes) : (between front back).drain = outcomes (elements back) := by
  induction back using run_induction generalizing front with
  | nil => exact drain_of_next?_eq_none (next?_nil front)
  | dangling =>
    rw [drain_of_next?_eq_some (next?_dangling front), drain_of_next?_eq_none (next?_nil _)]
    rfl
  | place p rest ih =>
    rw [drain_of_next?_eq_some (next?_placeholder front p), ih, elements_placeholder]
    rfl
  | escapedRun b run rest hrun hrest ih =>
    rw [drain_of_next?_eq_some (next?_escapedRun front b hrun hrest), ih, elements_escapedRun b hrun hrest]
    rfl
  | plainRun b run rest hb hrun hrest ih =>
    rw [drain_of_next?_eq_some (next?_plainRun front hb hrun hrest), ih, elements_plainRun hb hrun hrest]
    rfl

/-- The reader gives the elements of a logtype, and then the error if there is one. -/
theorem drain_eq (logtype : Bytes) : (ofLogtype logtype).drain = outcomes (elements logtype) :=
  drain_between [] logtype

end Reader

/-! ## Writing again -/

/-- Cells are written as they were read exactly if no byte was escaped without need. -/
theorem flatMap_writeCell_cells_eq_iff {logtype : Bytes} (h : ¬ EndsInEscape logtype) :
    (cells logtype).flatMap writeCell = logtype ↔ EscapesOnly needsEscape logtype := by
  induction logtype using Bytes.escape_induction with
  | nil => exact iff_of_true rfl escapesOnly_nil
  | lone => exact absurd endsInEscape_lone h
  | pair b rest ih =>
    rw [endsInEscape_pair_iff] at h
    rw [cells_escaped, List.flatMap_cons, writeCell, writeByte, escapesOnly_pair_iff, ← ih h]
    by_cases hb : needsEscape b = true
    · simp [hb]
    · have hne : b ≠ escapeByte := by
        rintro rfl
        exact hb rfl
      simp [hb, hne]
  | single b rest hb ih =>
    rw [endsInEscape_single_iff hb] at h
    rw [escapesOnly_single_iff hb, ← ih h]
    rcases placeholder_or_plain hb with ⟨p, rfl⟩ | hplain
    · simp [cells_placeholder, writeCell]
    · simp [cells_plain hplain, writeCell, writeByte, hplain]

theorem write_elements_eq_self_iff {logtype : Bytes} (h : ¬ EndsInEscape logtype) :
    write (elements logtype).items = logtype ↔ EscapesOnly needsEscape logtype := by
  rw [write_eq_flatMap_cells, flatMap_cells_elements, flatMap_writeCell_cells_eq_iff h]

/-- **Elements are read as they were written, and written as they were read.**  To add elements one after the other
gives a logtype in which a reader finds them, without an error, up to where static text is cut.  On any byte string
a reader comes to an end, with the error of a dangling escape behind all elements exactly if the byte string ends in an
escape that has nothing to escape.  If it does not, then the elements written again are read as before, and what is
written is the byte string itself exactly if its escapes all stand before bytes that need one. -/
theorem read_write_read (items : List Element) (logtype : Bytes) :
    (∃ found, (Reader.ofLogtype (pushAll [] items)).drain = found.map .ok ∧
      Element.merge found = Element.merge items) ∧
    ∃ found, (Reader.ofLogtype logtype).drain =
        found.map .ok ++ (if EndsInEscape logtype then [.error .danglingEscape] else []) ∧
      (¬ EndsInEscape logtype →
        (∃ again, (Reader.ofLogtype (pushAll [] found)).drain = again.map .ok ∧
          Element.merge again = Element.merge found) ∧
        (pushAll [] found = logtype ↔ EscapesOnly needsEscape logtype)) := by
  have hwritten : ∀ items, ∃ found, (Reader.ofLogtype (pushAll [] items)).drain = found.map .ok ∧
      Element.merge found = Element.merge items := by
    intro items
    refine ⟨(elements (write items)).items, ?_, merge_elements_write items⟩
    rw [pushAll_eq, List.nil_append, Reader.drain_eq, Reader.outcomes, failure_write]
    exact List.append_nil _
  refine ⟨hwritten items, (elements logtype).items, ?_, ?_⟩
  · rw [Reader.drain_eq, Reader.outcomes, failure_eq]
    by_cases h : EndsInEscape logtype
    · simp [h]
    · simp [h]
  · intro h
    refine ⟨hwritten _, ?_⟩
    rw [pushAll_eq, List.nil_append, write_elements_eq_self_iff h]

end Logtype

end LogCodec
