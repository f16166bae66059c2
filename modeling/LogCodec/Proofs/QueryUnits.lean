import LogCodec.Proofs.NormalForm
import LogCodec.Proofs.RecordHeader
import LogCodec.Proofs.Tiling
import LogCodec.Query.InPlace

/-!
# `LogCodec.Proofs.QueryUnits`: the units of a query and the places of its symbols

A query in normal form is the spelling of its symbols, so the units that are found in its bytes are the symbols with
their places.  A piece of the query is a run of symbols that starts at some byte; its units are part of the units of the
query, and a part of the piece has a part of them.

## Contents
- `StandsAt`, for what a list has from an index on; `unitsFrom_eq`: the units found by index are those of the spelling.
- `Piece.place`, the byte at which a symbol of a piece starts, with `place_lt_place`; `Piece.range` for spans.
- `Piece.units`, with `getElem?_units` and `slice_units`; `PieceSummary.ofUnits_units`.
-/

namespace LogCodec.Query

/-! ## Access -/

section
variable {α : Type} {xs : List α}

theorem itemAt_eq_ok {index : Nat} {x : α} (h : xs[index]? = some x) : itemAt xs index = .ok x := by
  rw [itemAt, h]

theorem partOf_eq_ok {range : Span} (h : range.Fits xs.length) : partOf xs range = .ok (range.slice xs) := if_pos h

/-- Some members of a list stand in it from an index on. -/
def StandsAt (xs : List α) (index : Nat) (part : List α) : Prop :=
  ∃ front back, xs = front ++ (part ++ back) ∧ front.length = index

namespace StandsAt

variable {index : Nat} {part first second : List α}

theorem fits (h : StandsAt xs index part) : Span.Fits ⟨index, index + part.length⟩ xs.length := by
  obtain ⟨front, back, rfl, rfl⟩ := h
  refine ⟨Nat.le_add_right _ _, ?_⟩
  simp only [List.length_append]
  omega

theorem slice_eq (h : StandsAt xs index part) : Span.slice ⟨index, index + part.length⟩ xs = part := by
  obtain ⟨front, back, rfl, rfl⟩ := h
  simp [Span.slice, Span.length]

theorem partOf_eq (h : StandsAt xs index part) : partOf xs ⟨index, index + part.length⟩ = .ok part := by
  rw [partOf_eq_ok h.fits, h.slice_eq]

theorem left (h : StandsAt xs index (first ++ second)) : StandsAt xs index first := by
  obtain ⟨front, back, rfl, hfront⟩ := h
  exact ⟨front, second ++ back, by simp, hfront⟩

theorem right (h : StandsAt xs index (first ++ second)) : StandsAt xs (index + first.length) second := by
  obtain ⟨front, back, rfl, rfl⟩ := h
  exact ⟨front ++ first, back, by simp, List.length_append⟩

theorem append (hfirst : StandsAt xs index first) (hsecond : StandsAt xs (index + first.length) second) :
    StandsAt xs index (first ++ second) := by
  obtain ⟨front, back, rfl, rfl⟩ := hfirst
  obtain ⟨before, behind, hsplit, hbefore⟩ := hsecond
  rw [← List.append_assoc] at hsplit
  obtain ⟨rfl, rfl⟩ := List.append_inj hsplit (by rw [hbefore, List.length_append])
  exact ⟨front, behind, by rw [List.append_assoc], rfl⟩

theorem of_initial {ys : List α} (h : StandsAt xs index part) (hinitial : xs <+: ys) : StandsAt ys index part := by
  obtain ⟨front, back, rfl, hfront⟩ := h
  obtain ⟨more, rfl⟩ := hinitial
  exact ⟨front, back ++ more, by simp, hfront⟩

end StandsAt

end

/-! ## The units of a query -/

section
variable {query : Bytes} {index : Nat}

theorem unitsFrom_end (h : query.length ≤ index) : unitsFrom query index = .ok [] := by
  unfold unitsFrom
  rw [if_neg (Nat.not_lt.mpr h)]

theorem unitsFrom_pair {c : UInt8} (hescape : query[index]? = some escapeByte) (hc : query[index + 1]? = some c) :
    unitsFrom query index =
      (unitsFrom query (index + 2)).map (⟨.literal c, ⟨index, index + 2⟩⟩ :: ·) := by
  have hlt : index + 1 < query.length := (List.getElem?_eq_some_iff.mp hc).1
  rw [unitsFrom, if_pos (Nat.lt_of_succ_lt hlt), itemAt_eq_ok hescape]
  show (if escapeByte = escapeByte ∧ index + 1 < query.length then _ else _ : Except Stop (List PlacedSymbol)) = _
  rw [if_pos ⟨rfl, hlt⟩, itemAt_eq_ok hc]
  rfl

theorem unitsFrom_single {b : UInt8} (hb : query[index]? = some b) (hlone : b = escapeByte → query.length ≤ index + 1) :
    unitsFrom query index =
      (unitsFrom query (index + 1)).map (⟨Symbol.ofByte b, ⟨index, index + 1⟩⟩ :: ·) := by
  have hlt : index < query.length := (List.getElem?_eq_some_iff.mp hb).1
  rw [unitsFrom, if_pos hlt, itemAt_eq_ok hb]
  show (if b = escapeByte ∧ index + 1 < query.length then _ else _ : Except Stop (List PlacedSymbol)) = _
  rw [if_neg fun hpair => Nat.not_lt.mpr (hlone hpair.1) hpair.2]
  rfl

end

/-- The units from an index on are those of the bytes that stand there. -/
theorem unitsFrom_append (front rest : Bytes) :
    unitsFrom (front ++ rest) front.length = .ok (Pattern.placedFrom front.length rest) := by
  have hbehind : ∀ (front more : Bytes) (i : Nat), (front ++ more)[front.length + i]? = more[i]? := by
    intro front more i
    rw [List.getElem?_append_right (Nat.le_add_right _ _), Nat.add_sub_cancel_left]
  induction rest using Bytes.escape_induction generalizing front with
  | nil =>
    rw [unitsFrom_end (by simp)]
    rfl
  | lone =>
    rw [unitsFrom_single (hbehind front _ 0) fun _ => by simp, unitsFrom_end (by simp)]
    rfl
  | pair b rest ih =>
    have hrest := ih (front ++ [escapeByte, b])
    rw [List.append_assoc, List.length_append] at hrest
    rw [unitsFrom_pair (hbehind front _ 0) (hbehind front _ 1), Pattern.placedFrom_escape]
    exact congrArg (Except.map _) hrest
  | single b rest hb ih =>
    have hrest := ih (front ++ [b])
    rw [List.append_assoc, List.length_append] at hrest
    rw [unitsFrom_single (hbehind front _ 0) fun h => absurd h hb, Pattern.placedFrom_of_ne_escape _ hb]
    exact congrArg (Except.map _) hrest

/-- **The units of a query are found without leaving it.** -/
theorem unitsFrom_eq (query : Bytes) : unitsFrom query 0 = .ok (Pattern.placed query) := unitsFrom_append [] query

/-! ## Places of symbols -/

namespace Piece

/-- The byte of the query at which a symbol of a piece starts. -/
def place (p : Piece) (index : Nat) : Nat := p.start + (Pattern.spell (p.symbols.take index)).length

/-- The bytes of the query that spell some symbols of a piece. -/
def range (p : Piece) (span : Span) : Span := ⟨p.place span.start, p.place span.stop⟩

/-- The units of a piece. -/
def units (p : Piece) : List PlacedSymbol := Pattern.placedFrom p.start p.symbols.spell

theorem length_spell_pos (s : Symbol) : 0 < s.spell.length := by
  rcases s.spell_cases with ⟨b, -, -, hs⟩ | ⟨b, -, -, hs⟩
  · rw [hs]
    exact Nat.zero_lt_one
  · rw [hs]
    exact Nat.zero_lt_two

section
variable (p : Piece) {a b : Nat}

theorem place_zero : p.place 0 = p.start := rfl

theorem place_length : p.place p.symbols.length = p.stop := by
  rw [place, List.take_length, stop]

/-- A part of a piece stands in it. -/
theorem symbols_eq (h : a ≤ b) : p.symbols = p.symbols.take a ++ (p.slice ⟨a, b⟩ ++ p.symbols.drop b) := by
  have hdrop : p.symbols.drop b = (p.symbols.drop a).drop (b - a) := by
    rw [List.drop_drop]
    congr 1
    omega
  rw [hdrop, slice, Span.slice, Span.length, List.take_append_drop, List.take_append_drop]

/-- Between two places lies what spells the symbols between them. -/
theorem place_eq_add (h : a ≤ b) : p.place b = p.place a + (p.slice ⟨a, b⟩).spell.length := by
  have htake : p.symbols.take b = p.symbols.take a ++ p.slice ⟨a, b⟩ := by
    have hsum : b = a + (b - a) := by omega
    rw [hsum, List.take_add]
    simp [slice, Span.slice, Span.length]
  rw [place, htake, Pattern.spell_append, List.length_append, place, Nat.add_assoc]

theorem place_le_place (h : a ≤ b) : p.place a ≤ p.place b := by
  rw [p.place_eq_add h]
  exact Nat.le_add_right _ _

/-- A symbol takes the bytes that spell it. -/
theorem place_succ {index : Nat} {s : Symbol} (hs : p.symbols[index]? = some s) :
    p.place (index + 1) = p.place index + s.spell.length := by
  rw [p.place_eq_add (Nat.le_succ index), slice, Span.slice_singleton hs]
  simp [Pattern.spell]

/-- Every symbol takes a byte at least. -/
theorem place_lt_place (h : a < b) (ha : a < p.symbols.length) : p.place a < p.place b := by
  have hnext := p.place_succ (List.getElem?_eq_getElem ha)
  have hpos := length_spell_pos p.symbols[a]
  have hle := p.place_le_place (Nat.succ_le_of_lt h)
  rw [Nat.succ_eq_add_one] at hle
  omega

/-- What stands between two positions is in the part between them. -/
theorem mem_slice {span : Span} {index : Nat} {s : Symbol} (hstart : span.start ≤ index) (hstop : index < span.stop)
    (hs : p.symbols[index]? = some s) : s ∈ p.slice span := by
  have hget : (p.slice span)[index - span.start]? = some s := by
    rw [slice, Span.slice, Span.length, List.getElem?_take_of_lt (by omega), List.getElem?_drop,
      Nat.add_sub_cancel' hstart, hs]
  exact List.mem_of_getElem? hget

theorem range_eq {span : Span} (h : span.start ≤ span.stop) :
    p.range span = ⟨p.place span.start, p.place span.start + (p.slice span).spell.length⟩ := by
  rw [range, p.place_eq_add h]

theorem range_part (h : a ≤ b) : p.range ⟨a, b⟩ = ⟨(p.part ⟨a, b⟩).start, (p.part ⟨a, b⟩).stop⟩ := by
  rw [range, p.place_eq_add h]
  rfl

/-- The spelling of a part of a piece stands where its place says. -/
theorem standsAt_place {bytes : Bytes} (hspelled : StandsAt bytes p.start p.symbols.spell) (h : a ≤ b) :
    StandsAt bytes (p.place a) (p.slice ⟨a, b⟩).spell := by
  rw [p.symbols_eq h, Pattern.spell_append, Pattern.spell_append] at hspelled
  exact hspelled.right.left

end

/-! ## Units of a piece -/

theorem units_cons (start : Nat) (s : Symbol) (rest : Pattern) :
    units ⟨start, s :: rest⟩ =
      ⟨s, ⟨start, start + s.spell.length⟩⟩ :: units ⟨start + s.spell.length, rest⟩ := by
  unfold units
  rw [Pattern.spell_cons]
  rcases s.spell_cases with ⟨b, hb, hs, hspell⟩ | ⟨b, -, hs, hspell⟩
  · rw [hspell, List.singleton_append, Pattern.placedFrom_of_ne_escape _ hb, ← hs]
    rfl
  · rw [hspell, List.cons_append, List.singleton_append, Pattern.placedFrom_escape, ← hs]
    rfl

theorem units_append (start : Nat) (front rest : Pattern) :
    units ⟨start, front ++ rest⟩ = units ⟨start, front⟩ ++ units ⟨start + front.spell.length, rest⟩ := by
  induction front generalizing start with
  | nil => rfl
  | cons s front ih =>
    rw [List.cons_append, units_cons, units_cons, ih, Pattern.spell_cons, List.length_append, Nat.add_assoc]
    rfl

theorem map_symbol_units (p : Piece) : p.units.map PlacedSymbol.symbol = p.symbols := by
  rw [units, Pattern.map_symbol_placedFrom, Pattern.ofBytes_spell]

theorem length_units (p : Piece) : p.units.length = p.symbols.length := by
  rw [← p.map_symbol_units, List.length_map]

/-- The unit for each symbol. -/
theorem getElem?_units (p : Piece) (i : Nat) :
    p.units[i]? = p.symbols[i]?.map fun s => ⟨s, p.range ⟨i, i + 1⟩⟩ := by
  obtain ⟨start, symbols⟩ := p
  induction symbols generalizing start i with
  | nil => rfl
  | cons s symbols ih =>
    rw [units_cons]
    cases i with
    | zero => simp [range, place, Pattern.spell]
    | succ i =>
      rw [List.getElem?_cons_succ, List.getElem?_cons_succ, ih]
      simp only [range, place, List.take_succ_cons, Pattern.spell_cons, List.length_append, Nat.add_assoc]

/-- A part of a piece has a part of the units. -/
theorem slice_units (p : Piece) {a b : Nat} (hab : a ≤ b) (hb : b ≤ p.symbols.length) :
    Span.slice ⟨a, b⟩ p.units = (p.part ⟨a, b⟩).units := by
  have hfront : (units ⟨p.start, p.symbols.take a⟩).length = a := by
    rw [length_units, List.length_take_of_le (Nat.le_trans hab hb)]
  have hmiddle : (p.part ⟨a, b⟩).units.length = b - a := by
    rw [length_units]
    exact Span.length_slice p.symbols ⟨hab, hb⟩
  have hstands : StandsAt p.units a (p.part ⟨a, b⟩).units := by
    refine ⟨units ⟨p.start, p.symbols.take a⟩, units ⟨(p.part ⟨a, b⟩).stop, p.symbols.drop b⟩, ?_, hfront⟩
    have happend := units_append p.start (p.symbols.take a) (p.slice ⟨a, b⟩ ++ p.symbols.drop b)
    rw [← p.symbols_eq hab, units_append] at happend
    exact happend
  have hslice := hstands.slice_eq
  rwa [hmiddle, Nat.add_sub_cancel' hab] at hslice

theorem any_isEscaped_units (p : Piece) : p.units.any PlacedSymbol.isEscaped = p.symbols.isEscaped := by
  obtain ⟨start, symbols⟩ := p
  induction symbols generalizing start with
  | nil => rfl
  | cons s symbols ih =>
    have hs : PlacedSymbol.isEscaped ⟨s, ⟨start, start + s.spell.length⟩⟩ = s.isEscaped := by
      unfold PlacedSymbol.isEscaped Span.length
      cases s with
      | star => simp [Symbol.spell, Symbol.isEscaped]
      | any => simp [Symbol.spell, Symbol.isEscaped]
      | literal b => by_cases hb : Symbol.isReserved b = true <;> simp [Symbol.spell, Symbol.isEscaped, hb]
    rw [units_cons, List.any_cons, ih, hs]
    rfl

/-- The first unit and the last. -/
theorem ends_units (p : Piece) (hne : p.symbols ≠ []) :
    p.units[0]? = some ⟨p.symbols.head hne, p.range ⟨0, 1⟩⟩ ∧
      p.units[p.units.length - 1]? =
        some ⟨p.symbols.getLast hne, p.range ⟨p.symbols.length - 1, p.symbols.length⟩⟩ := by
  have hlength := List.length_pos_iff.mpr hne
  have hfirst : p.symbols[0]? = some (p.symbols.head hne) := by
    rw [← List.head?_eq_getElem?, List.head?_eq_some_head hne]
  have hlast : p.symbols[p.symbols.length - 1]? = some (p.symbols.getLast hne) := by
    rw [← List.getLast?_eq_getElem?, List.getLast?_eq_some_getLast hne]
  rw [getElem?_units, getElem?_units, length_units, hfirst, hlast, Nat.sub_add_cancel hlength]
  exact ⟨rfl, rfl⟩

/-- What is known of a piece once its units have been gone through is what its symbols say. -/
theorem ofUnits_units (p : Piece) (hne : p.symbols ≠ []) :
    PieceSummary.ofUnits p.units =
      .ok ⟨⟨p.start, p.stop⟩, p.symbols.literals, p.symbols.isEscaped, p.symbols.startsWithStar,
        p.symbols.endsWithStar⟩ := by
  have hunits := p.ends_units hne
  unfold PieceSummary.ofUnits
  rw [itemAt_eq_ok hunits.1, itemAt_eq_ok hunits.2, any_isEscaped_units, Pattern.startsWithStar, Pattern.endsWithStar,
    List.head?_eq_some_head hne, List.getLast?_eq_some_getLast hne]
  have hliterals : p.units.filterMap (·.symbol.literal?) = p.symbols.literals := by
    rw [Pattern.literals, ← p.map_symbol_units, List.filterMap_map]
    rfl
  show Except.ok (PieceSummary.mk ⟨p.place 0, p.place p.symbols.length⟩ _ _ _ _) = _
  rw [place_zero, place_length, hliterals]
  rfl

end Piece

end LogCodec.Query
