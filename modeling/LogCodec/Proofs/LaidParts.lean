import LogCodec.Proofs.RangedTokens
import LogCodec.Proofs.Soundness

/-!
# `LogCodec.Proofs.LaidParts`: the parts of a query as they lie in the buffer

The parts of a query lie one behind the other in its normal form, and their values one behind the other in the buffer
that starts with it.  What is known of each part when it has been read is kept with the list of parts: where its
spelling is, where its values are, and what its readings are made of.

## Contents
- `ReadPart.IsRead`, what the readings of a part are made of; `isRead_gap` and `isRead_token`.
- `ReadPart.LiesIn`, where the part is; `isFrom_spelled` and `isFrom_value`.
- `Laid`, for the parts of a query; `laid_partsFrom`, and `laid_of_decompose`, for a query that is taken apart.
-/

namespace LogCodec

/-- Bytes that stand at the place of an excerpt. -/
theorem Excerpt.isFrom_of_standsAt {e : Excerpt} {buffer : Bytes} (h : Query.StandsAt buffer e.start e.bytes) :
    e.IsFrom buffer := ⟨h.fits, h.slice_eq⟩

namespace Query

/-! ## Readings -/

/-- The readings of a part are made of segments that show parts of it and lie one behind the other. -/
structure ReadPart.IsRead (p : ReadPart) : Prop where
  readings_ne_nil : p.readings ≠ []
  shows : ∀ reading ∈ p.readings, ∀ segment ∈ reading, p.piece.Shows p.appended segment
  tiles : ∀ reading ∈ p.readings, Tiles p.piece.symbols 0 (reading.map Segment.span)

section
variable {schema : Schema} {limit filled : Nat} {piece : Piece} {precededBy : Option UInt8} {readings : List Reading}

/-- A gap has one reading. -/
theorem isRead_gap (hne : piece.symbols ≠ []) :
    ReadPart.IsRead ⟨piece, [[.static ⟨0, piece.symbols.length⟩]], filled, []⟩ where
  readings_ne_nil := List.cons_ne_nil _ _
  shows := by
    have hshows : piece.Shows [] (.static ⟨0, piece.symbols.length⟩) :=
      ⟨⟨List.length_pos_iff.mpr hne, Nat.le_refl _⟩, by simp, by simp, by simp⟩
    intro reading hreading segment hsegment
    rw [List.mem_singleton.mp hreading] at hsegment
    rw [List.mem_singleton.mp hsegment]
    exact hshows
  tiles := by
    intro reading hreading
    rw [List.mem_singleton.mp hreading]
    exact .cons (.refl _ 0) (List.length_pos_iff.mpr hne) .nil

/-- A piece that is not empty has an alternative. -/
theorem alternatives_ne_nil (span : Span) (precededBy : Option UInt8) :
    (Cut.piece span (.known precededBy)).alternatives schema piece ≠ [] := by
  simp only [Cut.alternatives, exactAlternatives, wildcardAlternatives]
  split
  · split <;> exact List.cons_ne_nil _ _
  · split
    · exact List.cons_ne_nil _ _
    · exact List.append_ne_nil_of_right_ne_nil _ (List.cons_ne_nil _ _)

/-- A token has a reading: it need not be split. -/
theorem readings_ne_nil (hne : piece.symbols ≠ []) (h : piece.readings schema limit precededBy = some readings) :
    readings ≠ [] := by
  obtain ⟨segment, more, hmore⟩ := List.exists_cons_of_ne_nil
    (@alternatives_ne_nil schema piece ⟨0, piece.symbols.length⟩ precededBy)
  have hcuts : cuts piece.symbols.length precededBy [] = [.piece ⟨0, piece.symbols.length⟩ (.known precededBy)] :=
    if_pos (List.length_pos_iff.mpr hne)
  have hsplits : piece.Splits schema precededBy [segment] := by
    refine ⟨[], List.nil_sublist _, ?_⟩
    rw [hcuts]
    refine .cons ?_ .nil
    rw [hmore]
    exact List.mem_cons_self
  exact List.ne_nil_of_mem ((mem_readings h).mpr ⟨_, hsplits, rfl⟩)

theorem isRead_token (hne : piece.symbols ≠ []) (h : piece.readings schema limit precededBy = some readings) :
    ReadPart.IsRead ⟨piece, readings, filled, Part.appended schema (.token piece precededBy)⟩ where
  readings_ne_nil := readings_ne_nil hne h
  shows := shows_of_mem_readings h
  tiles := by
    intro reading hreading
    obtain ⟨segments, hsplits, rfl⟩ := (mem_readings h).mp hreading
    exact tiles_foldr_cons hsplits.tiles

end

theorem isAlwaysStatic_iff {choices : List (List RangeSegment)} :
    isAlwaysStatic choices = true ↔ ∃ range, choices = [[.static range]] := by
  constructor
  · intro h
    unfold isAlwaysStatic at h
    split at h
    · next range => exact ⟨range, rfl⟩
    · cases h
  · rintro ⟨range, rfl⟩
    rfl

/-- A part that is always static has one reading, which is its text. -/
theorem ReadPart.IsRead.readings_of_alwaysStatic {p : ReadPart} (hp : p.IsRead) {width : Width}
    (h : isAlwaysStatic (p.token width).choices = true) : p.readings = [[.static ⟨0, p.piece.symbols.length⟩]] := by
  obtain ⟨range, hrange⟩ := isAlwaysStatic_iff.mp h
  obtain ⟨reading, hreadings, hreading⟩ := List.map_eq_singleton_iff.mp hrange
  obtain ⟨segment, rfl, hsegment⟩ := List.map_eq_singleton_iff.mp hreading
  have htiles := hp.tiles [segment] (by rw [hreadings]; exact List.mem_cons_self)
  obtain ⟨hjoins, -, hrest⟩ := tiles_cons_iff.mp htiles
  cases segment with
  | static span =>
    have hstart : span.start = 0 := by
      rcases hjoins with hjoins | ⟨hjoins, -⟩
      · exact hjoins
      · exact absurd hjoins (Nat.succ_ne_zero _)
    have hstop : span.stop = p.piece.symbols.length := Tiles.length_eq hrest
    rw [hreadings, ← hstop, ← hstart]
  | exact span => cases hsegment
  | wildcard span kind => cases hsegment

/-! ## Places -/

/-- The query spells the part where it is said to be, and the buffer has its values where they are said to be. -/
structure ReadPart.LiesIn (p : ReadPart) (query buffer : Bytes) : Prop where
  spelled : StandsAt query p.piece.start p.piece.symbols.spell
  values : StandsAt buffer p.filled (p.piece.values p.appended)

section
variable {p : ReadPart} {query buffer : Bytes} {span : Span}

theorem span_spelled (h : p.piece.Has span) : (p.piece.spelled span).span = p.piece.range span :=
  (p.piece.range_part (Nat.le_of_lt h.1)).symm

theorem ReadPart.LiesIn.standsAt_spelled (h : p.LiesIn query buffer) (hspan : p.piece.Has span) :
    StandsAt query (p.piece.range span).start (p.piece.slice span).spell :=
  p.piece.standsAt_place h.spelled (Nat.le_of_lt hspan.1)

/-- A part of the query is an excerpt of the buffer. -/
theorem ReadPart.LiesIn.isFrom_spelled (h : p.LiesIn query buffer) (hinitial : query <+: buffer)
    (hspan : p.piece.Has span) : (p.piece.spelled span).IsFrom buffer :=
  Excerpt.isFrom_of_standsAt ((h.standsAt_spelled hspan).of_initial hinitial)

/-- A value is an excerpt of the buffer. -/
theorem ReadPart.LiesIn.isFrom_value (h : p.LiesIn query buffer) (hinitial : query <+: buffer)
    (hshows : p.piece.Shows p.appended (.exact span)) :
    (p.piece.value p.filled p.appended span).IsFrom buffer := by
  by_cases hescaped : (p.piece.slice span).isEscaped = true
  · obtain ⟨before, behind, hsplit, hnot⟩ : ∃ before behind, p.appended = before ++ span :: behind ∧ span ∉ before :=
      List.eq_append_cons_of_mem (hshows.mem_of_escaped span rfl hescaped)
    have hvalues : p.piece.values p.appended = p.piece.values before ++
        ((p.piece.slice span).literals ++ p.piece.values behind) := by
      rw [hsplit, Piece.values_append]
      rfl
    have hstands := h.values
    rw [hvalues] at hstands
    refine Excerpt.isFrom_of_standsAt ?_
    unfold Piece.value
    simp only [hescaped, if_true]
    rw [hsplit, Piece.takeWhile_place hnot]
    exact hstands.right.left
  · rw [Bool.not_eq_true] at hescaped
    have hvalue : p.piece.value p.filled p.appended span = p.piece.spelled span := by
      unfold Piece.value
      simp [hescaped]
    rw [hvalue]
    exact h.isFrom_spelled hinitial hshows.has

end

/-! ## The parts of a query -/

/-- Parts lie one behind the other from a byte on and have the given symbols between them. -/
inductive Laid (query buffer : Bytes) : (start : Nat) → Pattern → List ReadPart → Prop where
  | nil {start : Nat} : Laid query buffer start [] []
  | cons {p : ReadPart} {rest : Pattern} {ps : List ReadPart} (hread : p.IsRead) (hlies : p.LiesIn query buffer)
      (h : Laid query buffer p.piece.stop rest ps) :
      Laid query buffer p.piece.start (p.piece.symbols ++ rest) (p :: ps)

namespace Laid

variable {query buffer : Bytes} {start : Nat} {symbols : Pattern} {ps : List ReadPart}

theorem isRead (h : Laid query buffer start symbols ps) : ∀ p ∈ ps, p.IsRead := by
  induction h with
  | nil => simp
  | cons hread _ _ ih => exact List.forall_mem_cons.mpr ⟨hread, ih⟩

theorem liesIn (h : Laid query buffer start symbols ps) : ∀ p ∈ ps, p.LiesIn query buffer := by
  induction h with
  | nil => simp
  | cons _ hlies _ ih => exact List.forall_mem_cons.mpr ⟨hlies, ih⟩

/-- Each part stands among the symbols, and knows its place. -/
theorem exists_front (h : Laid query buffer start symbols ps) :
    ∀ p ∈ ps, ∃ front back, symbols = front ++ (p.piece.symbols ++ back) ∧
      p.piece.start = start + front.spell.length := by
  induction h with
  | nil => simp
  | @cons p rest ps _ _ _ ih =>
    refine List.forall_mem_cons.mpr ⟨⟨[], rest, rfl, rfl⟩, ?_⟩
    intro q hq
    obtain ⟨front, back, rfl, hstart⟩ := ih q hq
    refine ⟨p.piece.symbols ++ front, back, by simp, ?_⟩
    rw [hstart, Pattern.spell_append, List.length_append, Piece.stop, Nat.add_assoc]

/-- The parts lie one behind the other. -/
theorem pairwise (h : Laid query buffer start symbols ps) :
    ps.Pairwise fun p q => p.piece.stop ≤ q.piece.start := by
  induction h with
  | nil => exact .nil
  | cons _ _ hrest ih =>
    refine .cons ?_ ih
    intro q hq
    obtain ⟨front, _, _, hstart⟩ := hrest.exists_front q hq
    rw [hstart]
    exact Nat.le_add_right _ _

end Laid

/-- The parts of some symbols lie where the symbols are spelled, and their values where they are appended. -/
theorem laid_partsFrom {schema : Schema} {limit start filled : Nat} {precededBy : Option UInt8} {symbols : Pattern}
    {query buffer : Bytes} {ps : List ReadPart} (hspelled : StandsAt query start symbols.spell)
    (hvalues : StandsAt buffer filled
      ((partsFrom schema start precededBy symbols).flatMap fun part => part.piece.values (part.appended schema)))
    (h : readParts schema limit filled (partsFrom schema start precededBy symbols) = some ps) :
    Laid query buffer start symbols ps := by
  induction hlength : symbols.length using Nat.strong_induction_on
    generalizing start filled precededBy symbols ps with
  | h length ih =>
    by_cases hne : symbols = []
    · rw [hne, partsFrom] at h
      cases h
      rw [hne]
      exact .nil
    · obtain ⟨member, members, rest, rfl, hmembers, -, -, hparts⟩ := exists_first_part schema start precededBy hne
      have hshorter : rest.length < length := by
        have hpos := List.length_pos_iff.mpr hmembers
        rw [List.length_append] at hlength
        omega
      rw [hparts, readParts_cons, Option.bind_eq_some_iff] at h
      obtain ⟨readings, hreadings, h⟩ := h
      obtain ⟨later, hlater, rfl⟩ := Option.map_eq_some_iff.mp h
      rw [hparts, List.flatMap_cons] at hvalues
      rw [Pattern.spell_append] at hspelled
      have hpiece : (if member = true then Part.token ⟨start, members⟩ precededBy
          else Part.gap ⟨start, members⟩).piece = ⟨start, members⟩ := by
        cases member <;> rfl
      have hrest := ih rest.length hshorter hspelled.right hvalues.right hlater rfl
      have hread : ReadPart.IsRead ⟨⟨start, members⟩, readings, filled, (if member = true then
          Part.token ⟨start, members⟩ precededBy else Part.gap ⟨start, members⟩).appended schema⟩ := by
        cases member with
        | true => exact isRead_token hmembers hreadings
        | false =>
          cases hreadings
          exact isRead_gap hmembers
      rw [hpiece] at hvalues ⊢
      exact .cons hread ⟨hspelled.left, hvalues.left⟩ hrest

/-- The parts of a whole query lie in its buffer. -/
theorem laid_parts {schema : Schema} {limit : Nat} {symbols : Pattern} {ps : List ReadPart}
    (h : readParts schema limit symbols.spell.length (parts schema symbols) = some ps) :
    Laid symbols.spell (buffer schema symbols) 0 symbols ps := by
  have hspelled : StandsAt symbols.spell 0 symbols.spell := ⟨[], [], (List.append_nil _).symm, rfl⟩
  have hvalues : StandsAt (buffer schema symbols) symbols.spell.length
      ((parts schema symbols).flatMap fun part => part.piece.values (part.appended schema)) :=
    ⟨symbols.spell, [], by rw [List.append_nil]; rfl, rfl⟩
  exact laid_partsFrom hspelled hvalues h

/-- The parts of a query that is taken apart lie in its buffer. -/
theorem laid_of_decompose {schema : Schema} {width : Width} {limit : Nat} {query : Bytes} {d : Decomposition}
    (h : decompose schema width limit query = .ok d) :
    d.width = width ∧ Laid (Pattern.ofQuery query).spell (buffer schema (Pattern.ofQuery query)) 0
      (Pattern.ofQuery query) d.parts := by
  unfold decompose at h
  simp only at h
  split at h
  · cases h
  · split at h
    · cases h
    · next ps hps =>
      split at h
      · cases h
      · cases h
        exact ⟨rfl, laid_parts hps⟩

end Query

end LogCodec
