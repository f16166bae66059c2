import LogCodec.Proofs.Tiling
import Mathlib.Data.List.TakeWhile

/-!
# `LogCodec.Proofs.Subqueries`: what the subqueries of a query are made of

A subquery is made from one reading for each part of the query, and a reading from the segments that the part splits
into.  Joining static text and collapsing stars keep what is covered, so that a subquery can be seen as the items of the
segments alone, part by part.

## Contents
- **Parts.** `Parted`, how a query is cut into parts, and `Part.Splits`, the segments that a part may be read as.
- **Subqueries.** `decompose_eq_ok`, and `mem_subqueries`: there is a subquery for every choice of segments.
- **Items.** `spread`, the items of chosen segments, with `coverAlike_subqueryOf`, and `items_subqueryOf`, which is for
  segments without stars.
-/

namespace LogCodec

theorem Item.coverAlike_collapse {α : Type} {extent : Item → Extent α} (hstar : extent .star = .part)
    (items : List Item) : CoverAlike extent (collapse items) items := by
  fun_induction collapse items with
  | case1 items ih => exact ih.trans (coverAlike_parts hstar hstar).symm
  | case2 item items _ ih => exact (CoverAlike.refl [item]).append ih
  | case3 => exact CoverAlike.refl []

/-- An item stands for itself, and a star for any items. -/
def Item.itself : Item → Extent Item
  | .star => .part
  | item => .member (· = item)

theorem Item.covers_itself (items : List Item) : Covers itself items items := by
  induction items with
  | nil => rfl
  | cons item items ih =>
    cases item with
    | star => exact ⟨[.star], items, rfl, ih⟩
    | any => exact ⟨.any, items, rfl, rfl, ih⟩
    | literal b => exact ⟨.literal b, items, rfl, rfl, ih⟩
    | «variable» query => exact ⟨.variable query, items, rfl, rfl, ih⟩

/-- Without stars items cover only themselves. -/
theorem Item.eq_of_covers {items others : List Item} (hstar : .star ∉ items) (h : Covers itself items others) :
    others = items := by
  induction items generalizing others with
  | nil => exact covers_nil.mp h
  | cons item items ih =>
    have hrest : .star ∉ items := fun hmem => hstar (List.mem_cons_of_mem _ hmem)
    obtain ⟨other, later, rfl, rfl, hlater⟩ : ∃ other later, others = other :: later ∧ other = item ∧
        Covers itself items later := by
      cases item with
      | star => exact absurd List.mem_cons_self hstar
      | any => exact h
      | literal b => exact h
      | «variable» query => exact h
    rw [ih hrest hlater]

namespace Query

/-! ## Parts -/

section

variable {schema : Schema} {limit : Nat}

/-- Symbols are cut into parts: tokens, of members of tokens only, and gaps, of other symbols only, take turns. -/
inductive Parted (schema : Schema) : (precededBy : Option UInt8) → Pattern → List Part → Prop where
  | nil {precededBy : Option UInt8} : Parted schema precededBy [] []
  | token {precededBy : Option UInt8} {piece : Piece} {rest : Pattern} {parts : List Part} (hne : piece.symbols ≠ [])
      (hmembers : ∀ s ∈ piece.symbols, inToken schema s = true)
      (hrest : ∀ s, rest.head? = some s → inToken schema s = false)
      (h : Parted schema (piece.symbols.getLast?.bind Symbol.literal?) rest parts) :
      Parted schema precededBy (piece.symbols ++ rest) (.token piece precededBy :: parts)
  | gap {precededBy : Option UInt8} {piece : Piece} {rest : Pattern} {parts : List Part} (hne : piece.symbols ≠ [])
      (hmembers : ∀ s ∈ piece.symbols, inToken schema s = false)
      (hrest : ∀ s, rest.head? = some s → inToken schema s = true)
      (h : Parted schema (piece.symbols.getLast?.bind Symbol.literal?) rest parts) :
      Parted schema precededBy (piece.symbols ++ rest) (.gap piece :: parts)

/-- The first part of some symbols is as long as it can be. -/
theorem exists_first_part (schema : Schema) (start : Nat) (precededBy : Option UInt8) {symbols : Pattern}
    (hne : symbols ≠ []) :
    ∃ member members rest, symbols = members ++ rest ∧ members ≠ [] ∧ (∀ s ∈ members, inToken schema s = member) ∧
      (∀ s, rest.head? = some s → inToken schema s = !member) ∧
      partsFrom schema start precededBy symbols =
        (if member then .token ⟨start, members⟩ precededBy else .gap ⟨start, members⟩) ::
          partsFrom schema (Piece.stop ⟨start, members⟩) (members.getLast?.bind Symbol.literal?) rest := by
  obtain ⟨s, rest, rfl⟩ := List.exists_cons_of_ne_nil hne
  let sameKind := fun r => inToken schema r == inToken schema s
  refine ⟨inToken schema s, s :: rest.takeWhile sameKind, rest.dropWhile sameKind, ?_, List.cons_ne_nil _ _, ?_, ?_, ?_⟩
  · rw [List.cons_append, List.takeWhile_append_dropWhile]
  · intro r hr
    rcases List.mem_cons.mp hr with rfl | hr
    · rfl
    · exact beq_iff_eq.mp (List.mem_takeWhile_imp (p := sameKind) hr)
  · intro r hr
    have hhead := List.head?_dropWhile_not sameKind rest
    rw [hr] at hhead
    simpa [sameKind, ← Bool.eq_not] using hhead
  · rw [partsFrom]

theorem parted_partsFrom (schema : Schema) (start : Nat) (precededBy : Option UInt8) (symbols : Pattern) :
    Parted schema precededBy symbols (partsFrom schema start precededBy symbols) := by
  induction hlength : symbols.length using Nat.strong_induction_on generalizing start precededBy symbols with
  | h length ih =>
    by_cases hne : symbols = []
    · rw [hne, partsFrom]
      exact .nil
    · obtain ⟨member, members, rest, rfl, hmembers, hsame, hhead, hparts⟩ :=
        exists_first_part schema start precededBy hne
      have hpos := List.length_pos_iff.mpr hmembers
      rw [List.length_append] at hlength
      have hrest := ih rest.length (by omega) (Piece.stop ⟨start, members⟩)
        (members.getLast?.bind Symbol.literal?) rest rfl
      rw [hparts]
      cases member with
      | true => exact @Parted.token schema precededBy ⟨start, members⟩ rest _ hmembers hsame hhead hrest
      | false => exact @Parted.gap schema precededBy ⟨start, members⟩ rest _ hmembers hsame hhead hrest

/-- The parts of a query make it up. -/
theorem Parted.symbols_eq {precededBy : Option UInt8} {symbols : Pattern} {parts : List Part}
    (h : Parted schema precededBy symbols parts) : parts.flatMap (fun part => part.piece.symbols) = symbols := by
  induction h with
  | nil => rfl
  | token _ _ _ _ ih => rw [List.flatMap_cons, ih]; rfl
  | gap _ _ _ _ ih => rw [List.flatMap_cons, ih]; rfl

/-- No part of a query is empty. -/
theorem Parted.symbols_ne_nil {precededBy : Option UInt8} {symbols : Pattern} {parts : List Part}
    (h : Parted schema precededBy symbols parts) : ∀ part ∈ parts, part.piece.symbols ≠ [] := by
  induction h with
  | nil => exact fun _ h => absurd h List.not_mem_nil
  | token hne _ _ _ ih => exact List.forall_mem_cons.mpr ⟨hne, ih⟩
  | gap hne _ _ _ ih => exact List.forall_mem_cons.mpr ⟨hne, ih⟩

/-- The segments that a part may be read as: a gap is static text, and a token is split in some way. -/
def Part.Splits (schema : Schema) : Part → List Segment → Prop
  | gap piece, segments => segments = [.static ⟨0, piece.symbols.length⟩]
  | token piece precededBy, segments => piece.Splits schema precededBy segments

/-- A reading for chosen segments. -/
def joined (segments : List Segment) : Reading := segments.foldr Reading.cons []

theorem mem_readings_part {part : Part} {readings : List Reading} {reading : Reading}
    (h : part.readings schema limit = some readings) :
    reading ∈ readings ↔ ∃ segments, part.Splits schema segments ∧ reading = joined segments := by
  cases part with
  | gap piece =>
    cases h
    rw [List.mem_singleton]
    constructor
    · rintro rfl
      exact ⟨_, rfl, rfl⟩
    · rintro ⟨_, rfl, rfl⟩
      rfl
  | token piece precededBy => exact mem_readings h

theorem Part.Splits.tiles {part : Part} {segments : List Segment} (h : part.Splits schema segments)
    (hne : part.piece.symbols ≠ []) : Tiles part.piece.symbols 0 (segments.map Segment.span) := by
  cases part with
  | gap piece =>
    rw [Splits] at h
    rw [h]
    exact .cons (.refl _ 0) (List.length_pos_iff.mpr hne) .nil
  | token piece precededBy => exact Piece.Splits.tiles h

end

/-! ## Subqueries -/

/-- A combination takes one member of each list. -/
theorem mem_combinations {α : Type} {choices : List (List α)} {chosen : List α} :
    chosen ∈ combinations choices ↔ List.Forall₂ (fun choice choices => choice ∈ choices) chosen choices := by
  induction choices generalizing chosen with
  | nil => simp [combinations]
  | cons choices rest ih =>
    simp only [combinations, List.mem_flatMap, List.mem_map, ih, List.forall₂_cons_right_iff]
    constructor
    · rintro ⟨later, hlater, choice, hchoice, rfl⟩
      exact ⟨choice, later, hchoice, hlater, rfl⟩
    · rintro ⟨choice, later, hchoice, hlater, rfl⟩
      exact ⟨later, hlater, choice, hchoice, rfl⟩

/-- The part is read as it stands in the query, with all its readings. -/
def ReadPart.Reads (schema : Schema) (limit : Nat) (part : Part) (p : ReadPart) : Prop :=
  p.piece = part.piece ∧ part.readings schema limit = some p.readings

theorem reads_readParts {schema : Schema} {limit filled : Nat} {parts : List Part} {ps : List ReadPart}
    (h : readParts schema limit filled parts = some ps) : List.Forall₂ (ReadPart.Reads schema limit) parts ps := by
  induction parts generalizing filled ps with
  | nil =>
    cases h
    exact .nil
  | cons part rest ih =>
    rw [readParts, Option.bind_eq_bind, Option.bind_eq_some_iff] at h
    obtain ⟨readings, hreadings, h⟩ := h
    simp only [Option.bind_eq_bind, Option.bind_eq_some_iff] at h
    obtain ⟨later, hlater, h⟩ := h
    cases h
    exact .cons ⟨rfl, hreadings⟩ (ih hlater)

/-- A query that is taken apart is not empty, and its parts are read. -/
theorem decompose_eq_ok {schema : Schema} {width : Width} {limit : Nat} {query : Bytes} {d : Decomposition}
    (h : decompose schema width limit query = .ok d) :
    Pattern.ofQuery query ≠ [] ∧ d.width = width ∧
      List.Forall₂ (ReadPart.Reads schema limit) (parts schema (Pattern.ofQuery query)) d.parts := by
  unfold decompose at h
  simp only at h
  split at h
  · cases h
  · next hne =>
    split at h
    · cases h
    · next ps hps =>
      split at h
      · cases h
      · cases h
        exact ⟨hne, rfl, reads_readParts hps⟩

/-- To take a reading for each part is to choose its segments. -/
theorem forall₂_readings {schema : Schema} {limit : Nat} {parts : List Part} {ps : List ReadPart}
    (h : List.Forall₂ (ReadPart.Reads schema limit) parts ps) {readings : List Reading} :
    List.Forall₂ (fun reading readings => reading ∈ readings) readings (ps.map ReadPart.readings) ↔
      ∃ choice, List.Forall₂ (Part.Splits schema) parts choice ∧ readings = choice.map joined := by
  induction h generalizing readings with
  | nil => simp
  | cons hread _ ih =>
    rw [List.map_cons]
    constructor
    · intro hall
      cases hall with
      | cons hreading hlater =>
        obtain ⟨segments, hsegments, rfl⟩ := (mem_readings_part hread.2).mp hreading
        obtain ⟨choice, hchoice, rfl⟩ := ih.mp hlater
        exact ⟨segments :: choice, .cons hsegments hchoice, rfl⟩
    · rintro ⟨_, hall, rfl⟩
      cases hall with
      | cons hsegments hchoice =>
        exact .cons ((mem_readings_part hread.2).mpr ⟨_, hsegments, rfl⟩) (ih.mpr ⟨_, hchoice, rfl⟩)

/-- **There is a subquery for every choice of segments**, one list of them for each part, and no other. -/
theorem mem_subqueries {schema : Schema} {limit : Nat} {parts : List Part} {d : Decomposition}
    (h : List.Forall₂ (ReadPart.Reads schema limit) parts d.parts) {s : Subquery} :
    s ∈ d.subqueries ↔
      ∃ choice, List.Forall₂ (Part.Splits schema) parts choice ∧ s = d.subqueryOf (choice.map joined) := by
  rw [Decomposition.subqueries, List.mem_map]
  simp only [Decomposition.choices, mem_combinations, forall₂_readings h]
  constructor
  · rintro ⟨_, ⟨choice, hchoice, rfl⟩, rfl⟩
    exact ⟨choice, hchoice, rfl⟩
  · rintro ⟨choice, hchoice, rfl⟩
    exact ⟨_, ⟨choice, hchoice, rfl⟩, rfl⟩

/-! ## Items -/

/-- The items of chosen segments, part by part, before anything is joined. -/
def spread (width : Width) : List ReadPart → List (List Segment) → List Item
  | p :: ps, segments :: choice => segments.flatMap (p.items width) ++ spread width ps choice
  | _, _ => []

/-- **A subquery covers what the items of its segments cover.** -/
theorem coverAlike_subqueryOf {α : Type} {extent : Item → Extent α} (hstar : extent .star = .part) {schema : Schema}
    {limit : Nat} {parts : List Part} {d : Decomposition} (h : List.Forall₂ (ReadPart.Reads schema limit) parts d.parts)
    (hne : ∀ part ∈ parts, part.piece.symbols ≠ []) {choice : List (List Segment)}
    (hchoice : List.Forall₂ (Part.Splits schema) parts choice) :
    CoverAlike extent (d.subqueryOf (choice.map joined)).items (spread d.width d.parts choice) := by
  obtain ⟨width, ps⟩ := d
  replace h : List.Forall₂ (ReadPart.Reads schema limit) parts ps := h
  refine (Item.coverAlike_collapse hstar _).trans ?_
  induction h generalizing choice with
  | nil => cases hchoice; exact CoverAlike.refl []
  | cons hread _ ih =>
    cases hchoice with
    | cons hsplits hlater =>
      obtain ⟨hfirst, hrest⟩ := List.forall_mem_cons.mp hne
      have htiles := hsplits.tiles hfirst
      rw [← hread.1] at htiles
      exact (coverAlike_foldr_cons hstar htiles).2.append (ih hrest hlater)

theorem startsWithStar_of_starFree {p : Pattern} (h : p.StarFree) : p.startsWithStar = false :=
  Bool.eq_false_iff.mpr fun hstart => h (List.mem_of_mem_head? (beq_iff_eq.mp hstart))

theorem endsWithStar_of_starFree {p : Pattern} (h : p.StarFree) : p.endsWithStar = false :=
  Bool.eq_false_iff.mpr fun hend => h (List.mem_of_getLast? (beq_iff_eq.mp hend))

/-- The items of a piece without stars have no star, whatever it is read as. -/
theorem star_not_mem_items {width : Width} {p : ReadPart} (h : p.piece.symbols.StarFree) (segment : Segment) :
    .star ∉ p.items width segment := by
  have hslice : ∀ span, (p.piece.slice span).StarFree := fun span hmem =>
    h (List.mem_of_mem_drop (List.mem_of_mem_take hmem))
  intro hmem
  cases segment with
  | static span =>
    obtain ⟨s, hs, hstar⟩ := List.mem_map.mp hmem
    cases s with
    | star => exact hslice span hs
    | any => cases hstar
    | literal b => cases hstar
  | exact span => cases List.mem_singleton.mp hmem
  | wildcard span kind =>
    rw [ReadPart.items, startsWithStar_of_starFree (hslice span), endsWithStar_of_starFree (hslice span)] at hmem
    cases List.mem_singleton.mp hmem

theorem star_not_mem_spread {schema : Schema} {limit : Nat} {parts : List Part} {ps : List ReadPart}
    (h : List.Forall₂ (ReadPart.Reads schema limit) parts ps) (hstar : ∀ part ∈ parts, part.piece.symbols.StarFree)
    (width : Width) (choice : List (List Segment)) : .star ∉ spread width ps choice := by
  induction h generalizing choice with
  | nil => exact List.not_mem_nil
  | cons hread _ ih =>
    obtain ⟨hfirst, hlater⟩ := List.forall_mem_cons.mp hstar
    cases choice with
    | nil => exact List.not_mem_nil
    | cons segments choice =>
      rw [spread, List.mem_append, List.mem_flatMap]
      rintro (⟨segment, -, hmem⟩ | hmem)
      · exact star_not_mem_items (hread.1 ▸ hfirst) segment hmem
      · exact ih hlater choice hmem

/-- **Without stars a subquery is the items of its segments**: there is nothing to collapse. -/
theorem items_subqueryOf {schema : Schema} {limit : Nat} {precededBy : Option UInt8} {symbols : Pattern}
    {parts : List Part} {d : Decomposition} (hparted : Parted schema precededBy symbols parts)
    (h : List.Forall₂ (ReadPart.Reads schema limit) parts d.parts) {choice : List (List Segment)}
    (hchoice : List.Forall₂ (Part.Splits schema) parts choice) (hstar : symbols.StarFree) :
    (d.subqueryOf (choice.map joined)).items = spread d.width d.parts choice := by
  have hparts : ∀ part ∈ parts, part.piece.symbols.StarFree := by
    intro part hpart hmem
    rw [← hparted.symbols_eq] at hstar
    exact hstar (List.mem_flatMap.mpr ⟨part, hpart, hmem⟩)
  have halike : CoverAlike Item.itself _ _ := coverAlike_subqueryOf rfl h hparted.symbols_ne_nil hchoice
  exact Item.eq_of_covers (star_not_mem_spread h hparts d.width choice) ((halike _).mp (Item.covers_itself _))

end Query

end LogCodec
