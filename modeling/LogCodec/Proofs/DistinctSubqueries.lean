import LogCodec.Proofs.RepeatedReadings
import Mathlib.Data.List.Nodup

/-!
# `LogCodec.Proofs.DistinctSubqueries`: which queries have pairwise different subqueries

A subquery shows a pattern for the logtype and the conditions on the variables.  Subqueries that show the same have the
same variables, and in most tokens the variables tell the reading; then the subqueries of a query are as different as
its combinations of readings.  Where a token has two readings that show the same, so have two subqueries, whatever the
other parts are read as.

## Contents
- **Readings.** `Part.nodup_readings`, and `ReadPart.Reads.eq_of_filter`, for parts in which the variables tell the
  reading.
- **Combinations.** `nodup_combinations`, `eq_of_filters` and `exists_combinations`.
- **Subqueries.** `nodup_shown` and `not_nodup_of_echoes`; `nodup_subqueries_iff`, the result.
-/

namespace LogCodec

/-- What a subquery shows: the spelled pattern for the logtype, and the conditions on the variables. -/
def Subquery.shown (s : Subquery) : Bytes × List (VariableQuery Bytes) := (s.logtypeQuery, s.conditions)

namespace Query

/-! ## Readings -/

section
variable {schema : Schema} {limit : Nat}

/-- A part has each of its readings once. -/
theorem Part.nodup_readings {part : Part} {readings : List Reading} (h : part.readings schema limit = some readings) :
    readings.Nodup := by
  cases part with
  | gap piece =>
    cases h
    exact List.nodup_singleton _
  | token piece precededBy =>
    rw [Part.readings, Piece.readings] at h
    simp only at h
    split at h
    · cases h
    · rw [Option.bind_eq_bind, Option.bind_eq_some_iff] at h
      obtain ⟨found, -, hreadings⟩ := h
      cases hreadings
      have hnodup := found.nodup
      rw [List.map_id] at hnodup
      exact List.nodup_reverse.mpr hnodup

/-- The variables of a part tell its reading, in symbols in which no star stands between a `?` and another symbol. -/
theorem ReadPart.Reads.eq_of_filter {precededBy : Option UInt8} {symbols : Pattern} {parts : List Part}
    (hparted : Parted schema precededBy symbols parts) (hnone : ¬ StarBetween schema symbols) {part : Part}
    (hpart : part ∈ parts) {p : ReadPart} (h : ReadPart.Reads schema limit part p) {reading other : Reading}
    (hreading : reading ∈ p.readings) (hother : other ∈ p.readings)
    (hvariables : reading.filter Segment.isVariable = other.filter Segment.isVariable) : reading = other := by
  cases part with
  | gap piece =>
    have hreadings : p.readings = [[.static ⟨0, piece.symbols.length⟩]] := (Option.some.inj h.2).symm
    rw [hreadings, List.mem_singleton] at hreading hother
    rw [hreading, hother]
  | token piece before =>
    have hhere : ¬ StarBetween schema piece.symbols := fun hbetween =>
      hnone ((starBetween_iff hparted).mpr ⟨piece, before, hpart, hbetween⟩)
    have hne : piece.symbols ≠ [] := hparted.symbols_ne_nil _ hpart
    exact eq_of_variables h.2 hne (hparted.of_mem_token hpart).1 hhere hreading hother hvariables

end

/-! ## Combinations -/

/-- Different choices make different combinations. -/
theorem nodup_combinations {α : Type} {choices : List (List α)} (h : ∀ members ∈ choices, members.Nodup) :
    (combinations choices).Nodup := by
  induction choices with
  | nil => exact List.nodup_singleton _
  | cons members choices ih =>
    obtain ⟨hfirst, hlater⟩ := List.forall_mem_cons.mp h
    rw [combinations, List.nodup_flatMap]
    constructor
    · intro chosen _
      exact hfirst.map fun _ _ heq => (List.cons.inj heq).1
    · refine (ih hlater).imp ?_
      intro chosen chosen' hne combined hin hin'
      obtain ⟨choice, -, rfl⟩ := List.mem_map.mp hin
      obtain ⟨choice', -, heq⟩ := List.mem_map.mp hin'
      exact hne (List.cons.inj heq).2.symm

section
variable {ps : List ReadPart} {p : ReadPart} {readings others : List Reading}

/-- Combinations with the same variables are the same, where the variables tell the readings. -/
theorem eq_of_filters
    (hunique : ∀ p ∈ ps, ∀ reading ∈ p.readings, ∀ other ∈ p.readings,
      reading.filter Segment.isVariable = other.filter Segment.isVariable → reading = other)
    (hreadings : List.Forall₂ (fun reading p => reading ∈ p.readings) readings ps)
    (hothers : List.Forall₂ (fun reading p => reading ∈ p.readings) others ps)
    (hvariables : List.Forall₂
      (fun reading other => reading.filter Segment.isVariable = other.filter Segment.isVariable) readings others) :
    readings = others := by
  induction hreadings generalizing others with
  | nil =>
    cases hothers
    rfl
  | cons hreading _ ih =>
    cases hothers with
    | cons hother hothers =>
      cases hvariables with
      | cons hfirst hlater =>
        obtain ⟨hp, hps⟩ := List.forall_mem_cons.mp hunique
        rw [hp _ hreading _ hother hfirst, ih hps hothers hlater]

/-- Each reading of a part goes with the same readings of the other parts. -/
theorem exists_combinations (hp : p ∈ ps) (hne : ∀ q ∈ ps, q.readings ≠ []) (width : Width) :
    ∃ front back before behind, ∀ reading ∈ p.readings,
      front ++ reading :: back ∈ combinations (ps.map ReadPart.readings) ∧
        chosenItems width (ps.zip (front ++ reading :: back)) =
          before ++ (reading.flatMap (p.items width) ++ behind) := by
  induction ps with
  | nil => cases hp
  | cons q ps ih =>
    obtain ⟨hq, hps⟩ := List.forall_mem_cons.mp hne
    rcases List.mem_cons.mp hp with rfl | hp
    · obtain ⟨back, hback⟩ : ∃ back, List.Forall₂ (fun reading q => reading ∈ ReadPart.readings q) back ps :=
        exists_members fun q hq => List.exists_mem_of_ne_nil _ (hps q hq)
      refine ⟨[], back, [], chosenItems width (ps.zip back), ?_⟩
      intro reading hreading
      exact ⟨mem_combinations.mpr (.cons hreading (List.forall₂_map_right_iff.mpr hback)), rfl⟩
    · obtain ⟨first, hfirst⟩ := List.exists_mem_of_ne_nil _ hq
      obtain ⟨front, back, before, behind, hall⟩ := ih hp hps
      refine ⟨first :: front, back, first.flatMap (q.items width) ++ before, behind, ?_⟩
      intro reading hreading
      obtain ⟨hmem, hitems⟩ := hall reading hreading
      refine ⟨mem_combinations.mpr (.cons hfirst (mem_combinations.mp hmem)), ?_⟩
      rw [List.cons_append, List.zip_cons_cons, chosenItems_cons, hitems, List.append_assoc]

end

/-! ## Subqueries -/

section
variable {schema : Schema} {width : Width} {limit : Nat} {query : Bytes} {d : Decomposition}

/-- **Subqueries are pairwise different** if no star of the query stands between a `?` and another symbol of its
token. -/
theorem nodup_shown (h : decompose schema width limit query = .ok d)
    (hnone : ¬ StarBetween schema (Pattern.ofQuery query)) : (d.subqueries.map Subquery.shown).Nodup := by
  obtain ⟨hwidth, hlaid⟩ := laid_of_decompose h
  obtain ⟨-, -, hreads⟩ := decompose_eq_ok h
  have hparted := parted_partsFrom schema 0 none (Pattern.ofQuery query)
  obtain ⟨width, ps⟩ := d
  obtain rfl := hwidth
  -- Each part has its readings once, and its variables tell them.
  have hpart : ∀ p ∈ ps, ∃ part ∈ parts schema (Pattern.ofQuery query), ReadPart.Reads schema limit part p := by
    intro p hp
    exact exists_partner hreads.flip hp
  have hnodup : (combinations (ps.map ReadPart.readings)).Nodup := by
    refine nodup_combinations (List.forall_mem_map.mpr ?_)
    intro p hp
    obtain ⟨part, -, hread⟩ := hpart p hp
    exact part.nodup_readings hread.2
  have hunique : ∀ p ∈ ps, ∀ reading ∈ p.readings, ∀ other ∈ p.readings,
      reading.filter Segment.isVariable = other.filter Segment.isVariable → reading = other := by
    intro p hp reading hreading other hother hvariables
    obtain ⟨part, hmem, hread⟩ := hpart p hp
    exact hread.eq_of_filter hparted hnone hmem hreading hother hvariables
  rw [Decomposition.subqueries, List.map_map]
  refine hnodup.map_on ?_
  intro readings hreadings others hothers hshown
  obtain ⟨hquery, hconditions⟩ := Prod.mk.inj hshown
  have hvariables := variables_eq_of_shown (Pattern.starsApart_collapse _) hlaid hreadings hothers hquery hconditions
  exact eq_of_filters hunique (List.forall₂_map_right_iff.mp (mem_combinations.mp hreadings))
    (List.forall₂_map_right_iff.mp (mem_combinations.mp hothers)) hvariables

/-- Two readings that show the same make two subqueries that are the same. -/
theorem not_nodup_of_echoes {ps : List ReadPart} {p : ReadPart} (hp : p ∈ ps) (hne : ∀ q ∈ ps, q.readings ≠ [])
    {reading other : Reading} (hreading : reading ∈ p.readings) (hother : other ∈ p.readings)
    (hechoes : Echoes p width reading other) : ¬ (Decomposition.subqueries ⟨width, ps⟩).Nodup := by
  intro hnodup
  obtain ⟨hdifferent, before, behind, hitems, hitems'⟩ := hechoes
  obtain ⟨front, back, first, last, hall⟩ := exists_combinations hp hne width
  obtain ⟨hmem, hchosen⟩ := hall reading hreading
  obtain ⟨hmem', hchosen'⟩ := hall other hother
  have hsame : Decomposition.subqueryOf ⟨width, ps⟩ (front ++ reading :: back) =
      Decomposition.subqueryOf ⟨width, ps⟩ (front ++ other :: back) := by
    refine congrArg Subquery.mk ?_
    show Item.collapse (chosenItems width _) = Item.collapse (chosenItems width _)
    have hcollapse := Item.collapse_append_star_star (first ++ before) (behind ++ last)
    rw [hchosen, hchosen', hitems, hitems']
    simpa only [List.append_assoc, List.cons_append] using hcollapse.symm
  have hequal := List.inj_on_of_nodup_map hnodup hmem hmem' hsame
  exact hdifferent (List.cons.inj (List.append_cancel_left hequal)).1

/-- **A query repeats a subquery if one of its stars stands between a `?` and another symbol of its token.** -/
theorem not_nodup_of_starBetween {delimiter : UInt8} (hdelimiter : schema.isDelimiter delimiter = true)
    (h : decompose schema width limit query = .ok d) (hbetween : StarBetween schema (Pattern.ofQuery query)) :
    ¬ d.subqueries.Nodup := by
  obtain ⟨hwidth, hlaid⟩ := laid_of_decompose h
  obtain ⟨-, -, hreads⟩ := decompose_eq_ok h
  have hparted := parted_partsFrom schema 0 none (Pattern.ofQuery query)
  obtain ⟨width, ps⟩ := d
  obtain rfl := hwidth
  obtain ⟨piece, precededBy, hmem, hpiece⟩ := (starBetween_iff hparted).mp hbetween
  obtain ⟨p, hp, rfl, hreadings⟩ := exists_partner hreads hmem
  have hapart : Pattern.StarsApart p.piece.symbols :=
    List.IsChain.infix (Pattern.starsApart_collapse _) (hparted.of_mem_token hmem).2
  obtain ⟨segments, others, hsplits, hsplits', hechoes⟩ := exists_echoes hdelimiter hapart hpiece precededBy width
  have hreading := (mem_readings hreadings).mpr ⟨segments, hsplits, rfl⟩
  have hother := (mem_readings hreadings).mpr ⟨others, hsplits', rfl⟩
  exact not_nodup_of_echoes hp (fun q hq => (hlaid.isRead q hq).readings_ne_nil) hreading hother hechoes

end

/-- **The subqueries of a query are pairwise different, unless a star stands between a `?` and another symbol of its
token.**  Then two subqueries are the same, down to where their values stand; in all other queries no two subqueries
even show the same. -/
theorem nodup_subqueries_iff {width : Width} {limit : Nat} {query : Bytes} {d : Decomposition}
    (h : decompose .standard width limit query = .ok d) :
    ((d.subqueries.map Subquery.shown).Nodup ↔ ¬ StarBetween .standard (Pattern.ofQuery query)) ∧
      (d.subqueries.Nodup ↔ ¬ StarBetween .standard (Pattern.ofQuery query)) := by
  have hspace : Schema.standard.isDelimiter 0x20 = true := by decide
  have hdistinct := @nodup_shown .standard width limit query d h
  have hrepeated := @not_nodup_of_starBetween .standard width limit query d 0x20 hspace h
  constructor
  · exact ⟨fun hnodup hbetween => hrepeated hbetween hnodup.of_map, hdistinct⟩
  · exact ⟨fun hnodup hbetween => hrepeated hbetween hnodup, fun hnone => (hdistinct hnone).of_map⟩

/-- The star of `a*b` has no `?` beside it. -/
theorem nodup_subqueries_iff_a_star_b :
    ∃ d, decompose .standard .eight 4096 [0x61, 0x2A, 0x62] = .ok d ∧ d.count = 5 ∧
      (d.subqueries.map Subquery.shown).Nodup := by
  have hcount : (match decompose .standard .eight 4096 [0x61, 0x2A, 0x62] with
      | .ok d => d.count == 5
      | .error _ => false) = true := by decide +kernel
  have hnone : ¬ StarBetween .standard (Pattern.ofQuery [0x61, 0x2A, 0x62]) := by
    have hsymbols : Pattern.ofQuery [0x61, 0x2A, 0x62] = [.literal 0x61, .star, .literal 0x62] := by decide
    rw [hsymbols]
    rintro ⟨s, -, hwithin | hwithin⟩
    · cases hwithin.eq_of_length rfl
    · cases hwithin.eq_of_length rfl
  cases hd : decompose .standard .eight 4096 [0x61, 0x2A, 0x62] with
  | error failure =>
    rw [hd] at hcount
    cases hcount
  | ok d =>
    rw [hd] at hcount
    exact ⟨d, rfl, beq_iff_eq.mp hcount, (nodup_subqueries_iff hd).1.mpr hnone⟩

/-- The query `1*?` has a subquery twice: the `?` is a delimiter in both, and the star is split in one of them. -/
theorem repeats_split_star :
    ∃ d, decompose .standard .eight 4096 [0x31, 0x2A, 0x3F] = .ok d ∧ ¬ (d.subqueries.map Subquery.shown).Nodup := by
  have hrepeated : (match decompose .standard .eight 4096 [0x31, 0x2A, 0x3F] with
      | .ok d => !decide (d.subqueries.map Subquery.shown).Nodup
      | .error _ => false) = true := by decide +kernel
  cases hd : decompose .standard .eight 4096 [0x31, 0x2A, 0x3F] with
  | error failure =>
    rw [hd] at hrepeated
    cases hrepeated
  | ok d =>
    rw [hd] at hrepeated
    exact ⟨d, rfl, by simpa using hrepeated⟩

end Query

end LogCodec
