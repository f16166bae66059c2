import LogCodec.Bytes.Slices
import LogCodec.Proofs.Coverage
import LogCodec.Query.Decomposition

/-!
# `LogCodec.Proofs.Tiling`: the pieces of a token cover the token

The pieces that a token is cut into stand one behind the other; where the token is cut at a star, the star belongs to
the piece on either side.  Reading a piece keeps its place, and joining neighbouring static text keeps the places that
the text covers.  So whatever is chosen, the segments of a reading ask together for what the token asks.

## Contents
- `Joins` and `Tiles`: spans one behind the other, which may share a star.
- **Slices.** `coverAlike_join` for two spans, `coverAlike_slices` for all.
- **Cuts.** `tiles_cuts`: the cuts at any selection of split points tile the token.
- **Choices.** `mem_selections` and `mem_readingsOf`; `mem_readings`, which says what a reading of a token is.
- **Alternatives.** `mem_exactAlternatives`, `mem_wildcardAlternatives` and `span_of_mem_alternatives`.
- **Joined text.** `coverAlike_foldr_cons`: joining static text does not change what is covered.
-/

namespace LogCodec.Query

/-! ## Spans one behind the other -/

/-- A span may start at a position if what stands before it ends there, or ends with the star that the span starts
with. -/
def Joins (symbols : Pattern) (covered start : Nat) : Prop :=
  start = covered ∨ start + 1 = covered ∧ symbols[start]? = some .star

/-- Spans that are not empty cover symbols from a position on to the end. -/
inductive Tiles (symbols : Pattern) : (covered : Nat) → List Span → Prop where
  | nil : Tiles symbols symbols.length []
  | cons {covered : Nat} {span : Span} {rest : List Span} (hjoins : Joins symbols covered span.start)
      (hne : span.start < span.stop) (hrest : Tiles symbols span.stop rest) : Tiles symbols covered (span :: rest)

theorem tiles_cons_iff {symbols : Pattern} {covered : Nat} {span : Span} {rest : List Span} :
    Tiles symbols covered (span :: rest) ↔
      Joins symbols covered span.start ∧ span.start < span.stop ∧ Tiles symbols span.stop rest := by
  constructor
  · rintro (_ | ⟨hjoins, hne, hrest⟩)
    exact ⟨hjoins, hne, hrest⟩
  · rintro ⟨hjoins, hne, hrest⟩
    exact .cons hjoins hne hrest

theorem Joins.refl (symbols : Pattern) (position : Nat) : Joins symbols position position := .inl rfl

theorem Tiles.length_eq {symbols : Pattern} {covered : Nat} (h : Tiles symbols covered []) :
    covered = symbols.length := by
  cases h
  rfl

theorem Tiles.le_length {symbols : Pattern} {covered : Nat} {spans : List Span} (h : Tiles symbols covered spans) :
    covered ≤ symbols.length := by
  induction h with
  | nil => exact Nat.le_refl _
  | cons hjoins hne _ ih => rcases hjoins with hjoins | ⟨hjoins, -⟩ <;> omega

section

variable {α : Type} {extent : Symbol → Extent α} {symbols : Pattern} {covered a b c start : Nat} {spans : List Span}

/-- Two spans that are joined cover what the span over both covers. -/
theorem coverAlike_join (hstar : extent .star = .part) (hjoins : Joins symbols b start) (ha : a ≤ start)
    (hc : start < c) :
    CoverAlike extent (Span.slice ⟨a, b⟩ symbols ++ Span.slice ⟨start, c⟩ symbols) (Span.slice ⟨a, c⟩ symbols) := by
  rcases hjoins with rfl | ⟨rfl, hsymbol⟩
  · rw [Span.slice_append_slice _ ha (Nat.le_of_lt hc)]
    exact CoverAlike.refl _
  · -- The star ends the first span and starts the second one.
    have hfirst := Span.slice_append_slice symbols ha (Nat.le_succ start)
    have hsecond := Span.slice_append_slice symbols (Nat.le_succ start) hc
    have hwhole := Span.slice_append_slice symbols ha (Nat.le_of_lt hc)
    rw [Span.slice_singleton hsymbol] at hfirst hsecond
    rw [← hwhole, ← hfirst, ← hsecond]
    exact coverAlike_shared hstar

/-- **Spans that tile symbols cover what the symbols cover.** -/
theorem coverAlike_slices (hstar : extent .star = .part) (h : Tiles symbols covered spans) :
    CoverAlike extent (Span.slice ⟨0, covered⟩ symbols ++ spans.flatMap (·.slice symbols)) symbols := by
  induction h with
  | nil =>
    rw [Span.slice_all, List.flatMap_nil, List.append_nil]
    exact CoverAlike.refl _
  | cons hjoins hne _ ih =>
    rw [List.flatMap_cons, ← List.append_assoc]
    exact ((coverAlike_join hstar hjoins (Nat.zero_le _) hne).append (CoverAlike.refl _)).trans ih

end

/-! ## Cuts -/

/-- The positions that a cut covers. -/
def Cut.span : Cut → Span
  | .piece span _ => span
  | .delimiter index => ⟨index, index + 1⟩

/-- The positions that a segment covers. -/
def Segment.span : Segment → Span
  | .static span => span
  | .exact span => span
  | .wildcard span _ => span

section

variable {symbols : Pattern} {covered first last : Nat} {selected : List SplitPoint}

/-- A piece in front of what tiles the rest. -/
theorem tiles_cutBetween {spans : List Span} (hjoins : Joins symbols covered first) (hfirst : first ≤ last)
    (hcovered : covered ≤ last) (context : Context) (hspans : Tiles symbols last spans) :
    Tiles symbols covered ((cutBetween first last context).map Cut.span ++ spans) := by
  unfold cutBetween
  split
  · next hlt => exact .cons hjoins hlt hspans
  · next hge =>
    have hlast : covered = last := by
      rcases hjoins with rfl | ⟨rfl, -⟩ <;> omega
    rwa [hlast]

/-- The cuts from a position on, for points that lie behind it, tile the token. -/
theorem tiles_cutsFrom (front rest : Pattern) (hsymbols : symbols = front ++ rest)
    (hjoins : Joins symbols covered first) (hfirst : first ≤ front.length) (hcovered : covered ≤ front.length)
    (hselected : selected.Sublist (splitPointsFrom front.length rest)) (context : Context) :
    Tiles symbols covered ((cutsFrom symbols.length first context selected).map Cut.span) := by
  induction rest generalizing covered first context front selected with
  | nil =>
    rw [splitPointsFrom, List.sublist_nil] at hselected
    rw [List.append_nil] at hsymbols
    have htiles := tiles_cutBetween hjoins (hsymbols ▸ hfirst) (hsymbols ▸ hcovered) context .nil
    rwa [List.append_nil, ← cutsFrom, ← hselected] at htiles
  | cons s rest ih =>
    have hlength : (front ++ [s]).length = front.length + 1 := by simp
    have hsplit : symbols = (front ++ [s]) ++ rest := by rw [hsymbols, List.append_assoc]; rfl
    have hs : symbols[front.length]? = some s := by rw [hsymbols]; simp
    have ih := @ih
    -- A point that is not selected changes nothing.
    have hpass : ∀ {selected}, selected.Sublist (splitPointsFrom (front.length + 1) rest) →
        Tiles symbols covered ((cutsFrom symbols.length first context selected).map Cut.span) := by
      intro selected hlater
      exact ih (front ++ [s]) hsplit hjoins (by omega) (by omega) (by rwa [hlength]) context
    cases s with
    | any =>
      rcases List.sublist_cons_iff.mp hselected with hlater | ⟨more, rfl, hlater⟩
      · exact hpass hlater
      · rw [cutsFrom, List.map_append]
        have hnext : front.length + 1 ≤ (front ++ [Symbol.any]).length := Nat.le_of_eq hlength.symm
        refine tiles_cutBetween hjoins hfirst hcovered context (.cons (.refl symbols _) (Nat.lt_succ_self _) ?_)
        exact ih (front ++ [.any]) hsplit (.refl symbols _) hnext hnext (by rwa [hlength]) .split
    | star =>
      rw [splitPointsFrom] at hselected
      split at hselected
      · rcases List.sublist_cons_iff.mp hselected with hlater | ⟨more, rfl, hlater⟩
        · exact hpass hlater
        · rw [cutsFrom, List.map_append]
          refine tiles_cutBetween hjoins (by omega) (by omega) context ?_
          exact ih (front ++ [.star]) hsplit (.inr ⟨rfl, hs⟩) (by omega) (by omega) (by rwa [hlength]) .split
      · exact hpass hselected
    | literal b => exact hpass hselected

/-- **The cuts of a token tile it**, whatever points are selected. -/
theorem tiles_cuts (hselected : selected.Sublist (splitPoints symbols)) (precededBy : Option UInt8) :
    Tiles symbols 0 ((cuts symbols.length precededBy selected).map Cut.span) :=
  tiles_cutsFrom [] symbols rfl (.refl symbols 0) (Nat.le_refl 0) (Nat.le_refl 0) hselected _

end

/-! ## Choices -/

/-- What can be selected from a list is its sublists. -/
theorem mem_selections {α : Type} {xs selected : List α} : selected ∈ selections xs ↔ selected.Sublist xs := by
  induction xs generalizing selected with
  | nil => simp [selections]
  | cons x xs ih =>
    simp only [selections, List.mem_flatMap, List.mem_cons, List.not_mem_nil, or_false, List.sublist_cons_iff, ih]
    constructor
    · rintro ⟨more, hmore, rfl | rfl⟩
      · exact .inl hmore
      · exact .inr ⟨more, rfl, hmore⟩
    · rintro (h | ⟨more, rfl, hmore⟩)
      · exact ⟨selected, h, .inl rfl⟩
      · exact ⟨more, hmore, .inr rfl⟩

/-- What is related to a list member by member has a partner for each member. -/
theorem exists_partner {α β : Type} {r : α → β → Prop} {xs : List α} {ys : List β} (h : List.Forall₂ r xs ys) {x : α}
    (hx : x ∈ xs) : ∃ y ∈ ys, r x y := by
  induction h with
  | nil => cases hx
  | cons hfirst _ ih =>
    rcases List.mem_cons.mp hx with rfl | hx
    · exact ⟨_, List.mem_cons_self, hfirst⟩
    · obtain ⟨y, hy, hr⟩ := ih hx
      exact ⟨y, List.mem_cons_of_mem _ hy, hr⟩

/-- A reading takes an alternative for each piece and joins the static text. -/
theorem mem_readingsOf {alternatives : List (List Segment)} {reading : Reading} :
    reading ∈ readingsOf alternatives ↔
      ∃ segments, List.Forall₂ (fun segment choices => segment ∈ choices) segments alternatives ∧
        reading = segments.foldr Reading.cons [] := by
  induction alternatives generalizing reading with
  | nil =>
    simp only [readingsOf, List.mem_singleton, List.forall₂_nil_right_iff, exists_eq_left]
    rfl
  | cons choices rest ih =>
    simp only [readingsOf, List.mem_flatMap, List.mem_map, ih]
    constructor
    · rintro ⟨segment, hsegment, _, ⟨segments, hsegments, rfl⟩, rfl⟩
      exact ⟨segment :: segments, .cons hsegment hsegments, rfl⟩
    · rintro ⟨_, hall, rfl⟩
      cases hall with
      | cons hsegment hsegments => exact ⟨_, hsegment, _, ⟨_, hsegments, rfl⟩, rfl⟩

section

variable {schema : Schema} {limit : Nat} {token : Piece} {precededBy : Option UInt8}

/-- The segments take an alternative for each cut of a token at some selection of its split points. -/
def Piece.Splits (schema : Schema) (token : Piece) (precededBy : Option UInt8) (segments : List Segment) : Prop :=
  ∃ selected, selected.Sublist (splitPoints token.symbols) ∧
    List.Forall₂ (fun segment cut => segment ∈ Cut.alternatives schema token cut) segments
      (cuts token.symbols.length precededBy selected)

theorem mem_readingsAt {selected : List SplitPoint} {readings : List Reading} {reading : Reading}
    (h : token.readingsAt schema limit precededBy selected = some readings) :
    reading ∈ readings ↔ ∃ segments,
      List.Forall₂ (fun segment cut => segment ∈ Cut.alternatives schema token cut) segments
        (cuts token.symbols.length precededBy selected) ∧ reading = segments.foldr Reading.cons [] := by
  unfold Piece.readingsAt at h
  simp only at h
  split at h
  · cases h
    rw [mem_readingsOf]
    simp only [List.forall₂_map_right_iff]
  · cases h

/-- The readings that are collected are those of the selections, each of which is within the limit. -/
theorem mem_collected {init found : Roster (id : Reading → List Segment)} {selections : List (List SplitPoint)}
    (h : selections.foldlM (fun (found : Roster (id : Reading → List Segment)) selected => do
      let found := found.addAll (← token.readingsAt schema limit precededBy selected)
      if limit < found.size then none else some found) init = some found) (reading : Reading) :
    reading ∈ found.members ↔ reading ∈ init.members ∨ ∃ selected ∈ selections, ∃ segments,
      List.Forall₂ (fun segment cut => segment ∈ Cut.alternatives schema token cut) segments
        (cuts token.symbols.length precededBy selected) ∧ reading = segments.foldr Reading.cons [] := by
  induction selections generalizing init with
  | nil =>
    cases h
    simp
  | cons selected later ih =>
    rw [List.foldlM_cons, Option.bind_eq_bind, Option.bind_eq_some_iff] at h
    obtain ⟨next, hnext, hlater⟩ := h
    rw [Option.bind_eq_bind, Option.bind_eq_some_iff] at hnext
    obtain ⟨readings, hreadings, hsize⟩ := hnext
    simp only at hsize
    split at hsize
    · cases hsize
    · cases hsize
      have hadded : reading ∈ (init.addAll readings).members ↔ reading ∈ init.members ∨ reading ∈ readings := by
        have hkeys := @Roster.mem_keys_addAll _ _ _ (id : Reading → List Segment) init readings reading
        simpa using hkeys
      rw [ih hlater, hadded, mem_readingsAt hreadings, List.exists_mem_cons_iff, or_assoc]

/-- **The readings of a token** are made of the segments that it splits into. -/
theorem mem_readings {readings : List Reading} {reading : Reading}
    (h : token.readings schema limit precededBy = some readings) :
    reading ∈ readings ↔
      ∃ segments, token.Splits schema precededBy segments ∧ reading = segments.foldr Reading.cons [] := by
  unfold Piece.readings at h
  simp only at h
  split at h
  · cases h
  · rw [Option.bind_eq_bind, Option.bind_eq_some_iff] at h
    obtain ⟨found, hfound, hreadings⟩ := h
    cases hreadings
    rw [Roster.toList, List.mem_reverse, mem_collected hfound]
    simp only [Roster.empty, List.not_mem_nil, false_or, mem_selections, Piece.Splits]
    constructor
    · rintro ⟨selected, hselected, segments, hsegments, rfl⟩
      exact ⟨segments, ⟨selected, hselected, hsegments⟩, rfl⟩
    · rintro ⟨segments, ⟨selected, hselected, hsegments⟩, rfl⟩
      exact ⟨selected, hselected, segments, hsegments, rfl⟩

end

theorem mem_exactAlternatives {schema : Schema} {span : Span} {literal : Bytes} {context : Context} {segment : Segment}
    (h : segment ∈ exactAlternatives schema span literal context) : segment = .static span ∨ segment = .exact span := by
  cases context with
  | known precededBy =>
    simp only [exactAlternatives] at h
    split at h
    · exact .inr (List.mem_singleton.mp h)
    · exact .inl (List.mem_singleton.mp h)
  | split =>
    simp only [exactAlternatives, List.mem_append] at h
    rcases h with h | h
    · split at h
      · exact .inl (List.mem_singleton.mp h)
      · cases h
    · split at h
      · exact .inr (List.mem_singleton.mp h)
      · cases h

theorem mem_wildcardAlternatives {schema : Schema} {span : Span} {symbols : Pattern} {precededBy : Option UInt8}
    {segment : Segment} (h : segment ∈ wildcardAlternatives schema span symbols precededBy) :
    segment = .static span ∨ ∃ kind, segment = .wildcard span kind := by
  simp only [wildcardAlternatives] at h
  split at h
  · exact .inl (List.mem_singleton.mp h)
  · simp only [List.mem_append, List.mem_singleton] at h
    rcases h with ((h | h) | h) | rfl
    · split at h
      · cases h
      · exact .inl (List.mem_singleton.mp h)
    · split at h
      · exact .inr ⟨_, List.mem_singleton.mp h⟩
      · cases h
    · split at h
      · exact .inr ⟨_, List.mem_singleton.mp h⟩
      · cases h
    · exact .inr ⟨_, rfl⟩

/-- An alternative for a cut covers the positions of the cut. -/
theorem span_of_mem_alternatives {schema : Schema} {token : Piece} {cut : Cut} {segment : Segment}
    (h : segment ∈ cut.alternatives schema token) : segment.span = cut.span := by
  cases cut with
  | delimiter index =>
    rw [Cut.alternatives, List.mem_singleton] at h
    rw [h]
    rfl
  | piece span context =>
    simp only [Cut.alternatives] at h
    split at h
    · rcases mem_exactAlternatives h with rfl | rfl
      · rfl
      · rfl
    · rcases mem_wildcardAlternatives h with rfl | ⟨kind, rfl⟩
      · rfl
      · rfl

/-- The segments that a token splits into tile it. -/
theorem Piece.Splits.tiles {schema : Schema} {token : Piece} {precededBy : Option UInt8} {segments : List Segment}
    (h : token.Splits schema precededBy segments) : Tiles token.symbols 0 (segments.map Segment.span) := by
  obtain ⟨selected, hselected, hall⟩ := h
  have hspans : segments.map Segment.span = (cuts token.symbols.length precededBy selected).map Cut.span := by
    rw [← List.forall₂_eq_eq_eq, List.forall₂_map_left_iff, List.forall₂_map_right_iff]
    exact hall.imp fun _ _ => span_of_mem_alternatives
  rw [hspans]
  exact tiles_cuts hselected precededBy

/-! ## Joined text -/

section

variable {α : Type} {extent : Item → Extent α} {width : Width} {p : ReadPart} {covered : Nat} {segment : Segment}
  {segments : List Segment}

/-- Putting a segment in front keeps what is covered, and where. -/
theorem coverAlike_cons (hstar : extent .star = .part) {reading : Reading}
    (h : Tiles p.piece.symbols covered (segment.span :: reading.map Segment.span)) :
    Tiles p.piece.symbols covered ((Reading.cons segment reading).map Segment.span) ∧
      CoverAlike extent ((Reading.cons segment reading).flatMap (p.items width))
        (p.items width segment ++ reading.flatMap (p.items width)) := by
  unfold Reading.cons
  split
  · next span next rest =>
    split
    · obtain ⟨hjoins, hne, hrest⟩ := tiles_cons_iff.mp h
      obtain ⟨hnext, hlt, hlater⟩ := tiles_cons_iff.mp hrest
      simp only [Segment.span] at hjoins hne hnext hlt hlater
      have hstart : span.start ≤ next.start := by rcases hnext with h | ⟨h, -⟩ <;> omega
      have hstop : max span.stop next.stop = next.stop := by rcases hnext with h | ⟨h, -⟩ <;> omega
      have halike := @coverAlike_join α (fun s => extent (.ofSymbol s)) p.piece.symbols span.start span.stop
        next.stop next.start hstar hnext hstart hlt
      rw [hstop]
      refine ⟨.cons hjoins (Nat.lt_of_le_of_lt hstart hlt) hlater, ?_⟩
      rw [List.flatMap_cons, List.flatMap_cons, ← List.append_assoc]
      refine CoverAlike.append (fun as => ?_) (CoverAlike.refl _)
      -- Static text is what the symbols are made to stand for.
      show Covers extent ((Span.slice ⟨span.start, next.stop⟩ p.piece.symbols).map Item.ofSymbol) as ↔
        Covers extent ((span.slice p.piece.symbols).map Item.ofSymbol ++
          (next.slice p.piece.symbols).map Item.ofSymbol) as
      rw [← List.map_append, covers_map, covers_map]
      exact (halike as).symm
    · exact ⟨h, CoverAlike.refl _⟩
  · exact ⟨h, CoverAlike.refl _⟩

/-- **Joining static text does not change what is covered.** -/
theorem coverAlike_foldr_cons (hstar : extent .star = .part)
    (h : Tiles p.piece.symbols covered (segments.map Segment.span)) :
    Tiles p.piece.symbols covered ((segments.foldr Reading.cons []).map Segment.span) ∧
      CoverAlike extent ((segments.foldr Reading.cons []).flatMap (p.items width))
        (segments.flatMap (p.items width)) := by
  induction segments generalizing covered with
  | nil => exact ⟨h, CoverAlike.refl _⟩
  | cons segment segments ih =>
    obtain ⟨hjoins, hne, hrest⟩ := tiles_cons_iff.mp h
    obtain ⟨htiles, halike⟩ := ih hrest
    obtain ⟨hkept, hjoined⟩ := coverAlike_cons hstar (Tiles.cons hjoins hne htiles)
    exact ⟨hkept, hjoined.trans ((CoverAlike.refl _).append halike)⟩

end

end LogCodec.Query
