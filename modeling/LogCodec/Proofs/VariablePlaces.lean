import LogCodec.Proofs.BuiltSubqueries

/-!
# `LogCodec.Proofs.VariablePlaces`: where the variables of a subquery stand in the query

A subquery shows the symbols of the query one part behind the other: static text in the pattern for the logtype, and
what a variable stands for in its condition.  Where two parts share a star both of them show it, and a run of stars is
shown as one; since no two stars of a query stand together, what has been seen of the query can always be told from what
a subquery shows.  So the pattern for the logtype and the conditions, which say nothing of places, tell the place of
every variable.

## Contents
- **Seams.** `placeBehind` and `joinBehind`, for symbols behind those that have been seen; `joinBehind_slice`.
- **Reading back.** `variablesFrom`, the variables that items show; `variablesFrom_congr` and `variablesFrom_collapse`.
- **Readings.** `variablesFrom_reading`: a reading shows its variables at their places.
- **Subqueries.** `variables_eq_of_shown`, the result: subqueries that show the same have the same variables.
-/

namespace LogCodec.Query

/-! ## Seams -/

/-- The place of symbols behind those that have been seen.  A star on both sides of the seam is the same star. -/
def placeBehind (seen next : Pattern) : Nat :=
  if seen.endsWithStar && next.startsWithStar then seen.length - 1 else seen.length

/-- What has been seen together with the symbols behind it. -/
def joinBehind (seen next : Pattern) : Pattern := seen.take (placeBehind seen next) ++ next

section
variable {symbols : Pattern} {covered start stop : Nat}

theorem startsWithStar_slice (hne : start < stop) :
    Pattern.startsWithStar (Span.slice ⟨start, stop⟩ symbols) = (symbols[start]? == some .star) := by
  have hlength : stop - start ≠ 0 := by omega
  simp [Pattern.startsWithStar, Span.slice, Span.length, List.head?_take, hlength]

theorem endsWithStar_slice (hne : start < stop) (hstop : stop ≤ symbols.length) :
    Pattern.endsWithStar (Span.slice ⟨start, stop⟩ symbols) = (symbols[stop - 1]? == some .star) := by
  have hlast : start + (stop - start - 1) = stop - 1 := by omega
  have hlength : min (stop - start) (symbols.length - start) = stop - start := by omega
  simp [Pattern.endsWithStar, Span.slice, Span.length, List.getLast?_eq_getElem?, List.getElem?_take, hlength, hlast]
  omega

theorem endsWithStar_take (h : start + 1 ≤ symbols.length) :
    Pattern.endsWithStar (symbols.take (start + 1)) = (symbols[start]? == some .star) := by
  have hends := endsWithStar_slice (Nat.zero_lt_succ start) h
  simpa [Span.slice, Span.length] using hends

/-- Two stars do not stand together. -/
theorem not_star_of_star (hapart : Pattern.StarsApart symbols) (h : symbols[start]? = some .star) :
    symbols[start + 1]? ≠ some .star := by
  intro hnext
  obtain ⟨hlt, hfirst⟩ := List.getElem?_eq_some_iff.mp h
  obtain ⟨hlt', hsecond⟩ := List.getElem?_eq_some_iff.mp hnext
  exact List.isChain_iff_getElem.mp hapart start hlt' hfirst hsecond

/-- **Symbols that are joined to what has been seen are found at their place.** -/
theorem placeBehind_slice (hapart : Pattern.StarsApart symbols) (hcovered : covered ≤ symbols.length)
    (hjoins : Joins symbols covered start) (hne : start < stop) :
    placeBehind (symbols.take covered) (Span.slice ⟨start, stop⟩ symbols) = start := by
  have hlength : (symbols.take covered).length = covered := List.length_take_of_le hcovered
  rcases hjoins with rfl | ⟨rfl, hstar⟩
  · -- Nothing is shared, so the seam has no star on one side.
    rw [placeBehind, if_neg, hlength]
    intro hboth
    obtain ⟨hends, hstarts⟩ := (Bool.and_eq_true _ _).mp hboth
    rw [startsWithStar_slice hne, beq_iff_eq] at hstarts
    cases start with
    | zero => cases hends
    | succ before =>
      rw [endsWithStar_take hcovered, beq_iff_eq] at hends
      exact not_star_of_star hapart hends hstarts
  · have hboth : (Pattern.endsWithStar (symbols.take (start + 1)) &&
        Pattern.startsWithStar (Span.slice ⟨start, stop⟩ symbols)) = true := by
      rw [endsWithStar_take hcovered, startsWithStar_slice hne, hstar]
      rfl
    rw [placeBehind, if_pos hboth, hlength, Nat.add_sub_cancel]

theorem joinBehind_slice (hapart : Pattern.StarsApart symbols) (hcovered : covered ≤ symbols.length)
    (hjoins : Joins symbols covered start) (hne : start < stop) :
    joinBehind (symbols.take covered) (Span.slice ⟨start, stop⟩ symbols) = symbols.take stop := by
  have hle : start ≤ covered := by rcases hjoins with h | ⟨h, -⟩ <;> omega
  have hwhole := Span.slice_append_slice symbols (Nat.zero_le start) (Nat.le_of_lt hne)
  rw [joinBehind, placeBehind_slice hapart hcovered hjoins hne, List.take_take, Nat.min_eq_left hle]
  simpa [Span.slice, Span.length] using hwhole

end

/-! ## Reading back -/

/-- A variable with a condition, at a span. -/
def segmentAt {τ : Type} (span : Span) : VariableQuery τ → Segment
  | .pattern kind _ => .wildcard span kind
  | _ => .exact span

theorem segmentAt_map {τ υ : Type} (span : Span) (f : τ → υ) (query : VariableQuery τ) :
    segmentAt span (query.map f) = segmentAt span query := by
  cases query <;> rfl

/-- The variables that items show behind what has been seen, with their spans. -/
def variablesFrom (width : Width) (seen : Pattern) : List Item → List Segment
  | [] => []
  | item :: rest =>
    let now := joinBehind seen (item.pattern width)
    (item.condition?.map (segmentAt ⟨placeBehind seen (item.pattern width), now.length⟩)).toList ++
      variablesFrom width now rest

/-- The item that is static text, if it is no variable. -/
def static? : Item → Option Item
  | .variable _ => none
  | item => some item

/-- The first item of a pattern for logtypes, unless that is a variable, and what follows it. -/
def firstItem? : Pattern → Option (Option Item × Pattern)
  | [] => none
  | .star :: rest => some (some .star, rest)
  | .any :: rest => some (some .any, rest)
  | .literal b :: rest =>
    if b = escapeByte then
      match rest with
      | .literal c :: rest => some (some (.literal c), rest)
      | _ => none
    else if isPlaceholder b then some (none, rest)
    else some (some (.literal b), rest)

/-- Each item is read back from its symbols in one way. -/
theorem firstItem?_symbols (item : Item) (rest : Pattern) :
    firstItem? (item.symbols ++ rest) = some (static? item, rest) := by
  cases item with
  | star => rfl
  | any => rfl
  | literal b =>
    by_cases hb : needsEscape b = true
    · simp [Item.symbols, Logtype.writeByte, hb, firstItem?, static?]
    · obtain ⟨hplain, hne⟩ := Logtype.ofByte?_of_not_needsEscape (Bool.not_eq_true _ ▸ hb)
      simp [Item.symbols, Logtype.writeByte, hb, firstItem?, static?, hne, isPlaceholder, hplain]
  | «variable» query =>
    have hne : query.placeholder.toByte ≠ escapeByte := by
      cases query.placeholder with
      | number kind => cases kind <;> decide
      | dictionary => decide
    simp [Item.symbols, firstItem?, static?, hne, isPlaceholder]

/-- Items that are the same static text are the same; others are variables. -/
theorem eq_or_variables {item other : Item} (h : static? item = static? other) :
    item = other ∧ item.condition? = none ∨ ∃ query query', item = .variable query ∧ other = .variable query' := by
  cases item with
  | «variable» query =>
    cases other with
    | «variable» query' => exact .inr ⟨query, query', rfl, rfl⟩
    | _ => cases h
  | _ =>
    cases other with
    | «variable» query' => cases h
    | _ => cases h <;> exact .inl ⟨rfl, rfl⟩

section
variable {width : Width}

/-- **The variables can be told from the pattern for the logtype and the conditions.** -/
theorem variablesFrom_congr {items others : List Item} (seen : Pattern)
    (hsymbols : items.flatMap Item.symbols = others.flatMap Item.symbols)
    (hconditions : Item.conditions items = Item.conditions others) :
    variablesFrom width seen items = variablesFrom width seen others := by
  induction items generalizing others seen with
  | nil =>
    cases others with
    | nil => rfl
    | cons other others =>
      have hnone := congrArg firstItem? hsymbols
      rw [List.flatMap_cons, firstItem?_symbols] at hnone
      cases hnone
  | cons item items ih =>
    cases others with
    | nil =>
      have hnone := congrArg firstItem? hsymbols
      rw [List.flatMap_cons, firstItem?_symbols] at hnone
      cases hnone
    | cons other others =>
      have hfirst := congrArg firstItem? hsymbols
      rw [List.flatMap_cons, List.flatMap_cons, firstItem?_symbols, firstItem?_symbols, Option.some.injEq,
        Prod.mk.injEq] at hfirst
      obtain ⟨hstatic, hrest⟩ := hfirst
      rcases eq_or_variables hstatic with ⟨rfl, hnone⟩ | ⟨query, query', rfl, rfl⟩
      · have hlater : Item.conditions items = Item.conditions others := by
          simpa only [Item.conditions, List.filterMap_cons, hnone] using hconditions
        rw [variablesFrom, variablesFrom, ih _ hrest hlater]
      · obtain ⟨hquery, hlater⟩ : query.map Excerpt.bytes = query'.map Excerpt.bytes ∧
            Item.conditions items = Item.conditions others := List.cons.inj hconditions
        have hpattern : Item.pattern width (.variable query) = Item.pattern width (.variable query') :=
          congrArg (VariableQuery.symbols width) hquery
        have hsegment : ∀ span, segmentAt span query = segmentAt span query' := by
          intro span
          rw [← segmentAt_map span Excerpt.bytes query, hquery, segmentAt_map]
        rw [variablesFrom, variablesFrom, hpattern, ih _ hrest hlater]
        simp only [Item.condition?, Option.map_some, hsegment]

/-- A star behind a star shows nothing. -/
theorem joinBehind_star_star (seen : Pattern) :
    joinBehind (joinBehind seen [.star]) [.star] = joinBehind seen [.star] := by
  have hends : Pattern.endsWithStar (joinBehind seen [.star]) = true := by
    simp [joinBehind, Pattern.endsWithStar]
  rw [joinBehind, placeBehind, hends]
  simp [joinBehind, Pattern.startsWithStar]

theorem variablesFrom_collapse (seen : Pattern) (items : List Item) :
    variablesFrom width seen (Item.collapse items) = variablesFrom width seen items := by
  fun_induction Item.collapse items generalizing seen with
  | case1 rest ih =>
    rw [ih]
    show variablesFrom width (joinBehind seen [.star]) rest =
      variablesFrom width (joinBehind (joinBehind seen [.star]) [.star]) rest
    rw [joinBehind_star_star]
  | case2 item rest _ ih => simp only [variablesFrom, ih]
  | case3 => rfl

end

/-! ## Readings -/

/-- The segment is a variable. -/
def Segment.isVariable : Segment → Bool
  | .static _ => false
  | _ => true

/-- The segment with its positions counted from a symbol that stands before the token. -/
def Segment.behind (index : Nat) (segment : Segment) : Segment :=
  segment.moveTo ⟨index + segment.span.start, index + segment.span.stop⟩

section
variable {symbols part : Pattern} {index covered start stop : Nat}

theorem StandsAt.getElem? {position : Nat} (h : StandsAt symbols index part) (hposition : position < part.length) :
    symbols[index + position]? = part[position]? := by
  obtain ⟨front, back, rfl, rfl⟩ := h
  rw [List.getElem?_append_right (Nat.le_add_right _ _), Nat.add_sub_cancel_left, List.getElem?_append_left hposition]

theorem StandsAt.slice (h : StandsAt symbols index part) (hstop : stop ≤ part.length) :
    Span.slice ⟨index + start, index + stop⟩ symbols = Span.slice ⟨start, stop⟩ part := by
  obtain ⟨front, back, rfl, rfl⟩ := h
  have hlength : front.length + stop - (front.length + start) = stop - start := by omega
  simp only [Span.slice, Span.length, hlength]
  rw [← List.drop_drop, List.drop_left]
  by_cases hstart : start ≤ part.length
  · rw [List.drop_append_of_le_length hstart, List.take_append_of_le_length (by rw [List.length_drop]; omega)]
  · have hnone : stop - start = 0 := by omega
    rw [hnone, List.take_zero, List.take_zero]

theorem StandsAt.joins (h : StandsAt symbols index part) (hstart : start < part.length)
    (hjoins : Joins part covered start) : Joins symbols (index + covered) (index + start) := by
  rcases hjoins with rfl | ⟨rfl, hstar⟩
  · exact .inl rfl
  · exact .inr ⟨rfl, by rw [h.getElem? hstart, hstar]⟩

end

section
variable {width : Width} {symbols : Pattern} {index covered start stop : Nat} {p : ReadPart} {rest : List Item}

theorem variablesFrom_static (hapart : Pattern.StarsApart symbols) (hcovered : covered ≤ symbols.length)
    (hjoins : Joins symbols covered start) (hne : start < stop) (hstop : stop ≤ symbols.length) :
    variablesFrom width (symbols.take covered) ((Span.slice ⟨start, stop⟩ symbols).map Item.ofSymbol ++ rest) =
      variablesFrom width (symbols.take stop) rest := by
  induction hlength : stop - start generalizing covered start with
  | zero => omega
  | succ length ih =>
    obtain ⟨s, hs⟩ : ∃ s, symbols[start]? = some s := ⟨_, List.getElem?_eq_getElem (by omega)⟩
    have hfirst := joinBehind_slice hapart hcovered hjoins (Nat.lt_succ_self start)
    rw [Span.slice_singleton hs] at hfirst
    have hpattern : (Item.ofSymbol s).pattern width = [s] ∧ (Item.ofSymbol s).condition? = none := by
      cases s <;> exact ⟨rfl, rfl⟩
    rw [← Span.slice_append_slice _ (Nat.le_succ start) hne, Span.slice_singleton hs, List.singleton_append, List.map_cons,
      List.cons_append, variablesFrom, hpattern.1, hpattern.2, hfirst]
    by_cases hlast : start + 1 = stop
    · subst hlast
      simp [Span.slice, Span.length]
    · exact ih (by omega) (.refl _ _) (by omega) (by omega)

/-- A variable is found at its place. -/
theorem variablesFrom_variable (hapart : Pattern.StarsApart symbols) (hcovered : covered ≤ symbols.length)
    (hjoins : Joins symbols covered start) (hne : start < stop) (hstop : stop ≤ symbols.length)
    {query : VariableQuery Excerpt}
    (hpattern : Item.pattern width (.variable query) = Span.slice ⟨start, stop⟩ symbols) :
    variablesFrom width (symbols.take covered) (.variable query :: rest) =
      segmentAt ⟨start, stop⟩ query :: variablesFrom width (symbols.take stop) rest := by
  rw [variablesFrom, hpattern, joinBehind_slice hapart hcovered hjoins hne,
    placeBehind_slice hapart hcovered hjoins hne, List.length_take_of_le hstop]
  rfl

/-- A star at the start of a pattern, shown before the variable, does not move it. -/
theorem variablesFrom_starBefore (hapart : Pattern.StarsApart symbols) (hcovered : covered ≤ symbols.length)
    (hjoins : Joins symbols covered start) (hne : start < stop) :
    ∃ covered' ≤ symbols.length, Joins symbols covered' start ∧
      variablesFrom width (symbols.take covered)
          ((if Pattern.startsWithStar (Span.slice ⟨start, stop⟩ symbols) then [.star] else []) ++ rest) =
        variablesFrom width (symbols.take covered') rest := by
  rw [startsWithStar_slice hne]
  by_cases hstar : symbols[start]? = some .star
  · refine ⟨start + 1, (List.getElem?_eq_some_iff.mp hstar).1, .inr ⟨rfl, hstar⟩, ?_⟩
    have hjoined := joinBehind_slice hapart hcovered hjoins (Nat.lt_succ_self start)
    rw [Span.slice_singleton hstar] at hjoined
    rw [hstar, ← hjoined]
    rfl
  · refine ⟨covered, hcovered, hjoins, ?_⟩
    rw [if_neg (by simpa using hstar), List.nil_append]

/-- A star at the end of a pattern, shown behind the variable, adds nothing. -/
theorem variablesFrom_starBehind (hapart : Pattern.StarsApart symbols) (hne : start < stop)
    (hstop : stop ≤ symbols.length) :
    variablesFrom width (symbols.take stop)
        ((if Pattern.endsWithStar (Span.slice ⟨start, stop⟩ symbols) then [.star] else []) ++ rest) =
      variablesFrom width (symbols.take stop) rest := by
  rw [endsWithStar_slice hne hstop]
  by_cases hstar : symbols[stop - 1]? = some .star
  · have hlast : stop - 1 + 1 = stop := by omega
    have hjoined := joinBehind_slice hapart hstop (.inr ⟨hlast, hstar⟩) (Nat.lt_succ_self (stop - 1))
    rw [Span.slice_singleton hstar, Nat.succ_eq_add_one, hlast] at hjoined
    rw [hstar]
    show variablesFrom width (joinBehind (symbols.take stop) [.star]) rest = _
    rw [hjoined]
  · rw [if_neg (by simpa using hstar), List.nil_append]

/-- A pattern for a variable is found at its place, whatever stars are shown beside it. -/
theorem variablesFrom_pattern (hapart : Pattern.StarsApart symbols) (hcovered : covered ≤ symbols.length)
    (hjoins : Joins symbols covered start) (hne : start < stop) (hstop : stop ≤ symbols.length) {kind : Placeholder}
    {text : Excerpt}
    (hpattern : Item.pattern width (.variable (.pattern kind text)) = Span.slice ⟨start, stop⟩ symbols) :
    variablesFrom width (symbols.take covered)
        ((if Pattern.startsWithStar (Span.slice ⟨start, stop⟩ symbols) then [.star] else []) ++
          .variable (.pattern kind text) ::
            ((if Pattern.endsWithStar (Span.slice ⟨start, stop⟩ symbols) then [.star] else []) ++ rest)) =
      .wildcard ⟨start, stop⟩ kind :: variablesFrom width (symbols.take stop) rest := by
  -- The star before the variable covers a symbol more, and then the variable starts with what is covered.
  obtain ⟨covered', hcovered', hjoins', hfirst⟩ :=
    @variablesFrom_starBefore width symbols covered start stop
      (.variable (.pattern kind text) ::
        ((if Pattern.endsWithStar (Span.slice ⟨start, stop⟩ symbols) then [.star] else []) ++ rest))
      hapart hcovered hjoins hne
  rw [hfirst, variablesFrom_variable hapart hcovered' hjoins' hne hstop hpattern,
    variablesFrom_starBehind hapart hne hstop]
  rfl

/-- **A segment shows its variable, if it is one, at its place.** -/
theorem variablesFrom_segment (hapart : Pattern.StarsApart symbols) (hstands : StandsAt symbols index p.piece.symbols)
    {segment : Segment} (hcovered : covered ≤ p.piece.symbols.length)
    (hjoins : Joins p.piece.symbols covered segment.span.start) (hshows : p.piece.Shows p.appended segment) :
    variablesFrom width (symbols.take (index + covered)) (p.items width segment ++ rest) =
      ([segment].filter Segment.isVariable).map (Segment.behind index) ++
        variablesFrom width (symbols.take (index + segment.span.stop)) rest := by
  obtain ⟨span, hspan⟩ : ∃ span, segment.span = span := ⟨_, rfl⟩
  have hhas : p.piece.Has span := hspan ▸ hshows.has
  rw [hspan] at hjoins ⊢
  have hplace := hstands.joins (Nat.lt_of_lt_of_le hhas.1 hhas.2) hjoins
  have hslice : Span.slice ⟨index + span.start, index + span.stop⟩ symbols = p.piece.slice span := hstands.slice hhas.2
  have hfits : index + p.piece.symbols.length ≤ symbols.length := hstands.fits.2
  have hbefore : index + covered ≤ symbols.length := by omega
  have hbehind : index + span.stop ≤ symbols.length := Nat.le_trans (Nat.add_le_add_left hhas.2 index) hfits
  have hne : index + span.start < index + span.stop := Nat.add_lt_add_left hhas.1 index
  cases segment with
  | static other =>
    obtain rfl : other = span := hspan
    have hshown := @variablesFrom_static width symbols _ _ _ rest hapart hbefore hplace hne hbehind
    rw [hslice] at hshown
    exact hshown
  | exact other =>
    obtain rfl : other = span := hspan
    have hexact : (p.piece.slice other).isExact = true := hshows.exact_of_value other rfl
    have hpattern : Item.pattern width (.variable (exactQuery width (p.piece.value p.filled p.appended other))) =
        Span.slice ⟨index + other.start, index + other.stop⟩ symbols := by
      rw [hslice]
      show ((exactQuery width _).map Excerpt.bytes).symbols width = p.piece.slice other
      rw [symbols_exactQuery, bytes_value hexact, Pattern.map_literals hexact]
    -- A value is a number or a dictionary value, and neither is a pattern.
    have hquery : segmentAt ⟨index + other.start, index + other.stop⟩
        (exactQuery width (p.piece.value p.filled p.appended other)) = Segment.behind index (.exact other) := by
      unfold exactQuery
      split <;> rfl
    have hshown := @variablesFrom_variable width symbols _ _ _ rest hapart hbefore hplace hne hbehind _ hpattern
    rw [hquery] at hshown
    exact hshown
  | wildcard other kind =>
    obtain rfl : other = span := hspan
    have hpattern : Item.pattern width (.variable (.pattern kind (p.piece.spelled other))) =
        Span.slice ⟨index + other.start, index + other.stop⟩ symbols := by
      rw [hslice]
      exact Pattern.ofBytes_spell (p.piece.slice other)
    have hshown := @variablesFrom_pattern width symbols _ _ _ rest hapart hbefore hplace hne hbehind kind _ hpattern
    rw [hslice] at hshown
    simp only [ReadPart.items, List.append_assoc, List.cons_append]
    exact hshown

/-- **A reading shows its variables at their places.** -/
theorem variablesFrom_reading (hapart : Pattern.StarsApart symbols) (hstands : StandsAt symbols index p.piece.symbols)
    {reading : Reading} (htiles : Tiles p.piece.symbols covered (reading.map Segment.span))
    (hshows : ∀ segment ∈ reading, p.piece.Shows p.appended segment) :
    variablesFrom width (symbols.take (index + covered)) (reading.flatMap (p.items width) ++ rest) =
      (reading.filter Segment.isVariable).map (Segment.behind index) ++
        variablesFrom width (symbols.take (index + p.piece.symbols.length)) rest := by
  induction reading generalizing covered with
  | nil =>
    cases htiles
    rfl
  | cons segment reading ih =>
    obtain ⟨hjoins, -, hlater⟩ := tiles_cons_iff.mp htiles
    obtain ⟨hsegment, hreading⟩ := List.forall_mem_cons.mp hshows
    rw [List.flatMap_cons, List.append_assoc, variablesFrom_segment hapart hstands htiles.le_length hjoins hsegment,
      ih hlater hreading, ← List.append_assoc, ← List.map_append, ← List.filter_append, List.singleton_append]

end

/-! ## Subqueries -/

theorem Laid.symbols_eq {query buffer : Bytes} {start : Nat} {symbols : Pattern} {ps : List ReadPart}
    (h : Laid query buffer start symbols ps) : (ps.flatMap fun p => p.piece.symbols) = symbols := by
  induction h with
  | nil => rfl
  | cons _ _ _ ih => rw [List.flatMap_cons, ih]

/-- The variables of some parts, each with a reading, in the places that they have in the query. -/
def variablesOf (index : Nat) : List ReadPart → List Reading → List Segment
  | p :: ps, reading :: readings =>
    (reading.filter Segment.isVariable).map (Segment.behind index) ++
      variablesOf (index + p.piece.symbols.length) ps readings
  | _, _ => []

section
variable {width : Width} {symbols : Pattern} {index : Nat} {ps : List ReadPart} {readings others : List Reading}

/-- Subqueries show the variables of their parts. -/
theorem variablesFrom_chosenItems (hapart : Pattern.StarsApart symbols)
    (hstands : StandsAt symbols index (ps.flatMap fun p => p.piece.symbols)) (hread : ∀ p ∈ ps, p.IsRead)
    (hreadings : List.Forall₂ (fun reading p => reading ∈ p.readings) readings ps) :
    variablesFrom width (symbols.take index) (chosenItems width (ps.zip readings)) = variablesOf index ps readings := by
  induction hreadings generalizing index with
  | nil => rfl
  | @cons reading p readings ps hreading _ ih =>
    obtain ⟨hp, hlater⟩ := List.forall_mem_cons.mp hread
    rw [List.flatMap_cons] at hstands
    rw [List.zip_cons_cons, chosenItems_cons, variablesOf, ← ih hstands.right hlater]
    exact variablesFrom_reading hapart hstands.left (hp.tiles reading hreading) (hp.shows reading hreading)

theorem start_behind (segment : Segment) : (segment.behind index).span.start = index + segment.span.start := by
  cases segment <;> rfl

theorem behind_injective : Function.Injective (Segment.behind index) := by
  intro first second h
  rcases first with ⟨_, _⟩ | ⟨_, _⟩ | ⟨⟨_, _⟩, _⟩ <;> rcases second with ⟨_, _⟩ | ⟨_, _⟩ | ⟨⟨_, _⟩, _⟩ <;>
    simp_all [Segment.behind, Segment.moveTo, Segment.span]

/-- The variables of some parts stand behind those of the parts before them. -/
theorem le_start_of_mem_variablesOf {segment : Segment} (h : segment ∈ variablesOf index ps readings) :
    index ≤ segment.span.start := by
  induction ps generalizing index readings with
  | nil => cases h
  | cons p ps ih =>
    cases readings with
    | nil => cases h
    | cons reading readings =>
      rw [variablesOf, List.mem_append] at h
      rcases h with h | h
      · obtain ⟨other, -, rfl⟩ := List.mem_map.mp h
        rw [start_behind]
        exact Nat.le_add_right _ _
      · exact Nat.le_trans (Nat.le_add_right _ _) (ih h)

/-- The variables of the first of some parts are those that stand before its end. -/
theorem filter_variablesOf (index : Nat) {p : ReadPart} (hp : p.IsRead) {reading : Reading}
    (hreading : reading ∈ p.readings) (ps : List ReadPart) (readings : List Reading) :
    (variablesOf index (p :: ps) (reading :: readings)).filter
        (fun segment => decide (segment.span.start < index + p.piece.symbols.length)) =
          (reading.filter Segment.isVariable).map (Segment.behind index) ∧
      (variablesOf index (p :: ps) (reading :: readings)).filter
        (fun segment => !decide (segment.span.start < index + p.piece.symbols.length)) =
          variablesOf (index + p.piece.symbols.length) ps readings := by
  have hfirst : ∀ segment ∈ (reading.filter Segment.isVariable).map (Segment.behind index),
      decide (segment.span.start < index + p.piece.symbols.length) = true := by
    intro segment hsegment
    obtain ⟨other, hother, rfl⟩ := List.mem_map.mp hsegment
    obtain ⟨hne, hstop⟩ := (hp.shows reading hreading other (List.mem_of_mem_filter hother)).has
    rw [decide_eq_true_iff, start_behind]
    omega
  have hlater : ∀ segment ∈ variablesOf (index + p.piece.symbols.length) ps readings,
      (!decide (segment.span.start < index + p.piece.symbols.length)) = true := by
    intro segment hsegment
    rw [Bool.not_eq_true', decide_eq_false_iff_not]
    exact Nat.not_lt_of_le (le_start_of_mem_variablesOf hsegment)
  have hnone : ∀ segment ∈ variablesOf (index + p.piece.symbols.length) ps readings,
      ¬ decide (segment.span.start < index + p.piece.symbols.length) = true :=
    fun segment hsegment => by simpa using hlater segment hsegment
  have hnone' : ∀ segment ∈ (reading.filter Segment.isVariable).map (Segment.behind index),
      ¬ (!decide (segment.span.start < index + p.piece.symbols.length)) = true :=
    fun segment hsegment => by simpa using hfirst segment hsegment
  rw [variablesOf, List.filter_append, List.filter_append, List.filter_eq_self.mpr hfirst,
    List.filter_eq_nil_iff.mpr hnone, List.filter_eq_self.mpr hlater, List.filter_eq_nil_iff.mpr hnone',
    List.append_nil, List.nil_append]
  exact ⟨rfl, rfl⟩

/-- **The variables of some parts tell those of each part.** -/
theorem variables_eq_of_variablesOf (hread : ∀ p ∈ ps, p.IsRead)
    (hreadings : List.Forall₂ (fun reading p => reading ∈ p.readings) readings ps)
    (hothers : List.Forall₂ (fun reading p => reading ∈ p.readings) others ps)
    (h : variablesOf index ps readings = variablesOf index ps others) :
    List.Forall₂ (fun reading other => reading.filter Segment.isVariable = other.filter Segment.isVariable)
      readings others := by
  induction hreadings generalizing index others with
  | nil =>
    cases hothers
    exact .nil
  | @cons reading p readings ps hreading _ ih =>
    cases hothers with
    | @cons other _ others _ hother hothers =>
      obtain ⟨hp, hlater⟩ := List.forall_mem_cons.mp hread
      obtain ⟨hfirst, hrest⟩ := filter_variablesOf index hp hreading ps readings
      obtain ⟨hfirst', hrest'⟩ := filter_variablesOf index hp hother ps others
      rw [h, hfirst'] at hfirst
      rw [h, hrest'] at hrest
      exact .cons (List.map_injective_iff.mpr behind_injective hfirst).symm (ih hlater hothers hrest.symm)

/-- **Subqueries that show the same have the same variables**, part by part. -/
theorem variables_eq_of_shown {query buffer : Bytes} {start : Nat} (hapart : Pattern.StarsApart symbols)
    (hlaid : Laid query buffer start symbols ps)
    (hreadings : readings ∈ combinations (ps.map ReadPart.readings))
    (hothers : others ∈ combinations (ps.map ReadPart.readings))
    (hquery : (Decomposition.subqueryOf ⟨width, ps⟩ readings).logtypeQuery =
      (Decomposition.subqueryOf ⟨width, ps⟩ others).logtypeQuery)
    (hconditions : (Decomposition.subqueryOf ⟨width, ps⟩ readings).conditions =
      (Decomposition.subqueryOf ⟨width, ps⟩ others).conditions) :
    List.Forall₂ (fun reading other => reading.filter Segment.isVariable = other.filter Segment.isVariable)
      readings others := by
  have hstands : StandsAt symbols 0 (ps.flatMap fun p => p.piece.symbols) :=
    ⟨[], [], by rw [hlaid.symbols_eq, List.append_nil, List.nil_append], rfl⟩
  have hchosen := List.forall₂_map_right_iff.mp (mem_combinations.mp hreadings)
  have hchosen' := List.forall₂_map_right_iff.mp (mem_combinations.mp hothers)
  -- The spelled pattern tells the pattern, and this tells the items but for their excerpts.
  have hsymbols : (Item.collapse (chosenItems width (ps.zip readings))).flatMap Item.symbols =
      (Item.collapse (chosenItems width (ps.zip others))).flatMap Item.symbols := by
    have hpattern := congrArg Pattern.ofBytes hquery
    rwa [Subquery.logtypeQuery, Subquery.logtypeQuery, Pattern.ofBytes_spell, Pattern.ofBytes_spell] at hpattern
  have hshown := @variablesFrom_congr width _ _ [] hsymbols hconditions
  rw [variablesFrom_collapse, variablesFrom_collapse] at hshown
  have hfirst := @variablesFrom_chosenItems width symbols 0 ps readings hapart hstands hlaid.isRead hchosen
  have hsecond := @variablesFrom_chosenItems width symbols 0 ps others hapart hstands hlaid.isRead hchosen'
  rw [List.take_zero] at hfirst hsecond
  exact variables_eq_of_variablesOf hlaid.isRead hchosen hchosen' (hfirst.symm.trans (hshown.trans hsecond))

end

end LogCodec.Query
