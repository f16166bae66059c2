import LogCodec.Proofs.BuiltSubqueries

/-!
# `LogCodec.Proofs.Descriptors`: the conditions of a subquery and the pieces they are for

Each condition on a variable is for a piece of the query in normal form, a run of its units.  What the condition has to
say of the piece is in a buffer that starts with the query: the piece itself, if it has wildcards, and otherwise the
bytes that its literals stand for.  The pieces of one subquery lie one behind the other.  Two of them overlap only
where the query was split at a star, which then belongs to both.

## Contents
- `IsRun`, `Describes` and `Follows`: what is said of a condition, of its piece, and of two of them.
- **Pieces.** `Piece.IsIn`, with `isRun_range`; `describes_exact` and `describes_pattern`.
- **Order.** `pairwise_of_tiles` and `follows_of_behind`, within a part; `pairwise_describedAll`, for all parts.
- `descriptors_of_decomposeInPlace`, the result.
-/

namespace LogCodec.Query

/-! ## What is said -/

/-- The piece is a run of units of the query that has these symbols. -/
def IsRun (query : Bytes) (piece : Span) (symbols : Pattern) : Prop :=
  ∃ front run back, Pattern.placed query = front ++ (run ++ back) ∧ run.map PlacedSymbol.symbol = symbols ∧
    run.head?.map (·.span.start) = some piece.start ∧ run.getLast?.map (·.span.stop) = some piece.stop

/-- What a condition says of the piece of the query that it is for.  Its byte strings are views of the buffer. -/
def Describes (width : Width) (query buffer : Bytes) (piece : Span) : VariableQuery View → Prop
  | .value view => view.source = buffer ∧ view.InBounds ∧ IsRun query piece (view.bytes.map .literal)
  | .number kind packed => ∃ bytes, IsRun query piece (bytes.map .literal) ∧ width.pack bytes = some (kind, packed)
  | .pattern _ view => view = ⟨buffer, piece⟩ ∧ view.InBounds ∧ piece.Fits query.length ∧
      IsRun query piece (Pattern.ofBytes view.bytes) ∧ Wildcard.normalize view.bytes = view.bytes ∧
      (∃ s ∈ Pattern.ofBytes view.bytes, s.isWildcard = true) ∧ ∃ s ∈ Pattern.ofBytes view.bytes, s ≠ .star

/-- A star that is not escaped, at a place of the query. -/
def starAt (place : Nat) : PlacedSymbol := ⟨.star, ⟨place, place + 1⟩⟩

/-- The condition is a pattern. -/
def isPattern {τ : Type} : VariableQuery τ → Bool
  | .pattern _ _ => true
  | _ => false

/-- The piece of the second condition lies to the right of that of the first.  Only patterns overlap, and only by one
star. -/
def Follows (query : Bytes) (first second : Span × VariableQuery View) : Prop :=
  first.1.start < second.1.start ∧ (first.1.stop ≤ second.1.start ∨
    isPattern first.2 = true ∧ isPattern second.2 = true ∧ first.1.stop = second.1.start + 1 ∧
      starAt second.1.start ∈ Pattern.placed query)

/-! ## Pieces -/

/-- The piece is a part of the query with these symbols, and knows its place in it. -/
def Piece.IsIn (p : Piece) (symbols : Pattern) : Prop :=
  ∃ front back, symbols = front ++ (p.symbols ++ back) ∧ p.start = front.spell.length

section
variable {p : Piece} {symbols : Pattern} {span : Span}

namespace Piece.IsIn

/-- A part of a piece is a part of the query. -/
theorem part (h : p.IsIn symbols) (hspan : span.start ≤ span.stop) : (p.part span).IsIn symbols := by
  obtain ⟨front, back, rfl, hstart⟩ := h
  refine ⟨front ++ p.symbols.take span.start, p.symbols.drop span.stop ++ back, ?_, ?_⟩
  · show front ++ (p.symbols ++ back) = front ++ p.symbols.take span.start ++ (p.slice span ++ _)
    rw [List.append_assoc, ← List.append_assoc (p.slice span), ← List.append_assoc (p.symbols.take span.start),
      ← p.symbols_eq hspan]
  · rw [Pattern.spell_append, List.length_append, ← hstart]
    rfl

/-- The units of a piece are a run of units of the query. -/
theorem placed_eq (h : p.IsIn symbols) :
    ∃ front back, Pattern.placed symbols.spell = front ++ (p.units ++ back) := by
  obtain ⟨front, back, rfl, hstart⟩ := h
  refine ⟨units ⟨0, front⟩, units ⟨p.stop, back⟩, ?_⟩
  show units ⟨0, front ++ (p.symbols ++ back)⟩ = _
  rw [units_append, Nat.zero_add, ← hstart, units_append]
  rfl

theorem isRun (h : p.IsIn symbols) (hne : p.symbols ≠ []) : IsRun symbols.spell ⟨p.start, p.stop⟩ p.symbols := by
  obtain ⟨front, back, hplaced⟩ := h.placed_eq
  obtain ⟨hfirst, hlast⟩ := p.ends_units hne
  refine ⟨front, p.units, back, hplaced, p.map_symbol_units, ?_, ?_⟩
  · rw [List.head?_eq_getElem?, hfirst]
    rfl
  · rw [List.getLast?_eq_getElem?, hlast]
    exact congrArg some p.place_length

/-- A span of a piece is a run of units of the query. -/
theorem isRun_range (h : p.IsIn symbols) (hspan : p.Has span) : IsRun symbols.spell (p.range span) (p.slice span) := by
  rw [p.range_part (Nat.le_of_lt hspan.1)]
  exact (h.part (Nat.le_of_lt hspan.1)).isRun hspan.slice_ne_nil

/-- A symbol of a piece is a unit of the query. -/
theorem mem_placed (h : p.IsIn symbols) {index : Nat} {s : Symbol} (hs : p.symbols[index]? = some s) :
    ⟨s, p.range ⟨index, index + 1⟩⟩ ∈ Pattern.placed symbols.spell := by
  obtain ⟨front, back, hplaced⟩ := h.placed_eq
  have hunit : p.units[index]? = some ⟨s, p.range ⟨index, index + 1⟩⟩ := by
    rw [p.getElem?_units, hs]
    rfl
  rw [hplaced]
  exact List.mem_append_right _ (List.mem_append_left _ (List.mem_of_getElem? hunit))

/-- No two stars stand together in a piece of a query in normal form. -/
theorem starsApart (h : p.IsIn symbols) (hapart : symbols.StarsApart) : p.symbols.StarsApart := by
  obtain ⟨front, back, rfl, -⟩ := h
  exact hapart.right_of_append.left_of_append

end Piece.IsIn

end

/-- The condition for a segment, with the piece of the query that it is for. -/
def ReadPart.described (p : ReadPart) (width : Width) (buffer : Bytes) : Segment → Option (Span × VariableQuery View)
  | .static _ => none
  | .exact span =>
    some (p.piece.range span, viewed buffer (exactQuery width (p.piece.value p.filled p.appended span)))
  | .wildcard span kind => some (p.piece.range span, viewed buffer (.pattern kind (p.piece.spelled span)))

section
variable {width : Width} {p : ReadPart} {symbols : Pattern} {buffer : Bytes} {span : Span}

/-- **A value without wildcards is for a run of literals**, and it is their bytes or what these are packed as. -/
theorem describes_exact (hin : p.piece.IsIn symbols) (hlies : p.LiesIn symbols.spell buffer)
    (hinitial : symbols.spell <+: buffer) (hshows : p.piece.Shows p.appended (.exact span)) :
    Describes width symbols.spell buffer (p.piece.range span)
      (viewed buffer (exactQuery width (p.piece.value p.filled p.appended span))) := by
  have hexact := hshows.exact_of_value span rfl
  have hbytes := @bytes_value span p.piece p.filled p.appended hexact
  have hrun := hin.isRun_range hshows.has
  rw [show (Segment.exact span).span = span from rfl, ← Pattern.map_literals hexact] at hrun
  unfold exactQuery
  rw [hbytes]
  cases hpack : width.pack (p.piece.slice span).literals with
  | some word =>
    obtain ⟨kind, packed⟩ := word
    exact ⟨_, hrun, hpack⟩
  | none =>
    obtain ⟨hfits, hslice⟩ := hlies.isFrom_value hinitial hshows
    rw [hbytes] at hslice
    refine ⟨rfl, hfits, ?_⟩
    show IsRun _ _ ((Span.slice _ buffer).map .literal)
    rw [hslice]
    exact hrun

/-- **A pattern is for a run of units with wildcards**, and it is the run itself. -/
theorem describes_pattern (hapart : symbols.StarsApart) (hin : p.piece.IsIn symbols)
    (hlies : p.LiesIn symbols.spell buffer) (hinitial : symbols.spell <+: buffer) {kind : Placeholder}
    (hshows : p.piece.Shows p.appended (.wildcard span kind)) :
    Describes width symbols.spell buffer (p.piece.range span) (viewed buffer (.pattern kind (p.piece.spelled span))) := by
  have hspan : p.piece.Has span := hshows.has
  obtain ⟨hexact, hstars⟩ := hshows.mixed_of_pattern span kind rfl
  obtain ⟨hfits, hslice⟩ := hlies.isFrom_spelled hinitial hspan
  rw [span_spelled hspan] at hfits hslice
  have hbytes : View.bytes ⟨buffer, p.piece.range span⟩ = (p.piece.slice span).spell := hslice
  have hunits : Pattern.ofBytes (View.bytes ⟨buffer, p.piece.range span⟩) = p.piece.slice span := by
    rw [hbytes, Pattern.ofBytes_spell]
  rw [viewed_pattern hspan, Describes, hunits]
  refine ⟨rfl, hfits, ?_, hin.isRun_range hspan, ?_, ?_, ?_⟩
  · rw [p.piece.range_eq (Nat.le_of_lt hspan.1)]
    exact (hlies.standsAt_spelled hspan).fits
  · have hslice := (hin.part (Nat.le_of_lt hspan.1)).starsApart hapart
    rw [hbytes, Wildcard.normalize]
    exact congrArg Pattern.spell (Pattern.ofQuery_spell_of_apart hslice)
  · simpa [Pattern.isExact] using hexact
  · simpa [Pattern.isStars] using hstars

end

/-! ## Order -/

/-- What starts at a position lies behind what stops at another, or starts with the star that this ends with. -/
def Behind (symbols : Pattern) (stop start : Nat) : Prop :=
  stop ≤ start ∨ start + 1 = stop ∧ symbols[start]? = some .star

/-- All spans that tile a token from a position on lie behind the position. -/
theorem behind_of_tiles {symbols : Pattern} {covered : Nat} {spans : List Span} (h : Tiles symbols covered spans) :
    ∀ span ∈ spans, Behind symbols covered span.start := by
  induction h with
  | nil => simp
  | @cons covered first rest hjoins hne _ ih =>
    have hfirst : Behind symbols covered first.start := hjoins.imp_left fun heq => Nat.le_of_eq heq.symm
    refine List.forall_mem_cons.mpr ⟨hfirst, ?_⟩
    intro span hspan
    have hcovered : covered ≤ first.start + 1 := by
      rcases hfirst with hle | ⟨heq, -⟩ <;> omega
    rcases ih span hspan with hle | ⟨heq, hstar⟩
    · exact .inl (by omega)
    · -- Either the star that the two share lies behind the position, or it is the star before the position.
      rcases Nat.lt_or_ge span.start covered with hlt | hge
      · exact .inr ⟨by omega, hstar⟩
      · exact .inl hge

/-- Spans that tile a token lie one behind the other. -/
theorem pairwise_of_tiles {symbols : Pattern} {covered : Nat} {spans : List Span} (h : Tiles symbols covered spans) :
    spans.Pairwise fun first second => Behind symbols first.stop second.start := by
  induction h with
  | nil => exact .nil
  | cons _ _ hrest ih => exact .cons (behind_of_tiles hrest) ih

section
variable {width : Width} {p : ReadPart} {symbols : Pattern} {buffer : Bytes}

theorem fst_described {segment : Segment} {entry : Span × VariableQuery View}
    (h : p.described width buffer segment = some entry) : entry.1 = p.piece.range segment.span := by
  cases segment with
  | static span => cases h
  | exact span =>
    cases h
    rfl
  | wildcard span kind =>
    cases h
    rfl

/-- A segment with a star is a pattern, if it holds a variable. -/
theorem exists_wildcard_of_star {segment : Segment} {entry : Span × VariableQuery View}
    (hshows : p.piece.Shows p.appended segment) (hentry : p.described width buffer segment = some entry) {index : Nat}
    (hstart : segment.span.start ≤ index) (hstop : index < segment.span.stop)
    (hstar : p.piece.symbols[index]? = some .star) : ∃ span kind, segment = .wildcard span kind := by
  cases segment with
  | static span => cases hentry
  | exact span =>
    have hmem : .star ∈ p.piece.slice span := p.piece.mem_slice hstart hstop hstar
    have hplain := List.all_eq_true.mp (hshows.exact_of_value span rfl) .star hmem
    cases hplain
  | wildcard span kind => exact ⟨span, kind, rfl⟩

/-- A pattern is more than the star that it ends with. -/
theorem start_lt_of_wildcard {span : Span} {kind : Placeholder} (hshows : p.piece.Shows p.appended (.wildcard span kind))
    {index : Nat} (hstop : index + 1 = span.stop) (hstar : p.piece.symbols[index]? = some .star) : span.start < index := by
  have hne : span.start < span.stop := hshows.has.1
  by_contra hge
  obtain rfl : span = ⟨index, index + 1⟩ := by
    cases span
    simp only [Span.mk.injEq] at hstop hne hge ⊢
    omega
  have hstars := (hshows.mixed_of_pattern _ kind rfl).2
  rw [Piece.slice, Span.slice_singleton hstar] at hstars
  cases hstars

/-- **The conditions for the segments of a part follow each other.** -/
theorem follows_of_behind (hin : p.piece.IsIn symbols) {first second : Segment}
    (hfirst : p.piece.Shows p.appended first) (hsecond : p.piece.Shows p.appended second)
    (h : Behind p.piece.symbols first.span.stop second.span.start) {x y : Span × VariableQuery View}
    (hx : p.described width buffer first = some x) (hy : p.described width buffer second = some y) :
    Follows symbols.spell x y := by
  obtain ⟨hne, hbound⟩ := hfirst.has
  have hlt := p.piece.place_lt_place hne (Nat.lt_of_lt_of_le hne hbound)
  rw [Follows, fst_described hx, fst_described hy]
  rcases h with hle | ⟨hshared, hstar⟩
  · have hplaces := p.piece.place_le_place hle
    exact ⟨Nat.lt_of_lt_of_le hlt hplaces, .inl hplaces⟩
  · obtain ⟨span, kind, rfl⟩ := exists_wildcard_of_star hfirst hx (by omega) (by omega) hstar
    obtain ⟨other, otherKind, rfl⟩ := exists_wildcard_of_star hsecond hy (Nat.le_refl _) hsecond.has.1 hstar
    cases hx
    cases hy
    replace hshared : other.start + 1 = span.stop := hshared
    have hstart := start_lt_of_wildcard hfirst hshared hstar
    have hplace : p.piece.place (other.start + 1) = p.piece.place other.start + 1 := p.piece.place_succ hstar
    have hunit : ⟨.star, ⟨p.piece.place other.start, p.piece.place (other.start + 1)⟩⟩ ∈
        Pattern.placed symbols.spell := hin.mem_placed hstar
    rw [hplace] at hunit
    have hinside : span.start < p.piece.symbols.length := Nat.lt_of_lt_of_le hne hbound
    refine ⟨p.piece.place_lt_place hstart hinside, .inr ⟨rfl, rfl, ?_, hunit⟩⟩
    show p.piece.place span.stop = p.piece.place other.start + 1
    rw [← hshared, hplace]

end

/-! ## Subqueries -/

/-- The conditions for some parts, each with a reading, and the pieces that they are for. -/
def describedAll (width : Width) (buffer : Bytes) (chosen : List (ReadPart × Reading)) :
    List (Span × VariableQuery View) :=
  chosen.flatMap fun (p, reading) => reading.filterMap (p.described width buffer)

section
variable {width : Width} {symbols : Pattern} {buffer : Bytes} {ps : List ReadPart} {chosen : List (ReadPart × Reading)}

/-- The condition for a segment is that of its items. -/
theorem snd_described (p : ReadPart) (width : Width) (buffer : Bytes) (segment : Segment) :
    ((p.described width buffer segment).map Prod.snd).toList =
      ((p.items width segment).filterMap Item.condition?).map (viewed buffer) := by
  cases segment with
  | static span =>
    have hplain : ((p.piece.slice span).map Item.ofSymbol).filterMap Item.condition? = [] :=
      filterMap_condition_ofSymbol _
    rw [ReadPart.items, hplain]
    rfl
  | exact span => rfl
  | wildcard span kind =>
    have hstar : ∀ isStar : Bool, (if isStar then [Item.star] else []).filterMap Item.condition? = [] := by
      intro isStar
      cases isStar <;> rfl
    rw [ReadPart.items, List.filterMap_append, List.filterMap_cons, hstar, hstar]
    rfl

/-- The conditions are those of the items, in order. -/
theorem snd_describedAll (width : Width) (buffer : Bytes) (chosen : List (ReadPart × Reading)) :
    (describedAll width buffer chosen).map Prod.snd =
      ((chosenItems width chosen).filterMap Item.condition?).map (viewed buffer) := by
  have hreading : ∀ (p : ReadPart) (reading : Reading), (reading.filterMap (p.described width buffer)).map Prod.snd =
      ((reading.flatMap (p.items width)).filterMap Item.condition?).map (viewed buffer) := by
    intro p reading
    rw [List.filterMap_flatMap, List.map_flatMap, List.map_filterMap, List.filterMap_eq_flatMap_toList]
    exact congrArg (List.flatMap · reading) (funext fun segment => snd_described p width buffer segment)
  rw [describedAll, chosenItems, List.filterMap_flatMap, List.map_flatMap, List.map_flatMap]
  exact congrArg (List.flatMap · chosen) (funext fun choice => hreading choice.1 choice.2)

/-- The parts of a query stand in it. -/
theorem Laid.isIn {query : Bytes} (h : Laid query buffer 0 symbols ps) : ∀ p ∈ ps, p.piece.IsIn symbols := by
  intro p hp
  obtain ⟨front, back, hsymbols, hstart⟩ := h.exists_front p hp
  exact ⟨front, back, hsymbols, by rw [hstart, Nat.zero_add]⟩

/-- A choice is a reading of one of the parts. -/
theorem mem_of_mem_chosen (hchosen : List.Forall₂ IsChoice chosen ps) {p : ReadPart} {reading : Reading}
    (h : (p, reading) ∈ chosen) : p ∈ ps ∧ reading ∈ p.readings := by
  obtain ⟨q, hq, hpart, hreading⟩ := exists_partner hchosen h
  obtain rfl : p = q := hpart
  exact ⟨hq, hreading⟩

/-- **Each condition says of its piece what it has to say.** -/
theorem describes_of_mem (hapart : symbols.StarsApart) (hinitial : symbols.spell <+: buffer)
    (hlaid : Laid symbols.spell buffer 0 symbols ps) (hchosen : List.Forall₂ IsChoice chosen ps) :
    ∀ entry ∈ describedAll width buffer chosen, Describes width symbols.spell buffer entry.1 entry.2 := by
  intro entry hentry
  obtain ⟨⟨p, reading⟩, hchoice, hentry⟩ := List.mem_flatMap.mp hentry
  obtain ⟨segment, hsegment, hdescribed⟩ := List.mem_filterMap.mp hentry
  obtain ⟨hp, hreading⟩ := mem_of_mem_chosen hchosen hchoice
  have hin := hlaid.isIn p hp
  have hlies := hlaid.liesIn p hp
  have hshows := (hlaid.isRead p hp).shows reading hreading segment hsegment
  cases segment with
  | static span => cases hdescribed
  | exact span =>
    cases hdescribed
    exact describes_exact hin hlies hinitial hshows
  | wildcard span kind =>
    cases hdescribed
    exact describes_pattern hapart hin hlies hinitial hshows

/-- The piece of a condition lies within its part. -/
theorem range_within {p : ReadPart} {segment : Segment} {entry : Span × VariableQuery View}
    (hspan : p.piece.Has segment.span) (h : p.described width buffer segment = some entry) :
    p.piece.start ≤ entry.1.start ∧ entry.1.start < entry.1.stop ∧ entry.1.stop ≤ p.piece.stop := by
  rw [fst_described h]
  have hstop := p.piece.place_le_place hspan.2
  rw [p.piece.place_length] at hstop
  exact ⟨p.piece.start_le_range _, p.piece.place_lt_place hspan.1 (Nat.lt_of_lt_of_le hspan.1 hspan.2), hstop⟩

/-- **The conditions of a subquery follow each other.** -/
theorem pairwise_describedAll (hlaid : Laid symbols.spell buffer 0 symbols ps)
    (hchosen : List.Forall₂ IsChoice chosen ps) :
    (describedAll width buffer chosen).Pairwise (Follows symbols.spell) := by
  have hparts : chosen.Pairwise fun first second => first.1.piece.stop ≤ second.1.piece.start := by
    have hfirst : chosen.map Prod.fst = ps := by
      rw [← List.forall₂_eq_eq_eq, List.forall₂_map_left_iff]
      exact hchosen.imp fun _ _ h => h.1
    have hpairwise := hlaid.pairwise
    rw [← hfirst] at hpairwise
    exact List.pairwise_map.mp hpairwise
  rw [describedAll, List.pairwise_flatMap]
  refine ⟨?within, hparts.imp_of_mem ?between⟩
  case within =>
    rintro ⟨p, reading⟩ hchoice
    obtain ⟨hp, hreading⟩ := mem_of_mem_chosen hchosen hchoice
    have hshows := (hlaid.isRead p hp).shows reading hreading
    have hpairwise := List.pairwise_map.mp (pairwise_of_tiles ((hlaid.isRead p hp).tiles reading hreading))
    refine List.pairwise_filterMap.mpr (hpairwise.imp_of_mem ?_)
    intro first second hfirst hsecond hbehind x hx y hy
    exact follows_of_behind (hlaid.isIn p hp) (hshows first hfirst) (hshows second hsecond) hbehind hx hy
  case between =>
    rintro ⟨p, reading⟩ ⟨q, other⟩ hfirst hsecond hle x hx y hy
    obtain ⟨hp, hreading⟩ := mem_of_mem_chosen hchosen hfirst
    obtain ⟨hq, hother⟩ := mem_of_mem_chosen hchosen hsecond
    obtain ⟨first, hfirst, hx⟩ := List.mem_filterMap.mp hx
    obtain ⟨second, hsecond, hy⟩ := List.mem_filterMap.mp hy
    obtain ⟨-, hx, hxStop⟩ := range_within ((hlaid.isRead p hp).shows reading hreading first hfirst).has hx
    obtain ⟨hyStart, -, -⟩ := range_within ((hlaid.isRead q hq).shows other hother second hsecond).has hy
    have hbehind : x.1.stop ≤ y.1.start := Nat.le_trans hxStop (Nat.le_trans hle hyStart)
    exact ⟨Nat.lt_of_lt_of_le hx hbehind, .inl hbehind⟩

end

/-- **The conditions of the subqueries say what their pieces of the query are.**  Taking a query apart ends in a refusal
or in subqueries, and no index, range or view goes wrong on the way.  The views of all subqueries are views of one buffer
that starts with the query in normal form, and they lie within it.  Each condition is for a piece of the query, a run of
its units: a pattern is the piece itself, which is its own normal form and has a wildcard and a unit that is no star; a
value is what the literals of the piece stand for, and a number is what this packs to.  The pieces of one subquery lie
one behind the other, but for the star that two patterns may share. -/
theorem descriptors_of_decomposeInPlace (schema : Schema) (width : Width) (limit : UInt64) (query : Bytes) :
    (∃ e, decompose schema width limit.toNat query = .error e ∧
      decomposeInPlace schema width limit query = .error (.refused e)) ∨
    ∃ d buffer, decompose schema width limit.toNat query = .ok d ∧
      decomposeInPlace schema width limit query = .ok (d.subqueries.map (.ofSubquery buffer)) ∧
      Wildcard.normalize query <+: buffer ∧
      ∀ s ∈ d.subqueries, ∃ described : List (Span × VariableQuery View),
        described.map Prod.snd = (BuiltSubquery.ofSubquery buffer s).vars ∧
        (∀ entry ∈ described, Describes width (Wildcard.normalize query) buffer entry.1 entry.2) ∧
        described.Pairwise (Follows (Wildcard.normalize query)) := by
  rw [decomposeInPlace_eq]
  cases hd : decompose schema width limit.toNat query with
  | error e => exact .inl ⟨e, rfl, rfl⟩
  | ok d =>
    refine .inr ⟨d, buffer schema (Pattern.ofQuery query), rfl, rfl, List.prefix_append _ _, ?_⟩
    intro s hs
    obtain ⟨rfl, hlaid⟩ := laid_of_decompose hd
    obtain ⟨readings, hreadings, rfl⟩ := List.mem_map.mp hs
    have hchosen := isChoice_of_mem_combinations hreadings
    have hapart : (Pattern.ofQuery query).StarsApart := Pattern.starsApart_collapse _
    refine ⟨describedAll d.width (buffer schema (Pattern.ofQuery query)) (d.parts.zip readings), ?_,
      describes_of_mem hapart (List.prefix_append _ _) hlaid hchosen, pairwise_describedAll hlaid hchosen⟩
    rw [snd_describedAll, ← filterMap_condition_collapse]
    rfl

end LogCodec.Query
