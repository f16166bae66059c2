import LogCodec.Proofs.RangedReadings

/-!
# `LogCodec.Proofs.RangedChoices`: the readings of a token are collected by their ranges

Readings that are there are dropped, and they are compared by their ranges instead of by their symbols.  This is the
same because different segments have different ranges, also those whose values are appended to the buffer.  What is
appended while the readings are collected is what the buffer of a query has for the token.

## Contents
- **Comparing.** `Piece.Shows`, and `ranged_inj`; `foldl_addReading`.
- **Segments.** `shows_of_alternatives`: the segments of a reading show parts of the token.
- **Collecting.** `met_eq_appended`, and `Store.choices_fill`: the readings of a token by their ranges, with the values
  that are appended.
-/

namespace LogCodec.Query

/-! ## Comparing -/

namespace Piece

/-- The segment has symbols of the piece; if it is a value, it has no wildcards, and it is appended if it takes an
escape; if it is a pattern, it has wildcards and something else than stars. -/
structure Shows (p : Piece) (appended : List Span) (segment : Segment) : Prop where
  has : p.Has segment.span
  exact_of_value : ∀ span, segment = .exact span → (p.slice span).isExact = true
  mem_of_escaped : ∀ span, segment = .exact span → (p.slice span).isEscaped = true → span ∈ appended
  mixed_of_pattern : ∀ span kind, segment = .wildcard span kind →
    (p.slice span).isExact = false ∧ (p.slice span).isStars = false

section
variable {p : Piece} {width : Width} {filled : Nat} {appended : List Span} {s t : Span}

theorem values_append (p : Piece) (spans more : List Span) : p.values (spans ++ more) = p.values spans ++ p.values more :=
  List.flatMap_append

/-- A value without wildcards is not empty. -/
theorem length_literals_pos (hs : p.Has s) (hexact : (p.slice s).isExact = true) : 0 < (p.slice s).literals.length := by
  rw [(length_literals_eq_iff _).mpr hexact]
  exact List.length_pos_iff.mpr hs.slice_ne_nil

/-- One of two members of a list comes first. -/
theorem takeWhile_prefix_of_ne {α : Type} [DecidableEq α] {x y : α} (hne : x ≠ y) {xs : List α} (hx : x ∈ xs)
    (hy : y ∈ xs) :
    xs.takeWhile (· != x) ++ [x] <+: xs.takeWhile (· != y) ∨ xs.takeWhile (· != y) ++ [y] <+: xs.takeWhile (· != x) := by
  induction xs with
  | nil => cases hx
  | cons z xs ih =>
    have hkeep : ∀ w, z ≠ w → (z :: xs).takeWhile (· != w) = z :: xs.takeWhile (· != w) := by
      intro w hzw
      simp [hzw]
    have hstop : (z :: xs).takeWhile (· != z) = [] := by simp
    by_cases hzx : z = x
    · rw [← hzx, hstop, hkeep y (hzx ▸ hne)]
      exact .inl ⟨_, rfl⟩
    · by_cases hzy : z = y
      · rw [← hzy, hstop, hkeep x hzx]
        exact .inr ⟨_, rfl⟩
      · have hx' : x ∈ xs := (List.mem_cons.mp hx).resolve_left (Ne.symm hzx)
        have hy' : y ∈ xs := (List.mem_cons.mp hy).resolve_left (Ne.symm hzy)
        rw [hkeep x hzx, hkeep y hzy]
        exact (ih hx' hy').imp (List.prefix_cons_inj z).mpr (List.prefix_cons_inj z).mpr

theorem span_value_plain (h : (p.slice s).isEscaped = false) (hs : p.Has s) :
    (p.value filled appended s).span = p.range s := by
  unfold value
  simp only [h, Bool.false_eq_true, if_false]
  rw [p.range_part (Nat.le_of_lt hs.1)]
  rfl

theorem start_value_escaped (h : (p.slice s).isEscaped = true) :
    (p.value filled appended s).span.start = filled + (p.values (appended.takeWhile (· != s))).length := by
  unfold value
  simp only [h, if_true]
  rfl

/-- No two values of a piece stand in the same place. -/
theorem value_inj (hfilled : p.stop ≤ filled) (hs : p.Shows appended (.exact s)) (ht : p.Shows appended (.exact t))
    (h : (p.value filled appended s).span = (p.value filled appended t).span) : s = t := by
  have hhas : p.Has s ∧ p.Has t := ⟨hs.has, ht.has⟩
  -- A value in the query starts before the end of the piece, and one that is appended behind it.
  have hbefore : ∀ r : Span, p.Has r → (p.range r).start < p.stop := by
    intro r hr
    have hlt := p.place_lt_place hr.1 (Nat.lt_of_lt_of_le hr.1 hr.2)
    have hle := p.place_le_place hr.2
    rw [p.place_length] at hle
    show p.place r.start < p.stop
    omega
  by_cases hsEscaped : (p.slice s).isEscaped = true
  · by_cases htEscaped : (p.slice t).isEscaped = true
    · by_contra hne
      have hstart := congrArg Span.start h
      rw [start_value_escaped hsEscaped, start_value_escaped htEscaped] at hstart
      have hlonger : ∀ r r' : Span, p.Shows appended (.exact r) →
          appended.takeWhile (· != r) ++ [r] <+: appended.takeWhile (· != r') →
          (p.values (appended.takeWhile (· != r))).length < (p.values (appended.takeWhile (· != r'))).length := by
        intro r r' hr hinitial
        obtain ⟨more, hmore⟩ := hinitial
        have hpos := length_literals_pos hr.has (hr.exact_of_value r rfl)
        have hvalue : p.values [r] = (p.slice r).literals := by simp [values]
        rw [← hmore, values_append, values_append, hvalue, List.length_append, List.length_append]
        replace hpos : 0 < (p.slice r).literals.length := hpos
        omega
      rcases takeWhile_prefix_of_ne hne (hs.mem_of_escaped s rfl hsEscaped) (ht.mem_of_escaped t rfl htEscaped) with
        hinitial | hinitial
      · have := hlonger s t hs hinitial
        omega
      · have := hlonger t s ht hinitial
        omega
    · rw [Bool.not_eq_true] at htEscaped
      rw [span_value_plain htEscaped hhas.2] at h
      have hstart := congrArg Span.start h
      rw [start_value_escaped hsEscaped] at hstart
      have := hbefore t hhas.2
      omega
  · rw [Bool.not_eq_true] at hsEscaped
    rw [span_value_plain hsEscaped hhas.1] at h
    by_cases htEscaped : (p.slice t).isEscaped = true
    · have hstart := congrArg Span.start h
      rw [start_value_escaped htEscaped] at hstart
      have := hbefore s hhas.1
      omega
    · rw [Bool.not_eq_true] at htEscaped
      rw [span_value_plain htEscaped hhas.2] at h
      exact range_inj hhas.1 hhas.2 h

/-- **Different segments of a piece have different ranges.** -/
theorem ranged_inj (hfilled : p.stop ≤ filled) {first second : Segment} (hfirst : p.Shows appended first)
    (hsecond : p.Shows appended second)
    (h : p.ranged width filled appended first = p.ranged width filled appended second) : first = second := by
  cases first with
  | static s =>
    cases second with
    | static t => exact congrArg _ (range_inj hfirst.has hsecond.has (RangeSegment.static.inj h))
    | exact t => cases h
    | wildcard t kind => cases h
  | exact s =>
    cases second with
    | static t => cases h
    | exact t => exact congrArg _ (value_inj hfilled hfirst hsecond (RangeSegment.exact.inj h).1)
    | wildcard t kind => cases h
  | wildcard s kind =>
    cases second with
    | static t => cases h
    | exact t => cases h
    | wildcard t other =>
      obtain ⟨hrange, rfl, -, -⟩ := RangeSegment.wildcard.inj h
      exact congrArg (Segment.wildcard · _) (range_inj hfirst.has hsecond.has hrange)

/-- Different readings of a piece have different ranges. -/
theorem map_ranged_inj (hfilled : p.stop ≤ filled) {first second : List Segment}
    (hfirst : ∀ segment ∈ first, p.Shows appended segment) (hsecond : ∀ segment ∈ second, p.Shows appended segment)
    (h : first.map (p.ranged width filled appended) = second.map (p.ranged width filled appended)) :
    first = second := by
  induction first generalizing second with
  | nil => exact (List.map_eq_nil_iff.mp h.symm).symm
  | cons s first ih =>
    cases second with
    | nil => cases h
    | cons t second =>
      obtain ⟨hs, hlaterFirst⟩ := List.forall_mem_cons.mp hfirst
      obtain ⟨ht, hlaterSecond⟩ := List.forall_mem_cons.mp hsecond
      obtain ⟨hhead, htail⟩ := List.cons.inj h
      rw [ranged_inj hfilled hs ht hhead, ih hlaterFirst hlaterSecond htail]

end

end Piece

/-- A member is added behind the others, unless it is there. -/
theorem toList_add (found : Roster (id : Reading → List Segment)) (reading : Reading) :
    (found.add reading).toList = if reading ∈ found.toList then found.toList else found.toList ++ [reading] := by
  have hmem : found.index.contains reading = true ↔ reading ∈ found.toList := by
    rw [found.contains_iff, List.map_id, Roster.toList, List.mem_reverse]
  unfold Roster.add
  split
  · next hcontains => rw [if_pos (hmem.mp hcontains)]
  · next hcontains =>
    rw [if_neg fun h => hcontains (hmem.mpr h)]
    simp [Roster.toList]

section
variable {p : Piece} {schema : Schema} {width : Width} {filled : Nat} {seen appended : List Span}
  {precededBy : Option UInt8} {selected : List SplitPoint}

/-- **Readings are added by their ranges as they are by their symbols.** -/
theorem foldl_addReading (hfilled : p.stop ≤ filled) (found : Roster (id : Reading → List Segment))
    {readings : List Reading} (hfound : ∀ reading ∈ found.toList, ∀ segment ∈ reading, p.Shows appended segment)
    (hreadings : ∀ reading ∈ readings, ∀ segment ∈ reading, p.Shows appended segment) :
    (readings.map (List.map (p.ranged width filled appended))).foldl addReading
        (found.toList.map (List.map (p.ranged width filled appended))) =
      (found.addAll readings).toList.map (List.map (p.ranged width filled appended)) := by
  induction readings generalizing found with
  | nil => rfl
  | cons reading readings ih =>
    obtain ⟨hreading, hlater⟩ := List.forall_mem_cons.mp hreadings
    have hmem : reading.map (p.ranged width filled appended) ∈
        found.toList.map (List.map (p.ranged width filled appended)) ↔ reading ∈ found.toList := by
      constructor
      · intro h
        obtain ⟨other, hother, heq⟩ := List.mem_map.mp h
        rwa [← Piece.map_ranged_inj hfilled (hfound other hother) hreading heq]
      · exact List.mem_map_of_mem
    have hadd : addReading (found.toList.map (List.map (p.ranged width filled appended)))
        (reading.map (p.ranged width filled appended)) =
        (found.add reading).toList.map (List.map (p.ranged width filled appended)) := by
      rw [addReading, toList_add]
      by_cases hin : reading ∈ found.toList
      · rw [if_pos hin, if_pos (List.contains_iff_mem.mpr (hmem.mpr hin))]
      · rw [if_neg hin, if_neg fun h => hin (hmem.mp (List.contains_iff_mem.mp h)), List.map_append]
        rfl
    have hkept : ∀ other ∈ (found.add reading).toList, ∀ segment ∈ other, p.Shows appended segment := by
      intro other hother
      rw [toList_add] at hother
      split at hother
      · exact hfound other hother
      · rcases List.mem_append.mp hother with hother | hother
        · exact hfound other hother
        · rw [List.mem_singleton.mp hother]
          exact hreading
    rw [List.map_cons, List.foldl_cons, hadd, ih _ hkept hlater]
    rfl

/-! ## Segments -/

/-- A value among the alternatives of a cut has no wildcards. -/
theorem isExact_of_mem_alternatives {cut : Cut} {span : Span} (h : .exact span ∈ cut.alternatives schema p) :
    (p.slice span).isExact = true := by
  have hspan : span = cut.span := span_of_mem_alternatives h
  cases cut with
  | delimiter index => cases List.mem_singleton.mp h
  | piece other context =>
    obtain rfl : span = other := hspan
    simp only [Cut.alternatives] at h
    split at h
    · next hexact => exact hexact
    · rcases mem_wildcardAlternatives h with heq | ⟨kind, heq⟩
      · cases heq
      · cases heq

/-- A pattern among the alternatives of a cut has wildcards, and something else than stars. -/
theorem mixed_of_mem_alternatives {cut : Cut} {span : Span} {kind : Placeholder}
    (h : .wildcard span kind ∈ cut.alternatives schema p) :
    (p.slice span).isExact = false ∧ (p.slice span).isStars = false := by
  have hspan : span = cut.span := span_of_mem_alternatives h
  cases cut with
  | delimiter index => cases List.mem_singleton.mp h
  | piece other context =>
    obtain rfl : span = other := hspan
    simp only [Cut.alternatives] at h
    split at h
    · rcases mem_exactAlternatives h with heq | heq
      · cases heq
      · cases heq
    · next hexact =>
      refine ⟨Bool.not_eq_true _ ▸ hexact, ?_⟩
      rw [wildcardAlternatives] at h
      split at h
      · cases List.mem_singleton.mp h
      · next hstars => exact Bool.not_eq_true _ ▸ hstars

/-- Every value that takes an escape is met. -/
theorem Piece.mem_noteAll_of_exact {segments : List Segment} {span : Span} (h : .exact span ∈ segments)
    (hescaped : (p.slice span).isEscaped = true) : span ∈ p.noteAll seen segments := by
  induction segments generalizing seen with
  | nil => cases h
  | cons segment segments ih =>
    rcases List.mem_cons.mp h with rfl | hlater
    · refine (p.prefix_noteAll _ segments).subset ?_
      by_cases hmem : span ∈ seen
      · rwa [note_exact_of_mem hmem]
      · rw [note_exact_of_not_mem hescaped hmem]
        exact List.mem_append_right seen (List.mem_singleton_self span)
    · exact ih hlater

/-- Joining static text adds nothing else. -/
theorem mem_foldr_cons {segments : List Segment} {segment : Segment} (h : segment ∈ segments.foldr Reading.cons []) :
    (∃ span, segment = .static span) ∨ segment ∈ segments := by
  induction segments generalizing segment with
  | nil => cases h
  | cons first segments ih =>
    have hlater : ∀ other ∈ segments.foldr Reading.cons [], (∃ span, other = .static span) ∨
        other ∈ first :: segments := fun other hother => (ih hother).imp_right (List.mem_cons_of_mem first)
    rw [List.foldr_cons, Reading.cons.eq_def] at h
    split at h
    · next span next rest hrest =>
      rw [hrest] at hlater
      split at h
      · rcases List.mem_cons.mp h with rfl | h
        · exact .inl ⟨_, rfl⟩
        · exact hlater segment (List.mem_cons_of_mem _ h)
      · rcases List.mem_cons.mp h with rfl | h
        · exact .inl ⟨_, rfl⟩
        · exact hlater segment h
    · rcases List.mem_cons.mp h with rfl | h
      · exact .inr List.mem_cons_self
      · exact hlater segment h

/-- Spans that tile a token have symbols of it. -/
theorem has_of_tiles {covered : Nat} {spans : List Span} (h : Tiles p.symbols covered spans) :
    ∀ span ∈ spans, p.Has span := by
  induction h with
  | nil =>
    intro span hspan
    cases hspan
  | cons hjoins hne hrest ih => exact List.forall_mem_cons.mpr ⟨⟨hne, hrest.le_length⟩, ih⟩

/-- The segments of a reading show parts of the token, if all values that take an escape are appended. -/
theorem shows_of_alternatives (hselected : selected.Sublist (splitPoints p.symbols)) {segments : List Segment}
    (hall : List.Forall₂ (fun segment cut => segment ∈ Cut.alternatives schema p cut) segments
      (cuts p.symbols.length precededBy selected))
    (hvalues : ∀ cut ∈ cuts p.symbols.length precededBy selected, ∀ span, .exact span ∈ cut.alternatives schema p →
      (p.slice span).isEscaped = true → span ∈ appended) :
    ∀ segment ∈ segments.foldr Reading.cons [], p.Shows appended segment := by
  intro segment hsegment
  have hsplits : p.Splits schema precededBy segments := ⟨selected, hselected, hall⟩
  have halternative : (∃ span, segment = .static span) ∨
      ∃ cut ∈ cuts p.symbols.length precededBy selected, segment ∈ cut.alternatives schema p :=
    (mem_foldr_cons hsegment).imp_right (exists_partner hall)
  refine ⟨has_of_tiles (tiles_foldr_cons hsplits.tiles) _ (List.mem_map_of_mem hsegment), ?_, ?_, ?_⟩
  · rintro span rfl
    obtain ⟨_, hstatic⟩ | ⟨cut, -, hin⟩ := halternative
    · cases hstatic
    · exact isExact_of_mem_alternatives hin
  · rintro span rfl hescaped
    obtain ⟨_, hstatic⟩ | ⟨cut, hcut, hin⟩ := halternative
    · cases hstatic
    · exact hvalues cut hcut span hin hescaped
  · rintro span kind rfl
    obtain ⟨_, hstatic⟩ | ⟨cut, -, hin⟩ := halternative
    · cases hstatic
    · exact mixed_of_mem_alternatives hin

/-- The segments of the readings at some split points show parts of the token, if their values have been met. -/
theorem shows_of_mem_readingsAt {limit : Nat} {readings : List Reading}
    (hselected : selected.Sublist (splitPoints p.symbols))
    (h : p.readingsAt schema limit precededBy selected = some readings)
    (hmet : (p.met schema seen (cuts p.symbols.length precededBy selected)).Subset appended) :
    ∀ reading ∈ readings, ∀ segment ∈ reading, p.Shows appended segment := by
  intro reading hreading
  obtain ⟨segments, hall, rfl⟩ := (mem_readingsAt h).mp hreading
  refine shows_of_alternatives hselected hall ?_
  intro cut hcut span hin hescaped
  exact hmet (Piece.mem_noteAll_of_exact (List.mem_flatMap.mpr ⟨cut, hcut, hin⟩) hescaped)

end

/-! ## Collecting -/

/-- What the digits of a number select is a part of the list. -/
theorem selectBits_sublist {α : Type} (mask digit : Nat) (xs : List α) : (selectBits mask digit xs).Sublist xs := by
  induction xs generalizing digit with
  | nil => exact .refl []
  | cons x xs ih =>
    unfold selectBits
    split
    · exact (ih (digit + 1)).cons_cons x
    · exact (ih (digit + 1)).cons x

theorem toList_addAll (found : Roster (id : Reading → List Segment)) {readings : List Reading} {reading : Reading}
    (h : reading ∈ (found.addAll readings).toList) : reading ∈ found.toList ∨ reading ∈ readings := by
  have hkeys := (@Roster.mem_keys_addAll _ _ _ (id : Reading → List Segment) found readings reading).mp
  simpa [Roster.toList] using hkeys (by simpa [Roster.toList] using h)

section
variable {store : Store} {p : Piece} {schema : Schema} {width : Width} {seen appended : List Span}
  {precededBy : Option UInt8}

/-- **The readings of a token are collected by their ranges as they are by their symbols.** -/
theorem Store.collect_fill (hbefore : store.IsBefore p) (hfilled : p.stop ≤ store.buffer.length) (limit : UInt64)
    (hseen : ∀ s ∈ seen, p.Has s) (found : Roster (id : Reading → List Segment))
    (hfound : ∀ reading ∈ found.toList, ∀ segment ∈ reading, p.Shows appended segment) (masks : List Nat)
    (hinitial : p.met schema seen ((masks.map fun mask => selectBits mask 0 (splitPoints p.symbols)).flatMap
      (cuts p.symbols.length precededBy)) <+: appended) :
    (store.fill p seen).collect schema width limit p.units precededBy
        (found.toList.map (List.map (p.ranged width store.buffer.length appended))) masks =
      (orTooMany limit ((masks.map fun mask => selectBits mask 0 (splitPoints p.symbols)).foldlM
        (fun (found : Roster (id : Reading → List Segment)) selected => do
          let found := found.addAll (← p.readingsAt schema limit.toNat precededBy selected)
          if limit.toNat < found.size then none else some found) found)).map fun found =>
        (found.toList.map (List.map (p.ranged width store.buffer.length appended)),
          store.fill p (p.met schema seen ((masks.map fun mask => selectBits mask 0 (splitPoints p.symbols)).flatMap
            (cuts p.symbols.length precededBy)))) := by
  induction masks generalizing seen found with
  | nil => rfl
  | cons mask masks ih =>
    have hselected := selectBits_sublist mask 0 (splitPoints p.symbols)
    rw [List.map_cons, List.flatMap_cons, Piece.met_append] at hinitial
    have hfront := (p.prefix_met schema _ _).trans hinitial
    have hpieces : (store.fill p seen).pieces schema width p.units mask 0 0 (.known precededBy) (splitIndices p.units) =
        .ok (p.slots schema width store.buffer.length appended
            (cuts p.symbols.length precededBy (selectBits mask 0 (splitPoints p.symbols))),
          store.fill p (p.met schema seen
            (cuts p.symbols.length precededBy (selectBits mask 0 (splitPoints p.symbols))))) := by
      rw [splitIndices_eq, p.map_symbol_units]
      exact pieces_fill hbefore hseen mask 0 (isAt_splitPoints p.symbols) hfront
    rw [collect, hpieces]
    show (grow limit [[]] _ >>= _) = _
    rw [grow_slots schema limit hselected, List.map_cons, List.foldlM_cons, List.flatMap_cons, Piece.met_append]
    cases hread : p.readingsAt schema limit.toNat precededBy (selectBits mask 0 (splitPoints p.symbols)) with
    | none => rfl
    | some readings =>
      have hreadings := shows_of_mem_readingsAt hselected hread hfront.subset
      have hadded : ∀ reading ∈ (found.addAll readings).toList, ∀ segment ∈ reading, p.Shows appended segment :=
        fun reading h => (toList_addAll found h).elim (hfound reading) (hreadings reading)
      have hlength : ((found.addAll readings).toList.map
          (List.map (p.ranged width store.buffer.length appended))).length = (found.addAll readings).size := by
        rw [List.length_map, Roster.toList, List.length_reverse, Roster.length_eq]
      have hmet : ∀ s ∈ p.met schema seen
          (cuts p.symbols.length precededBy (selectBits mask 0 (splitPoints p.symbols))), p.Has s := by
        refine Piece.has_met hseen fun cut hcut => ?_
        exact has_of_tiles (tiles_cuts hselected precededBy) _ (List.mem_map_of_mem hcut)
      show (if limit.toNat < (List.foldl addReading _ (readings.map _)).length then _ else
        collect _ _ _ _ _ (List.foldl addReading _ (readings.map _)) _ _) = _
      rw [foldl_addReading hfilled found hfound hreadings, hlength]
      by_cases hmore : limit.toNat < (found.addAll readings).size
      · simp only [Option.bind_eq_bind, Option.bind_some, hmore, if_true, Option.bind_none]
        rfl
      · rw [if_neg hmore, ih hmet _ hadded hinitial]
        simp only [Option.bind_eq_bind, Option.bind_some, hmore, if_false]

/-- The place of a value that takes an escape. -/
def Piece.escaped? (p : Piece) : Segment → Option Span
  | .exact span => if (p.slice span).isEscaped then some span else none
  | _ => none

/-- Places that are noted one after the other are those of all values, each of them once. -/
theorem Piece.noteAll_eq (p : Piece) (segments : List Segment) :
    p.noteAll [] segments = (segments.filterMap p.escaped?).eraseDups := by
  have hremove : ∀ (span : Span) (spans : List Span),
      ([span].removeAll spans).eraseDups = if span ∈ spans then [] else [span] := by
    intro span spans
    by_cases hmem : span ∈ spans
    · simp [List.removeAll, hmem]
    · simp [List.removeAll, hmem, List.eraseDups_cons]
  induction segments using List.reverseRecOn with
  | nil => rfl
  | append_singleton segments segment ih =>
    rw [noteAll_append, ih, List.filterMap_append, List.eraseDups_append]
    cases segment with
    | static span => exact (List.append_nil _).symm
    | wildcard span kind => exact (List.append_nil _).symm
    | exact span =>
      show p.note _ (.exact span) = _
      by_cases hescaped : (p.slice span).isEscaped = true
      · have hsingle : [Segment.exact span].filterMap p.escaped? = [span] := by
          simp [escaped?, hescaped]
        rw [hsingle, hremove]
        by_cases hmem : span ∈ segments.filterMap p.escaped?
        · rw [note_exact_of_mem (List.mem_eraseDups.mpr hmem), if_pos hmem, List.append_nil]
        · rw [note_exact_of_not_mem hescaped fun h => hmem (List.mem_eraseDups.mp h), if_neg hmem]
      · rw [Bool.not_eq_true] at hescaped
        have hsingle : [Segment.exact span].filterMap p.escaped? = [] := by
          simp [escaped?, hescaped]
        rw [hsingle, note_exact_of_plain hescaped]
        exact (List.append_nil _).symm

/-- No part of a piece takes an escape unless the piece does. -/
theorem Piece.isEscaped_slice (h : p.symbols.isEscaped = false) (span : Span) : (p.slice span).isEscaped = false := by
  rw [Pattern.isEscaped, List.any_eq_false] at h ⊢
  intro s hs
  exact h s (List.mem_of_mem_drop (List.mem_of_mem_take hs))

/-- **The values that are met are those that are appended.** -/
theorem met_eq_appended (schema : Schema) (p : Piece) (precededBy : Option UInt8) :
    p.met schema [] ((selections (splitPoints p.symbols)).flatMap (cuts p.symbols.length precededBy)) =
      Part.appended schema (.token p precededBy) := by
  rw [Piece.met, Piece.noteAll_eq, Part.appended]
  split
  · rw [List.flatMap_assoc, List.filterMap_flatMap]
    simp only [List.filterMap_flatMap]
    have hescaped? : p.escaped? = fun
        | .exact span => if (p.slice span).isEscaped then some span else none
        | _ => none := by
      funext segment
      cases segment <;> rfl
    exact congrArg (fun place? => ((selections (splitPoints p.symbols)).flatMap fun selected =>
      (cuts p.symbols.length precededBy selected).flatMap fun cut =>
        (cut.alternatives schema p).filterMap place?).eraseDups) hescaped?
  · next hplain =>
    rw [Bool.not_eq_true] at hplain
    have hnone : p.escaped? = fun _ => none := by
      funext segment
      cases segment with
      | exact span => simp [Piece.escaped?, Piece.isEscaped_slice hplain]
      | static span => rfl
      | wildcard span kind => rfl
    rw [hnone, List.filterMap_none]
    rfl

/-- The segments of the readings of a token show parts of it. -/
theorem shows_of_mem_readings {limit : Nat} {readings : List Reading}
    (h : p.readings schema limit precededBy = some readings) :
    ∀ reading ∈ readings, ∀ segment ∈ reading, p.Shows (Part.appended schema (.token p precededBy)) segment := by
  intro reading hreading
  obtain ⟨segments, ⟨selected, hselected, hall⟩, rfl⟩ := (mem_readings h).mp hreading
  refine shows_of_alternatives hselected hall ?_
  intro cut hcut span hin hescaped
  rw [← met_eq_appended]
  refine Piece.mem_noteAll_of_exact (List.mem_flatMap.mpr ⟨cut, ?_, hin⟩) hescaped
  exact List.mem_flatMap.mpr ⟨selected, mem_selections.mpr hselected, hcut⟩

/-- **The readings of a token by their ranges.**  They are those of its symbols, and the buffer has grown by the values
that take an escape. -/
theorem Store.choices_fill (schema : Schema) (width : Width) (limit : UInt64) (precededBy : Option UInt8)
    (hbefore : store.IsBefore p) (hfilled : p.stop ≤ store.buffer.length) :
    store.choices schema width limit p.units precededBy =
      (orTooMany limit (p.readings schema limit.toNat precededBy)).map fun readings =>
        (readings.map (List.map (p.ranged width store.buffer.length (Part.appended schema (.token p precededBy)))),
          store.fill p (Part.appended schema (.token p precededBy))) := by
  have hsplits : (splitIndices p.units).length = (splitPoints p.symbols).length := by
    rw [splitIndices_eq, p.map_symbol_units, List.length_map]
  have hrefused : (64 ≤ (splitPoints p.symbols).length ∨ limit.toNat < Nat.pow 2 (splitPoints p.symbols).length) ↔
      limit.toNat < Nat.pow 2 (splitPoints p.symbols).length := by
    refine ⟨?_, .inr⟩
    rintro (hmany | hmore)
    · exact Nat.lt_of_lt_of_le limit.toNat_lt (Nat.pow_le_pow_right Nat.zero_lt_two hmany)
    · exact hmore
  unfold choices Piece.readings
  simp only [hsplits, hrefused]
  by_cases hmore : limit.toNat < Nat.pow 2 (splitPoints p.symbols).length
  · rw [if_pos hmore, if_pos hmore]
    rfl
  · rw [if_neg hmore, if_neg hmore]
    have hcollect := @collect_fill store p schema width [] (Part.appended schema (.token p precededBy)) precededBy hbefore
      hfilled limit (by simp) .empty (by simp [Roster.toList, Roster.empty])
      (List.range (Nat.pow 2 (splitPoints p.symbols).length))
    rw [map_selectBits, met_eq_appended, fill_nil] at hcollect
    refine (hcollect (List.prefix_refl _)).trans ?_
    generalize List.foldlM (m := Option) _ (Roster.empty : Roster (id : Reading → List Segment))
      (selections (splitPoints p.symbols)) = found
    cases found <;> rfl

end

end LogCodec.Query
