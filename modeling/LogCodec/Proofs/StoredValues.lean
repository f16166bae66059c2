import LogCodec.Proofs.QueryUnits

/-!
# `LogCodec.Proofs.StoredValues`: where the values of a token are

While a token is read the buffer grows: each value that takes an escape is appended when it is first met, and found
again by the range that spells it.  What the store holds is said by the places of these values in the token, in the order
in which they were met.  The order is all that matters: a value that is met later does not move one that is there, so a
segment can be given its ranges by the places that are met in the end.

## Contents
- **Ranges.** `Piece.Has`, and `range_inj`: no two spans of a piece have the same range.
- `Piece.note`, and `noteAll`, the places that are met; `value_of_initial`.
- `Store.fill`, the store behind them; `Store.IsBefore`, and `lookup_fill`.
- `Piece.ranged`: a segment by its ranges; `readSegments_fill` and `readPiece_fill`.
- `selectBits`, the split points that the digits of a number select, and `pieces_fill`, for a whole token.
-/

namespace LogCodec.Query

/-! ## Ranges -/

namespace Piece

/-- The span has some symbols of the piece. -/
def Has (p : Piece) (span : Span) : Prop := span.start < span.stop ∧ span.stop ≤ p.symbols.length

section
variable {p : Piece} {s t : Span}

theorem Has.slice_ne_nil (h : p.Has s) : p.slice s ≠ [] := by
  have hlength := Span.length_slice p.symbols ⟨Nat.le_of_lt h.1, h.2⟩
  refine List.ne_nil_of_length_pos ?_
  rw [slice, hlength, Span.length]
  exact Nat.sub_pos_of_lt h.1

theorem place_inj {a b : Nat} (ha : a ≤ p.symbols.length) (hb : b ≤ p.symbols.length) (h : p.place a = p.place b) :
    a = b := by
  rcases Nat.lt_trichotomy a b with hlt | heq | hlt
  · have := p.place_lt_place hlt (Nat.lt_of_lt_of_le hlt hb)
    omega
  · exact heq
  · have := p.place_lt_place hlt (Nat.lt_of_lt_of_le hlt ha)
    omega

/-- No two spans of a piece have the same range. -/
theorem range_inj (hs : p.Has s) (ht : p.Has t) (h : p.range s = p.range t) : s = t := by
  have hstart := place_inj (Nat.le_trans (Nat.le_of_lt hs.1) hs.2) (Nat.le_trans (Nat.le_of_lt ht.1) ht.2)
    (congrArg Span.start h)
  have hstop := place_inj hs.2 ht.2 (congrArg Span.stop h)
  cases s
  cases t
  rw [Span.mk.injEq]
  exact ⟨hstart, hstop⟩

theorem start_le_range (p : Piece) (s : Span) : p.start ≤ (p.range s).start := Nat.le_add_right _ _

end

/-! ## Places that are met -/

/-- The places of values that take an escape, once a segment has been met. -/
def note (p : Piece) (seen : List Span) : Segment → List Span
  | .exact span => if (p.slice span).isEscaped = true ∧ span ∉ seen then seen ++ [span] else seen
  | _ => seen

/-- The places of values that take an escape, once some segments have been met. -/
def noteAll (p : Piece) (seen : List Span) (segments : List Segment) : List Span := segments.foldl p.note seen

section
variable {p : Piece} {seen appended : List Span} {span : Span}

theorem note_exact_of_mem (h : span ∈ seen) : p.note seen (.exact span) = seen := by
  rw [note, if_neg fun hnew => hnew.2 h]

theorem note_exact_of_not_mem (hescaped : (p.slice span).isEscaped = true) (h : span ∉ seen) :
    p.note seen (.exact span) = seen ++ [span] := by
  rw [note, if_pos ⟨hescaped, h⟩]

theorem note_exact_of_plain (hplain : (p.slice span).isEscaped = false) : p.note seen (.exact span) = seen := by
  rw [note, if_neg]
  rintro ⟨hescaped, -⟩
  rw [hplain] at hescaped
  cases hescaped

theorem prefix_note (p : Piece) (seen : List Span) (segment : Segment) : seen <+: p.note seen segment := by
  cases segment with
  | static span => exact List.prefix_refl seen
  | exact span =>
    rw [note]
    split
    · exact List.prefix_append seen [span]
    · exact List.prefix_refl seen
  | wildcard span kind => exact List.prefix_refl seen

theorem noteAll_append (p : Piece) (seen : List Span) (front back : List Segment) :
    p.noteAll seen (front ++ back) = p.noteAll (p.noteAll seen front) back := List.foldl_append

theorem prefix_noteAll (p : Piece) (seen : List Span) (segments : List Segment) : seen <+: p.noteAll seen segments := by
  induction segments generalizing seen with
  | nil => exact List.prefix_refl seen
  | cons segment segments ih => exact (p.prefix_note seen segment).trans (ih _)

/-- The places that are met are those of the segments. -/
theorem mem_noteAll {segments : List Segment} (h : span ∈ p.noteAll seen segments) :
    span ∈ seen ∨ .exact span ∈ segments := by
  induction segments generalizing seen with
  | nil => exact .inl h
  | cons segment segments ih =>
    rcases ih h with hmem | hmem
    · cases segment with
      | static other => exact .inl hmem
      | wildcard other kind => exact .inl hmem
      | exact other =>
        rw [note] at hmem
        split at hmem
        · rcases List.mem_append.mp hmem with hmem | hmem
          · exact .inl hmem
          · rw [List.mem_singleton.mp hmem]
            exact .inr List.mem_cons_self
        · exact .inl hmem
    · exact .inr (List.mem_cons_of_mem _ hmem)

/-- A value that is met later does not move one that is there. -/
theorem value_of_initial (p : Piece) (filled : Nat) (hinitial : seen <+: appended)
    (h : (p.slice span).isEscaped = true → span ∈ seen) : p.value filled seen span = p.value filled appended span := by
  unfold value
  by_cases hescaped : (p.slice span).isEscaped = true
  · obtain ⟨more, rfl⟩ := hinitial
    have htake : (seen ++ more).takeWhile (· != span) = seen.takeWhile (· != span) := by
      rw [List.takeWhile_append, if_neg]
      intro hall
      have hwhole := List.takeWhile_eq_self_iff.mp ((List.takeWhile_prefix _).eq_of_length hall)
      simpa using hwhole span (h hescaped)
    simp only [hescaped, if_true, htake]
  · simp only [hescaped, Bool.false_eq_true, if_false]

/-- What comes before the first occurrence of a place. -/
theorem takeWhile_place {before behind : List Span} (h : span ∉ before) :
    (before ++ span :: behind).takeWhile (· != span) = before := by
  have hall : ∀ other ∈ before, (other != span) = true := by
    intro other hother
    simp only [bne_iff_ne, ne_eq]
    rintro rfl
    exact h hother
  rw [List.takeWhile_append_of_pos hall]
  simp

/-- The value of a place that has just been met is at the end. -/
theorem span_value_append (p : Piece) (filled : Nat) (hescaped : (p.slice span).isEscaped = true) (h : span ∉ seen) :
    (p.value filled (seen ++ [span]) span).span =
      ⟨filled + (p.values seen).length, filled + (p.values seen).length + (p.slice span).literals.length⟩ := by
  simp only [value, hescaped, if_true, takeWhile_place h, Excerpt.span]

end

end Piece

/-! ## The store -/

namespace Store

/-- The store behind the values at some places of a piece. -/
def fill (store : Store) (p : Piece) (seen : List Span) : Store :=
  ⟨store.buffer ++ p.values seen,
    store.values ++ seen.map fun span => (p.range span, (p.value store.buffer.length seen span).span)⟩

/-- Nothing is known of the bytes of the query from a piece on. -/
def IsBefore (store : Store) (p : Piece) : Prop := ∀ entry ∈ store.values, entry.1.start < p.start

section
variable {store : Store} {p : Piece} {seen : List Span} {span : Span}

theorem fill_nil (store : Store) (p : Piece) : store.fill p [] = store := by
  simp [fill, Piece.values]

theorem lookup_map {value : Span → Span} (hspan : p.Has span) (hseen : ∀ s ∈ seen, p.Has s) :
    (seen.map fun s => (p.range s, value s)).lookup (p.range span) = if span ∈ seen then some (value span) else none := by
  induction seen with
  | nil => rfl
  | cons s seen ih =>
    obtain ⟨hs, hrest⟩ := List.forall_mem_cons.mp hseen
    rw [List.map_cons, List.lookup_cons]
    by_cases hrange : p.range span = p.range s
    · obtain rfl := Piece.range_inj hspan hs hrange
      simp
    · have hne : span ≠ s := fun h => hrange (congrArg p.range h)
      have hbeq : (p.range span == p.range s) = false := by simpa using hrange
      rw [hbeq, ih hrest]
      simp [hne]

/-- A range is found if its value has been appended. -/
theorem lookup_fill (hbefore : store.IsBefore p) (hspan : p.Has span) (hseen : ∀ s ∈ seen, p.Has s) :
    (store.fill p seen).values.lookup (p.range span) =
      if span ∈ seen then some (p.value store.buffer.length seen span).span else none := by
  have hnone : store.values.lookup (p.range span) = none := by
    rw [List.lookup_eq_none_iff]
    intro entry hentry
    have hstart := hbefore entry hentry
    have hle := p.start_le_range span
    rw [bne_iff_ne]
    intro heq
    rw [← heq] at hstart
    omega
  rw [fill, List.lookup_append, hnone, Option.none_or, lookup_map hspan hseen]

/-- A value that takes an escape is appended behind those that are there. -/
theorem fill_append (hescaped : (p.slice span).isEscaped = true) (h : span ∉ seen) :
    store.fill p (seen ++ [span]) =
      ⟨(store.fill p seen).buffer ++ (p.slice span).literals,
        (store.fill p seen).values ++ [(p.range span, ⟨(store.fill p seen).buffer.length,
          (store.fill p seen).buffer.length + (p.slice span).literals.length⟩)]⟩ := by
  have hvalues : p.values (seen ++ [span]) = p.values seen ++ (p.slice span).literals := by
    simp [Piece.values]
  have hkept : seen.map (fun s => (p.range s, (p.value store.buffer.length (seen ++ [span]) s).span)) =
      seen.map fun s => (p.range s, (p.value store.buffer.length seen s).span) := by
    refine List.map_congr_left ?_
    intro s hs
    rw [Piece.value_of_initial p _ (List.prefix_append seen [span]) fun _ => hs]
  simp only [fill, hvalues, List.map_append, List.map_singleton, hkept, Piece.span_value_append p _ hescaped h,
    List.append_assoc, List.length_append]

end

end Store

/-! ## Segments -/

/-- A segment by its ranges, given where values are appended to a buffer. -/
def Piece.ranged (p : Piece) (width : Width) (filled : Nat) (appended : List Span) : Segment → RangeSegment
  | .static span => .static (p.range span)
  | .exact span => .exact (p.value filled appended span).span (width.pack (p.slice span).literals)
  | .wildcard span kind =>
    .wildcard (p.range span) kind (p.slice span).startsWithStar (p.slice span).endsWithStar

/-- The segment in another place. -/
def Segment.moveTo (span : Span) : Segment → Segment
  | .static _ => .static span
  | .exact _ => .exact span
  | .wildcard _ kind => .wildcard span kind

/-- What is known of a part of a piece. -/
def Piece.summary (p : Piece) (span : Span) : PieceSummary :=
  ⟨p.range span, (p.slice span).literals, (p.slice span).isEscaped, (p.slice span).startsWithStar,
    (p.slice span).endsWithStar⟩

namespace Store

section
variable {store : Store} {p : Piece} {width : Width} {seen appended : List Span} {span : Span}

/-- The value of a part of a piece is where its place says, once it has been met. -/
theorem valueOf_fill (hbefore : store.IsBefore p) (hspan : p.Has span) (hseen : ∀ s ∈ seen, p.Has s) :
    (store.fill p seen).valueOf (p.summary span) =
      ((p.value store.buffer.length (p.note seen (.exact span)) span).span,
        store.fill p (p.note seen (.exact span))) := by
  unfold valueOf Piece.summary
  simp only
  by_cases hescaped : (p.slice span).isEscaped = true
  · rw [if_pos hescaped, lookup_fill hbefore hspan hseen]
    by_cases hmem : span ∈ seen
    · rw [if_pos hmem, Piece.note_exact_of_mem hmem]
    · rw [if_neg hmem, Piece.note_exact_of_not_mem hescaped hmem, fill_append hescaped hmem,
        Piece.span_value_append p _ hescaped hmem]
      simp only [fill, List.length_append]
  · rw [Bool.not_eq_true] at hescaped
    have hle := Nat.le_of_lt hspan.1
    rw [hescaped, if_neg Bool.false_ne_true, Piece.note_exact_of_plain hescaped, Piece.value]
    simp only [hescaped, Bool.false_eq_true, if_false]
    rw [p.range_part hle]
    rfl

/-- Reading a segment puts its ranges in order, and adds its value if that is new. -/
theorem readSegment_fill (hbefore : store.IsBefore p) (hspan : p.Has span) (hseen : ∀ s ∈ seen, p.Has s)
    {segment : Segment} (hsegment : segment.span = span) :
    (store.fill p seen).readSegment width (p.summary span) (segment.moveTo (p.range span)) =
      (p.ranged width store.buffer.length (p.note seen segment) segment, store.fill p (p.note seen segment)) := by
  cases segment with
  | static other =>
    obtain rfl : other = span := hsegment
    rfl
  | wildcard other kind =>
    obtain rfl : other = span := hsegment
    rfl
  | exact other =>
    obtain rfl : other = span := hsegment
    show (RangeSegment.exact ((store.fill p seen).valueOf (p.summary other)).1 _,
      ((store.fill p seen).valueOf (p.summary other)).2) = _
    rw [valueOf_fill hbefore hspan hseen]
    rfl

/-- A segment that has been met keeps its ranges. -/
theorem ranged_of_initial {filled : Nat} {segment : Segment} (hinitial : p.note seen segment <+: appended) :
    p.ranged width filled (p.note seen segment) segment = p.ranged width filled appended segment := by
  cases segment with
  | static span => rfl
  | wildcard span kind => rfl
  | exact span =>
    have hmet : (p.slice span).isEscaped = true → span ∈ p.note seen (.exact span) := by
      intro hescaped
      by_cases hmem : span ∈ seen
      · exact (p.prefix_note seen _).subset hmem
      · rw [Piece.note_exact_of_not_mem hescaped hmem]
        exact List.mem_append_right seen (List.mem_singleton_self span)
    rw [Piece.ranged, p.value_of_initial filled hinitial hmet, Piece.ranged]

theorem has_note (hspan : p.Has span) (hseen : ∀ s ∈ seen, p.Has s) {segment : Segment} (hsegment : segment.span = span) :
    ∀ s ∈ p.note seen segment, p.Has s := by
  intro s hs
  rcases @Piece.mem_noteAll p seen s [segment] hs with hs | hs
  · exact hseen s hs
  · rw [List.mem_singleton] at hs
    rw [← hs] at hsegment
    obtain rfl : s = span := hsegment
    exact hspan

/-- **The alternatives of a part of a piece by their ranges.**  They are the same whatever is appended later. -/
theorem readSegments_fill (hbefore : store.IsBefore p) (hspan : p.Has span) (hseen : ∀ s ∈ seen, p.Has s)
    {segments : List Segment} (hsegments : ∀ segment ∈ segments, segment.span = span)
    (hinitial : p.noteAll seen segments <+: appended) :
    (store.fill p seen).readSegments width (p.summary span) (segments.map (.moveTo (p.range span))) =
      (segments.map (p.ranged width store.buffer.length appended), store.fill p (p.noteAll seen segments)) := by
  induction segments generalizing seen with
  | nil => rfl
  | cons segment segments ih =>
    obtain ⟨hsegment, hrest⟩ := List.forall_mem_cons.mp hsegments
    have hfirst := (p.prefix_noteAll (p.note seen segment) segments).trans hinitial
    rw [List.map_cons, readSegments, readSegment_fill hbefore hspan hseen hsegment]
    simp only
    rw [ih (has_note hspan hseen hsegment) hrest hinitial, ranged_of_initial hfirst]
    rfl

end

end Store

/-! ## Pieces -/

theorem exactAlternatives_moveTo (schema : Schema) (span range : Span) (literal : Bytes) (context : Context) :
    exactAlternatives schema range literal context =
      (exactAlternatives schema span literal context).map (.moveTo range) := by
  cases context with
  | known precededBy =>
    simp only [exactAlternatives]
    split <;> rfl
  | split =>
    simp only [exactAlternatives, List.map_append]
    congr 1
    · split <;> rfl
    · split <;> rfl

theorem wildcardAlternatives_moveTo (schema : Schema) (span range : Span) (symbols : Pattern)
    (precededBy : Option UInt8) :
    wildcardAlternatives schema range symbols precededBy =
      (wildcardAlternatives schema span symbols precededBy).map (.moveTo range) := by
  unfold wildcardAlternatives
  split
  · rfl
  · simp only [List.map_append]
    congr 1
    congr 1
    · congr 1
      · split <;> rfl
      · split <;> rfl
    · split <;> rfl

/-- There is a literal for every symbol if there are no wildcards. -/
theorem length_literals_eq_iff (symbols : Pattern) :
    symbols.literals.length = symbols.length ↔ symbols.isExact = true := by
  unfold Pattern.literals Pattern.isExact
  rw [List.length_filterMap_eq_countP, List.countP_eq_length, List.all_eq_true]
  simp [Symbol.isWildcard]

namespace Store

section
variable {store : Store} {p : Piece} {schema : Schema} {width : Width} {seen appended : List Span}

/-- The alternatives of a piece that is given by its units. -/
theorem readPiece_fill (hbefore : store.IsBefore p) {span : Span} (hspan : p.Has span) (hseen : ∀ s ∈ seen, p.Has s)
    (context : Context) (hinitial : p.noteAll seen ((Cut.piece span context).alternatives schema p) <+: appended) :
    (store.fill p seen).readPiece schema width (p.part span).units context =
      .ok (((Cut.piece span context).alternatives schema p).map (p.ranged width store.buffer.length appended),
        store.fill p (p.noteAll seen ((Cut.piece span context).alternatives schema p))) := by
  have hsummary : PieceSummary.ofUnits (p.part span).units = .ok (p.summary span) := by
    rw [(p.part span).ofUnits_units hspan.slice_ne_nil, ← p.range_part (Nat.le_of_lt hspan.1)]
    rfl
  have hspans : ∀ segment ∈ (Cut.piece span context).alternatives schema p, segment.span = span :=
    fun _ hmem => span_of_mem_alternatives hmem
  have halternatives : (if (p.summary span).literal.length = (p.part span).units.length then
        exactAlternatives schema (p.summary span).range (p.summary span).literal context
      else wildcardAlternatives schema (p.summary span).range ((p.part span).units.map PlacedSymbol.symbol)
        context.precededBy) =
      ((Cut.piece span context).alternatives schema p).map (.moveTo (p.range span)) := by
    rw [Piece.length_units, Piece.map_symbol_units]
    show (if (p.slice span).literals.length = (p.slice span).length then _ else _) = List.map _ (if _ then _ else _)
    by_cases hexact : (p.slice span).isExact = true
    · rw [if_pos ((length_literals_eq_iff _).mpr hexact), if_pos hexact]
      exact exactAlternatives_moveTo schema span _ _ context
    · rw [if_neg fun h => hexact ((length_literals_eq_iff _).mp h), if_neg hexact]
      exact wildcardAlternatives_moveTo schema span _ _ context.precededBy
  rw [readPiece, hsummary]
  show Except.ok ((store.fill p seen).readSegments width (p.summary span) (if _ then _ else _)) = _
  rw [halternatives, readSegments_fill hbefore hspan hseen hspans hinitial]

end

end Store

/-! ## Tokens -/

/-- The position of a split point. -/
def SplitPoint.index : SplitPoint → Nat
  | star index => index
  | any index => index

/-- The wildcard of a split point is where the point says. -/
def SplitPoint.IsAt (symbols : Pattern) : SplitPoint → Prop
  | star index => symbols[index]? = some .star
  | any index => symbols[index]? = some .any

/-- What the binary digits of a number select from a list, from a digit on. -/
def selectBits {α : Type} (mask digit : Nat) : List α → List α
  | [] => []
  | x :: rest => if mask.testBit digit then x :: selectBits mask (digit + 1) rest else selectBits mask (digit + 1) rest

namespace Piece

/-- The places of values that take an escape, once some cuts have been read. -/
def met (schema : Schema) (p : Piece) (seen : List Span) (cuts : List Cut) : List Span :=
  p.noteAll seen (cuts.flatMap (·.alternatives schema p))

/-- The alternatives of some cuts by their ranges. -/
def slots (schema : Schema) (width : Width) (p : Piece) (filled : Nat) (appended : List Span) (cuts : List Cut) :
    List (List RangeSegment) :=
  cuts.map fun cut => (cut.alternatives schema p).map (p.ranged width filled appended)

section
variable {schema : Schema} {p : Piece} {seen : List Span} {front back cuts : List Cut}

theorem met_append : p.met schema seen (front ++ back) = p.met schema (p.met schema seen front) back := by
  rw [met, List.flatMap_append, noteAll_append]
  rfl

theorem prefix_met (schema : Schema) (p : Piece) (seen : List Span) (cuts : List Cut) :
    seen <+: p.met schema seen cuts := p.prefix_noteAll seen _

theorem slots_append {width : Width} {filled : Nat} {appended : List Span} :
    p.slots schema width filled appended (front ++ back) =
      p.slots schema width filled appended front ++ p.slots schema width filled appended back := List.map_append

/-- A `?` that stands for a delimiter has no value. -/
theorem met_delimiter (index : Nat) : p.met schema seen (.delimiter index :: cuts) = p.met schema seen cuts := rfl

theorem has_met (hseen : ∀ s ∈ seen, p.Has s) (hcuts : ∀ cut ∈ cuts, p.Has cut.span) :
    ∀ s ∈ p.met schema seen cuts, p.Has s := by
  intro s hs
  rcases mem_noteAll hs with hs | hs
  · exact hseen s hs
  · obtain ⟨cut, hcut, hmem⟩ := List.mem_flatMap.mp hs
    have hspan : s = cut.span := span_of_mem_alternatives hmem
    rw [hspan]
    exact hcuts cut hcut

end

end Piece

namespace Store

section
variable {store : Store} {p : Piece} {schema : Schema} {width : Width} {seen appended : List Span} {first last : Nat}
  {context : Context}

theorem has_cutBetween (hlast : last ≤ p.symbols.length) : ∀ cut ∈ cutBetween first last context, p.Has cut.span := by
  intro cut hcut
  unfold cutBetween at hcut
  split at hcut
  · next hlt =>
    rw [List.mem_singleton.mp hcut]
    exact ⟨hlt, hlast⟩
  · cases hcut

/-- The alternatives of what lies between two positions of a token. -/
theorem readBetween_fill (hbefore : store.IsBefore p) (hseen : ∀ s ∈ seen, p.Has s) (hlast : last ≤ p.symbols.length)
    (hinitial : p.met schema seen (cutBetween first last context) <+: appended) :
    (store.fill p seen).readBetween schema width p.units first last context =
      .ok (p.slots schema width store.buffer.length appended (cutBetween first last context),
        store.fill p (p.met schema seen (cutBetween first last context))) := by
  unfold cutBetween at hinitial ⊢
  unfold readBetween
  by_cases hlt : first < last
  · have hfits : Span.Fits ⟨first, last⟩ p.units.length := by
      rw [p.length_units]
      exact ⟨Nat.le_of_lt hlt, hlast⟩
    have hmet : p.met schema seen [.piece ⟨first, last⟩ context] =
        p.noteAll seen ((Cut.piece ⟨first, last⟩ context).alternatives schema p) := by
      rw [Piece.met, List.flatMap_singleton]
    rw [if_pos hlt] at hinitial
    rw [if_pos hlt, if_pos hlt, partOf_eq_ok hfits, p.slice_units (Nat.le_of_lt hlt) hlast, hmet]
    show (readPiece _ _ _ _ _ >>= _) = _
    rw [readPiece_fill hbefore ⟨hlt, hlast⟩ hseen context (hmet ▸ hinitial)]
    rfl
  · rw [if_neg hlt, if_neg hlt]
    rfl

/-- **The pieces of a token at the split points that the digits of a number select.**  The store goes along: what it
holds behind the pieces is what it held before and the values that have been met. -/
theorem pieces_fill (hbefore : store.IsBefore p) (hseen : ∀ s ∈ seen, p.Has s) (mask digit : Nat)
    {points : List SplitPoint} (hpoints : ∀ point ∈ points, point.IsAt p.symbols)
    (hinitial : p.met schema seen (cutsFrom p.symbols.length first context (selectBits mask digit points)) <+: appended) :
    (store.fill p seen).pieces schema width p.units mask digit first context (points.map SplitPoint.index) =
      .ok (p.slots schema width store.buffer.length appended
          (cutsFrom p.symbols.length first context (selectBits mask digit points)),
        store.fill p (p.met schema seen
          (cutsFrom p.symbols.length first context (selectBits mask digit points)))) := by
  induction points generalizing digit first context seen with
  | nil =>
    rw [List.map_nil, pieces, p.length_units]
    exact readBetween_fill hbefore hseen (Nat.le_refl _) hinitial
  | cons point points ih =>
    obtain ⟨hpoint, hlater⟩ := List.forall_mem_cons.mp hpoints
    rw [List.map_cons, pieces]
    by_cases hbit : mask.testBit digit = true
    · rw [selectBits, if_pos hbit] at hinitial ⊢
      rw [if_pos hbit]
      cases point with
      | star index =>
        have hunit : p.units[index]? = some ⟨.star, p.range ⟨index, index + 1⟩⟩ := by
          rw [p.getElem?_units, show p.symbols[index]? = some .star from hpoint]
          rfl
        have hindex : index + 1 ≤ p.symbols.length := (List.getElem?_eq_some_iff.mp hpoint).1
        rw [cutsFrom, Piece.met_append] at hinitial
        have hfront := (p.prefix_met schema _ _).trans hinitial
        rw [cutsFrom, Piece.met_append, SplitPoint.index, itemAt_eq_ok hunit]
        show (readBetween schema width p.units (store.fill p seen) first (index + 1) context >>= _) = _
        rw [readBetween_fill hbefore hseen hindex hfront]
        show (pieces schema width p.units mask (digit + 1) index .split (store.fill p _) _ >>= _) = _
        rw [ih (Piece.has_met hseen (has_cutBetween hindex)) (digit + 1) hlater hinitial, Piece.slots_append]
        show Except.ok (_ ++ (if Symbol.star = Symbol.any then _ else []) ++ _, _) = _
        rw [if_neg (by decide), List.append_nil]
      | any index =>
        have hunit : p.units[index]? = some ⟨.any, p.range ⟨index, index + 1⟩⟩ := by
          rw [p.getElem?_units, show p.symbols[index]? = some .any from hpoint]
          rfl
        have hindex : index ≤ p.symbols.length := Nat.le_of_lt (List.getElem?_eq_some_iff.mp hpoint).1
        rw [cutsFrom, Piece.met_append, Piece.met_delimiter] at hinitial
        have hfront := (p.prefix_met schema _ _).trans hinitial
        rw [cutsFrom, Piece.met_append, Piece.met_delimiter, SplitPoint.index, itemAt_eq_ok hunit]
        show (readBetween schema width p.units (store.fill p seen) first index context >>= _) = _
        rw [readBetween_fill hbefore hseen hindex hfront]
        show (pieces schema width p.units mask (digit + 1) (index + 1) .split (store.fill p _) _ >>= _) = _
        rw [ih (Piece.has_met hseen (has_cutBetween hindex)) (digit + 1) hlater hinitial, Piece.slots_append]
        show Except.ok (_ ++ [[RangeSegment.static _]] ++ _, _) = _
        rw [List.append_assoc]
        rfl
    · rw [selectBits, if_neg hbit] at hinitial ⊢
      rw [if_neg hbit]
      exact ih hseen (digit + 1) hlater hinitial

end

end Store

end LogCodec.Query
