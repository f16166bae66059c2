import LogCodec.Proofs.Alignment
import LogCodec.Proofs.Subqueries

/-!
# `LogCodec.Proofs.Soundness`: what a subquery finds matches the query

Each alternative for a piece asks of the text of a message what the symbols of the piece ask: static text asks it byte
by byte, and a variable through the condition on its text.  The pieces tile the tokens and the parts make up the query,
so a message that a subquery aligns with has a text that the query matches.  No property of the schema is needed: the
schema decides which readings there are, and not what they mean.

## Contents
- **Alternatives.** `coverAlike_pattern`: what an alternative asks of the text.
- **Queries.** `coverAlike_pattern_spread`, for the segments of all parts; `matches_of_covers`, and from it
  `matches_of_alignsWith`, the result.
-/

namespace LogCodec

namespace Pattern

/-! ## Alternatives -/

/-- Without wildcards a pattern is its literals. -/
theorem map_literals {p : Pattern} (h : p.isExact = true) : p.literals.map .literal = p := by
  induction p with
  | nil => rfl
  | cons s p ih =>
    rw [isExact, List.all_cons, Bool.and_eq_true] at h
    cases s with
    | star => cases h.1
    | any => cases h.1
    | literal b =>
      show Symbol.literal b :: (literals p).map .literal = _
      rw [ih h.2]

/-- A pattern without wildcards and escapes is spelled as its literals. -/
theorem spell_eq_literals {p : Pattern} (h : p.isExact = true) (hescaped : p.isEscaped = false) :
    p.spell = p.literals := by
  induction p with
  | nil => rfl
  | cons s p ih =>
    rw [isExact, List.all_cons, Bool.and_eq_true] at h
    rw [isEscaped, List.any_cons, Bool.or_eq_false_iff] at hescaped
    cases s with
    | star => cases h.1
    | any => cases h.1
    | literal b =>
      have hb : Symbol.isReserved b = false := hescaped.1
      rw [spell_cons, ih h.2 hescaped.2, Symbol.spell, hb]
      rfl

/-- A star more in front of a star asks for nothing else. -/
theorem coverAlike_star_left {α : Type} {extent : Symbol → Extent α} (hstar : extent .star = .part) (p : Pattern) :
    CoverAlike extent ((if p.startsWithStar then [.star] else []) ++ p) p := by
  split
  · next h =>
    cases p with
    | nil => cases h
    | cons s p =>
      simp only [startsWithStar, List.head?_cons, beq_iff_eq, Option.some.injEq] at h
      rw [h]
      exact coverAlike_parts hstar hstar
  · exact CoverAlike.refl p

/-- A star more behind a star asks for nothing else. -/
theorem coverAlike_star_right {α : Type} {extent : Symbol → Extent α} (hstar : extent .star = .part) (p : Pattern) :
    CoverAlike extent (p ++ if p.endsWithStar then [.star] else []) p := by
  split
  · next h =>
    simp only [endsWithStar, beq_iff_eq, List.getLast?_eq_some_iff] at h
    obtain ⟨q, rfl⟩ := h
    exact coverAlike_shared hstar
  · rw [List.append_nil]
    exact CoverAlike.refl p

end Pattern

namespace Query

section

variable {schema : Schema} {width : Width} {p : ReadPart} {span : Span} {segment : Segment}

/-- The value of a part without wildcards is its literals, wherever in the buffer it stands. -/
theorem bytes_value {piece : Piece} {filled : Nat} {appended : List Span}
    (h : (piece.slice span).isExact = true) :
    (piece.value filled appended span).bytes = (piece.slice span).literals := by
  unfold Piece.value
  simp only
  split
  · rfl
  · next hescaped => exact Pattern.spell_eq_literals h (Bool.not_eq_true _ ▸ hescaped)

/-- The condition for a value asks for its bytes. -/
theorem symbols_exactQuery (width : Width) (value : Excerpt) :
    ((exactQuery width value).map Excerpt.bytes).symbols width = value.bytes.map .literal := by
  unfold exactQuery
  split
  · next kind word h =>
    show (Atom.bytes width (.number kind word)).map Symbol.literal = _
    rw [Atom.bytes, Atom.text, Width.render_of_pack h]
    rfl
  · rfl

/-- The segment covers no wildcards if it is read as a value without any. -/
def Segment.IsProper (token : Piece) : Segment → Prop
  | .exact span => (token.slice span).isExact = true
  | _ => True

theorem isProper_of_mem_alternatives {token : Piece} {cut : Cut} (h : segment ∈ cut.alternatives schema token) :
    segment.IsProper token := by
  cases segment with
  | static span => trivial
  | wildcard span kind => trivial
  | exact span =>
    cases cut with
    | delimiter index =>
      rw [Cut.alternatives, List.mem_singleton] at h
      cases h
    | piece whole context =>
      have hspan : span = whole := span_of_mem_alternatives h
      simp only [Cut.alternatives] at h
      split at h
      · next hexact => rwa [Segment.IsProper, hspan]
      · rcases mem_wildcardAlternatives h with h | ⟨kind, h⟩
        · cases h
        · cases h

/-- **What an alternative asks of the text** is what its symbols ask. -/
theorem coverAlike_pattern (h : segment.IsProper p.piece) :
    CoverAlike Pattern.extent ((p.items width segment).flatMap (Item.pattern width)) (p.piece.slice segment.span) := by
  cases segment with
  | static span =>
    have hitems : (p.items width (.static span)).flatMap (Item.pattern width) = p.piece.slice span := by
      show ((p.piece.slice span).map Item.ofSymbol).flatMap _ = _
      rw [List.flatMap_map]
      have hsymbol : ∀ s : Symbol, (Item.ofSymbol s).pattern width = [s] := by intro s; cases s <;> rfl
      simp only [hsymbol, List.flatMap_singleton']
    rw [hitems]
    exact CoverAlike.refl _
  | exact span =>
    have hitems : (p.items width (.exact span)).flatMap (Item.pattern width) = p.piece.slice span := by
      show ((exactQuery width (p.piece.value p.filled p.appended span)).map Excerpt.bytes).symbols width ++ [] = _
      rw [List.append_nil, symbols_exactQuery, bytes_value h, Pattern.map_literals h]
    rw [hitems]
    exact CoverAlike.refl _
  | wildcard span kind =>
    have hstars : ∀ c : Bool, (if c then [Item.star] else []).flatMap (Item.pattern width) =
        if c then [Symbol.star] else [] := by
      intro c
      cases c <;> rfl
    have hspelled : (Item.variable (.pattern kind (p.piece.spelled span))).pattern width = p.piece.slice span :=
      Pattern.ofBytes_spell _
    rw [ReadPart.items, List.flatMap_append, List.flatMap_cons, hstars, hstars, hspelled, ← List.append_assoc]
    exact ((Pattern.coverAlike_star_left rfl _).append (CoverAlike.refl _)).trans (Pattern.coverAlike_star_right rfl _)

/-! ## Queries -/

/-- The segments that a token splits into cover no wildcards where they are read as values without any. -/
theorem Part.Splits.isProper {part : Part} {segments : List Segment} (h : part.Splits schema segments) :
    ∀ segment ∈ segments, segment.IsProper part.piece := by
  cases part with
  | gap piece =>
    rw [Splits] at h
    rw [h]
    exact List.forall_mem_singleton.mpr trivial
  | token piece precededBy =>
    obtain ⟨selected, -, hall⟩ := h
    have hproper := hall.imp fun _ _ hmem => And.intro (isProper_of_mem_alternatives hmem) hmem
    exact ((List.forall₂_and_left _ _).mp hproper).1

/-- The segments of a part ask of the text what the symbols of the part ask. -/
theorem coverAlike_pattern_part {part : Part} {segments : List Segment} (h : part.Splits schema segments)
    (hpiece : p.piece = part.piece) (hne : part.piece.symbols ≠ []) :
    CoverAlike Pattern.extent ((segments.flatMap (p.items width)).flatMap (Item.pattern width))
      part.piece.symbols := by
  have hslices : CoverAlike Pattern.extent _ part.piece.symbols := coverAlike_slices rfl (h.tiles hne)
  have hsegments : CoverAlike Pattern.extent ((segments.flatMap (p.items width)).flatMap (Item.pattern width))
      (segments.flatMap fun segment => p.piece.slice segment.span) := by
    rw [List.flatMap_assoc]
    exact CoverAlike.flatMap fun segment hsegment => coverAlike_pattern (hpiece ▸ h.isProper segment hsegment)
  rw [List.flatMap_map] at hslices
  rw [hpiece] at hsegments
  exact hsegments.trans hslices

/-- The segments of all parts of a query ask of the text what the query asks. -/
theorem coverAlike_pattern_spread {limit : Nat} {parts : List Part} {ps : List ReadPart}
    (h : List.Forall₂ (ReadPart.Reads schema limit) parts ps) (hne : ∀ part ∈ parts, part.piece.symbols ≠ [])
    {choice : List (List Segment)} (hchoice : List.Forall₂ (Part.Splits schema) parts choice) :
    CoverAlike Pattern.extent ((spread width ps choice).flatMap (Item.pattern width))
      (parts.flatMap fun part => part.piece.symbols) := by
  induction h generalizing choice with
  | nil =>
    cases hchoice
    exact CoverAlike.refl []
  | cons hread _ ih =>
    cases hchoice with
    | cons hsplits hlater =>
      obtain ⟨hfirst, hrest⟩ := List.forall_mem_cons.mp hne
      rw [spread, List.flatMap_append, List.flatMap_cons]
      exact (coverAlike_pattern_part hsplits hread.1 hfirst).append (ih hrest hlater)

end

/-- **What a subquery covers by its text matches the query.** -/
theorem matches_of_covers {schema : Schema} {width : Width} {limit : Nat} {query text : Bytes} {d : Decomposition}
    {s : Subquery} {as : List Atom} (hd : decompose schema width limit query = .ok d) (hs : s ∈ d.subqueries)
    (hcovers : Covers (Item.textExtent width) s.items as) (htext : Atom.textOf width as = .ok text) :
    Wildcard.isMatch (Wildcard.normalize query) text = true := by
  obtain ⟨-, rfl, hreads⟩ := decompose_eq_ok hd
  obtain ⟨choice, hchoice, rfl⟩ := (mem_subqueries hreads).mp hs
  have hparted := parted_partsFrom schema 0 none (Pattern.ofQuery query)
  rw [coverAlike_subqueryOf rfl hreads hparted.symbols_ne_nil hchoice] at hcovers
  have hmatches := Item.matches_pattern_of_covers hcovers htext
  rw [Pattern.matches_iff_covers, coverAlike_pattern_spread hreads hparted.symbols_ne_nil hchoice, parts,
    hparted.symbols_eq, ← Pattern.matches_iff_covers] at hmatches
  exact Wildcard.isMatch_normalize_iff.mpr hmatches

/-- **What a subquery finds matches the query.**  If a subquery of a query aligns with a message, the text of the
message matches the normal form of the query. -/
theorem matches_of_alignsWith {schema : Schema} {width : Width} {limit : Nat} {query text : Bytes} {d : Decomposition}
    {s : Subquery} {as : List Atom} (hd : decompose schema width limit query = .ok d) (hs : s ∈ d.subqueries)
    (halign : s.AlignsWith width as) (htext : Atom.textOf width as = .ok text) :
    Wildcard.isMatch (Wildcard.normalize query) text = true :=
  matches_of_covers hd hs (Item.covers_textExtent (Subquery.alignsWith_iff.mp halign)) htext

end Query

end LogCodec
