import LogCodec.Proofs.Alternatives

/-!
# `LogCodec.Proofs.Splitting`: some selection of split points fits every message

A token of a query matches a part of a text that may hold delimiters.  Its symbols are gone through from left to right
with one piece open, and with the run of the text that the piece has matched so far.  A `?` that stands for a delimiter
closes the piece, and so does a `*` that takes in a delimiter, unless it starts the piece or ends the token: there it
takes in whatever lies beyond the run.  What is selected in this way is a selection of split points, and
`exists_alternative` reads each piece when it is closed.

## Contents
- `Fits`: some segments for some cuts cover the fields of a text.
- `OpenPiece`, what is known of the piece that is open, and `OpenPiece.fits`, for a piece that is closed.
- `RestFits`, for what is left of a token, with a lemma for each symbol, and `exists_splits`, for all of it.
-/

namespace LogCodec.Query

section

variable {schema : Schema} {width : Width} {p : ReadPart} {context : Context} {before : Option UInt8}
  {front piece rest : Pattern} {run marks : List Mark} {left right : List (Field Mark)}

/-- The segments are alternatives for the cuts, and their items cover the fields. -/
def Fits (schema : Schema) (width : Width) (p : ReadPart) (cuts : List Cut) (fields : List (Field Mark)) : Prop :=
  ∃ segments, List.Forall₂ (fun segment cut => segment ∈ Cut.alternatives schema p.piece cut) segments cuts ∧
    Covers (Item.fieldExtent width) (segments.flatMap (p.items width)) fields

theorem Fits.append {cuts cuts' : List Cut} {fields fields' : List (Field Mark)} (h : Fits schema width p cuts fields)
    (h' : Fits schema width p cuts' fields') : Fits schema width p (cuts ++ cuts') (fields ++ fields') := by
  obtain ⟨segments, hsegments, hcovers⟩ := h
  obtain ⟨segments', hsegments', hcovers'⟩ := h'
  refine ⟨segments ++ segments', List.rel_append hsegments hsegments', ?_⟩
  rw [List.flatMap_append]
  exact hcovers.append hcovers'

theorem Fits.single {cut : Cut} {segment : Segment} {fields : List (Field Mark)}
    (hsegment : segment ∈ cut.alternatives schema p.piece)
    (hcovers : Covers (Item.fieldExtent width) (p.items width segment) fields) : Fits schema width p [cut] fields :=
  ⟨[segment], .cons hsegment .nil, by rwa [List.flatMap_singleton]⟩

/-- A piece is open: it matches the run up to now, a star at its start has taken in what lies before the run, and the
byte before the run is what the context says. -/
structure OpenPiece (schema : Schema) (context : Context) (piece : Pattern) (before : Option UInt8) (run : List Mark)
    (left : List (Field Mark)) : Prop where
  covers : Covers Pattern.markExtent piece run
  allows : context.Allows schema piece before
  takesIn : left ≠ [] → piece.startsWithStar = true

theorem startsWithStar_append (h : piece.startsWithStar = true) (more : Pattern) :
    Pattern.startsWithStar (piece ++ more) = true := by
  cases piece with
  | nil => cases h
  | cons s piece => exact h

/-- An open piece goes on. -/
theorem OpenPiece.append (h : OpenPiece schema context piece before run left) {more : Pattern}
    (hmore : Covers Pattern.markExtent more marks) :
    OpenPiece schema context (piece ++ more) before (run ++ marks) left where
  covers := h.covers.append hmore
  allows := by
    have hallows := h.allows
    cases context with
    | known precededBy =>
      intro hstart
      refine hallows (Bool.eq_false_iff.mpr fun hstar => ?_)
      rw [startsWithStar_append hstar more] at hstart
      cases hstart
    | split => exact hallows
  takesIn hne := startsWithStar_append (h.takesIn hne) more

/-- Behind a delimiter a piece without symbols is open. -/
theorem OpenPiece.behind {d : UInt8} (hd : schema.isDelimiter d = true) :
    OpenPiece schema .split [] (some d) [] [] where
  covers := rfl
  allows := ⟨d, hd, rfl⟩
  takesIn h := absurd rfl h

/-- A piece that starts with a star takes in anything. -/
theorem OpenPiece.star (hbefore : context = .split → ∃ d, schema.isDelimiter d = true ∧ before = some d)
    (run : List Mark) (left : List (Field Mark)) : OpenPiece schema context [.star] before run left where
  covers := covers_part rfl run
  allows := by
    cases context with
    | known precededBy => exact fun hstart => Bool.noConfusion hstart
    | split => exact hbefore rfl
  takesIn _ := rfl

theorem slice_middle : Span.slice ⟨front.length, (front ++ piece).length⟩ (front ++ (piece ++ rest)) = piece := by
  simp [Span.slice, Span.length]

/-- A piece that is closed fits the run that it matches, and what its stars take in on either side. -/
theorem OpenPiece.fits (h : OpenPiece schema context piece before run left) (hsound : schema.Sound)
    (hsymbols : p.piece.symbols = front ++ (piece ++ rest)) (hright : right ≠ [] → piece.endsWithStar = true) :
    Fits schema width p (cutBetween front.length (front ++ piece).length context)
      (left ++ (schema.runFields Mark.byte before run ++ right)) := by
  have hslice : p.piece.slice ⟨front.length, (front ++ piece).length⟩ = piece := by
    rw [Piece.slice, hsymbols, slice_middle]
  unfold cutBetween
  split
  · next hlt =>
    have hne : piece ≠ [] := by
      rintro rfl
      simp at hlt
    obtain ⟨hcovers, hallows, hleft⟩ := h
    rw [← hslice] at hne hcovers hallows hleft hright
    obtain ⟨segment, hsegment, hfields⟩ := exists_alternative hsound hne hcovers hallows hleft hright
    exact .single hsegment hfields
  · next hge =>
    -- Nothing is left between the split points, and the piece matches nothing.
    have hnil : piece = [] := by
      rw [List.length_append] at hge
      exact List.length_eq_zero_iff.mp (by omega)
    obtain ⟨hcovers, -, hleft⟩ := h
    subst hnil
    rw [covers_nil] at hcovers
    obtain rfl : left = [] := Decidable.byContradiction fun hne => Bool.noConfusion (hleft hne)
    obtain rfl : right = [] := Decidable.byContradiction fun hne => Bool.noConfusion (hright hne)
    rw [hcovers]
    exact ⟨[], .nil, rfl⟩

/-- A `?` that stands for a delimiter. -/
theorem fits_delimiter {m : Mark} (hsymbols : p.piece.symbols = front ++ .any :: rest) (hfree : m.free = true) :
    Fits schema width p [.delimiter front.length] [.byte m] := by
  refine .single (List.mem_singleton_self _) ?_
  have hsymbol : p.piece.symbols[front.length]? = some .any := by rw [hsymbols]; simp
  show Covers _ ((Span.slice ⟨front.length, front.length + 1⟩ p.piece.symbols).map Item.ofSymbol) _
  rw [Span.slice_singleton hsymbol]
  exact ⟨.byte m, [], rfl, ⟨m, rfl, hfree⟩, rfl⟩

/-- A text has no delimiter, or a first one. -/
theorem exists_firstDelimiter (schema : Schema) (marks : List Mark) :
    (∀ m ∈ marks, schema.isDelimiter m.byte = false) ∨
      ∃ run d back, marks = run ++ d :: back ∧ (∀ m ∈ run, schema.isDelimiter m.byte = false) ∧
        schema.isDelimiter d.byte = true := by
  induction marks with
  | nil => exact .inl fun m h => absurd h List.not_mem_nil
  | cons m marks ih =>
    by_cases hm : schema.isDelimiter m.byte = true
    · exact .inr ⟨[], m, marks, rfl, fun m h => absurd h List.not_mem_nil, hm⟩
    · rw [Bool.not_eq_true] at hm
      rcases ih with hall | ⟨run, d, back, rfl, hrun, hd⟩
      · exact .inl (List.forall_mem_cons.mpr ⟨hm, hall⟩)
      · exact .inr ⟨m :: run, d, back, rfl, List.forall_mem_cons.mpr ⟨hm, hrun⟩, hd⟩

/-- What is left of a token fits whatever part of a text it matches, at some selection of the split points that are
left, whichever piece is open. -/
def RestFits (schema : Schema) (width : Width) (p : ReadPart) (rest : Pattern) : Prop :=
  ∀ (front piece : Pattern) (context : Context) (before : Option UInt8) (run marks : List Mark)
    (left : List (Field Mark)), p.piece.symbols = front ++ (piece ++ rest) →
      OpenPiece schema context piece before run left → Covers Pattern.markExtent rest marks →
        ∃ selected, selected.Sublist (splitPointsFrom (front ++ piece).length rest) ∧
          Fits schema width p (cutsFrom p.piece.symbols.length front.length context selected)
            (left ++ schema.fieldsFrom Mark.byte before run marks)

theorem length_append_singleton (s : Symbol) : (front ++ (piece ++ [s])).length = (front ++ piece).length + 1 := by
  simp only [List.length_append, List.length_singleton, Nat.add_assoc]

theorem restFits_nil (hsound : schema.Sound) : RestFits schema width p [] := by
  intro front piece context before run marks left hsymbols h hrest
  rw [covers_nil] at hrest
  subst hrest
  have hfits : Fits schema width p _ (left ++ (_ ++ [])) := h.fits hsound hsymbols fun h => absurd rfl h
  rw [List.append_nil] at hfits hsymbols
  refine ⟨[], List.nil_sublist _, ?_⟩
  rwa [cutsFrom, hsymbols]

/-- The piece stays open and takes a symbol, if no delimiter lies under it. -/
theorem RestFits.stay {s : Symbol} (ih : RestFits schema width p rest)
    (hsymbols : p.piece.symbols = front ++ (piece ++ s :: rest)) (h : OpenPiece schema context piece before run left)
    {taken : List Mark} (htaken : ∀ m ∈ taken, schema.isDelimiter m.byte = false)
    (hs : Covers Pattern.markExtent [s] taken) (hrest : Covers Pattern.markExtent rest marks) :
    ∃ selected, selected.Sublist (splitPointsFrom ((front ++ piece).length + 1) rest) ∧
      Fits schema width p (cutsFrom p.piece.symbols.length front.length context selected)
        (left ++ schema.fieldsFrom Mark.byte before run (taken ++ marks)) := by
  have hsymbols' : p.piece.symbols = front ++ ((piece ++ [s]) ++ rest) := by
    rw [hsymbols, List.append_assoc]
    rfl
  rw [Schema.fieldsFrom_append htaken, ← length_append_singleton s]
  exact ih front (piece ++ [s]) context before _ marks left hsymbols' (h.append hs) hrest

theorem RestFits.literal {b : UInt8} (ih : RestFits schema width p rest) (hb : inToken schema (.literal b) = true) :
    RestFits schema width p (.literal b :: rest) := by
  intro front piece context before run marks left hsymbols h hrest
  obtain ⟨m, marks, rfl, hbyte, hmarks⟩ := hrest
  have hmember : schema.isDelimiter m.byte = false := by
    rw [hbyte]
    exact (Bool.not_eq_true' _).mp hb
  exact ih.stay hsymbols h (List.forall_mem_singleton.mpr hmember) ⟨m, [], rfl, hbyte, rfl⟩ hmarks

/-- A `?` that stands for a delimiter closes the piece, and the next one starts behind it. -/
theorem RestFits.any (hsound : schema.Sound) (ih : RestFits schema width p rest) :
    RestFits schema width p (.any :: rest) := by
  intro front piece context before run marks left hsymbols h hrest
  obtain ⟨m, marks, rfl, hfree, hmarks⟩ := hrest
  by_cases hm : schema.isDelimiter m.byte = true
  · have hmiddle : p.piece.symbols = (front ++ piece) ++ .any :: rest := by rw [hsymbols, List.append_assoc]
    have hnext : p.piece.symbols = (front ++ (piece ++ [.any])) ++ ([] ++ rest) := by
      rw [hsymbols]
      simp only [List.append_assoc]
      rfl
    obtain ⟨selected, hselected, hfits⟩ := ih _ [] .split _ [] marks [] hnext (.behind hm) hmarks
    rw [List.append_nil, length_append_singleton] at hselected
    rw [length_append_singleton] at hfits
    refine ⟨.any (front ++ piece).length :: selected, hselected.cons_cons _, ?_⟩
    have hclosed : Fits schema width p _ (left ++ (_ ++ [])) := h.fits hsound hsymbols fun h => absurd rfl h
    rw [List.append_nil] at hclosed
    rw [Schema.fieldsFrom_delimiter hm, cutsFrom, ← List.append_assoc]
    exact hclosed.append ((fits_delimiter hmiddle hfree).append hfits)
  · rw [Bool.not_eq_true] at hm
    obtain ⟨selected, hselected, hfits⟩ :=
      ih.stay hsymbols h (List.forall_mem_singleton.mpr hm) ⟨m, [], rfl, hfree, rfl⟩ hmarks
    exact ⟨selected, hselected.cons _, hfits⟩

theorem sublist_splitPointsFrom_star {index : Nat} {selected : List SplitPoint}
    (h : selected.Sublist (splitPointsFrom (index + 1) rest)) :
    selected.Sublist (splitPointsFrom index (.star :: rest)) := by
  rw [splitPointsFrom]
  split
  · exact h.cons _
  · exact h

/-- The byte before a run behind a split is a delimiter, also when the run is the last of several. -/
theorem isDelimiter_of_split {before' : Option UInt8} (hallows : context.Allows schema piece before)
    (hbefore : before' = before ∨ ∃ d, schema.isDelimiter d = true ∧ before' = some d) :
    context = .split → ∃ d, schema.isDelimiter d = true ∧ before' = some d := by
  rintro rfl
  rcases hbefore with rfl | hdelimiter
  · exact hallows
  · exact hdelimiter

/-- A star that starts a piece takes in everything up to the last run under it. -/
theorem RestFits.star_first (ih : RestFits schema width p rest) (hsymbols : p.piece.symbols = front ++ .star :: rest)
    (h : OpenPiece schema context [] before run left) (taken : List Mark)
    (hrest : Covers Pattern.markExtent rest marks) :
    ∃ selected, selected.Sublist (splitPointsFrom (front.length + 1) rest) ∧
      Fits schema width p (cutsFrom p.piece.symbols.length front.length context selected)
        (left ++ schema.fieldsFrom Mark.byte before run (taken ++ marks)) := by
  obtain ⟨hcovers, hallows, hleft⟩ := h
  rw [covers_nil] at hcovers
  obtain rfl : left = [] := Decidable.byContradiction fun hne => Bool.noConfusion (hleft hne)
  obtain ⟨passed, before', run', hbefore, hfields⟩ := Schema.exists_lastRun schema Mark.byte before run taken
  have hopen : OpenPiece schema context [.star] before' run' passed :=
    .star (isDelimiter_of_split hallows hbefore) run' passed
  obtain ⟨selected, hselected, hfits⟩ := ih front [.star] context before' run' marks passed hsymbols hopen hrest
  rw [List.length_append, List.length_singleton] at hselected
  rw [List.nil_append, hfields]
  exact ⟨selected, hselected, hfits⟩

/-- A star that ends a token takes in everything from the first delimiter under it on. -/
theorem OpenPiece.fits_last (h : OpenPiece schema context piece before run left) (hsound : schema.Sound)
    (hsymbols : p.piece.symbols = front ++ (piece ++ [.star])) {first back : List Mark} {d : Mark}
    (hfirst : ∀ m ∈ first, schema.isDelimiter m.byte = false) (hd : schema.isDelimiter d.byte = true) :
    Fits schema width p (cutsFrom p.piece.symbols.length front.length context [])
      (left ++ schema.fieldsFrom Mark.byte before run (first ++ d :: back)) := by
  have hopen : OpenPiece schema context (piece ++ [.star]) before (run ++ first) left :=
    h.append (covers_part rfl first)
  have hwhole : p.piece.symbols = front ++ ((piece ++ [.star]) ++ []) := by rw [hsymbols, List.append_nil]
  rw [Schema.fieldsFrom_append hfirst, Schema.fieldsFrom_delimiter hd, cutsFrom, hsymbols]
  exact hopen.fits hsound hwhole fun _ => by simp [Pattern.endsWithStar]

/-- A star between the start of its piece and the end of the token is split when it takes in a delimiter: it ends one
piece and starts the next. -/
theorem RestFits.star_between (hsound : schema.Sound) (ih : RestFits schema width p rest)
    (hsymbols : p.piece.symbols = front ++ (piece ++ .star :: rest)) (hpiece : piece ≠ []) (hrest : rest ≠ [])
    (h : OpenPiece schema context piece before run left) {first back : List Mark} {d : Mark}
    (hfirst : ∀ m ∈ first, schema.isDelimiter m.byte = false) (hd : schema.isDelimiter d.byte = true)
    (hmarks : Covers Pattern.markExtent rest marks) :
    ∃ selected, selected.Sublist (splitPointsFrom (front ++ piece).length (.star :: rest)) ∧
      Fits schema width p (cutsFrom p.piece.symbols.length front.length context selected)
        (left ++ schema.fieldsFrom Mark.byte before run (first ++ d :: back ++ marks)) := by
  obtain ⟨passed, before', run', hbefore, hfields⟩ :=
    Schema.exists_lastRun schema Mark.byte (some d.byte) [] back
  have hended : OpenPiece schema context (piece ++ [.star]) before (run ++ first) left :=
    h.append (covers_part rfl first)
  have hstarted : OpenPiece schema .split [.star] before' run' (.byte d :: passed) :=
    .star (isDelimiter_of_split (OpenPiece.behind hd).allows hbefore) run' _
  have hleft : p.piece.symbols = front ++ ((piece ++ [.star]) ++ rest) := by
    rw [hsymbols, List.append_assoc]
    rfl
  have hright : p.piece.symbols = (front ++ piece) ++ ([.star] ++ rest) := by
    rw [hsymbols, List.append_assoc]
    rfl
  have hclosed : Fits schema width p _ (left ++ (_ ++ [])) := hended.fits hsound hleft fun h => absurd rfl h
  rw [List.append_nil, length_append_singleton] at hclosed
  obtain ⟨selected, hselected, hfits⟩ := ih _ [.star] .split before' run' marks _ hright hstarted hmarks
  rw [List.length_append, List.length_singleton] at hselected
  refine ⟨.star (front ++ piece).length :: selected, ?_, ?_⟩
  · have hinner : (0 < (front ++ piece).length && !rest.isEmpty) = true := by
      have := List.length_pos_iff.mpr hpiece
      simp only [List.length_append, Bool.and_eq_true, decide_eq_true_eq, Bool.not_eq_true', List.isEmpty_eq_false_iff]
      exact ⟨by omega, hrest⟩
    rw [splitPointsFrom, if_pos hinner]
    exact hselected.cons_cons _
  · rw [List.append_assoc, List.cons_append, Schema.fieldsFrom_append hfirst, Schema.fieldsFrom_delimiter hd, hfields,
      cutsFrom, ← List.append_assoc]
    exact hclosed.append hfits

/-- A star that takes in a delimiter is split, unless it starts the piece or ends the token. -/
theorem RestFits.star (hsound : schema.Sound) (ih : RestFits schema width p rest) :
    RestFits schema width p (.star :: rest) := by
  intro front piece context before run marks left hsymbols h hrest
  obtain ⟨taken, marks, rfl, hmarks⟩ := hrest
  by_cases hpiece : piece = []
  · subst hpiece
    obtain ⟨selected, hselected, hfits⟩ := ih.star_first hsymbols h taken hmarks
    rw [List.append_nil]
    exact ⟨selected, sublist_splitPointsFrom_star hselected, hfits⟩
  · rcases exists_firstDelimiter schema taken with hnone | ⟨first, d, back, rfl, hfirst, hd⟩
    · obtain ⟨selected, hselected, hfits⟩ := ih.stay hsymbols h hnone (covers_part rfl taken) hmarks
      exact ⟨selected, sublist_splitPointsFrom_star hselected, hfits⟩
    · by_cases hlast : rest = []
      · subst hlast
        rw [covers_nil] at hmarks
        subst hmarks
        rw [List.append_nil]
        exact ⟨[], List.nil_sublist _, h.fits_last hsound hsymbols hfirst hd⟩
      · exact ih.star_between hsound hsymbols hpiece hlast h hfirst hd hmarks

/-- **What is left of a token fits what is left of the text.** -/
theorem restFits (hsound : schema.Sound) (hmembers : ∀ s ∈ rest, inToken schema s = true) :
    RestFits schema width p rest := by
  induction rest with
  | nil => exact restFits_nil hsound
  | cons s rest ih =>
    obtain ⟨hs, hlater⟩ := List.forall_mem_cons.mp hmembers
    cases s with
    | literal b => exact (ih hlater).literal hs
    | any => exact (ih hlater).any hsound
    | star => exact (ih hlater).star hsound

/-- **A token fits every part of a text that it matches**, from one end of the part to the other. -/
theorem exists_splits (hsound : schema.Sound) (hmembers : ∀ s ∈ p.piece.symbols, inToken schema s = true)
    {precededBy : Option UInt8} (hmarks : Covers Pattern.markExtent p.piece.symbols marks) :
    ∃ segments, p.piece.Splits schema precededBy segments ∧
      Covers (Item.fieldExtent width) (segments.flatMap (p.items width))
        (schema.fieldsFrom Mark.byte precededBy [] marks) := by
  have hopen : OpenPiece schema (.known precededBy) [] precededBy [] [] :=
    ⟨rfl, fun _ => rfl, fun h => absurd rfl h⟩
  obtain ⟨selected, hselected, segments, hsegments, hcovers⟩ :=
    restFits hsound hmembers [] [] _ _ [] marks [] rfl hopen hmarks
  exact ⟨segments, ⟨selected, hselected, hsegments⟩, hcovers⟩

end

end LogCodec.Query
