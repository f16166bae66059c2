import LogCodec.Proofs.Seams
import LogCodec.Proofs.Splitting

/-!
# `LogCodec.Proofs.RepeatedReadings`: readings of a token that show the same

The readings of a token are told apart by their segments.  A subquery shows less: behind a variable that ends with a
star, static text that starts with the same star shows nothing that the variable has not shown.  So a token in which a
star stands between a `?` and another symbol has two readings that show the same: the `?` is split in both, and the star
in one of them.

## Contents
- **Collapsing.** `Item.collapse_append_star_star`: a star beside a star shows nothing.
- **Tokens.** `Parted.infix_token` and `starBetween_iff`: the token in which the star stands.
- **Pieces.** `exists_segments`: cuts can be read in some way; a star alone is text, and `wildcard_mem_of_star`.
- **Readings.** `Echoes`, for two readings that differ by a star beside a star; `exists_echoes_before`,
  `exists_echoes_behind` and `exists_echoes`.
-/

namespace LogCodec

/-! ## Collapsing -/

namespace Item

/-- To collapse what follows an item is to collapse behind the item. -/
theorem collapse_cons_congr (item : Item) {items others : List Item} (hhead : items.head? = others.head?)
    (h : collapse items = collapse others) : collapse (item :: items) = collapse (item :: others) := by
  by_cases hstars : item = .star ∧ items.head? = some .star
  · obtain ⟨rfl, hfirst⟩ := hstars
    obtain ⟨rest, rfl⟩ := List.head?_eq_some_iff.mp hfirst
    obtain ⟨rest', rfl⟩ := List.head?_eq_some_iff.mp (hhead.symm.trans hfirst)
    rwa [collapse_star_star, collapse_star_star]
  · have hapart : item = .star → items.head? ≠ some .star := fun hitem hfirst => hstars ⟨hitem, hfirst⟩
    rw [collapse_cons_of_apart hapart, collapse_cons_of_apart (hhead ▸ hapart), h]

/-- Wherever a star stands beside a star, one of them is dropped. -/
theorem collapse_append_star_star (before behind : List Item) :
    collapse (before ++ .star :: .star :: behind) = collapse (before ++ .star :: behind) := by
  induction before with
  | nil => exact collapse_star_star behind
  | cons item before ih =>
    refine collapse_cons_congr item ?_ ih
    cases before <;> rfl

end Item

namespace Query

/-! ## Tokens -/

section
variable {schema : Schema} {symbols : Pattern} {parts : List Part} {precededBy : Option UInt8}

/-- Symbols of tokens do not stand across the end of a part, which is as long as it can be. -/
theorem infix_or_infix {run members rest : Pattern} {member : Bool} (hrun : ∀ s ∈ run, inToken schema s = true)
    (hmembers : ∀ s ∈ members, inToken schema s = member)
    (hrest : ∀ s, rest.head? = some s → inToken schema s = !member) (h : run <:+: members ++ rest) :
    run <:+: members ∨ run <:+: rest := by
  rcases List.infix_append_iff.mp h with hwithin | hwithin | ⟨left, right, rfl, hleft, hright⟩
  · exact .inl hwithin
  · exact .inr hwithin
  · cases left with
    | nil => exact .inr hright.isInfix
    | cons s left =>
      cases right with
      | nil =>
        rw [List.append_nil]
        exact .inl hleft.isInfix
      | cons t right =>
        -- The symbols on either side of the end are not both members of tokens.
        obtain ⟨more, rfl⟩ := hright
        have hs := hrun s (List.mem_append_left _ List.mem_cons_self)
        have ht := hrun t (List.mem_append_right _ List.mem_cons_self)
        rw [hmembers s (hleft.subset List.mem_cons_self)] at hs
        rw [hrest t rfl, hs] at ht
        cases ht

/-- Symbols of tokens that stand together stand in one token. -/
theorem Parted.infix_token (h : Parted schema precededBy symbols parts) {run : Pattern} (hne : run ≠ [])
    (hrun : ∀ s ∈ run, inToken schema s = true) (hwithin : run <:+: symbols) :
    ∃ piece before, .token piece before ∈ parts ∧ run <:+: piece.symbols := by
  induction h with
  | nil => exact absurd (List.infix_nil.mp hwithin) hne
  | @token before piece rest parts _ hmembers hrest _ ih =>
    rcases infix_or_infix hrun hmembers hrest hwithin with hhere | hlater
    · exact ⟨piece, before, List.mem_cons_self, hhere⟩
    · obtain ⟨piece, before, hmem, hin⟩ := ih hlater
      exact ⟨piece, before, List.mem_cons_of_mem _ hmem, hin⟩
  | @gap before piece rest parts _ hmembers hrest _ ih =>
    rcases infix_or_infix hrun hmembers hrest hwithin with hhere | hlater
    · obtain ⟨s, more, rfl⟩ := List.exists_cons_of_ne_nil hne
      have hs := hrun s List.mem_cons_self
      rw [hmembers s (hhere.subset List.mem_cons_self)] at hs
      cases hs
    · obtain ⟨piece, before, hmem, hin⟩ := ih hlater
      exact ⟨piece, before, List.mem_cons_of_mem _ hmem, hin⟩

/-- A token is made of members of tokens and stands among the symbols. -/
theorem Parted.of_mem_token (h : Parted schema precededBy symbols parts) {piece : Piece} {before : Option UInt8}
    (hmem : .token piece before ∈ parts) :
    (∀ s ∈ piece.symbols, inToken schema s = true) ∧ piece.symbols <:+: symbols := by
  induction h with
  | nil => cases hmem
  | @token _ first rest _ _ hmembers _ _ ih =>
    rcases List.mem_cons.mp hmem with heq | hmem
    · cases heq
      exact ⟨hmembers, (List.prefix_append _ _).isInfix⟩
    · exact ⟨(ih hmem).1, (ih hmem).2.trans (List.suffix_append _ _).isInfix⟩
  | gap _ _ _ _ ih =>
    rcases List.mem_cons.mp hmem with heq | hmem
    · cases heq
    · exact ⟨(ih hmem).1, (ih hmem).2.trans (List.suffix_append _ _).isInfix⟩

/-- The star stands in one of the tokens. -/
theorem starBetween_iff (h : Parted schema precededBy symbols parts) :
    StarBetween schema symbols ↔ ∃ piece before, .token piece before ∈ parts ∧ StarBetween schema piece.symbols := by
  constructor
  · rintro ⟨s, hs, hwithin | hwithin⟩
    · have hrun : ∀ r ∈ [s, .star, .any], inToken schema r = true :=
        List.forall_mem_cons.mpr ⟨hs, List.forall_mem_cons.mpr ⟨rfl, List.forall_mem_singleton.mpr rfl⟩⟩
      obtain ⟨piece, before, hmem, hin⟩ := h.infix_token (List.cons_ne_nil _ _) hrun hwithin
      exact ⟨piece, before, hmem, s, hs, .inl hin⟩
    · have hrun : ∀ r ∈ [.any, .star, s], inToken schema r = true :=
        List.forall_mem_cons.mpr ⟨rfl, List.forall_mem_cons.mpr ⟨rfl, List.forall_mem_singleton.mpr hs⟩⟩
      obtain ⟨piece, before, hmem, hin⟩ := h.infix_token (List.cons_ne_nil _ _) hrun hwithin
      exact ⟨piece, before, hmem, s, hs, .inr hin⟩
  · rintro ⟨piece, before, hmem, s, hs, hwithin⟩
    have hin := (h.of_mem_token hmem).2
    exact ⟨s, hs, hwithin.imp (·.trans hin) (·.trans hin)⟩

end

/-! ## Pieces -/

/-- If every member can be related to something, so can the members together. -/
theorem exists_members {α β : Type} {r : α → β → Prop} {ys : List β} (h : ∀ y ∈ ys, ∃ x, r x y) :
    ∃ xs, List.Forall₂ r xs ys := by
  induction ys with
  | nil => exact ⟨[], .nil⟩
  | cons y ys ih =>
    obtain ⟨hfirst, hlater⟩ := List.forall_mem_cons.mp h
    obtain ⟨x, hx⟩ := hfirst
    obtain ⟨xs, hxs⟩ := ih hlater
    exact ⟨x :: xs, .cons hx hxs⟩

section
variable {schema : Schema} {token : Piece}

/-- The points of some symbols are points of all symbols. -/
theorem sublist_splitPointsFrom (index : Nat) (front rest : Pattern) :
    (splitPointsFrom (index + front.length) rest).Sublist (splitPointsFrom index (front ++ rest)) := by
  induction front generalizing index with
  | nil => exact .refl _
  | cons s front ih =>
    have hlater : (splitPointsFrom (index + (s :: front).length) rest).Sublist
        (splitPointsFrom (index + 1) (front ++ rest)) := by
      have hindex : index + (s :: front).length = index + 1 + front.length := by rw [List.length_cons]; omega
      rw [hindex]
      exact ih (index + 1)
    cases s with
    | any => exact hlater.cons _
    | star => exact sublist_splitPointsFrom_star hlater
    | literal b => exact hlater

/-- Every cut has an alternative, if there is a delimiter that can stand before it. -/
theorem cut_alternatives_ne_nil {d : UInt8} (hd : schema.isDelimiter d = true) (cut : Cut) :
    cut.alternatives schema token ≠ [] := by
  cases cut with
  | delimiter index => exact List.cons_ne_nil _ _
  | piece span context =>
    cases context with
    | known precededBy => exact alternatives_ne_nil span precededBy
    | split =>
      rw [Cut.alternatives]
      split
      · -- The delimiter decides one way or the other.
        have hmem := @mem_exactAlternatives_of_allows schema span .split (some d) [] rfl ⟨d, hd, rfl⟩
          (token.slice span).literals
        exact List.ne_nil_of_mem hmem
      · rw [wildcardAlternatives]
        split
        · exact List.cons_ne_nil _ _
        · exact List.append_ne_nil_of_right_ne_nil _ (List.cons_ne_nil _ _)

theorem cutBetween_of_lt {first last : Nat} (h : first < last) (context : Context) :
    cutBetween first last context = [.piece ⟨first, last⟩ context] := if_pos h

/-- Cuts can be read in some way. -/
theorem exists_segments {d : UInt8} (hd : schema.isDelimiter d = true) (cuts : List Cut) :
    ∃ segments, List.Forall₂ (fun segment cut => segment ∈ Cut.alternatives schema token cut) segments cuts :=
  exists_members fun cut _ => List.exists_mem_of_ne_nil _ (cut_alternatives_ne_nil hd cut)

/-- A star that is a piece of its own is static text. -/
theorem static_mem_of_star {i : Nat} (hstar : token.symbols[i]? = some .star) (context : Context) :
    .static ⟨i, i + 1⟩ ∈ Cut.alternatives schema token (.piece ⟨i, i + 1⟩ context) := by
  have hslice : token.slice ⟨i, i + 1⟩ = [.star] := Span.slice_singleton hstar
  rw [Cut.alternatives, hslice]
  exact List.mem_singleton_self _

/-- A piece with a star and another symbol may be a dictionary variable. -/
theorem wildcard_mem_of_star {span : Span} (hstar : .star ∈ token.slice span) {s : Symbol} (hs : s ≠ .star)
    (hmem : s ∈ token.slice span) (context : Context) :
    .wildcard span .dictionary ∈ Cut.alternatives schema token (.piece span context) := by
  have hexact : (token.slice span).isExact ≠ true := fun h => Pattern.starFree_of_isExact h hstar
  have hstars : (token.slice span).isStars ≠ true := fun h => hs (beq_iff_eq.mp (List.all_eq_true.mp h s hmem))
  rw [Cut.alternatives, if_neg hexact]
  exact wildcard_mem_wildcardAlternatives hstars fun k hk => by cases hk

/-- Text in front of a reading ends in the same place wherever it starts. -/
theorem cons_static (stop : Nat) (reading : Reading) :
    ∃ last rest, stop ≤ last ∧
      ∀ start, Reading.cons (.static ⟨start, stop⟩) reading = .static ⟨start, last⟩ :: rest := by
  rcases reading with _ | ⟨next | next | ⟨next, kind⟩, rest⟩
  · exact ⟨stop, [], Nat.le_refl _, fun _ => rfl⟩
  · by_cases hnext : next.start ≤ stop
    · exact ⟨max stop next.stop, rest, Nat.le_max_left _ _, fun _ => if_pos hnext⟩
    · exact ⟨stop, .static next :: rest, Nat.le_refl _, fun _ => if_neg hnext⟩
  · exact ⟨stop, .exact next :: rest, Nat.le_refl _, fun _ => rfl⟩
  · exact ⟨stop, .wildcard next kind :: rest, Nat.le_refl _, fun _ => rfl⟩

/-- Text behind a piece that ends where it starts is joined to the piece or stands behind it, wherever it ends. -/
theorem exists_front (segments : List Segment) {position : Nat} {precededBy : Option UInt8}
    (h : List.Forall₂ (fun segment cut => segment ∈ Cut.alternatives schema token cut) segments
      (cutBetween 0 position (.known precededBy))) :
    ∃ front start, start ≤ position ∧ ∀ stop rest, position ≤ stop →
      segments.foldr Reading.cons (.static ⟨position, stop⟩ :: rest) = front ++ .static ⟨start, stop⟩ :: rest := by
  unfold cutBetween at h
  split at h
  · cases h with
    | @cons segment _ _ _ hsegment hnone =>
      cases hnone
      have hspan : segment.span = ⟨0, position⟩ := span_of_mem_alternatives hsegment
      cases segment with
      | static span =>
        obtain rfl : span = ⟨0, position⟩ := hspan
        refine ⟨[], 0, Nat.zero_le _, ?_⟩
        intro stop rest hstop
        rw [List.foldr_cons, List.foldr_nil, Reading.cons, if_pos (Nat.le_refl position), Nat.max_eq_right hstop]
        rfl
      | exact span => exact ⟨[.exact span], position, Nat.le_refl _, fun _ _ _ => rfl⟩
      | wildcard span kind => exact ⟨[.wildcard span kind], position, Nat.le_refl _, fun _ _ _ => rfl⟩
  · cases h
    exact ⟨[], position, Nat.le_refl _, fun _ _ _ => rfl⟩

end

/-! ## Readings -/

/-- The readings are different, but their items differ by a star beside a star. -/
def Echoes (p : ReadPart) (width : Width) (reading other : Reading) : Prop :=
  reading ≠ other ∧ ∃ before behind, reading.flatMap (p.items width) = before ++ .star :: behind ∧
    other.flatMap (p.items width) = before ++ .star :: .star :: behind

theorem joined_cons (segment : Segment) (segments : List Segment) :
    joined (segment :: segments) = Reading.cons segment (joined segments) := rfl

section
variable {schema : Schema} {front back : Pattern} {s : Symbol} {d : UInt8} {p : ReadPart} {width : Width}

/-- Text that starts with a star shows the star and then the text behind it. -/
theorem items_static_of_star {i last : Nat} (hstar : p.piece.symbols[i]? = some .star) (hlast : i < last) :
    p.items width (.static ⟨i, last⟩) = .star :: p.items width (.static ⟨i + 1, last⟩) := by
  have hslice : p.piece.slice ⟨i, last⟩ = .star :: p.piece.slice ⟨i + 1, last⟩ := by
    rw [Piece.slice, ← Span.slice_append_slice _ (Nat.le_succ i) hlast, Span.slice_singleton hstar]
    rfl
  rw [ReadPart.items, hslice]
  rfl

/-- Text that ends with a star shows the text before it and then the star. -/
theorem items_static_to_star {first i : Nat} (hstar : p.piece.symbols[i]? = some .star) (hfirst : first ≤ i) :
    p.items width (.static ⟨first, i + 1⟩) = p.items width (.static ⟨first, i⟩) ++ [.star] := by
  have hslice : p.piece.slice ⟨first, i + 1⟩ = p.piece.slice ⟨first, i⟩ ++ [.star] := by
    rw [Piece.slice, ← Span.slice_append_slice _ hfirst (Nat.le_succ i), Span.slice_singleton hstar]
    rfl
  rw [ReadPart.items, hslice, List.map_append]
  rfl

theorem items_of_endsWithStar {span : Span} (h : (p.piece.slice span).endsWithStar = true) (kind : Placeholder) :
    ∃ before, p.items width (.wildcard span kind) = before ++ [.star] := by
  rw [ReadPart.items, h]
  exact ⟨_, List.append_cons _ _ _⟩

theorem items_of_startsWithStar {span : Span} (h : (p.piece.slice span).startsWithStar = true) (kind : Placeholder) :
    ∃ behind, p.items width (.wildcard span kind) = .star :: behind := by
  rw [ReadPart.items, h]
  exact ⟨_, rfl⟩

/-- The `?` and the star before it can be split, together and the `?` alone. -/
theorem points_before (front back : Pattern) (s : Symbol) :
    [.star (front.length + 1), .any (front.length + 2)].Sublist
      (splitPoints (front ++ ([s, .star, .any] ++ back))) := by
  have hpoints := sublist_splitPointsFrom 0 (front ++ [s]) (.star :: .any :: back)
  have hinner : splitPointsFrom (front.length + 1) (.star :: .any :: back) =
      .star (front.length + 1) :: .any (front.length + 2) :: splitPointsFrom (front.length + 3) back := by
    simp [splitPointsFrom]
  rw [List.length_append, List.length_singleton, Nat.zero_add, hinner, List.append_assoc] at hpoints
  exact (List.Sublist.cons_cons _ (List.Sublist.cons_cons _ (List.nil_sublist _))).trans hpoints

/-- The `?` and the star behind it can be split, together and the `?` alone. -/
theorem points_behind (front back : Pattern) (s : Symbol) :
    [.any front.length, .star (front.length + 1)].Sublist
      (splitPoints (front ++ ([.any, .star, s] ++ back))) := by
  have hpoints := sublist_splitPointsFrom 0 front (.any :: .star :: s :: back)
  have hinner : splitPointsFrom front.length (.any :: .star :: s :: back) =
      .any front.length :: .star (front.length + 1) :: splitPointsFrom (front.length + 2) (s :: back) := by
    simp [splitPointsFrom]
  rw [Nat.zero_add, hinner] at hpoints
  exact (List.Sublist.cons_cons _ (List.Sublist.cons_cons _ (List.nil_sublist _))).trans hpoints

/-- **A star before a `?`, behind another symbol.**  The `?` is split, and the star is split or not.  The piece up to
the star ends with it either way. -/
theorem exists_echoes_before (hd : schema.isDelimiter d = true) (hs : s ≠ .star)
    (hsymbols : p.piece.symbols = front ++ ([s, .star, .any] ++ back)) (precededBy : Option UInt8) (width : Width) :
    ∃ segments others, p.piece.Splits schema precededBy segments ∧ p.piece.Splits schema precededBy others ∧
      Echoes p width (joined segments) (joined others) := by
  have hpoints := points_before front back s
  have hslice : p.piece.slice ⟨0, front.length + 2⟩ = front ++ [s, .star] := by
    have hmiddle := @slice_middle [] (front ++ [s, .star]) (.any :: back)
    rw [List.nil_append, List.nil_append, List.append_assoc, List.length_append] at hmiddle
    rw [Piece.slice, hsymbols]
    exact hmiddle
  have hstar : p.piece.symbols[front.length + 1]? = some .star := by
    rw [hsymbols]
    simp
  rw [← hsymbols] at hpoints
  generalize front.length = i at hpoints hslice hstar
  -- The piece up to the star may be a variable, and the piece behind the `?` whatever it may be.
  let piece : Segment := .wildcard ⟨0, i + 2⟩ .dictionary
  have hvariable : ∀ context, piece ∈ Cut.alternatives schema p.piece (.piece ⟨0, i + 2⟩ context) :=
    wildcard_mem_of_star (by rw [hslice]; simp) hs (by rw [hslice]; simp)
  obtain ⟨later, hlater⟩ := @exists_segments schema p.piece d hd (cutBetween (i + 3) p.piece.symbols.length .split)
  obtain ⟨last, rest, hlast, hrest⟩ := cons_static (i + 3) (joined later)
  refine ⟨piece :: .static ⟨i + 2, i + 3⟩ :: later,
    piece :: .static ⟨i + 1, i + 2⟩ :: .static ⟨i + 2, i + 3⟩ :: later,
    ⟨[.any (i + 2)], (List.sublist_cons_self _ _).trans hpoints, ?_⟩,
    ⟨[.star (i + 1), .any (i + 2)], hpoints, ?_⟩, ?_⟩
  · rw [cuts, cutsFrom, cutBetween_of_lt (Nat.succ_pos _), cutsFrom]
    exact .cons (hvariable _) (.cons (List.mem_singleton_self _) hlater)
  · rw [cuts, cutsFrom, cutBetween_of_lt (Nat.succ_pos _), cutsFrom, cutBetween_of_lt (Nat.lt_succ_self _), cutsFrom]
    exact .cons (hvariable _) (.cons (static_mem_of_star hstar .split) (.cons (List.mem_singleton_self _) hlater))
  · have hfirst : joined (piece :: .static ⟨i + 2, i + 3⟩ :: later) = piece :: .static ⟨i + 2, last⟩ :: rest := by
      rw [joined_cons, joined_cons, hrest]
      rfl
    have hsecond : joined (piece :: .static ⟨i + 1, i + 2⟩ :: .static ⟨i + 2, i + 3⟩ :: later) =
        piece :: .static ⟨i + 1, last⟩ :: rest := by
      have hmax : max (i + 2) last = last := by omega
      rw [joined_cons, joined_cons, joined_cons, hrest, Reading.cons, if_pos (Nat.le_refl _), hmax]
      rfl
    have hends : (p.piece.slice ⟨0, i + 2⟩).endsWithStar = true := by
      rw [hslice]
      simp [Pattern.endsWithStar]
    obtain ⟨before, hbefore⟩ := @items_of_endsWithStar p width _ hends .dictionary
    have hlt : i + 1 < last := by omega
    rw [hfirst, hsecond]
    refine ⟨by simp, before, p.items width (.static ⟨i + 2, last⟩) ++ rest.flatMap (p.items width), ?_, ?_⟩
    · simp [piece, hbefore]
    · simp [piece, hbefore, items_static_of_star hstar hlt]

/-- **A star behind a `?`, before another symbol.**  The `?` is split, and the star is split or not.  The piece from the
star on starts with it either way. -/
theorem exists_echoes_behind (hd : schema.isDelimiter d = true) (hs : s ≠ .star)
    (hsymbols : p.piece.symbols = front ++ ([.any, .star, s] ++ back)) (precededBy : Option UInt8) (width : Width) :
    ∃ segments others, p.piece.Splits schema precededBy segments ∧ p.piece.Splits schema precededBy others ∧
      Echoes p width (joined segments) (joined others) := by
  have hpoints := points_behind front back s
  have hslice : p.piece.slice ⟨front.length + 1, p.piece.symbols.length⟩ = .star :: s :: back := by
    have hmiddle := @slice_middle (front ++ [.any]) (.star :: s :: back) []
    rw [List.append_nil, List.append_assoc, List.length_append] at hmiddle
    rw [Piece.slice, hsymbols]
    exact hmiddle
  have hstar : p.piece.symbols[front.length + 1]? = some .star := by
    rw [hsymbols]
    simp
  rw [← hsymbols] at hpoints
  generalize front.length = i at hpoints hslice hstar
  have hmore : i + 1 < p.piece.symbols.length := (List.getElem?_eq_some_iff.mp hstar).1
  -- The piece from the star on may be a variable, and the piece before the `?` whatever it may be.
  let piece : Segment := .wildcard ⟨i + 1, p.piece.symbols.length⟩ .dictionary
  have hvariable : piece ∈ Cut.alternatives schema p.piece (.piece ⟨i + 1, p.piece.symbols.length⟩ .split) :=
    wildcard_mem_of_star (by rw [hslice]; simp) hs (by rw [hslice]; simp) _
  obtain ⟨former, hformer⟩ := @exists_segments schema p.piece d hd (cutBetween 0 i (.known precededBy))
  obtain ⟨kept, start, hstart, hkept⟩ := exists_front former hformer
  refine ⟨former ++ [.static ⟨i, i + 1⟩, piece], former ++ [.static ⟨i, i + 1⟩, .static ⟨i + 1, i + 2⟩, piece],
    ⟨[.any i], (List.Sublist.cons_cons _ (List.nil_sublist _)).trans hpoints, ?_⟩,
    ⟨[.any i, .star (i + 1)], hpoints, ?_⟩, ?_⟩
  · rw [cuts, cutsFrom, cutsFrom, cutBetween_of_lt hmore]
    exact List.rel_append hformer (.cons (List.mem_singleton_self _) (.cons hvariable .nil))
  · rw [cuts, cutsFrom, cutsFrom, cutsFrom, cutBetween_of_lt hmore, cutBetween_of_lt (Nat.lt_succ_self (i + 1))]
    refine List.rel_append hformer (.cons (List.mem_singleton_self _) (.cons (static_mem_of_star hstar .split) ?_))
    exact .cons hvariable .nil
  · have hfirst : joined (former ++ [.static ⟨i, i + 1⟩, piece]) = kept ++ [.static ⟨start, i + 1⟩, piece] := by
      rw [joined, List.foldr_append, ← hkept _ _ (Nat.le_succ i)]
      rfl
    have hsecond : joined (former ++ [.static ⟨i, i + 1⟩, .static ⟨i + 1, i + 2⟩, piece]) =
        kept ++ [.static ⟨start, i + 2⟩, piece] := by
      rw [joined, List.foldr_append, ← hkept _ _ (by omega)]
      simp [Reading.cons, piece]
    have hstarts : (p.piece.slice ⟨i + 1, p.piece.symbols.length⟩).startsWithStar = true := by
      rw [hslice]
      rfl
    obtain ⟨behind, hbehind⟩ := @items_of_startsWithStar p width _ hstarts .dictionary
    have htext := @items_static_to_star p width start (i + 1) hstar (by omega)
    rw [hfirst, hsecond]
    refine ⟨by simp, kept.flatMap (p.items width) ++ p.items width (.static ⟨start, i + 1⟩), behind, ?_, ?_⟩
    · simp [piece, hbehind]
    · simp [piece, hbehind, htext]

/-- **A token in which a star stands between a `?` and another symbol has two readings that show the same.** -/
theorem exists_echoes (hd : schema.isDelimiter d = true) (hapart : Pattern.StarsApart p.piece.symbols)
    (h : StarBetween schema p.piece.symbols) (precededBy : Option UInt8) (width : Width) :
    ∃ segments others, p.piece.Splits schema precededBy segments ∧ p.piece.Splits schema precededBy others ∧
      Echoes p width (joined segments) (joined others) := by
  obtain ⟨s, -, hwithin | hwithin⟩ := h
  · have hthree : Pattern.StarsApart [s, .star, .any] := List.IsChain.infix hapart hwithin
    have hs : s ≠ .star := by
      rintro rfl
      exact (List.isChain_cons_cons.mp hthree).1 rfl rfl
    obtain ⟨front, back, hsymbols⟩ := hwithin
    exact exists_echoes_before hd hs (hsymbols.symm.trans (List.append_assoc _ _ _)) precededBy width
  · have hthree : Pattern.StarsApart [.any, .star, s] := List.IsChain.infix hapart hwithin
    have hs : s ≠ .star := by
      rintro rfl
      exact (List.isChain_cons_cons.mp (List.isChain_cons_cons.mp hthree).2).1 rfl rfl
    obtain ⟨front, back, hsymbols⟩ := hwithin
    exact exists_echoes_behind hd hs (hsymbols.symm.trans (List.append_assoc _ _ _)) precededBy width

end

end Query

end LogCodec
