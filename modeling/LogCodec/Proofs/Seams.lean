import LogCodec.Proofs.VariablePlaces

/-!
# `LogCodec.Proofs.Seams`: the variables of a reading tell the reading

What is not variable in a reading is static text, so the text is what the variables leave.  But where a variable ends
with a star, the text behind it may start with the same star or behind it, and the two are different readings of the
same token that show the same.  Which of them there is depends on what has been split: a star that is split is shared,
and a `?` that is split is not.  Both can be only where a star stands beside a `?` and has another symbol of the token
on the other side.  Where there is no such star, a token has one reading for given variables.

## Contents
- **Stars beside a `?`.** `StarBetween`; `not_any_behind_star` and `length_of_star_behind_any`, for tokens without one.
- **Points.** `Ahead`, what is known of the selected points from a position on.
- **Cuts.** `Adjacent`, for a cut and the next one; `isChain_cutsFrom`.
- **Segments.** `Seam`, for a segment and the next one, with `startBehind` and `stopBefore`; `Seam.of_adjacent`.
- **Readings.** `Parting`, for the segments of a reading, of which no two neighbours are text; `isChain_joined`.
- **Variables.** `Parting.head_eq`, for the first segments; `eq_of_variables`, the result.
-/

namespace LogCodec.Query

/-! ## Stars beside a `?` -/

/-- Somewhere a star stands beside a `?`, with another symbol of the token on its other side. -/
def StarBetween (schema : Schema) (symbols : Pattern) : Prop :=
  ∃ s, inToken schema s = true ∧ ([s, .star, .any] <:+: symbols ∨ [.any, .star, s] <:+: symbols)

/-- Three symbols stand together where each is behind the one before. -/
theorem infix_three {a b c : Symbol} {symbols : Pattern} :
    [a, b, c] <:+: symbols ↔
      ∃ i, symbols[i]? = some a ∧ symbols[i + 1]? = some b ∧ symbols[i + 2]? = some c := by
  rw [List.infix_iff_getElem?]
  constructor
  · rintro ⟨i, -, h⟩
    have hfirst := h 0 (by simp)
    have hsecond := h 1 (by simp)
    have hthird := h 2 (by simp)
    rw [Nat.zero_add] at hfirst
    rw [Nat.add_comm] at hsecond hthird
    exact ⟨i, hfirst, hsecond, hthird⟩
  · rintro ⟨i, hfirst, hsecond, hthird⟩
    have hlength : i + 2 < symbols.length := (List.getElem?_eq_some_iff.mp hthird).1
    refine ⟨i, by simp only [List.length_cons, List.length_nil]; omega, ?_⟩
    rintro (_ | _ | _ | j) hj
    · rw [Nat.zero_add]
      exact hfirst
    · rw [Nat.add_comm]
      exact hsecond
    · rw [Nat.add_comm]
      exact hthird
    · exact absurd hj (by simp)

section
variable {schema : Schema} {symbols : Pattern} {i : Nat}

/-- A star behind another symbol has no `?` behind it. -/
theorem not_any_behind_star (hmembers : ∀ s ∈ symbols, inToken schema s = true) (hnone : ¬ StarBetween schema symbols)
    (hi : 0 < i) (hstar : symbols[i]? = some .star) : symbols[i + 1]? ≠ some .any := by
  intro hany
  obtain ⟨before, rfl⟩ : ∃ before, i = before + 1 := ⟨i - 1, by omega⟩
  obtain ⟨hlt, -⟩ := List.getElem?_eq_some_iff.mp hstar
  have hs : symbols[before]? = some symbols[before] := List.getElem?_eq_getElem (by omega)
  exact hnone ⟨_, hmembers _ (List.mem_of_getElem? hs), .inl (infix_three.mpr ⟨before, hs, hstar, hany⟩)⟩

/-- A star behind a `?` ends the token. -/
theorem length_of_star_behind_any (hmembers : ∀ s ∈ symbols, inToken schema s = true)
    (hnone : ¬ StarBetween schema symbols) (hany : symbols[i]? = some .any) (hstar : symbols[i + 1]? = some .star) :
    symbols.length = i + 2 := by
  obtain ⟨hlt, -⟩ := List.getElem?_eq_some_iff.mp hstar
  by_contra hlength
  have hs : symbols[i + 2]? = some symbols[i + 2] := List.getElem?_eq_getElem (by omega)
  exact hnone ⟨_, hmembers _ (List.mem_of_getElem? hs), .inr (infix_three.mpr ⟨i, hany, hstar, hs⟩)⟩

end

/-! ## Points -/

/-- Points that are split one behind the other, from a position on. -/
structure Ahead (symbols : Pattern) (first : Nat) (selected : List SplitPoint) : Prop where
  sorted : selected.Pairwise fun point next => point.index < next.index
  isAt : ∀ point ∈ selected, point.IsAt symbols
  le : ∀ point ∈ selected, first ≤ point.index
  /-- A star that is split has symbols on both sides, and the one before it has not been passed. -/
  stars : ∀ i, .star i ∈ selected → first < i ∧ i + 1 < symbols.length

theorem mem_splitPointsFrom {index : Nat} {rest : Pattern} {point : SplitPoint}
    (h : point ∈ splitPointsFrom index rest) :
    index ≤ point.index ∧ ∀ i, point = .star i → 0 < i ∧ i + 1 < index + rest.length := by
  induction rest generalizing index with
  | nil => cases h
  | cons s rest ih =>
    have hlater : point ∈ splitPointsFrom (index + 1) rest →
        index ≤ point.index ∧ ∀ i, point = .star i → 0 < i ∧ i + 1 < index + (s :: rest).length := by
      intro hpoint
      obtain ⟨hle, hstars⟩ := ih hpoint
      refine ⟨by omega, ?_⟩
      intro i hi
      obtain ⟨hpos, hlt⟩ := hstars i hi
      rw [List.length_cons]
      omega
    cases s with
    | any =>
      rcases List.mem_cons.mp h with rfl | h
      · exact ⟨Nat.le_refl _, nofun⟩
      · exact hlater h
    | star =>
      rw [splitPointsFrom] at h
      split at h
      · next hinner =>
        rcases List.mem_cons.mp h with rfl | h
        · refine ⟨Nat.le_refl _, ?_⟩
          rintro i ⟨⟩
          cases rest with
          | nil => simp at hinner
          | cons next rest =>
            simp only [Bool.and_eq_true, decide_eq_true_eq] at hinner
            simp only [List.length_cons]
            exact ⟨hinner.1, by omega⟩
        · exact hlater h
      · exact hlater h
    | literal b => exact hlater h

theorem pairwise_splitPointsFrom (index : Nat) (rest : Pattern) :
    (splitPointsFrom index rest).Pairwise fun point next => point.index < next.index := by
  induction rest generalizing index with
  | nil => exact .nil
  | cons s rest ih =>
    have hlater : ∀ point ∈ splitPointsFrom (index + 1) rest, index < point.index :=
      fun point hpoint => (mem_splitPointsFrom hpoint).1
    cases s with
    | any => exact .cons hlater (ih _)
    | star =>
      rw [splitPointsFrom]
      split
      · exact .cons hlater (ih _)
      · exact ih _
    | literal b => exact ih _

theorem ahead_splitPoints {symbols : Pattern} {selected : List SplitPoint}
    (h : selected.Sublist (splitPoints symbols)) : Ahead symbols 0 selected where
  sorted := (pairwise_splitPointsFrom 0 symbols).sublist h
  isAt point hpoint := isAt_splitPoints symbols point (h.subset hpoint)
  le _ _ := Nat.zero_le _
  stars i hi := by
    have hinner := (mem_splitPointsFrom (h.subset hi)).2 i rfl
    rwa [Nat.zero_add] at hinner

section
variable {schema : Schema} {symbols : Pattern} {first i : Nat} {selected : List SplitPoint}

theorem Ahead.of_star (h : Ahead symbols first (.star i :: selected)) : Ahead symbols i selected := by
  obtain ⟨hbehind, hsorted⟩ := List.pairwise_cons.mp h.sorted
  refine ⟨hsorted, (List.forall_mem_cons.mp h.isAt).2, fun point hpoint => Nat.le_of_lt (hbehind point hpoint), ?_⟩
  intro j hj
  exact ⟨hbehind _ hj, (h.stars j (List.mem_cons_of_mem _ hj)).2⟩

theorem Ahead.of_any (hmembers : ∀ s ∈ symbols, inToken schema s = true) (hnone : ¬ StarBetween schema symbols)
    (h : Ahead symbols first (.any i :: selected)) : Ahead symbols (i + 1) selected := by
  obtain ⟨hbehind, hsorted⟩ := List.pairwise_cons.mp h.sorted
  obtain ⟨hany, hlater⟩ := List.forall_mem_cons.mp h.isAt
  refine ⟨hsorted, hlater, hbehind, ?_⟩
  intro j hj
  obtain ⟨-, hinner⟩ := h.stars j (List.mem_cons_of_mem _ hj)
  have hlt : i < j := hbehind _ hj
  -- A star directly behind the `?` would end the token.
  have hne : j ≠ i + 1 := by
    rintro rfl
    have hlength := length_of_star_behind_any hmembers hnone hany (hlater _ hj)
    omega
  exact ⟨by omega, hinner⟩

end

/-! ## Cuts -/

/-- A cut and the next one: two pieces share a star, and both have more than the star; a delimiter has pieces or
delimiters beside it. -/
inductive Adjacent (symbols : Pattern) : Cut → Cut → Prop where
  | shared {first i last : Nat} {context next : Context} (hfirst : first < i) (hlast : i + 1 < last)
      (hstar : symbols[i]? = some .star) : Adjacent symbols (.piece ⟨first, i + 1⟩ context) (.piece ⟨i, last⟩ next)
  | before {first i : Nat} {context : Context} (hfirst : first < i) (hany : symbols[i]? = some .any) :
      Adjacent symbols (.piece ⟨first, i⟩ context) (.delimiter i)
  | behind {i last : Nat} {context : Context} (hlast : i + 1 < last) (hfits : last ≤ symbols.length)
      (hany : symbols[i]? = some .any) : Adjacent symbols (.delimiter i) (.piece ⟨i + 1, last⟩ context)
  | delimiters {i : Nat} : Adjacent symbols (.delimiter i) (.delimiter (i + 1))

section
variable {schema : Schema} {symbols : Pattern} {first : Nat} {selected : List SplitPoint}

/-- The first cut from a position on starts there.  It has more than one symbol, unless a `?` comes next or the token
ends. -/
theorem head?_cutsFrom (h : Ahead symbols first selected) (context : Context) :
    ∀ cut ∈ (cutsFrom symbols.length first context selected).head?,
      (∃ last, cut = .piece ⟨first, last⟩ context ∧ first < last ∧ last ≤ symbols.length ∧
        (last = first + 1 → symbols[last]? = some .any ∨ last = symbols.length)) ∨
      cut = .delimiter first ∧ symbols[first]? = some .any := by
  intro cut hcut
  cases selected with
  | nil =>
    rw [cutsFrom, cutBetween] at hcut
    split at hcut
    · next hlt =>
      cases hcut
      exact .inl ⟨_, rfl, hlt, Nat.le_refl _, fun _ => .inr rfl⟩
    · cases hcut
  | cons point selected =>
    cases point with
    | star i =>
      obtain ⟨hlt, hinner⟩ := h.stars i List.mem_cons_self
      rw [cutsFrom, cutBetween, if_pos (by omega)] at hcut
      cases hcut
      exact .inl ⟨_, rfl, by omega, by omega, fun hlast => by omega⟩
    | any i =>
      have hany : symbols[i]? = some .any := h.isAt _ List.mem_cons_self
      have hle : first ≤ i := h.le _ List.mem_cons_self
      rw [cutsFrom, cutBetween] at hcut
      split at hcut
      · next hlt =>
        cases hcut
        exact .inl ⟨_, rfl, hlt, Nat.le_of_lt (List.getElem?_eq_some_iff.mp hany).1, fun _ => .inl hany⟩
      · next hge =>
        obtain rfl : i = first := by omega
        cases hcut
        exact .inr ⟨rfl, hany⟩

/-- **Each cut is adjacent to the next one.** -/
theorem isChain_cutsFrom (hmembers : ∀ s ∈ symbols, inToken schema s = true) (hnone : ¬ StarBetween schema symbols)
    (h : Ahead symbols first selected) (context : Context) :
    (cutsFrom symbols.length first context selected).IsChain (Adjacent symbols) := by
  -- Each cut is told by the point behind it, and the next one starts where this point says.
  induction selected generalizing first context with
  | nil =>
    rw [cutsFrom, cutBetween]
    split
    · exact .singleton _
    · exact .nil
  | cons point selected ih =>
    cases point with
    | star i =>
      obtain ⟨hlt, hinner⟩ := h.stars i List.mem_cons_self
      have hstar : symbols[i]? = some .star := h.isAt _ List.mem_cons_self
      rw [cutsFrom, cutBetween, if_pos (by omega), List.singleton_append, List.isChain_cons]
      refine ⟨?_, ih h.of_star .split⟩
      intro cut hcut
      rcases head?_cutsFrom h.of_star .split cut hcut with ⟨last, rfl, hlast, -, hsingle⟩ | ⟨-, hany⟩
      · -- The star alone is no piece: behind it is no `?`, and the token goes on.
        have hmore : last ≠ i + 1 := by
          rintro rfl
          rcases hsingle rfl with hany | hend
          · exact not_any_behind_star hmembers hnone (by omega) hstar hany
          · omega
        exact .shared hlt (by omega) hstar
      · rw [hstar] at hany
        cases hany
    | any i =>
      have hany : symbols[i]? = some .any := h.isAt _ List.mem_cons_self
      have hlater :
          (Cut.delimiter i :: cutsFrom symbols.length (i + 1) .split selected).IsChain (Adjacent symbols) := by
        rw [List.isChain_cons]
        refine ⟨?_, ih (h.of_any hmembers hnone) .split⟩
        intro cut hcut
        rcases head?_cutsFrom (h.of_any hmembers hnone) .split cut hcut with ⟨last, rfl, hlast, hfits, -⟩ | ⟨rfl, -⟩
        · exact .behind hlast hfits hany
        · exact .delimiters
      rw [cutsFrom, cutBetween]
      split
      · next hlt => exact List.isChain_cons_cons.mpr ⟨.before hlt hany, hlater⟩
      · exact hlater

end

/-! ## Segments -/

/-- Where text starts behind a variable: with the star that the variable ends with, or else behind the variable. -/
def startBehind (symbols : Pattern) (stop : Nat) : Nat := if symbols[stop - 1]? = some .star then stop - 1 else stop

/-- Where text stops before a variable: with the star that the variable starts with, or else before the variable. -/
def stopBefore (symbols : Pattern) (start : Nat) : Nat := if symbols[start]? = some .star then start + 1 else start

/-- A segment and the next one.  Where one of them is a variable, it tells where the other stops or starts. -/
structure Seam (symbols : Pattern) (segment next : Segment) : Prop where
  start_lt : segment.span.start < next.span.start
  stop_lt : segment.span.stop < next.span.stop
  /-- Text that touches text. -/
  texts : segment.isVariable = false → next.isVariable = false → next.span.start ≤ segment.span.stop
  textBefore : segment.isVariable = false → next.isVariable = true →
    segment.span.stop = stopBefore symbols next.span.start
  textBehind : segment.isVariable = true → next.isVariable = false →
    next.span.start = startBehind symbols segment.span.stop
  /-- Variables that share a star. -/
  shares : segment.isVariable = true → next.isVariable = true → next.span.start + 1 = segment.span.stop

section
variable {schema : Schema} {token : Piece} {segment next : Segment} {cut following : Cut}

/-- A star alone is no variable. -/
theorem not_isVariable_of_star (h : segment ∈ cut.alternatives schema token)
    (hstar : token.slice segment.span = [.star]) : segment.isVariable = false := by
  cases segment with
  | static span => rfl
  | exact span =>
    have hexact : (token.slice span).isExact = true := isExact_of_mem_alternatives h
    rw [show token.slice span = [.star] from hstar] at hexact
    cases hexact
  | wildcard span kind =>
    have hmixed : (token.slice span).isStars = false := (mixed_of_mem_alternatives h).2
    rw [show token.slice span = [.star] from hstar] at hmixed
    cases hmixed

/-- Text that is a `?` starts behind a variable that ends there: the variable does not end with a star. -/
theorem startBehind_of_any (hmembers : ∀ s ∈ token.symbols, inToken schema s = true)
    (hnone : ¬ StarBetween schema token.symbols) {first i : Nat} (hfirst : first < i)
    (hany : token.symbols[i]? = some .any) (hsegment : segment ∈ cut.alternatives schema token)
    (hspan : segment.span = ⟨first, i⟩) (hvariable : segment.isVariable = true) :
    startBehind token.symbols i = i := by
  unfold startBehind
  refine if_neg ?_
  intro hstar
  -- With a `?` behind it the star starts the token, so the variable would be the star alone.
  have hi : i - 1 + 1 = i := by omega
  have hzero : i - 1 = 0 := by
    by_contra hpos
    have hnot := not_any_behind_star hmembers hnone (Nat.pos_of_ne_zero hpos) hstar
    rw [hi] at hnot
    exact hnot hany
  obtain rfl : i = 1 := by omega
  obtain rfl : first = 0 := by omega
  have hslice : token.slice segment.span = [.star] := by
    rw [hspan]
    exact Span.slice_singleton hstar
  rw [not_isVariable_of_star hsegment hslice] at hvariable
  cases hvariable

/-- Text that is a `?` stops before a variable that starts there: the variable does not start with a star. -/
theorem stopBefore_of_any (hmembers : ∀ s ∈ token.symbols, inToken schema s = true)
    (hnone : ¬ StarBetween schema token.symbols) {i last : Nat} (hlast : i + 1 < last)
    (hfits : last ≤ token.symbols.length) (hany : token.symbols[i]? = some .any)
    (hsegment : segment ∈ cut.alternatives schema token) (hspan : segment.span = ⟨i + 1, last⟩)
    (hvariable : segment.isVariable = true) : stopBefore token.symbols (i + 1) = i + 1 := by
  unfold stopBefore
  refine if_neg ?_
  intro hstar
  -- With a `?` before it the star ends the token, so the variable would be the star alone.
  have hlength := length_of_star_behind_any hmembers hnone hany hstar
  obtain rfl : last = i + 1 + 1 := by omega
  have hslice : token.slice segment.span = [.star] := by
    rw [hspan]
    exact Span.slice_singleton hstar
  rw [not_isVariable_of_star hsegment hslice] at hvariable
  cases hvariable

/-- **Adjacent cuts make a seam**, whatever they are read as. -/
theorem Seam.of_adjacent (hmembers : ∀ s ∈ token.symbols, inToken schema s = true)
    (hnone : ¬ StarBetween schema token.symbols) (h : Adjacent token.symbols cut following)
    (hsegment : segment ∈ cut.alternatives schema token) (hnext : next ∈ following.alternatives schema token) :
    Seam token.symbols segment next := by
  have hspan := span_of_mem_alternatives hsegment
  have hspan' := span_of_mem_alternatives hnext
  cases h with
  | @shared first i last _ _ hfirst hlast hstar =>
    -- Whatever shares a star, the star is the last of one and the first of the other.
    replace hspan : segment.span = ⟨first, i + 1⟩ := hspan
    replace hspan' : next.span = ⟨i, last⟩ := hspan'
    have hbehind : startBehind token.symbols (i + 1) = i := if_pos hstar
    have hbefore : stopBefore token.symbols i = i + 1 := if_pos hstar
    constructor <;> rw [hspan, hspan']
    · exact hfirst
    · exact hlast
    · exact fun _ _ => Nat.le_succ i
    · exact fun _ _ => hbefore.symm
    · exact fun _ _ => hbehind.symm
    · exact fun _ _ => rfl
  | @before first i _ hfirst hany =>
    obtain rfl : next = .static ⟨i, i + 1⟩ := List.mem_singleton.mp hnext
    replace hspan : segment.span = ⟨first, i⟩ := hspan
    constructor <;> rw [hspan]
    · exact hfirst
    · exact Nat.lt_succ_self i
    · exact fun _ _ => Nat.le_refl i
    · exact fun _ hnot => nomatch hnot
    · intro hvariable _
      exact (startBehind_of_any hmembers hnone hfirst hany hsegment hspan hvariable).symm
    · exact fun _ hnot => nomatch hnot
  | @behind i last _ hlast hfits hany =>
    obtain rfl : segment = .static ⟨i, i + 1⟩ := List.mem_singleton.mp hsegment
    replace hspan' : next.span = ⟨i + 1, last⟩ := hspan'
    constructor <;> rw [hspan']
    · exact Nat.lt_succ_self i
    · exact hlast
    · exact fun _ _ => Nat.le_refl _
    · intro _ hvariable
      exact (stopBefore_of_any hmembers hnone hlast hfits hany hnext hspan' hvariable).symm
    · exact fun hnot => nomatch hnot
    · exact fun hnot => nomatch hnot
  | @delimiters i =>
    obtain rfl : segment = .static ⟨i, i + 1⟩ := List.mem_singleton.mp hsegment
    obtain rfl : next = .static ⟨i + 1, i + 1 + 1⟩ := List.mem_singleton.mp hnext
    constructor
    · exact Nat.lt_succ_self i
    · exact Nat.lt_succ_self _
    · exact fun _ _ => Nat.le_refl _
    · exact fun _ hnot => nomatch hnot
    · exact fun hnot => nomatch hnot
    · exact fun hnot => nomatch hnot

/-- **A token splits into segments with seams between them.** -/
theorem Piece.Splits.isChain (hmembers : ∀ s ∈ token.symbols, inToken schema s = true)
    (hnone : ¬ StarBetween schema token.symbols) {precededBy : Option UInt8} {segments : List Segment}
    (h : token.Splits schema precededBy segments) : segments.IsChain (Seam token.symbols) := by
  obtain ⟨selected, hselected, hall⟩ := h
  have hcuts := isChain_cutsFrom hmembers hnone (ahead_splitPoints hselected) (.known precededBy)
  rw [← cuts] at hcuts
  generalize cuts token.symbols.length precededBy selected = cutsThere at hall hcuts
  induction hall with
  | nil => exact .nil
  | @cons segment cut segments later hsegment hall ih =>
    obtain ⟨hfirst, hlater⟩ := List.isChain_cons.mp hcuts
    refine List.isChain_cons.mpr ⟨?_, ih hlater⟩
    intro next hnext
    cases hall with
    | nil => cases hnext
    | cons hfollowing _ =>
      cases hnext
      exact .of_adjacent hmembers hnone (hfirst _ rfl) hsegment hfollowing

end

/-! ## Readings -/

/-- A segment of a reading and the next one: one of them is a variable. -/
structure Parting (symbols : Pattern) (segment next : Segment) : Prop extends Seam symbols segment next where
  isVariable_or : segment.isVariable = true ∨ next.isVariable = true

theorem Parting.next_isVariable {symbols : Pattern} {segment next : Segment} (h : Parting symbols segment next)
    (htext : segment.isVariable = false) : next.isVariable = true :=
  h.isVariable_or.resolve_left (ne_true_of_eq_false htext)

theorem Parting.isVariable_of_text {symbols : Pattern} {segment next : Segment} (h : Parting symbols segment next)
    (htext : next.isVariable = false) : segment.isVariable = true :=
  h.isVariable_or.resolve_right (ne_true_of_eq_false htext)

theorem eq_static {segment : Segment} (h : segment.isVariable = false) : segment = .static segment.span := by
  cases segment with
  | static span => rfl
  | exact span => cases h
  | wildcard span kind => cases h

section
variable {symbols : Pattern} {segment next : Segment} {reading other : Reading}

/-- A segment in front is joined to text, if it is text, or stands before the reading. -/
theorem cons_cases (segment : Segment) (reading : Reading) :
    (∃ span text rest, segment = .static span ∧ reading = .static text :: rest ∧
      Reading.cons segment reading = .static ⟨span.start, max span.stop text.stop⟩ :: rest) ∨
    Reading.cons segment reading = segment :: reading ∧
      ∀ span text, segment = .static span → .static text ∈ reading.head? → span.stop < text.start := by
  unfold Reading.cons
  split
  · next span text rest =>
    split
    · exact .inl ⟨span, text, rest, rfl, rfl, rfl⟩
    · next happart =>
      refine .inr ⟨rfl, ?_⟩
      rintro _ _ ⟨⟩ ⟨⟩
      exact Nat.lt_of_not_le happart
  · next hnot =>
    refine .inr ⟨rfl, ?_⟩
    rintro span text rfl hhead
    obtain ⟨rest, rfl⟩ := List.head?_eq_some_iff.mp hhead
    exact absurd rfl (hnot span text rest rfl)

/-- The seam before a segment stays where it is when text is joined behind the segment. -/
theorem seam_head?_cons {before : Segment} (h : Seam symbols before segment) (reading : Reading) :
    ∀ first ∈ (Reading.cons segment reading).head?, Seam symbols before first := by
  intro first hfirst
  rcases cons_cases segment reading with ⟨span, text, rest, rfl, rfl, hcons⟩ | ⟨hcons, -⟩
  · rw [hcons] at hfirst
    cases hfirst
    exact { start_lt := h.start_lt
            stop_lt := Nat.lt_of_lt_of_le h.stop_lt (Nat.le_max_left _ _)
            texts := fun hbefore _ => h.texts hbefore rfl
            textBefore := fun _ hnot => nomatch hnot
            textBehind := fun hbefore _ => h.textBehind hbefore rfl
            shares := fun _ hnot => nomatch hnot }
  · rw [hcons] at hfirst
    cases hfirst
    exact h

/-- A segment in front of a reading parts from it, once it is joined if it is text. -/
theorem isChain_cons_reading (hreading : reading.IsChain (Parting symbols))
    (hseam : ∀ next ∈ reading.head?, Seam symbols segment next) :
    (Reading.cons segment reading).IsChain (Parting symbols) := by
  rcases cons_cases segment reading with ⟨span, text, rest, rfl, rfl, hcons⟩ | ⟨hcons, happart⟩
  · obtain ⟨hnext, hrest⟩ := List.isChain_cons.mp hreading
    have hjoined : Seam symbols (.static span) (.static text) := hseam _ rfl
    have hstop : max span.stop text.stop = text.stop := Nat.max_eq_right (Nat.le_of_lt hjoined.stop_lt)
    rw [hcons, hstop, List.isChain_cons]
    refine ⟨?_, hrest⟩
    intro next hmem
    have hparting := hnext next hmem
    have hvariable : next.isVariable = true := hparting.next_isVariable rfl
    exact { start_lt := Nat.lt_trans hjoined.start_lt hparting.start_lt
            stop_lt := hparting.stop_lt
            texts := fun _ htext => nomatch hvariable.symm.trans htext
            textBefore := fun _ => hparting.textBefore rfl
            textBehind := fun hnot => nomatch hnot
            shares := fun hnot => nomatch hnot
            isVariable_or := .inr hvariable }
  · rw [hcons, List.isChain_cons]
    refine ⟨?_, hreading⟩
    intro next hnext
    have hnextSeam := hseam next hnext
    refine ⟨hnextSeam, ?_⟩
    -- Two texts that are not joined would not touch.
    by_contra hneither
    rw [not_or, Bool.not_eq_true, Bool.not_eq_true] at hneither
    obtain ⟨hsegment, hnextText⟩ := hneither
    rw [eq_static hnextText] at hnext
    have hgap := happart _ _ (eq_static hsegment) hnext
    exact Nat.not_lt_of_le (hnextSeam.texts hsegment hnextText) hgap

/-- **In a reading of a token text and variables part.** -/
theorem isChain_joined {segments : List Segment} (h : segments.IsChain (Seam symbols)) :
    (joined segments).IsChain (Parting symbols) := by
  induction segments with
  | nil => exact .nil
  | cons segment segments ih =>
    obtain ⟨hseam, hlater⟩ := List.isChain_cons.mp h
    refine isChain_cons_reading (ih hlater) ?_
    cases segments with
    | nil => exact nofun
    | cons next segments => exact seam_head?_cons (hseam next rfl) (joined segments)

/-! ## Variables -/

theorem filter_text (h : segment.isVariable = false) :
    (segment :: reading).filter Segment.isVariable = reading.filter Segment.isVariable :=
  List.filter_cons_of_neg (by simp [h])

theorem filter_variable (h : segment.isVariable = true) :
    (segment :: reading).filter Segment.isVariable = segment :: reading.filter Segment.isVariable :=
  List.filter_cons_of_pos h

/-- Behind the same segment, the same variables are left. -/
theorem filter_tail
    (h : (segment :: reading).filter Segment.isVariable = (segment :: other).filter Segment.isVariable) :
    reading.filter Segment.isVariable = other.filter Segment.isVariable := by
  cases hsegment : segment.isVariable with
  | false => rwa [filter_text hsegment, filter_text hsegment] at h
  | true =>
    rw [filter_variable hsegment, filter_variable hsegment] at h
    exact (List.cons.inj h).2

/-- Behind text, a reading ends or goes on with its next variable. -/
theorem head?_filter (htext : segment.isVariable = false) (h : (segment :: reading).IsChain (Parting symbols)) :
    (reading.filter Segment.isVariable).head? = reading.head? := by
  cases reading with
  | nil => rfl
  | cons next reading =>
    have hvariable : next.isVariable = true := (List.isChain_cons_cons.mp h).1.next_isVariable htext
    rw [filter_variable hvariable]
    rfl

/-- Text does not start before a variable that could stand in its place. -/
theorem not_text_and_variable (h : (segment :: reading).IsChain (Parting symbols)) (htext : segment.isVariable = false)
    (hvariable : next.isVariable = true) (hstart : next.span.start ≤ segment.span.start)
    (hvariables : (segment :: reading).filter Segment.isVariable = (next :: other).filter Segment.isVariable) :
    False := by
  rw [filter_text htext, filter_variable hvariable] at hvariables
  have hhead := head?_filter htext h
  rw [hvariables] at hhead
  obtain ⟨hparting, -⟩ := List.isChain_cons.mp h
  exact Nat.not_lt_of_le hstart (hparting next hhead.symm).start_lt

/-- **The first segments of two readings with the same variables are the same**, if they may start at the same place. -/
theorem Parting.head_eq (h : (segment :: reading).IsChain (Parting symbols))
    (h' : (next :: other).IsChain (Parting symbols))
    (htiles : Tiles symbols segment.span.stop (reading.map Segment.span))
    (htiles' : Tiles symbols next.span.stop (other.map Segment.span))
    (hvariables : (segment :: reading).filter Segment.isVariable = (next :: other).filter Segment.isVariable)
    (htexts : segment.isVariable = false → next.isVariable = false → segment.span.start = next.span.start)
    (hle : segment.isVariable = false → next.isVariable = true → next.span.start ≤ segment.span.start)
    (hge : segment.isVariable = true → next.isVariable = false → segment.span.start ≤ next.span.start) :
    segment = next := by
  cases hsegment : segment.isVariable <;> cases hnext : next.isVariable
  case false.false =>
    rw [filter_text hsegment, filter_text hnext] at hvariables
    have hhead : reading.head? = other.head? := by
      rw [← head?_filter hsegment h, ← head?_filter hnext h', hvariables]
    have hstop : segment.span.stop = next.span.stop := by
      cases reading with
      | nil =>
        obtain rfl : other = [] := List.head?_eq_none_iff.mp hhead.symm
        exact htiles.length_eq.trans htiles'.length_eq.symm
      | cons first reading =>
        -- The same variable follows, and it tells where the text stops.
        have hparting := (List.isChain_cons_cons.mp h).1
        have hparting' := (List.isChain_cons.mp h').1 first hhead.symm
        have hvariable := hparting.next_isVariable hsegment
        rw [hparting.textBefore hsegment hvariable, hparting'.textBefore hnext hvariable]
    rw [eq_static hsegment, eq_static hnext]
    exact congrArg Segment.static (congrArg₂ Span.mk (htexts hsegment hnext) hstop)
  case false.true => exact (not_text_and_variable h hsegment hnext (hle hsegment hnext) hvariables).elim
  case true.false => exact (not_text_and_variable h' hnext hsegment (hge hsegment hnext) hvariables.symm).elim
  case true.true =>
    rw [filter_variable hsegment, filter_variable hnext] at hvariables
    exact (List.cons.inj hvariables).1

theorem le_startBehind (stop : Nat) : stop ≤ startBehind symbols stop + 1 := by
  unfold startBehind
  split <;> omega

/-- Behind the same segment, text starts at one place, and not before a variable. -/
theorem Parting.start_alike {before : Segment} (h : Parting symbols before segment) (h' : Parting symbols before next) :
    (segment.isVariable = false → next.isVariable = false → segment.span.start = next.span.start) ∧
      (segment.isVariable = false → next.isVariable = true → next.span.start ≤ segment.span.start) := by
  constructor
  · intro hsegment hnext
    have hbefore := h.isVariable_of_text hsegment
    rw [h.textBehind hbefore hsegment, h'.textBehind hbefore hnext]
  · intro hsegment hnext
    have hbefore := h.isVariable_of_text hsegment
    have hstart := h.textBehind hbefore hsegment
    have hshared := h'.shares hbefore hnext
    have hle := @le_startBehind symbols before.span.stop
    omega

/-- A reading that goes on has not reached the end. -/
theorem Parting.not_end {before : Segment} (h : Parting symbols before segment)
    (hend : Tiles symbols before.span.stop [])
    (htiles : Tiles symbols before.span.stop ((segment :: reading).map Segment.span)) : False := by
  obtain ⟨-, -, hlater⟩ := tiles_cons_iff.mp htiles
  have hlt := h.stop_lt
  rw [hend.length_eq] at hlt
  exact Nat.not_le_of_lt hlt hlater.le_length

/-- Behind the same segment, the variables tell the rest of a reading. -/
theorem eq_of_variables_behind {before : Segment} (h : (before :: reading).IsChain (Parting symbols))
    (h' : (before :: other).IsChain (Parting symbols))
    (htiles : Tiles symbols before.span.stop (reading.map Segment.span))
    (htiles' : Tiles symbols before.span.stop (other.map Segment.span))
    (hvariables : reading.filter Segment.isVariable = other.filter Segment.isVariable) : reading = other := by
  -- Along the first reading; what is known of both is that the same segment stands before them.
  induction reading generalizing before other with
  | nil =>
    cases other with
    | nil => rfl
    | cons next other => exact ((List.isChain_cons_cons.mp h').1.not_end htiles htiles').elim
  | cons segment reading ih =>
    cases other with
    | nil => exact ((List.isChain_cons_cons.mp h).1.not_end htiles' htiles).elim
    | cons next other =>
      obtain ⟨hparting, hlater⟩ := List.isChain_cons_cons.mp h
      obtain ⟨hparting', hlater'⟩ := List.isChain_cons_cons.mp h'
      obtain ⟨-, -, hrest⟩ := tiles_cons_iff.mp htiles
      obtain ⟨-, -, hrest'⟩ := tiles_cons_iff.mp htiles'
      obtain ⟨htexts, hle⟩ := hparting.start_alike hparting'
      have hge := fun hsegment hnext => (hparting'.start_alike hparting).2 hnext hsegment
      obtain rfl : segment = next := Parting.head_eq hlater hlater' hrest hrest' hvariables htexts hle hge
      rw [ih hlater hlater' hrest hrest' (filter_tail hvariables)]

end

section
variable {schema : Schema} {limit : Nat} {token : Piece} {precededBy : Option UInt8} {readings : List Reading}

/-- A reading of a token starts where the token starts, and text and variables part in it. -/
theorem exists_first_segment (h : token.readings schema limit precededBy = some readings) (hne : token.symbols ≠ [])
    (hmembers : ∀ s ∈ token.symbols, inToken schema s = true) (hnone : ¬ StarBetween schema token.symbols)
    {reading : Reading} (hreading : reading ∈ readings) :
    ∃ segment rest, reading = segment :: rest ∧ (segment :: rest).IsChain (Parting token.symbols) ∧
      segment.span.start = 0 ∧ Tiles token.symbols segment.span.stop (rest.map Segment.span) := by
  obtain ⟨segments, hsplits, rfl⟩ := (mem_readings h).mp hreading
  have hchain : (joined segments).IsChain (Parting token.symbols) := isChain_joined (hsplits.isChain hmembers hnone)
  have htiles : Tiles token.symbols 0 ((joined segments).map Segment.span) := tiles_foldr_cons hsplits.tiles
  rw [← joined]
  cases hjoined : joined segments with
  | nil =>
    rw [hjoined] at htiles
    exact absurd (List.length_eq_zero_iff.mp htiles.length_eq.symm) hne
  | cons segment rest =>
    rw [hjoined] at hchain htiles
    obtain ⟨hjoins, -, hrest⟩ := tiles_cons_iff.mp htiles
    have hstart : segment.span.start = 0 := by rcases hjoins with hjoins | ⟨hjoins, -⟩ <;> omega
    exact ⟨segment, rest, rfl, hchain, hstart, hrest⟩

/-- **The variables of a reading tell the reading**, in a token in which no star stands between a `?` and another
symbol. -/
theorem eq_of_variables (h : token.readings schema limit precededBy = some readings) (hne : token.symbols ≠ [])
    (hmembers : ∀ s ∈ token.symbols, inToken schema s = true) (hnone : ¬ StarBetween schema token.symbols)
    {reading other : Reading} (hreading : reading ∈ readings) (hother : other ∈ readings)
    (hvariables : reading.filter Segment.isVariable = other.filter Segment.isVariable) : reading = other := by
  obtain ⟨segment, rest, rfl, hchain, hstart, htiles⟩ := exists_first_segment h hne hmembers hnone hreading
  obtain ⟨next, rest', rfl, hchain', hstart', htiles'⟩ := exists_first_segment h hne hmembers hnone hother
  -- Both start at the start of the token, which is all that the first segments have to agree on.
  obtain rfl : segment = next := by
    refine Parting.head_eq hchain hchain' htiles htiles' hvariables ?_ ?_ ?_ <;> intro _ _ <;> omega
  rw [eq_of_variables_behind hchain hchain' htiles htiles' (filter_tail hvariables)]

end

end LogCodec.Query
