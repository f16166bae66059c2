import LogCodec.Proofs.RangedReadings

/-!
# `LogCodec.Proofs.JoinedText`: static text of a reading is joined

A reading is put together from one segment at a time.  Static text that starts where the static text before it has not
ended, or just has, is joined to it, so that a run of such texts becomes one range.  The range is the union of the
ranges in the run: it has every position that one of them has, and no other.  Nothing else is changed or moved.

## Contents
- `Span.Touches`, and `IsUnion`, the range that touching ranges are joined to; `IsUnion.concat`, with one more.
- `JoinsAs`: a run of segments becomes one segment.  `Grouped`, a reading as the runs that became its segments.
- `Grouped.push`, one step, and `grouped_foldl`, a whole reading.
-/

namespace LogCodec

/-- The second span starts within the first one, or where it ends. -/
def Span.Touches (a b : Span) : Prop := a.start ≤ b.start ∧ b.start ≤ a.stop

namespace Query

/-! ## Ranges -/

/-- The range has the positions of some ranges, each of which touches the next, and no other position. -/
structure IsUnion (ranges : List Span) (range : Span) : Prop where
  ne_nil : ranges ≠ []
  touch : ranges.IsChain Span.Touches
  within : ∀ r ∈ ranges, range.start ≤ r.start ∧ r.stop ≤ range.stop
  covered : ∀ position, range.start ≤ position → position < range.stop →
    ∃ r ∈ ranges, r.start ≤ position ∧ position < r.stop

section
variable {ranges : List Span} {range next : Span}

theorem IsUnion.single (range : Span) : IsUnion [range] range where
  ne_nil := List.cons_ne_nil range []
  touch := List.isChain_singleton range
  within r hr := by
    rw [List.mem_singleton.mp hr]
    exact ⟨Nat.le_refl _, Nat.le_refl _⟩
  covered _ hstart hstop := ⟨range, List.mem_singleton_self range, hstart, hstop⟩

/-- One more range that touches the last one is joined by its end. -/
theorem IsUnion.concat (h : IsUnion ranges range) (htouch : ∀ last ∈ ranges.getLast?, last.Touches next) :
    IsUnion (ranges ++ [next]) ⟨range.start, max range.stop next.stop⟩ ∧ next.start ≤ range.stop := by
  have hlast := List.getLast?_eq_some_getLast h.ne_nil
  have htouches : (ranges.getLast h.ne_nil).Touches next := htouch _ hlast
  have hwithin := h.within _ (List.getLast_mem h.ne_nil)
  have hstart : range.start ≤ next.start := Nat.le_trans hwithin.1 htouches.1
  have hstop : next.start ≤ range.stop := Nat.le_trans htouches.2 hwithin.2
  refine ⟨⟨by simp, ?_, ?_, ?_⟩, hstop⟩
  · rw [List.isChain_append]
    refine ⟨h.touch, List.isChain_singleton next, ?_⟩
    intro last hlast' other hother
    obtain rfl := Option.some.inj hother
    exact htouch last hlast'
  · intro r hr
    rcases List.mem_append.mp hr with hr | hr
    · exact ⟨(h.within r hr).1, Nat.le_trans (h.within r hr).2 (Nat.le_max_left _ _)⟩
    · rw [List.mem_singleton.mp hr]
      exact ⟨hstart, Nat.le_max_right _ _⟩
  · intro position hfrom hto
    by_cases hold : position < range.stop
    · obtain ⟨r, hr, hposition⟩ := h.covered position hfrom hold
      exact ⟨r, List.mem_append_left _ hr, hposition⟩
    · -- Behind the end of the old range there is only the new one.
      have hmax : position < max range.stop next.stop := hto
      have hnew : next.start ≤ position ∧ position < next.stop := by omega
      exact ⟨next, List.mem_append_right _ (List.mem_singleton_self next), hnew⟩

end

/-! ## Segments -/

/-- The segment is static text. -/
def RangeSegment.isStatic : RangeSegment → Bool
  | .static _ => true
  | _ => false

/-- What stands behind static text is not static text, or touches it. -/
def RangeSegment.Follows (segment next : RangeSegment) : Prop :=
  ∀ a b, segment = .static a → next = .static b → a.Touches b

/-- A run of segments becomes a segment of a reading: touching texts their union, and any other segment itself. -/
inductive JoinsAs : List RangeSegment → RangeSegment → Prop where
  | text {ranges : List Span} {range : Span} (h : IsUnion ranges range) : JoinsAs (ranges.map .static) (.static range)
  | other {segment : RangeSegment} (h : segment.isStatic = false) : JoinsAs [segment] segment

/-- Segments are the runs, in order, that became the segments of a reading, in which no two texts are neighbours. -/
structure Grouped (segments reading : List RangeSegment) (groups : List (List RangeSegment)) : Prop where
  flatten : groups.flatten = segments
  joins : List.Forall₂ JoinsAs groups reading
  apart : reading.IsChain fun segment next => ¬ (segment.isStatic = true ∧ next.isStatic = true)

section
variable {segments reading : List RangeSegment} {groups : List (List RangeSegment)} {segment : RangeSegment}

theorem JoinsAs.single (segment : RangeSegment) : JoinsAs [segment] segment := by
  cases segment with
  | static range => exact .text (IsUnion.single range)
  | exact value packed => exact .other rfl
  | wildcard range kind starBefore starBehind => exact .other rfl

/-- A segment that is not joined becomes a run of its own. -/
theorem Grouped.concat (h : Grouped segments reading groups)
    (hapart : ∀ last ∈ reading.getLast?, ¬ (last.isStatic = true ∧ segment.isStatic = true)) :
    Grouped (segments ++ [segment]) (reading ++ [segment]) (groups ++ [[segment]]) where
  flatten := by rw [List.flatten_append, h.flatten, List.flatten_singleton]
  joins := List.rel_append h.joins (.cons (JoinsAs.single segment) .nil)
  apart := by
    rw [List.isChain_append]
    refine ⟨h.apart, List.isChain_singleton segment, ?_⟩
    intro last hlast next hnext
    obtain rfl := Option.some.inj hnext
    exact hapart last hlast

theorem forall₂_concat_right {α β : Type} {R : α → β → Prop} {xs : List α} {ys : List β} {y : β}
    (h : List.Forall₂ R xs (ys ++ [y])) : ∃ front x, xs = front ++ [x] ∧ List.Forall₂ R front ys ∧ R x y := by
  induction ys generalizing xs with
  | nil =>
    obtain ⟨x, rest, hx, hrest, rfl⟩ := List.forall₂_cons_right_iff.mp h
    obtain rfl := List.forall₂_nil_right_iff.mp hrest
    exact ⟨[], x, rfl, .nil, hx⟩
  | cons z ys ih =>
    obtain ⟨x, rest, hx, hrest, rfl⟩ := List.forall₂_cons_right_iff.mp h
    obtain ⟨front, last, rfl, hfront, hlast⟩ := ih hrest
    exact ⟨x :: front, last, rfl, .cons hx hfront, hlast⟩

theorem RangeSegment.exists_static (h : segment.isStatic = true) : ∃ range, segment = .static range := by
  cases segment with
  | static range => exact ⟨range, rfl⟩
  | exact value packed => cases h
  | wildcard range kind starBefore starBehind => cases h

/-- **To add a segment keeps the runs**, and either adds it to the last one or starts a new one with it. -/
theorem Grouped.push (h : Grouped segments reading groups)
    (hfollows : ∀ last ∈ segments.getLast?, last.Follows segment) :
    ∃ next, Grouped (segments ++ [segment]) (pushSegment reading segment) next := by
  rcases List.eq_nil_or_concat' reading with rfl | ⟨front, last, rfl⟩
  · refine ⟨groups ++ [[segment]], h.concat ?_⟩
    intro last hlast
    cases hlast
  · by_cases hboth : last.isStatic = true ∧ segment.isStatic = true
    · obtain ⟨a, rfl⟩ := RangeSegment.exists_static hboth.1
      obtain ⟨b, rfl⟩ := RangeSegment.exists_static hboth.2
      obtain ⟨earlier, run, rfl, hearlier, hrun⟩ := forall₂_concat_right h.joins
      cases hrun with
      | other hother => cases hother
      | @text ranges _ hunion =>
        -- The last text of the run is the last segment, so what is added touches it.
        have htouch : ∀ r ∈ ranges.getLast?, r.Touches b := by
          intro r hr
          refine hfollows (.static r) ?_ r b rfl rfl
          rw [← h.flatten, List.flatten_append, List.flatten_singleton, List.getLast?_append, List.getLast?_map, hr]
          rfl
        obtain ⟨hjoined, hstart⟩ := hunion.concat htouch
        rw [pushSegment_static front hstart]
        refine ⟨earlier ++ [(ranges ++ [b]).map .static], ?_, ?_, ?_⟩
        · rw [← h.flatten]
          simp
        · exact List.rel_append hearlier (.cons (JoinsAs.text hjoined) .nil)
        · have hchain := h.apart
          rw [List.isChain_append] at hchain ⊢
          refine ⟨hchain.1, List.isChain_singleton _, ?_⟩
          intro before hbefore next hnext
          obtain rfl := Option.some.inj hnext
          exact hchain.2.2 before hbefore (.static a) rfl
    · have happart : ∀ a b, last = .static a → segment ≠ .static b := by
        rintro a b rfl rfl
        exact hboth ⟨rfl, rfl⟩
      rw [pushSegment_append front happart]
      refine ⟨groups ++ [[segment]], h.concat ?_⟩
      intro other hother
      rw [List.getLast?_concat] at hother
      obtain rfl := Option.some.inj hother
      exact hboth

/-- **A reading keeps the segments that it is made of**, in order, with each run of touching texts as their union. -/
theorem grouped_foldl (h : segments.IsChain RangeSegment.Follows) :
    ∃ groups, Grouped segments (segments.foldl pushSegment []) groups := by
  induction segments using List.reverseRecOn with
  | nil => exact ⟨[], rfl, .nil, .nil⟩
  | append_singleton segments segment ih =>
    rw [List.isChain_append] at h
    obtain ⟨hsegments, -, hlast⟩ := h
    obtain ⟨groups, hgroups⟩ := ih hsegments
    rw [List.foldl_append]
    exact hgroups.push fun last hmem => hlast last hmem segment rfl

end

end Query

end LogCodec
