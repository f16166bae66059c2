import LogCodec.Proofs.JoinedText
import LogCodec.Proofs.QueryWords
import LogCodec.Proofs.Seams

/-!
# `LogCodec.Proofs.TokenCuts`: where a token is cut

The cuts of a token go from its start to its end.  Each of them starts where the one before it ends, or, at a star that
is split, one position before that.  A piece may be nothing but a star, next to a `?` that is split as well; what cannot
be is an empty piece, because it would not be put among the cuts at all.

## Contents
- `Cut.covers`, and `Meets`, what two neighbouring cuts have to do with each other.
- `Rising`, the points that are still to be split; `Rising.of_star` and `Rising.of_any`, behind the first of them.
- One lemma for each thing that is known of `cutsFrom`, by induction on the points: `within_cutsFrom`,
  `countP_cutsFrom`, `delimiter_mem_cutsFrom`, `context_cutsFrom`, `getLast?_cutsFrom`, `isChain_meets_cutsFrom` and
  `exists_shared_star`.
- `CutAt`, all of this for a token, and `cutAt_cuts`.
-/

namespace LogCodec.Query

/-! ## Cuts -/

/-- The position is one of a cut. -/
def Cut.covers (cut : Cut) (position : Nat) : Bool := cut.span.start ≤ position && position < cut.span.stop

theorem Cut.covers_iff {position : Nat} {cut : Cut} :
    cut.covers position = true ↔ cut.span.start ≤ position ∧ position < cut.span.stop := by
  simp [covers]

/-- How a cut ends and the next one starts, given the points at which the token is split. -/
inductive Meets (splits : SplitPoint → Prop) : Cut → Cut → Prop where
  /-- A star that is split belongs to both pieces. -/
  | star {first index last : Nat} {before behind : Context} (h : splits (.star index)) :
    Meets splits (.piece ⟨first, index + 1⟩ before) (.piece ⟨index, last⟩ behind)
  | before {first index : Nat} {context : Context} (h : splits (.any index)) :
    Meets splits (.piece ⟨first, index⟩ context) (.delimiter index)
  | behind {index last : Nat} {context : Context} (h : splits (.any index)) :
    Meets splits (.delimiter index) (.piece ⟨index + 1, last⟩ context)
  | both {index : Nat} (h : splits (.any index)) (h' : splits (.any (index + 1))) :
    Meets splits (.delimiter index) (.delimiter (index + 1))

/-- Points that are split one behind the other within a token, from a position on.  A star may be where the wildcard
before it ended. -/
structure Rising (length first : Nat) (selected : List SplitPoint) : Prop where
  sorted : selected.Pairwise fun point next => point.index < next.index
  within : ∀ point ∈ selected, first ≤ point.index ∧ point.index < length
  stars : ∀ index, .star index ∈ selected → 0 < index

namespace Rising

section
variable {length first index : Nat} {selected : List SplitPoint}

/-- Behind a star that is split the next piece starts with it. -/
theorem of_star (h : Rising length first (.star index :: selected)) :
    first ≤ index ∧ index < length ∧ 0 < index ∧ (∀ point ∈ selected, index < point.index) ∧
      Rising length index selected := by
  obtain ⟨hahead, hsorted⟩ := List.pairwise_cons.mp h.sorted
  obtain ⟨hfirst, hlength⟩ := h.within _ List.mem_cons_self
  refine ⟨hfirst, hlength, h.stars index List.mem_cons_self, hahead, hsorted, ?_, ?_⟩
  · intro point hpoint
    exact ⟨Nat.le_of_lt (hahead point hpoint), (h.within point (List.mem_cons_of_mem _ hpoint)).2⟩
  · intro star hstar
    exact h.stars star (List.mem_cons_of_mem _ hstar)

/-- Behind a `?` that is split the next piece starts. -/
theorem of_any (h : Rising length first (.any index :: selected)) :
    first ≤ index ∧ index < length ∧ Rising length (index + 1) selected := by
  obtain ⟨hahead, hsorted⟩ := List.pairwise_cons.mp h.sorted
  obtain ⟨hfirst, hlength⟩ := h.within _ List.mem_cons_self
  refine ⟨hfirst, hlength, hsorted, ?_, ?_⟩
  · intro point hpoint
    exact ⟨hahead point hpoint, (h.within point (List.mem_cons_of_mem _ hpoint)).2⟩
  · intro star hstar
    exact h.stars star (List.mem_cons_of_mem _ hstar)

end

end Rising

section
variable {length first last position index : Nat} {context : Context} {selected : List SplitPoint} {cut : Cut}

theorem mem_cutBetween : cut ∈ cutBetween first last context ↔ first < last ∧ cut = .piece ⟨first, last⟩ context := by
  unfold cutBetween
  split
  · next h => simp [h]
  · next h => simp [h]

theorem countP_cutBetween :
    (cutBetween first last context).countP (·.covers position) =
      if first ≤ position ∧ position < last then 1 else 0 := by
  unfold cutBetween
  split
  · simp only [List.countP_singleton, Cut.covers_iff]
    rfl
  · rw [if_neg (by omega)]
    rfl

/-- No cut is empty, and none lies outside the token. -/
theorem within_cutsFrom (h : Rising length first selected) (hcut : cut ∈ cutsFrom length first context selected) :
    cut.span.start < cut.span.stop ∧ cut.span.stop ≤ length := by
  induction selected generalizing first context with
  | nil =>
    obtain ⟨hlt, rfl⟩ := mem_cutBetween.mp hcut
    exact ⟨hlt, Nat.le_refl length⟩
  | cons point selected ih =>
    cases point with
    | star index =>
      obtain ⟨-, hlength, -, -, hlater⟩ := h.of_star
      rw [cutsFrom] at hcut
      rcases List.mem_append.mp hcut with hcut | hcut
      · obtain ⟨hlt, rfl⟩ := mem_cutBetween.mp hcut
        exact ⟨hlt, hlength⟩
      · exact ih hlater hcut
    | any index =>
      obtain ⟨-, hlength, hlater⟩ := h.of_any
      rw [cutsFrom] at hcut
      rcases List.mem_append.mp hcut with hcut | hcut
      · obtain ⟨hlt, rfl⟩ := mem_cutBetween.mp hcut
        exact ⟨hlt, Nat.le_of_lt hlength⟩
      · rcases List.mem_cons.mp hcut with rfl | hcut
        · exact ⟨Nat.lt_succ_self index, hlength⟩
        · exact ih hlater hcut

/-- **Each position is in one cut, and that of a star that is split in one more.** -/
theorem countP_cutsFrom (h : Rising length first selected) (hposition : position < length) :
    (cutsFrom length first context selected).countP (·.covers position) =
      (if first ≤ position then 1 else 0) + selected.count (.star position) := by
  induction selected generalizing first context with
  | nil => simp [cutsFrom, countP_cutBetween, hposition]
  | cons point selected ih =>
    cases point with
    | star index =>
      obtain ⟨hfirst, -, -, -, hlater⟩ := h.of_star
      rw [cutsFrom, List.countP_append, countP_cutBetween, ih hlater, List.count_cons]
      simp only [beq_iff_eq, SplitPoint.star.injEq]
      split_ifs <;> omega
    | any index =>
      obtain ⟨hfirst, -, hlater⟩ := h.of_any
      rw [cutsFrom, List.countP_append, countP_cutBetween, List.countP_cons, ih hlater, List.count_cons]
      have hdelimiter : (Cut.delimiter index).span = ⟨index, index + 1⟩ := rfl
      simp only [Cut.covers_iff, hdelimiter, beq_iff_eq, reduceCtorEq, if_false]
      split_ifs <;> omega

/-- The delimiters are the `?` that are split. -/
theorem delimiter_mem_cutsFrom :
    .delimiter index ∈ cutsFrom length first context selected ↔ .any index ∈ selected := by
  induction selected generalizing first context with
  | nil => simp [cutsFrom, mem_cutBetween]
  | cons point selected ih => cases point <;> simp [cutsFrom, mem_cutBetween, ih]

/-- Only the piece at the start has the byte before the token before it. -/
theorem context_cutsFrom {span : Span} {known : Context} (h : Rising length first selected)
    (hcut : .piece span known ∈ cutsFrom length first context selected) :
    span.start = first ∧ known = context ∨ 0 < span.start ∧ known = .split := by
  induction selected generalizing first context with
  | nil =>
    obtain ⟨-, hpiece⟩ := mem_cutBetween.mp hcut
    cases hpiece
    exact .inl ⟨rfl, rfl⟩
  | cons point selected ih =>
    cases point with
    | star index =>
      obtain ⟨-, -, hindex, -, hlater⟩ := h.of_star
      rw [cutsFrom] at hcut
      rcases List.mem_append.mp hcut with hcut | hcut
      · obtain ⟨-, hpiece⟩ := mem_cutBetween.mp hcut
        cases hpiece
        exact .inl ⟨rfl, rfl⟩
      · rcases ih hlater hcut with ⟨hstart, hknown⟩ | hbehind
        · exact .inr ⟨hstart ▸ hindex, hknown⟩
        · exact .inr hbehind
    | any index =>
      obtain ⟨-, -, hlater⟩ := h.of_any
      rw [cutsFrom] at hcut
      rcases List.mem_append.mp hcut with hcut | hcut
      · obtain ⟨-, hpiece⟩ := mem_cutBetween.mp hcut
        cases hpiece
        exact .inl ⟨rfl, rfl⟩
      · rcases List.mem_cons.mp hcut with hpiece | hcut
        · cases hpiece
        · rcases ih hlater hcut with ⟨hstart, hknown⟩ | hbehind
          · exact .inr ⟨hstart ▸ Nat.succ_pos index, hknown⟩
          · exact .inr hbehind

/-- The first cut starts where the cutting does. -/
theorem head?_cutsFrom_cases (h : Rising length first selected)
    (hcut : cut ∈ (cutsFrom length first context selected).head?) :
    (∃ stop, cut = .piece ⟨first, stop⟩ context) ∨ cut = .delimiter first ∧ .any first ∈ selected := by
  have hpiece : ∀ {stop : Nat} {behind : List Cut}, first < stop →
      cut ∈ (cutBetween first stop context ++ behind).head? → cut = .piece ⟨first, stop⟩ context := by
    intro stop behind hlt hhead
    rw [cutBetween, if_pos hlt] at hhead
    exact (Option.some.inj hhead).symm
  cases selected with
  | nil =>
    have hmem := List.mem_of_mem_head? hcut
    obtain ⟨-, rfl⟩ := mem_cutBetween.mp hmem
    exact .inl ⟨length, rfl⟩
  | cons point selected =>
    cases point with
    | star index => exact .inl ⟨_, hpiece (Nat.lt_succ_of_le h.of_star.1) hcut⟩
    | any index =>
      rcases Nat.eq_or_lt_of_le h.of_any.1 with rfl | hlt
      · rw [cutsFrom, cutBetween, if_neg (Nat.lt_irrefl _)] at hcut
        exact .inr ⟨(Option.some.inj hcut).symm, List.mem_cons_self⟩
      · exact .inl ⟨_, hpiece hlt hcut⟩

/-- There is a cut as long as there is something to cut. -/
theorem exists_head?_cutsFrom (h : Rising length first selected) (hfirst : first < length) :
    ∃ cut, (cutsFrom length first context selected).head? = some cut := by
  have hcovered := @countP_cutsFrom length first first context selected h hfirst
  cases hcuts : cutsFrom length first context selected with
  | nil =>
    rw [hcuts, if_pos (Nat.le_refl first), List.countP_nil] at hcovered
    omega
  | cons cut cuts => exact ⟨cut, rfl⟩

/-- The last cut ends where the token does. -/
theorem getLast?_cutsFrom (h : Rising length first selected)
    (hcut : cut ∈ (cutsFrom length first context selected).getLast?) : cut.span.stop = length := by
  induction selected generalizing first context cut with
  | nil =>
    obtain ⟨-, rfl⟩ := mem_cutBetween.mp (List.mem_of_getLast? hcut)
    rfl
  | cons point selected ih =>
    cases point with
    | star index =>
      obtain ⟨-, hlength, -, -, hlater⟩ := h.of_star
      rw [cutsFrom, List.getLast?_append] at hcut
      obtain ⟨next, hnext⟩ := exists_head?_cutsFrom hlater hlength
      cases hlast : (cutsFrom length index .split selected).getLast? with
      | none =>
        rw [List.getLast?_eq_none_iff] at hlast
        rw [hlast] at hnext
        cases hnext
      | some last =>
        rw [hlast] at hcut
        exact ih hlater (hlast.trans hcut)
    | any index =>
      obtain ⟨-, hlength, hlater⟩ := h.of_any
      rw [cutsFrom, List.getLast?_append, List.getLast?_cons] at hcut
      obtain rfl := Option.some.inj hcut
      cases hlast : (cutsFrom length (index + 1) .split selected).getLast? with
      | none =>
        -- Nothing is left to cut, so the delimiter is the end of the token.
        rw [List.getLast?_eq_none_iff] at hlast
        refine Nat.le_antisymm hlength (Nat.le_of_not_lt ?_)
        intro hmore
        obtain ⟨next, hnext⟩ := exists_head?_cutsFrom hlater hmore
        rw [hlast] at hnext
        cases hnext
      | some last => exact ih hlater hlast

theorem isChain_cutBetween {R : Cut → Cut → Prop} : (cutBetween first last context).IsChain R := by
  unfold cutBetween
  split
  · exact List.isChain_singleton _
  · exact .nil

/-- **The token is cut at the points that are split and nowhere else.** -/
theorem isChain_meets_cutsFrom {splits : SplitPoint → Prop} (h : Rising length first selected)
    (hsplits : ∀ point ∈ selected, splits point) : (cutsFrom length first context selected).IsChain (Meets splits) := by
  induction selected generalizing first context with
  | nil => exact isChain_cutBetween
  | cons point selected ih =>
    obtain ⟨hpoint, hrest⟩ := List.forall_mem_cons.mp hsplits
    cases point with
    | star index =>
      obtain ⟨-, -, -, hahead, hlater⟩ := h.of_star
      rw [cutsFrom, List.isChain_append]
      refine ⟨isChain_cutBetween, ih hlater hrest, ?_⟩
      intro before hbefore behind hbehind
      obtain ⟨-, rfl⟩ := mem_cutBetween.mp (List.mem_of_getLast? hbefore)
      rcases head?_cutsFrom_cases hlater hbehind with ⟨stop, rfl⟩ | ⟨-, hany⟩
      · exact .star hpoint
      · exact absurd (hahead _ hany) (Nat.lt_irrefl index)
    | any index =>
      obtain ⟨-, -, hlater⟩ := h.of_any
      rw [cutsFrom, List.isChain_append, List.isChain_cons]
      refine ⟨isChain_cutBetween, ⟨?_, ih hlater hrest⟩, ?_⟩
      · intro behind hbehind
        rcases head?_cutsFrom_cases hlater hbehind with ⟨stop, rfl⟩ | ⟨rfl, hany⟩
        · exact .behind hpoint
        · exact .both hpoint (hrest _ hany)
      · intro before hbefore behind hbehind
        obtain ⟨-, rfl⟩ := mem_cutBetween.mp (List.mem_of_getLast? hbefore)
        obtain rfl := Option.some.inj hbehind
        exact .before hpoint

/-- **A star that is split ends one piece and starts the next.** -/
theorem exists_shared_star (h : Rising length first selected) (hstar : .star index ∈ selected) :
    ∃ start stop before behind, [.piece ⟨start, index + 1⟩ before, .piece ⟨index, stop⟩ behind] <:+:
      cutsFrom length first context selected := by
  induction selected generalizing first context with
  | nil => cases hstar
  | cons point selected ih =>
    rcases List.mem_cons.mp hstar with rfl | hbehind
    · obtain ⟨hfirst, hlength, -, hahead, hlater⟩ := h.of_star
      obtain ⟨next, hnext⟩ := @exists_head?_cutsFrom length index .split selected hlater hlength
      obtain ⟨behind, hbehind⟩ := List.head?_eq_some_iff.mp hnext
      rcases head?_cutsFrom_cases hlater hnext with ⟨stop, rfl⟩ | ⟨-, hany⟩
      · refine ⟨first, stop, context, .split, [], behind, ?_⟩
        rw [cutsFrom, cutBetween, if_pos (Nat.lt_succ_of_le hfirst), hbehind]
        rfl
      · exact absurd (hahead _ hany) (Nat.lt_irrefl index)
    · cases point with
      | star other =>
        obtain ⟨start, stop, before, behind, hinfix⟩ := @ih other .split h.of_star.2.2.2.2 hbehind
        exact ⟨start, stop, before, behind, hinfix.trans (List.suffix_append _ _).isInfix⟩
      | any other =>
        obtain ⟨start, stop, before, behind, hinfix⟩ := @ih (other + 1) .split h.of_any.2.2 hbehind
        refine ⟨start, stop, before, behind, hinfix.trans ?_⟩
        exact ((List.suffix_cons _ _).trans (List.suffix_append _ _)).isInfix

end

/-- **How a token is cut**, given the points at which it is split. -/
structure CutAt (splits : SplitPoint → Prop) (length : Nat) (precededBy : Option UInt8) (cuts : List Cut) : Prop where
  /-- No cut is empty, reversed or out of range. -/
  within : ∀ cut ∈ cuts, cut.span.start < cut.span.stop ∧ cut.span.stop ≤ length
  starts : ∀ cut ∈ cuts.head?, cut.span.start = 0
  ends : ∀ cut ∈ cuts.getLast?, cut.span.stop = length
  meets : cuts.IsChain (Meets splits)
  once : ∀ position < length, ¬ splits (.star position) → cuts.countP (·.covers position) = 1
  twice : ∀ position, splits (.star position) → cuts.countP (·.covers position) = 2
  delimiters : ∀ index, .delimiter index ∈ cuts ↔ splits (.any index)
  stars : ∀ index, splits (.star index) → ∃ start stop before behind,
    [.piece ⟨start, index + 1⟩ before, .piece ⟨index, stop⟩ behind] <:+: cuts
  contexts : ∀ span context, .piece span context ∈ cuts →
    context = if span.start = 0 then .known precededBy else .split

/-- **Each selection of split points cuts the token.** -/
theorem cutAt_cuts {length : Nat} {selected : List SplitPoint} (h : Rising length 0 selected)
    (precededBy : Option UInt8) : CutAt (· ∈ selected) length precededBy (cuts length precededBy selected) where
  within _ hcut := within_cutsFrom h hcut
  starts cut hcut := by
    rcases head?_cutsFrom_cases h hcut with ⟨stop, rfl⟩ | ⟨rfl, -⟩
    · rfl
    · rfl
  ends _ hcut := getLast?_cutsFrom h hcut
  meets := isChain_meets_cutsFrom h fun _ hpoint => hpoint
  once position hposition hsplit := by
    rw [cuts, countP_cutsFrom h hposition, List.count_eq_zero_of_not_mem hsplit, if_pos (Nat.zero_le position)]
  twice position hsplit := by
    have hposition : position < length := (h.within _ hsplit).2
    have hnodup : selected.Nodup := h.sorted.imp fun hlt heq => by
      rw [heq] at hlt
      exact Nat.lt_irrefl _ hlt
    rw [cuts, countP_cutsFrom h hposition, hnodup.count, if_pos hsplit, if_pos (Nat.zero_le position)]
  delimiters _ := delimiter_mem_cutsFrom
  stars _ hsplit := exists_shared_star h hsplit
  contexts span context hcut := by
    rcases context_cutsFrom h hcut with ⟨hstart, rfl⟩ | ⟨hstart, rfl⟩
    · rw [if_pos hstart]
    · rw [if_neg (Nat.pos_iff_ne_zero.mp hstart)]

end LogCodec.Query
