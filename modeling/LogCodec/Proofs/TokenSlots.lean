import LogCodec.Proofs.TokenCuts

/-!
# `LogCodec.Proofs.TokenSlots`: a token is cut without loss or overlap

The pieces of a token are read one after the other, and the store goes along.  What is static in them does not depend on
the store, and reading them never goes wrong, so all of it can be said for any store.  The units of a query stand one
behind the other.  Hence the texts of neighbouring cuts touch, and a reading that takes one alternative for each cut
joins its static texts and leaves nothing out.

## Contents
- **Units.** `Abut`, with `abutFrom_placedFrom`, for the units of a query, and `abut_of_partOf`, for a part of them.
- **Texts.** `Spells`, the range of some units; `Spells.touches` and `Meets.touches`.
- **Slots.** `Cut.IsReadAs`, with `IsReadAs.spells`; `Store.exists_readPiece` and `Store.exists_pieces`.
- **Split points.** `SplitsAt`, and `mem_selected_iff`: the points that the digits of a number select.
- **Readings.** `isChain_follows`, and `Store.pieces_cut_token`, the result.
-/

namespace LogCodec.Query

/-! ## Units -/

/-- Units stand one behind the other, with nothing between them. -/
structure Abut (units : List PlacedSymbol) : Prop where
  nonempty : ∀ unit ∈ units, unit.span.start < unit.span.stop
  ordered : units.Pairwise fun unit later => unit.span.stop ≤ later.span.start
  adjoining : units.IsChain fun unit next => unit.span.stop = next.span.start

/-- Units stand one behind the other from a position on. -/
structure AbutFrom (position : Nat) (units : List PlacedSymbol) : Prop extends Abut units where
  starts : ∀ unit ∈ units.head?, unit.span.start = position
  behind : ∀ unit ∈ units, position ≤ unit.span.start

theorem AbutFrom.nil (position : Nat) : AbutFrom position [] := ⟨⟨nofun, .nil, .nil⟩, nofun, nofun⟩

theorem AbutFrom.cons {position stop : Nat} {units : List PlacedSymbol} (h : AbutFrom stop units)
    (hlt : position < stop) (symbol : Symbol) : AbutFrom position (⟨symbol, ⟨position, stop⟩⟩ :: units) where
  nonempty := List.forall_mem_cons.mpr ⟨hlt, h.nonempty⟩
  ordered := .cons h.behind h.ordered
  adjoining := List.isChain_cons.mpr ⟨fun next hnext => (h.starts next hnext).symm, h.adjoining⟩
  starts unit hunit := by
    obtain rfl := Option.some.inj hunit
    rfl
  behind := by
    refine List.forall_mem_cons.mpr ⟨Nat.le_refl position, ?_⟩
    intro unit hunit
    exact Nat.le_trans (Nat.le_of_lt hlt) (h.behind unit hunit)

/-- **The units of a query stand one behind the other**, whatever the query is. -/
theorem abutFrom_placedFrom (position : Nat) (bytes : Bytes) :
    AbutFrom position (Pattern.placedFrom position bytes) := by
  fun_induction Pattern.placedFrom position bytes with
  | case1 position => exact .nil position
  | case2 position b => exact (AbutFrom.nil (position + 1)).cons (Nat.lt_succ_self position) (Symbol.ofByte b)
  | case3 position c rest ih => exact ih.cons (by omega) (.literal c)
  | case4 position b c rest hb ih => exact ih.cons (Nat.lt_succ_self position) (Symbol.ofByte b)

theorem Abut.slice {units : List PlacedSymbol} (h : Abut units) (part : Span) : Abut (part.slice units) where
  nonempty unit hunit := h.nonempty unit (List.mem_of_mem_drop (List.mem_of_mem_take hunit))
  ordered := h.ordered.sublist ((List.take_sublist _ _).trans (List.drop_sublist _ _))
  adjoining := (h.adjoining.drop _).take _

section
variable {query : Bytes} {units run : List PlacedSymbol} {part s t x y : Span} {i j : Nat} {u v : PlacedSymbol}

/-- A part of the units of a query. -/
theorem abut_of_partOf (hunits : unitsFrom query 0 = .ok units) (hrun : partOf units part = .ok run) : Abut run := by
  rw [unitsFrom_eq] at hunits
  obtain rfl := Except.ok.inj hunits
  rw [partOf] at hrun
  split at hrun
  · obtain rfl := Except.ok.inj hrun
    exact (abutFrom_placedFrom 0 query).toAbut.slice part
  · cases hrun

/-! ## Texts -/

namespace Abut

theorem start_le_start (h : Abut run) (hij : i ≤ j) (hu : run[i]? = some u) (hv : run[j]? = some v) :
    u.span.start ≤ v.span.start := by
  obtain ⟨hi, rfl⟩ := List.getElem?_eq_some_iff.mp hu
  obtain ⟨hj, rfl⟩ := List.getElem?_eq_some_iff.mp hv
  rcases Nat.eq_or_lt_of_le hij with rfl | hlt
  · exact Nat.le_refl _
  · have hnonempty := h.nonempty _ (List.getElem_mem hi)
    have hordered := List.pairwise_iff_getElem.mp h.ordered i j hi hj hlt
    omega

/-- A unit starts before each unit from the one before it on ends, or where that one does. -/
theorem start_le_stop (h : Abut run) (hij : i ≤ j + 1) (hu : run[i]? = some u) (hv : run[j]? = some v) :
    u.span.start ≤ v.span.stop := by
  rcases Nat.eq_or_lt_of_le hij with rfl | hlt
  · obtain ⟨hi, rfl⟩ := List.getElem?_eq_some_iff.mp hu
    obtain ⟨hj, rfl⟩ := List.getElem?_eq_some_iff.mp hv
    exact Nat.le_of_eq (List.isChain_iff_getElem.mp h.adjoining j hi).symm
  · have hstart := h.start_le_start (Nat.le_of_lt_succ hlt) hu hv
    have hnonempty := h.nonempty v (List.mem_of_getElem? hv)
    omega

end Abut

/-- The units in a span of a token spell a range of the query. -/
def Spells (run : List PlacedSymbol) (span range : Span) : Prop :=
  ∃ first last, run[span.start]? = some first ∧ run[span.stop - 1]? = some last ∧
    range = ⟨first.span.start, last.span.stop⟩

/-- **What touches in the token touches in the query.** -/
theorem Spells.touches (hrun : Abut run) (hs : s.start < s.stop) (htouch : s.Touches t) (hx : Spells run s x)
    (hy : Spells run t y) : x.Touches y := by
  obtain ⟨first, last, hfirst, hlast, rfl⟩ := hx
  obtain ⟨next, -, hnext, -, rfl⟩ := hy
  obtain ⟨hstart, hstop⟩ := htouch
  exact ⟨hrun.start_le_start hstart hfirst hnext, hrun.start_le_stop (by omega) hnext hlast⟩

/-- Neighbouring cuts touch. -/
theorem Meets.touches {splits : SplitPoint → Prop} {cut next : Cut} (h : Meets splits cut next)
    (hcut : cut.span.start < cut.span.stop) : cut.span.Touches next.span := by
  cases h with
  | star _ => exact ⟨Nat.le_of_lt_succ hcut, Nat.le_succ _⟩
  | before _ => exact ⟨Nat.le_of_lt hcut, Nat.le_refl _⟩
  | behind _ => exact ⟨Nat.le_succ _, Nat.le_refl _⟩
  | both _ _ => exact ⟨Nat.le_succ _, Nat.le_refl _⟩

end

/-! ## Slots -/

/-- The alternatives of a cut, read from the units that it has.  Where values are in the buffer depends on the store. -/
inductive Cut.IsReadAs (schema : Schema) (width : Width) (run : List PlacedSymbol) :
    Cut → List RangeSegment → Prop where
  | piece {span : Span} {context : Context} {units : List PlacedSymbol} {slot : List RangeSegment}
    {before behind : Store} (hunits : partOf run span = .ok units)
    (hread : before.readPiece schema width units context = .ok (slot, behind)) :
    IsReadAs schema width run (.piece span context) slot
  | delimiter {index : Nat} {unit : PlacedSymbol} (hunit : itemAt run index = .ok unit) :
    IsReadAs schema width run (.delimiter index) [.static unit.span]

section
variable {schema : Schema} {width : Width} {run : List PlacedSymbol} {span : Span} {context : Context} {cut : Cut}
  {slot : List RangeSegment} {x : Span}

/-- Going through the units of a piece meets no access that goes wrong. -/
theorem ofUnits_slice (hspan : span.start < span.stop) (hstop : span.stop ≤ run.length) :
    ∃ summary, PieceSummary.ofUnits (span.slice run) = .ok summary ∧ Spells run span summary.range := by
  have hlength : (span.slice run).length = span.length := Span.length_slice run ⟨Nat.le_of_lt hspan, hstop⟩
  have hpositive : 0 < span.length := Nat.sub_pos_of_lt hspan
  have hend : span.start + (span.length - 1) = span.stop - 1 := by
    unfold Span.length
    omega
  have hfirst : run[span.start]? = some run[span.start] := List.getElem?_eq_getElem (by omega)
  have hlast : run[span.stop - 1]? = some run[span.stop - 1] := List.getElem?_eq_getElem (by omega)
  have hfirst' : (span.slice run)[0]? = some run[span.start] := by
    rw [Span.getElem?_slice, if_pos hpositive, Nat.add_zero, hfirst]
  have hlast' : (span.slice run)[(span.slice run).length - 1]? = some run[span.stop - 1] := by
    rw [hlength, Span.getElem?_slice, if_pos (Nat.sub_lt hpositive Nat.one_pos), hend, hlast]
  rw [PieceSummary.ofUnits, itemAt_eq_ok hfirst', itemAt_eq_ok hlast']
  exact ⟨_, rfl, _, _, hfirst, hlast, rfl⟩

/-- Static text stays as it is when its ranges are put in order. -/
theorem Store.static_of_mem_readSegments {piece : PieceSummary} {segments : List Segment} {store : Store}
    (h : .static x ∈ (store.readSegments width piece segments).1) : .static x ∈ segments := by
  induction segments generalizing store with
  | nil => cases h
  | cons segment segments ih =>
    rw [readSegments] at h
    rcases List.mem_cons.mp h with hfirst | hlater
    · cases segment with
      | static range =>
        cases hfirst
        exact List.mem_cons_self
      | exact range => cases hfirst
      | wildcard range kind => cases hfirst
    · exact List.mem_cons_of_mem _ (ih hlater)

/-- **A piece is read from any store**, and what is static text in it is its text in the query. -/
theorem Store.exists_readPiece (schema : Schema) (width : Width) (store : Store) (context : Context)
    (hspan : span.start < span.stop) (hstop : span.stop ≤ run.length) :
    ∃ slot behind, store.readPiece schema width (span.slice run) context = .ok (slot, behind) ∧
      ∀ x, .static x ∈ slot → Spells run span x := by
  obtain ⟨summary, hsummary, hspells⟩ := ofUnits_slice hspan hstop
  rw [readPiece, hsummary]
  refine ⟨_, _, rfl, ?_⟩
  intro x hx
  have hstatic := static_of_mem_readSegments hx
  split at hstatic
  · rcases mem_exactAlternatives hstatic with heq | heq
    · cases heq
      exact hspells
    · cases heq
  · rcases mem_wildcardAlternatives hstatic with heq | ⟨kind, heq⟩
    · cases heq
      exact hspells
    · cases heq

/-- The static text of a slot is the text of its cut. -/
theorem Cut.IsReadAs.spells (h : cut.IsReadAs schema width run slot)
    (hcut : cut.span.start < cut.span.stop ∧ cut.span.stop ≤ run.length) (hx : .static x ∈ slot) :
    Spells run cut.span x := by
  cases h with
  | @piece span context units slot before behind hunits hread =>
    obtain ⟨hspan, hstop⟩ : span.start < span.stop ∧ span.stop ≤ run.length := hcut
    rw [partOf_eq_ok ⟨Nat.le_of_lt hspan, hstop⟩] at hunits
    obtain rfl := Except.ok.inj hunits
    obtain ⟨found, after, hfound, hspells⟩ := before.exists_readPiece schema width context hspan hstop
    obtain ⟨rfl, -⟩ := Prod.mk.inj (Except.ok.inj (hfound.symm.trans hread))
    exact hspells x hx
  | @delimiter index unit hunit =>
    have hget : run[index]? = some unit := by
      rw [itemAt] at hunit
      split at hunit
      · next found hfound =>
        obtain rfl := Except.ok.inj hunit
        exact hfound
      · cases hunit
    cases List.mem_singleton.mp hx
    exact ⟨unit, unit, hget, hget, rfl⟩

namespace Store

variable {first last : Nat}

theorem exists_readBetween (schema : Schema) (width : Width) (store : Store) (context : Context)
    (hlast : last ≤ run.length) :
    ∃ slots behind, store.readBetween schema width run first last context = .ok (slots, behind) ∧
      List.Forall₂ (Cut.IsReadAs schema width run) (cutBetween first last context) slots := by
  unfold readBetween cutBetween
  by_cases hlt : first < last
  · have hpart := @partOf_eq_ok _ run ⟨first, last⟩ ⟨Nat.le_of_lt hlt, hlast⟩
    obtain ⟨slot, behind, hread, -⟩ := @exists_readPiece run ⟨first, last⟩ schema width store context hlt hlast
    rw [if_pos hlt, if_pos hlt, hpart]
    refine ⟨[slot], behind, ?_, .cons (.piece hpart hread) .nil⟩
    show (readPiece _ _ _ _ _ >>= _) = _
    rw [hread]
    rfl
  · rw [if_neg hlt, if_neg hlt]
    exact ⟨[], store, rfl, .nil⟩

theorem exists_unit {index : Nat} {symbol : Symbol} (h : (run.map PlacedSymbol.symbol)[index]? = some symbol) :
    ∃ span, run[index]? = some ⟨symbol, span⟩ := by
  rw [List.getElem?_map] at h
  obtain ⟨⟨_, span⟩, hunit, rfl⟩ := Option.map_eq_some_iff.mp h
  exact ⟨span, hunit⟩

/-- **The pieces of a token are read from any store**, and no access goes wrong on the way. -/
theorem exists_pieces (schema : Schema) (width : Width) (store : Store) (mask digit first : Nat) (context : Context)
    {points : List SplitPoint} (hpoints : ∀ point ∈ points, point.IsAt (run.map PlacedSymbol.symbol)) :
    ∃ slots behind,
      store.pieces schema width run mask digit first context (points.map SplitPoint.index) = .ok (slots, behind) ∧
      List.Forall₂ (Cut.IsReadAs schema width run)
        (cutsFrom run.length first context (selectBits mask digit points)) slots := by
  induction points generalizing digit first context store with
  | nil => exact store.exists_readBetween schema width context (Nat.le_refl _)
  | cons point points ih =>
    obtain ⟨hpoint, hlater⟩ := List.forall_mem_cons.mp hpoints
    rw [List.map_cons, pieces, selectBits]
    by_cases hbit : mask.testBit digit = true
    · rw [if_pos hbit, if_pos hbit]
      cases point with
      | star index =>
        obtain ⟨span, hunit⟩ := exists_unit hpoint
        have hindex : index < run.length := (List.getElem?_eq_some_iff.mp hunit).1
        obtain ⟨slots, between, hread, hslots⟩ :=
          @exists_readBetween run first (index + 1) schema width store context hindex
        obtain ⟨later, behind, hpieces, hcuts⟩ := ih between (digit + 1) index .split hlater
        rw [SplitPoint.index, itemAt_eq_ok hunit, cutsFrom]
        refine ⟨slots ++ later, behind, ?_, List.rel_append hslots hcuts⟩
        show (readBetween schema width run store first (index + 1) context >>= _) = _
        rw [hread]
        show (pieces schema width run mask (digit + 1) index .split between _ >>= _) = _
        rw [hpieces]
        show Except.ok (slots ++ (if Symbol.star = Symbol.any then _ else []) ++ later, behind) = _
        rw [if_neg (by decide), List.append_nil]
      | any index =>
        obtain ⟨span, hunit⟩ := exists_unit hpoint
        have hindex : index < run.length := (List.getElem?_eq_some_iff.mp hunit).1
        obtain ⟨slots, between, hread, hslots⟩ :=
          @exists_readBetween run first index schema width store context (Nat.le_of_lt hindex)
        obtain ⟨later, behind, hpieces, hcuts⟩ := ih between (digit + 1) (index + 1) .split hlater
        rw [SplitPoint.index, itemAt_eq_ok hunit, cutsFrom]
        refine ⟨slots ++ [.static span] :: later, behind, ?_, ?_⟩
        · show (readBetween schema width run store first index context >>= _) = _
          rw [hread]
          show (pieces schema width run mask (digit + 1) (index + 1) .split between _ >>= _) = _
          rw [hpieces]
          show Except.ok (slots ++ [[RangeSegment.static span]] ++ later, behind) = _
          rw [List.append_assoc]
          rfl
        · exact List.rel_append hslots (.cons (.delimiter (itemAt_eq_ok hunit)) hcuts)
    · rw [if_neg hbit, if_neg hbit]
      exact ih store (digit + 1) first context hlater

end Store

end

/-! ## Split points -/

/-- The number splits a token at a point: its digit for the point is set. -/
def SplitsAt (run : List PlacedSymbol) (mask : Nat) (point : SplitPoint) : Prop :=
  point.IsAt (run.map PlacedSymbol.symbol) ∧
    ∃ digit, (splitIndices run)[digit]? = some point.index ∧ mask.testBit digit = true

section
variable {run : List PlacedSymbol} {mask : Nat} {point : SplitPoint}

theorem mem_selectBits {α : Type} {mask digit : Nat} {xs : List α} {x : α} :
    x ∈ selectBits mask digit xs ↔ ∃ i, xs[i]? = some x ∧ mask.testBit (digit + i) = true := by
  induction xs generalizing digit with
  | nil => simp [selectBits]
  | cons y xs ih =>
    have hlater : x ∈ selectBits mask (digit + 1) xs ↔
        ∃ i, (y :: xs)[i + 1]? = some x ∧ mask.testBit (digit + (i + 1)) = true := by
      rw [ih]
      simp only [List.getElem?_cons_succ, Nat.add_comm 1, Nat.add_assoc]
    rw [← Nat.or_exists_add_one, ← hlater, selectBits, List.getElem?_cons_zero, Option.some.injEq]
    by_cases hbit : mask.testBit digit = true
    · rw [if_pos hbit, List.mem_cons, eq_comm]
      simp only [Nat.add_zero, hbit, and_true]
    · rw [if_neg hbit]
      simp only [Nat.add_zero, hbit, Bool.false_eq_true, and_false, false_or]

/-- The points that a number selects are those at which it splits the token. -/
theorem mem_selected_iff :
    point ∈ selectBits mask 0 (splitPoints (run.map PlacedSymbol.symbol)) ↔ SplitsAt run mask point := by
  rw [mem_selectBits, SplitsAt, splitIndices_eq]
  constructor
  · rintro ⟨digit, hpoint, hbit⟩
    rw [Nat.zero_add] at hbit
    refine ⟨isAt_splitPoints _ point (List.mem_of_getElem? hpoint), digit, ?_, hbit⟩
    rw [List.getElem?_map, hpoint]
    rfl
  · rintro ⟨hat, digit, hindex, hbit⟩
    rw [List.getElem?_map] at hindex
    obtain ⟨other, hother, hsame⟩ := Option.map_eq_some_iff.mp hindex
    have hotherAt := isAt_splitPoints _ other (List.mem_of_getElem? hother)
    -- One position holds one symbol, so the points are of one kind.
    have heq : other = point := by
      cases other with
      | star index =>
        cases point with
        | star => exact congrArg SplitPoint.star hsame
        | any =>
          obtain rfl : index = _ := hsame
          exact absurd (hotherAt.symm.trans hat) (by simp)
      | any index =>
        cases point with
        | any => exact congrArg SplitPoint.any hsame
        | star =>
          obtain rfl : index = _ := hsame
          exact absurd (hotherAt.symm.trans hat) (by simp)
    exact ⟨digit, heq ▸ hother, (Nat.zero_add digit).symm ▸ hbit⟩

/-- The points at which a number splits a token come one behind the other. -/
theorem rising_selected (run : List PlacedSymbol) (mask : Nat) :
    Rising run.length 0 (selectBits mask 0 (splitPoints (run.map PlacedSymbol.symbol))) := by
  have hahead := ahead_splitPoints (selectBits_sublist mask 0 (splitPoints (run.map PlacedSymbol.symbol)))
  refine ⟨hahead.sorted, ?_, fun index hindex => (hahead.stars index hindex).1⟩
  intro point hpoint
  have hat := hahead.isAt point hpoint
  refine ⟨Nat.zero_le _, ?_⟩
  rw [← List.length_map]
  cases point with
  | star index => exact (List.getElem?_eq_some_iff.mp hat).1
  | any index => exact (List.getElem?_eq_some_iff.mp hat).1

end

/-! ## Readings -/

theorem forall₂_meet {α β γ : Type} {R : α → γ → Prop} {S : β → γ → Prop} {T : α → β → Prop} {xs : List α} {ys : List β}
    {zs : List γ} (h : ∀ x y z, R x z → S y z → T x y) (hxs : List.Forall₂ R xs zs) (hys : List.Forall₂ S ys zs) :
    List.Forall₂ T xs ys := by
  induction hxs generalizing ys with
  | nil =>
    obtain rfl := List.forall₂_nil_right_iff.mp hys
    exact .nil
  | cons hx _ ih =>
    obtain ⟨y, ys, hy, hrest, rfl⟩ := List.forall₂_cons_right_iff.mp hys
    exact .cons (h _ _ _ hx hy) (ih hrest)

/-- The static text of neighbouring cuts touches in the query. -/
theorem isChain_follows {run : List PlacedSymbol} {splits : SplitPoint → Prop} {cuts : List Cut}
    {chosen : List RangeSegment} (hrun : Abut run) (hmeets : cuts.IsChain (Meets splits))
    (hwithin : ∀ cut ∈ cuts, cut.span.start < cut.span.stop)
    (hchosen : List.Forall₂ (fun cut segment => ∀ x, segment = .static x → Spells run cut.span x) cuts chosen) :
    chosen.IsChain RangeSegment.Follows := by
  induction hchosen with
  | nil => exact .nil
  | @cons cut segment cuts chosen hsegment hlater ih =>
    obtain ⟨hnext, hmeets⟩ := List.isChain_cons.mp hmeets
    obtain ⟨hcut, hwithin⟩ := List.forall_mem_cons.mp hwithin
    refine List.isChain_cons.mpr ⟨?_, ih hmeets hwithin⟩
    intro next hhead a b ha hb
    cases hlater with
    | nil => cases hhead
    | @cons other _ _ _ hother _ =>
      obtain rfl := Option.some.inj hhead
      exact (hsegment a ha).touches hrun hcut ((hnext other rfl).touches hcut) (hother b hb)

/-- **A token is cut without loss or overlap.**  For each set of points at which it may be split, its pieces are read
without an access that goes wrong, with numbers and with words, and whatever is in the store.  The cuts are all
non-empty, go from the start of the token to its end, and have each of its units once, but for a star that is split:
that belongs to the piece that it ends and to the piece that it starts.  A `?` that is split is a cut of its own, and
nowhere else is anything cut.  Each slot has the alternatives of its cut, with the text of the cut where one is static.
A reading that takes one alternative for each slot keeps all of them in order, but a run of static texts, which always
touch, becomes one text with exactly the positions that they have. -/
theorem Store.pieces_cut_token {query : Bytes} {units run : List PlacedSymbol} {part : Span}
    (hunits : unitsFrom (Wildcard.normalizeFrom false query) 0 = .ok units) (hrun : partOf units part = .ok run)
    (schema : Schema) (width : Width) (mask : Nat) (precededBy : Option UInt8) (store : Store) :
    ∃ slots behind cuts,
      store.pieces schema width run mask 0 0 (.known precededBy) (splitIndices run) = .ok (slots, behind) ∧
      (∀ word : UInt64, word.toNat = mask → (splitIndices run).length ≤ 64 →
        store.piecesInWords schema width run word 0 0 (.known precededBy) (splitIndices run) = .ok (slots, behind)) ∧
      CutAt (SplitsAt run mask) run.length precededBy cuts ∧
      List.Forall₂ (fun cut slot =>
        cut.IsReadAs schema width run slot ∧ ∀ x, .static x ∈ slot → Spells run cut.span x) cuts slots ∧
      (∀ chosen, List.Forall₂ (fun segment slot => segment ∈ slot) chosen slots →
        ∃ groups, Grouped chosen (chosen.foldl pushSegment []) groups) ∧
      ∀ limit readings, grow limit [[]] slots = .ok readings → ∀ reading ∈ readings,
        ∃ chosen, List.Forall₂ (fun segment slot => segment ∈ slot) chosen slots ∧
          reading = chosen.foldl pushSegment [] := by
  have habut : Abut run := abut_of_partOf hunits hrun
  have hpoints := isAt_splitPoints (run.map PlacedSymbol.symbol)
  obtain ⟨slots, behind, hpieces, hslots⟩ :=
    store.exists_pieces schema width mask 0 0 (.known precededBy) hpoints
  rw [← splitIndices_eq] at hpieces
  have hcuts := cutAt_cuts (rising_selected run mask) precededBy
  have hsplits : (· ∈ selectBits mask 0 (splitPoints (run.map PlacedSymbol.symbol))) = SplitsAt run mask := by
    funext point
    exact propext mem_selected_iff
  rw [hsplits] at hcuts
  have htexts := (List.forall₂_and_left _ _).mpr ⟨hcuts.within, hslots⟩
  refine ⟨slots, behind, _, hpieces, ?_, hcuts, ?_, ?_, ?_⟩
  · rintro word rfl hlength
    rw [piecesInWords_eq word (by rwa [Nat.zero_add]), hpieces]
    rfl
  · refine htexts.imp ?_
    rintro cut slot ⟨hcut, hread⟩
    exact ⟨hread, fun x hx => hread.spells hcut hx⟩
  · intro chosen hchosen
    refine grouped_foldl (isChain_follows habut hcuts.meets (fun cut hcut => (hcuts.within cut hcut).1) ?_)
    refine forall₂_meet ?_ htexts hchosen
    rintro cut segment slot ⟨hcut, hread⟩ hmem x rfl
    exact hread.spells hcut hmem
  · intro limit readings hgrow reading hreading
    rw [grow_eq] at hgrow
    split at hgrow
    · obtain rfl := Except.ok.inj hgrow
      rw [List.flatMap_singleton] at hreading
      obtain ⟨chosen, hchosen, rfl⟩ := List.mem_map.mp hreading
      exact ⟨chosen, mem_tuples.mp hchosen, rfl⟩
    · cases hgrow

/-- The token `a*1?b` of the query `a**1?b`, split at both wildcards: the star is in two pieces, and the `?` is a
delimiter. -/
theorem Store.pieces_cut_token_twice :
    ∃ units run, unitsFrom (Wildcard.normalizeFrom false [0x61, 0x2A, 0x2A, 0x31, 0x3F, 0x62]) 0 = .ok units ∧
      partOf units ⟨0, 5⟩ = .ok run ∧
      ∃ (slots : List (List RangeSegment)) (behind : Store) (cuts : List Cut),
        Store.pieces .standard .eight run 3 0 0 (.known none) ⟨[], []⟩ (splitIndices run) = .ok (slots, behind) ∧
        cuts.length = slots.length ∧ cuts.countP (·.covers 1) = 2 ∧ .delimiter 3 ∈ cuts := by
  have hunits := unitsFrom_eq (Wildcard.normalizeFrom false [0x61, 0x2A, 0x2A, 0x31, 0x3F, 0x62])
  have hrun := @partOf_eq_ok _ (Pattern.placed (Wildcard.normalizeFrom false [0x61, 0x2A, 0x2A, 0x31, 0x3F, 0x62]))
    ⟨0, 5⟩ (by decide)
  obtain ⟨slots, behind, cuts, hpieces, -, hcut, hslots, -⟩ :=
    Store.pieces_cut_token hunits hrun .standard .eight 3 none ⟨[], []⟩
  refine ⟨_, _, hunits, hrun, slots, behind, cuts, hpieces, hslots.length_eq, ?_, ?_⟩
  · exact hcut.twice 1 ⟨rfl, 0, rfl, rfl⟩
  · exact (hcut.delimiters 3).mpr ⟨rfl, 1, rfl, rfl⟩

end LogCodec.Query
