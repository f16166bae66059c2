import LogCodec.Proofs.StoredValues

/-!
# `LogCodec.Proofs.RangedReadings`: readings of a token by their ranges

The readings of a token are found by counting through the sets of its split points and growing partial readings to the
right.  Both are what is done with symbols, seen through the ranges: the digits of a number select split points as
`selections` does, and static text is joined from the left instead of from the right.

## Contents
- **Selections.** `map_selectBits`: counting through the digits of numbers goes through all selections;
  `splitIndices_eq` and `isAt_splitPoints`, for the split points.
- **Growing.** `tuples`, and `grow_eq`; `foldl_pushSegment`, for segments that tile a token, and `grow_slots`.
-/

namespace LogCodec.Query

/-! ## Selections -/

section
variable {α : Type}

theorem selectBits_succ (mask digit : Nat) (xs : List α) :
    selectBits mask (digit + 1) xs = selectBits (mask / 2) digit xs := by
  induction xs generalizing digit with
  | nil => rfl
  | cons x xs ih =>
    unfold selectBits
    rw [ih, Nat.testBit_succ]

theorem range_two_mul (n : Nat) : List.range (2 * n) = (List.range n).flatMap fun k => [2 * k, 2 * k + 1] := by
  induction n with
  | zero => rfl
  | succ n ih =>
    rw [Nat.mul_succ, List.range_succ, List.range_succ, ih, List.range_succ, List.flatMap_append, List.append_assoc]
    rfl

/-- **Counting goes through all selections**, in order. -/
theorem map_selectBits (xs : List α) :
    (List.range (Nat.pow 2 xs.length)).map (fun mask => selectBits mask 0 xs) = selections xs := by
  induction xs with
  | nil => rfl
  | cons x xs ih =>
    have hpair : ∀ k : Nat, [2 * k, 2 * k + 1].map (fun mask => selectBits mask 0 (x :: xs)) =
        [selectBits k 0 xs, x :: selectBits k 0 xs] := by
      intro k
      have heven : 2 * k / 2 = k := by omega
      have hodd : (2 * k + 1) / 2 = k := by omega
      simp only [List.map_cons, List.map_nil, selectBits, selectBits_succ, heven, hodd]
      simp
    have hpow : Nat.pow 2 (x :: xs).length = 2 * Nat.pow 2 xs.length := by
      rw [List.length_cons, Nat.pow_eq, Nat.pow_eq, Nat.pow_succ, Nat.mul_comm]
    rw [hpow, range_two_mul, List.map_flatMap]
    simp only [hpair]
    rw [selections, ← ih, List.flatMap_map]

end

/-- The split points of a token are found by index. -/
theorem splitIndices_eq (units : List PlacedSymbol) :
    splitIndices units = (splitPoints (units.map PlacedSymbol.symbol)).map SplitPoint.index := by
  have hfrom : ∀ (rest : List PlacedSymbol) (index : Nat), units.length = index + rest.length →
      ((rest.zipIdx index).filter fun unit => isSplitPoint units.length unit.2 unit.1.symbol).map Prod.snd =
      (splitPointsFrom index (rest.map PlacedSymbol.symbol)).map SplitPoint.index := by
    intro rest
    induction rest with
    | nil =>
      intro _ _
      rfl
    | cons unit rest ih =>
      intro index hlength
      rw [List.length_cons] at hlength
      have hlater := ih (index + 1) (by omega)
      rw [List.zipIdx_cons, List.filter_cons, List.map_cons]
      cases unit.symbol with
      | any =>
        simp only [isSplitPoint, if_true, List.map_cons, splitPointsFrom]
        exact congrArg (index :: ·) hlater
      | star =>
        have hbounds : (decide (0 < index) && decide (index + 1 < units.length)) =
            (decide (0 < index) && !(rest.map PlacedSymbol.symbol).isEmpty) := by
          cases rest with
          | nil => simp [hlength]
          | cons next rest => simp [hlength]
        simp only [isSplitPoint, splitPointsFrom, hbounds]
        split
        · exact congrArg (index :: ·) hlater
        · exact hlater
      | literal b =>
        simp only [isSplitPoint, Bool.false_eq_true, if_false, splitPointsFrom]
        exact hlater
  exact hfrom units 0 (Nat.zero_add _).symm

/-- The wildcards of the split points are where the points say. -/
theorem isAt_splitPoints (symbols : Pattern) : ∀ point ∈ splitPoints symbols, point.IsAt symbols := by
  have hfrom : ∀ front rest, symbols = front ++ rest → ∀ point ∈ splitPointsFrom front.length rest,
      point.IsAt symbols := by
    intro front rest
    induction rest generalizing front with
    | nil => intro _ point hmem; cases hmem
    | cons s rest ih =>
      intro hsymbols
      have hs : symbols[front.length]? = some s := by
        rw [hsymbols]
        simp
      have hlater := ih (front ++ [s]) (by rw [hsymbols, List.append_assoc]; rfl)
      rw [List.length_append, List.length_singleton] at hlater
      cases s with
      | any => exact List.forall_mem_cons.mpr ⟨hs, hlater⟩
      | star =>
        rw [splitPointsFrom]
        split
        · exact List.forall_mem_cons.mpr ⟨hs, hlater⟩
        · exact hlater
      | literal b => exact hlater
  exact hfrom [] symbols rfl

/-! ## Growing -/

/-- All lists that take one member of each list; the last member changes fastest. -/
def tuples {α : Type} : List (List α) → List (List α)
  | [] => [[]]
  | slot :: slots => slot.flatMap fun a => (tuples slots).map (a :: ·)

section
variable {α β : Type}

theorem tuples_map (f : α → β) (slots : List (List α)) :
    tuples (slots.map (List.map f)) = (tuples slots).map (List.map f) := by
  induction slots with
  | nil => rfl
  | cons slot slots ih =>
    rw [List.map_cons, tuples, tuples, ih, List.flatMap_map, List.map_flatMap]
    simp only [List.map_map]
    rfl

theorem mem_tuples {slots : List (List α)} {chosen : List α} :
    chosen ∈ tuples slots ↔ List.Forall₂ (fun a slot => a ∈ slot) chosen slots := by
  induction slots generalizing chosen with
  | nil => simp [tuples]
  | cons slot slots ih =>
    simp only [tuples, List.mem_flatMap, List.mem_map, ih, List.forall₂_cons_right_iff]
    constructor
    · rintro ⟨a, ha, rest, hrest, rfl⟩
      exact ⟨a, rest, ha, hrest, rfl⟩
    · rintro ⟨a, rest, ha, hrest, rfl⟩
      exact ⟨a, ha, rest, hrest, rfl⟩

end

/-- A reading is made of one alternative for each piece. -/
theorem readingsOf_eq (alternatives : List (List Segment)) :
    readingsOf alternatives = (tuples alternatives).map (List.foldr Reading.cons []) := by
  induction alternatives with
  | nil => rfl
  | cons slot slots ih =>
    rw [readingsOf, tuples, ih, List.map_flatMap]
    simp only [List.map_map]
    rfl

/-- What the limit allows, or a refusal. -/
def orTooMany {α : Type} (limit : UInt64) : Option α → Except Stop α
  | some a => .ok a
  | none => tooMany limit

/-- **Partial readings grow to all readings**, unless there are more than the limit on the way.  A product that is no
machine word is more than every limit. -/
theorem grow_eq (limit : UInt64) (readings slots : List (List RangeSegment)) :
    grow limit readings slots =
      if productsWithin limit.toNat readings.length (slots.map List.length) then
        .ok (readings.flatMap fun reading => (tuples slots).map (List.foldl pushSegment reading))
      else tooMany limit := by
  induction slots generalizing readings with
  | nil =>
    rw [grow, List.map_nil, productsWithin, if_pos rfl]
    simp [tuples]
  | cons slot slots ih =>
    have hgrown : (readings.flatMap fun reading => slot.map (pushSegment reading)).length =
        readings.length * slot.length := by
      simp [List.length_flatMap, List.map_const']
    have hlimit := limit.toNat_lt
    rw [grow, mulWord, List.map_cons, productsWithin]
    by_cases hword : readings.length * slot.length < UInt64.size
    · rw [if_pos hword]
      simp only
      by_cases hmore : limit.toNat < readings.length * slot.length
      · rw [if_pos hmore, if_neg (by simp; omega)]
      · rw [if_neg hmore, ih, hgrown]
        have hle : decide (readings.length * slot.length ≤ limit.toNat) = true := by simp; omega
        rw [hle, Bool.true_and]
        congr 2
        rw [List.flatMap_assoc]
        simp only [tuples, List.flatMap_map, List.map_flatMap, List.map_map]
        rfl
    · have hmore : ¬ readings.length * slot.length ≤ limit.toNat := by
        unfold UInt64.size at hword
        omega
      rw [if_neg hword, if_neg (by simp [hmore])]

section
variable {p : Piece} {width : Width} {filled covered : Nat} {appended : List Span} {segments : List Segment}

/-- The spans of joined segments tile the token as those of the segments do. -/
theorem tiles_foldr_cons (h : Tiles p.symbols covered (segments.map Segment.span)) :
    Tiles p.symbols covered ((segments.foldr Reading.cons []).map Segment.span) :=
  (@coverAlike_foldr_cons _ Item.itself .eight ⟨p, [], 0, []⟩ covered segments rfl h).1

/-- Static text that is joined on the left may be joined first. -/
theorem cons_static_static {a b : Span} {reading : Reading} (hstart : b.start ≤ a.stop) (hstop : a.stop ≤ b.stop)
    (h : Tiles p.symbols b.stop (reading.map Segment.span)) :
    Reading.cons (.static a) (Reading.cons (.static b) reading) = Reading.cons (.static ⟨a.start, b.stop⟩) reading := by
  cases reading with
  | nil => simp [Reading.cons, hstart, hstop]
  | cons segment reading =>
    cases segment with
    | static c =>
      have hc : c.start ≤ b.stop := by
        obtain ⟨hjoins, -, -⟩ := tiles_cons_iff.mp h
        rcases hjoins with hjoins | ⟨hjoins, -⟩
        · exact Nat.le_of_eq hjoins
        · exact Nat.le_of_succ_le (Nat.le_of_eq hjoins)
      have hmax : max a.stop (max b.stop c.stop) = max b.stop c.stop := by omega
      simp [Reading.cons, hc, hstart, hmax]
    | exact c => simp [Reading.cons, hstart, hstop]
    | wildcard c kind => simp [Reading.cons, hstart, hstop]

/-- A segment that is not joined to what is before it stands behind it. -/
theorem pushSegment_append (front : List RangeSegment) {last next : RangeSegment}
    (h : ∀ a b, last = .static a → next ≠ .static b) :
    pushSegment (front ++ [last]) next = (front ++ [last]) ++ [next] := by
  unfold pushSegment
  rw [List.getLast?_concat]
  split
  · next a b hlast =>
    exact absurd rfl (h a b (Option.some.inj hlast))
  · rfl

/-- Static text is joined to the static text before it. -/
theorem pushSegment_static (front : List RangeSegment) {a b : Span} (h : b.start ≤ a.stop) :
    pushSegment (front ++ [.static a]) (.static b) = front ++ [.static ⟨a.start, max a.stop b.stop⟩] := by
  unfold pushSegment
  rw [List.getLast?_concat]
  simp only
  rw [if_pos h, List.dropLast_concat]

/-- **Static text is joined from the left as from the right.** -/
theorem foldl_pushSegment_append (front : List RangeSegment) {segment : Segment}
    (h : Tiles p.symbols covered (segment.span :: segments.map Segment.span)) :
    (segments.map (p.ranged width filled appended)).foldl pushSegment (front ++ [p.ranged width filled appended segment]) =
      front ++ ((segment :: segments).foldr Reading.cons []).map (p.ranged width filled appended) := by
  induction segments generalizing front segment covered with
  | nil =>
    have hsingle : Reading.cons segment [] = [segment] := by cases segment <;> rfl
    rw [List.foldr_cons, List.foldr_nil, hsingle]
    rfl
  | cons next segments ih =>
    obtain ⟨hjoins, hne, hrest⟩ := tiles_cons_iff.mp h
    obtain ⟨hnext, hnextNe, hlater⟩ := tiles_cons_iff.mp hrest
    have hread : (next :: segments).foldr Reading.cons [] = Reading.cons next (segments.foldr Reading.cons []) := rfl
    rw [List.map_cons, List.foldl_cons, List.foldr_cons, hread]
    by_cases hboth : (∃ a, segment = .static a) ∧ ∃ b, next = .static b
    · obtain ⟨⟨a, rfl⟩, b, rfl⟩ := hboth
      replace hnext : Joins p.symbols a.stop b.start := hnext
      replace hnextNe : b.start < b.stop := hnextNe
      have hstart : b.start ≤ a.stop := by rcases hnext with h | ⟨h, -⟩ <;> omega
      have hstop : a.stop ≤ b.stop := by rcases hnext with h | ⟨h, -⟩ <;> omega
      have hmax : max (p.place a.stop) (p.place b.stop) = p.place b.stop := Nat.max_eq_right (p.place_le_place hstop)
      have hlength : a.start < b.stop := Nat.lt_of_lt_of_le hne hstop
      -- The joined text stands where both texts stood.
      have htiles : Tiles p.symbols covered ((Segment.static ⟨a.start, b.stop⟩).span :: segments.map Segment.span) :=
        .cons hjoins hlength hlater
      have hjoined := ih front htiles
      rw [List.foldr_cons] at hjoined
      rw [cons_static_static hstart hstop (tiles_foldr_cons hlater), ← hjoined]
      refine congrArg (fun r => List.foldl pushSegment r _) ?_
      show pushSegment (front ++ [.static (p.range a)]) (.static (p.range b)) = _
      rw [pushSegment_static front (p.place_le_place hstart)]
      show front ++ [RangeSegment.static ⟨p.place a.start, max (p.place a.stop) (p.place b.stop)⟩] = _
      rw [hmax]
      rfl
    · have happart : ∀ a b, p.ranged width filled appended segment = .static a →
          p.ranged width filled appended next ≠ .static b := by
        intro a b ha hb
        refine hboth ⟨?_, ?_⟩
        · cases segment with
          | static span => exact ⟨span, rfl⟩
          | exact span => cases ha
          | wildcard span kind => cases ha
        · cases next with
          | static span => exact ⟨span, rfl⟩
          | exact span => cases hb
          | wildcard span kind => cases hb
      have hkept : Reading.cons segment (Reading.cons next (segments.foldr Reading.cons [])) =
          segment :: Reading.cons next (segments.foldr Reading.cons []) := by
        cases segment with
        | static a =>
          cases next with
          | static b => exact absurd ⟨⟨a, rfl⟩, b, rfl⟩ hboth
          | exact b => simp [Reading.cons]
          | wildcard b kind => simp [Reading.cons]
        | exact a => rw [Reading.cons.eq_def]
        | wildcard a kind => rw [Reading.cons.eq_def]
      rw [pushSegment_append front happart, ih _ hrest, hkept, List.map_cons, List.append_assoc]
      rfl

theorem foldl_pushSegment (h : Tiles p.symbols covered (segments.map Segment.span)) :
    (segments.map (p.ranged width filled appended)).foldl pushSegment [] =
      (segments.foldr Reading.cons []).map (p.ranged width filled appended) := by
  cases segments with
  | nil => rfl
  | cons segment segments => exact foldl_pushSegment_append [] h

/-- **The alternatives of the pieces of a token grow to its readings**, by their ranges. -/
theorem grow_slots (schema : Schema) (limit : UInt64) {selected : List SplitPoint}
    (hselected : selected.Sublist (splitPoints p.symbols)) (precededBy : Option UInt8) :
    grow limit [[]] (p.slots schema width filled appended (cuts p.symbols.length precededBy selected)) =
      (orTooMany limit (p.readingsAt schema limit.toNat precededBy selected)).map
        (List.map (List.map (p.ranged width filled appended))) := by
  let alternatives := (cuts p.symbols.length precededBy selected).map (·.alternatives schema p)
  have hslots : p.slots schema width filled appended (cuts p.symbols.length precededBy selected) =
      alternatives.map (List.map (p.ranged width filled appended)) := by
    rw [List.map_map]
    rfl
  have hlengths : (alternatives.map (List.map (p.ranged width filled appended))).map List.length =
      alternatives.map List.length := by
    rw [List.map_map]
    exact List.map_congr_left fun slot _ => List.length_map _
  have hjoined : (tuples alternatives).map (fun segments =>
        (segments.map (p.ranged width filled appended)).foldl pushSegment []) =
      ((tuples alternatives).map (List.foldr Reading.cons [])).map (List.map (p.ranged width filled appended)) := by
    rw [List.map_map]
    refine List.map_congr_left fun segments hsegments => ?_
    have hsplits : p.Splits schema precededBy segments :=
      ⟨selected, hselected, List.forall₂_map_right_iff.mp (mem_tuples.mp hsegments)⟩
    exact foldl_pushSegment hsplits.tiles
  rw [hslots, grow_eq, hlengths, Piece.readingsAt, List.length_singleton]
  by_cases hwithin : productsWithin limit.toNat 1 (alternatives.map List.length) = true
  · rw [if_pos hwithin, if_pos hwithin, readingsOf_eq, List.flatMap_singleton, tuples_map, List.map_map]
    exact congrArg Except.ok hjoined
  · rw [if_neg hwithin, if_neg hwithin]
    rfl

end

end LogCodec.Query
