import LogCodec.Proofs.LazySearch

/-!
# `LogCodec.Proofs.TypedNumbers`: the readers of a logtype agree on its places for numbers

Three readers go along a logtype: one gives its elements, one counts its places, and one gives the packed numbers with
the kinds of their places.  The last of them has two ways to fail, for want of a number and at a dangling escape.  The
places that it fills, and where it fails, can be told from the other two.

## Contents
- **Elements.** `Reader.kinds_eq`, the places for numbers among the elements.
- **Counting.** `Counts.foldl_add`, and from it `Reader.countFrom_of_outcomes`, along the elements; `count_eq`.
- **Numbers.** `NumberReader.length_drain_le`, how much can be given; `drain_decides`, the result.
-/

namespace LogCodec.Logtype

open Bytes

/-! ## Elements -/

namespace Reader

theorem filterMap_outcomes {α β : Type} (f : α → Option β) (scan : Scan α) :
    (outcomes scan).filterMap (fun item => item.toOption.bind f) = scan.items.filterMap f := by
  have hfailure : (scan.failure.toList.map .error).filterMap
      (fun item : Except DecodeError α => item.toOption.bind f) = [] := by
    cases scan.failure <;> rfl
  rw [outcomes, List.filterMap_append, hfailure, List.append_nil, List.filterMap_map]
  rfl

theorem kinds_eq (logtype : Bytes) :
    (ofLogtype logtype).kinds = (elements logtype).items.filterMap Element.number? := by
  rw [kinds, drain_eq, filterMap_outcomes]

end Reader

/-! ## Counting -/

theorem countElements_cons (item : Element) (items : List Element) (counts : Counts) :
    (⟨(counts.add item).dictionary + (countElements items).dictionary,
      (counts.add item).encoded + (countElements items).encoded⟩ : Counts) =
      ⟨counts.dictionary + (countElements (item :: items)).dictionary,
        counts.encoded + (countElements (item :: items)).encoded⟩ := by
  rcases item with _ | (_ | _)
  · simp [countElements, Counts.add, Element.number?]
  · simp [countElements, Counts.add, Element.number?, Placeholder.number?]
    omega
  · simp [countElements, Counts.add, Element.number?, Placeholder.number?]
    omega

/-- To count one element after the other is to count them all. -/
theorem Counts.foldl_add (items : List Element) (counts : Counts) :
    items.foldl Counts.add counts =
      ⟨counts.dictionary + (countElements items).dictionary, counts.encoded + (countElements items).encoded⟩ := by
  induction items generalizing counts with
  | nil => rfl
  | cons item items ih => rw [List.foldl_cons, ih, countElements_cons]

namespace Reader

/-- From every state on, a reader counts the elements that are left, unless there is an error behind them. -/
theorem countFrom_of_outcomes {r : Reader} {scan : Scan Element} (h : r.drain = outcomes scan) (counts : Counts) :
    r.countFrom counts = scan.toExcept.map fun items => items.foldl Counts.add counts := by
  obtain ⟨items, failure⟩ := scan
  induction items generalizing r counts with
  | nil =>
    cases failure with
    | none => exact countFrom_of_none (drains.next?_eq_none h)
    | some e =>
      obtain ⟨rest, hnext, -⟩ := drains.exists_next? h
      exact countFrom_of_error hnext
  | cons item items ih =>
    obtain ⟨rest, hnext, hrest⟩ := drains.exists_next? h
    rw [countFrom_of_ok hnext, ih (counts.add item) hrest]
    cases failure <;> rfl

/-- The loop over the elements gives the counts of a logtype. -/
theorem count_eq (logtype : Bytes) : (ofLogtype logtype).count = counts logtype := by
  have hfold : ∀ items : List Element, items.foldl Counts.add ⟨0, 0⟩ = countElements items := by
    intro items
    rw [Counts.foldl_add, Nat.zero_add, Nat.zero_add]
  rw [count, countFrom_of_outcomes (drain_eq logtype)]
  simp only [hfold]
  rfl

/-- The count succeeds exactly if no error ends the reading. -/
theorem count_eq_ok_iff {logtype : Bytes} {counts : Counts} :
    (ofLogtype logtype).count = .ok counts ↔
      (elements logtype).failure = none ∧ countElements (elements logtype).items = counts := by
  rw [count_eq, counts_eq_ok_iff]

theorem length_kinds {logtype : Bytes} {counts : Counts} (h : (ofLogtype logtype).count = .ok counts) :
    (ofLogtype logtype).kinds.length = counts.encoded := by
  obtain ⟨-, rfl⟩ := count_eq_ok_iff.mp h
  rw [kinds_eq, countElements, List.length_filterMap_eq_countP]

end Reader

/-! ## Numbers -/

namespace NumberReader

/-- Each thing that a reader gives has taken some of the logtype. -/
theorem length_drain_le (r : NumberReader) : r.drain.length ≤ r.reader.left := by
  fun_induction drain r with
  | case1 r _ => exact Nat.zero_le _
  | case2 r item rest hnext ih =>
    have hless : rest.reader.left < r.reader.left := left_lt_of_next? hnext
    rw [List.length_cons]
    omega

theorem zip_take_append {α β : Type} {places : List α} {numbers : List β} (h : places.length ≤ numbers.length)
    (more : List β) : places.zip (numbers.take places.length ++ more) = places.zip numbers := by
  induction places generalizing numbers with
  | nil => rfl
  | cons place places ih =>
    cases numbers with
    | nil => cases h
    | cons number numbers =>
      rw [List.length_cons, List.take_succ_cons, List.cons_append, List.zip_cons_cons, List.zip_cons_cons,
        ih (Nat.le_of_succ_le_succ h)]

section
variable {logtype : Bytes} {numbers : List Int64} {counts : Counts}

theorem items_typedNumbers (logtype : Bytes) (numbers : List Int64) :
    (typedNumbers logtype numbers).items = (Reader.ofLogtype logtype).kinds.zip numbers := by
  rw [Reader.kinds_eq]
  simp only [typedNumbers]
  split <;> rfl

/-- A missing number comes before a dangling escape, for which the reader would have to come to the end. -/
theorem failure_typedNumbers_eq (logtype : Bytes) (numbers : List Int64) :
    (typedNumbers logtype numbers).failure =
      if numbers.length < (Reader.ofLogtype logtype).kinds.length then some (.tooFewNumbers numbers.length)
      else if EndsInEscape logtype then some .danglingEscape
      else none := by
  rw [Reader.kinds_eq, ← failure_eq]
  simp only [typedNumbers]
  split <;> rfl

/-- Nothing is wrong exactly if the count of places succeeds and there are numbers enough. -/
theorem failure_typedNumbers_eq_none_iff :
    (typedNumbers logtype numbers).failure = none ↔
      ∃ counts, (Reader.ofLogtype logtype).count = .ok counts ∧ counts.encoded ≤ numbers.length := by
  rw [failure_typedNumbers_eq, ← failure_eq]
  constructor
  · intro hnone
    by_cases hfew : numbers.length < (Reader.ofLogtype logtype).kinds.length
    · simp [hfew] at hnone
    · rw [if_neg hfew] at hnone
      have hcount := Reader.count_eq_ok_iff.mpr ⟨hnone, rfl⟩
      rw [Reader.length_kinds hcount, Nat.not_lt] at hfew
      exact ⟨_, hcount, hfew⟩
  · rintro ⟨counts, hcount, hle⟩
    rw [Reader.length_kinds hcount, if_neg (Nat.not_lt_of_le hle)]
    exact (Reader.count_eq_ok_iff.mp hcount).1

/-- If nothing is wrong there is one number for each place. -/
theorem length_drain_of_count (hcount : (Reader.ofLogtype logtype).count = .ok counts)
    (hle : counts.encoded ≤ numbers.length) : (ofLogtype logtype numbers).drain.length = counts.encoded := by
  have hnone := failure_typedNumbers_eq_none_iff.mpr ⟨counts, hcount, hle⟩
  rw [drain_eq, Reader.outcomes, hnone, items_typedNumbers]
  simp [Reader.length_kinds hcount, hle]

/-- Numbers fill the places from left to right, so those behind the last place change nothing. -/
theorem drain_take_append (hcount : (Reader.ofLogtype logtype).count = .ok counts)
    (hle : counts.encoded ≤ numbers.length) (more : List Int64) :
    (ofLogtype logtype (numbers.take counts.encoded ++ more)).drain = (ofLogtype logtype numbers).drain := by
  have hle' : counts.encoded ≤ (numbers.take counts.encoded ++ more).length := by
    rw [List.length_append, List.length_take_of_le hle]
    exact Nat.le_add_right _ _
  have hzip : (Reader.ofLogtype logtype).kinds.zip (numbers.take counts.encoded ++ more) =
      (Reader.ofLogtype logtype).kinds.zip numbers := by
    rw [← Reader.length_kinds hcount] at hle ⊢
    exact zip_take_append hle more
  rw [drain_eq, drain_eq, Reader.outcomes, Reader.outcomes, items_typedNumbers, items_typedNumbers, hzip,
    failure_typedNumbers_eq_none_iff.mpr ⟨counts, hcount, hle⟩,
    failure_typedNumbers_eq_none_iff.mpr ⟨counts, hcount, hle'⟩]

end

/-- **The numbers that a reader gives, and where it fails, are what the other readers of the logtype tell.**  It gives
no more than the logtype has bytes.  First come the numbers from the left on, with the kinds of the places that the
elements have, and behind them at most one error.  There is none exactly if the count of places succeeds and there is a
number for each; then there is one item for each place, and further numbers would change nothing.  An error is that of
a missing number if the elements have more places than there are numbers, even in front of a dangling escape, and that
of the dangling escape if not. -/
theorem drain_decides (logtype : Bytes) (numbers : List Int64) :
    (ofLogtype logtype numbers).drain.length ≤ logtype.length ∧
    ∃ failure : Option DecodeError,
      (ofLogtype logtype numbers).drain =
        ((Reader.ofLogtype logtype).kinds.zip numbers).map .ok ++ failure.toList.map .error ∧
      (failure = none ↔
        ∃ counts, (Reader.ofLogtype logtype).count = .ok counts ∧ counts.encoded ≤ numbers.length) ∧
      (∀ counts, (Reader.ofLogtype logtype).count = .ok counts → counts.encoded ≤ numbers.length →
        (ofLogtype logtype numbers).drain.length = counts.encoded ∧
        ∀ more, (ofLogtype logtype (numbers.take counts.encoded ++ more)).drain = (ofLogtype logtype numbers).drain) ∧
      (∀ e, failure = some e →
        e = if numbers.length < (Reader.ofLogtype logtype).kinds.length then .tooFewNumbers numbers.length
          else .danglingEscape) := by
  refine ⟨length_drain_le (ofLogtype logtype numbers), (typedNumbers logtype numbers).failure, ?_,
    failure_typedNumbers_eq_none_iff, ?_, ?_⟩
  · rw [drain_eq, Reader.outcomes, items_typedNumbers]
  · intro counts hcount hle
    exact ⟨length_drain_of_count hcount hle, drain_take_append hcount hle⟩
  · intro e he
    rw [failure_typedNumbers_eq] at he
    split at he
    · next hfew =>
      rw [if_pos hfew]
      exact (Option.some.inj he).symm
    · next henough =>
      rw [if_neg henough]
      split at he
      · exact (Option.some.inj he).symm
      · cases he

/-- A place that stands before a dangling escape decides which error is met. -/
example : (ofLogtype [0x11, escapeByte] []).drain = [.error (.tooFewNumbers 0)] ∧
    (ofLogtype [0x11, escapeByte] [7]).drain = [.ok (.integer, 7), .error .danglingEscape] := by
  rw [drain_eq, drain_eq]
  decide

end NumberReader

end LogCodec.Logtype
