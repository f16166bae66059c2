import LogCodec.Proofs.Subqueries
import LogCodec.Query.InPlace

/-!
# `LogCodec.Proofs.Odometer`: counting goes through all choices

A choice is a list of indices, one for each token, and `advance` counts it up with a carry.  A digit that runs through
all its indices does so for each choice of the others, so counting from the first choice gives all combinations of
indices, in order and once each.

## Contents
- `choicesFrom`, the choices that counting goes through; `choicesFrom_zeros`.
- `buildAll_eq`: the subqueries that are built are those of these choices.
-/

namespace LogCodec.Query

/-! ## Counting -/

/-- A choice and all that follow it. -/
def choicesFrom (counts choices : List Nat) : List (List Nat) :=
  match _h : advance counts choices with
  | none => [choices]
  | some next => choices :: choicesFrom counts next
termination_by ahead counts choices
decreasing_by exact ahead_lt_of_advance _h

section
variable {counts choices next : List Nat}

theorem choicesFrom_last (h : advance counts choices = none) : choicesFrom counts choices = [choices] := by
  rw [choicesFrom]
  split
  · rfl
  · next hnext =>
    rw [h] at hnext
    cases hnext

theorem choicesFrom_next (h : advance counts choices = some next) :
    choicesFrom counts choices = choices :: choicesFrom counts next := by
  rw [choicesFrom]
  split
  · next hlast =>
    rw [h] at hlast
    cases hlast
  · next hnext =>
    rw [h] at hnext
    cases hnext
    rfl

end

/-- The subqueries that are built one after the other are those of the choices that counting goes through. -/
theorem buildAll_eq {α : Type} (make : List Nat → Except Stop α) (counts choices : List Nat) :
    buildAll make counts choices = (choicesFrom counts choices).mapM make := by
  fun_induction choicesFrom counts choices with
  | case1 choices hlast =>
    rw [buildAll, List.mapM_cons, List.mapM_nil]
    refine bind_congr fun first => ?_
    split
    · rfl
    · next hnext =>
      rw [hlast] at hnext
      cases hnext
  | case2 choices next hnext ih =>
    rw [buildAll, List.mapM_cons, ← ih]
    refine bind_congr fun first => ?_
    split
    · next hlast =>
      rw [hnext] at hlast
      cases hlast
    · next hother =>
      rw [hnext] at hother
      cases hother
      rfl

/-- The first digit runs through its indices before the others are counted up. -/
theorem choicesFrom_digit {count digit : Nat} (counts choices : List Nat) (hdigit : digit < count) :
    choicesFrom (count :: counts) (digit :: choices) =
      (List.range' digit (count - digit)).map (· :: choices) ++
        match advance counts choices with
        | none => []
        | some next => choicesFrom (count :: counts) (0 :: next) := by
  induction hmore : count - digit generalizing digit with
  | zero => omega
  | succ more ih =>
    by_cases hup : digit + 1 < count
    · have hnext : advance (count :: counts) (digit :: choices) = some ((digit + 1) :: choices) := by
        rw [advance, if_pos hup]
      rw [choicesFrom_next hnext, ih hup (by omega), List.range'_succ]
      rfl
    · have hcarry : advance (count :: counts) (digit :: choices) = (advance counts choices).map (0 :: ·) := by
        rw [advance, if_neg hup]
      obtain rfl : more = 0 := by omega
      cases hnext : advance counts choices with
      | none =>
        rw [hnext] at hcarry
        exact choicesFrom_last hcarry
      | some next =>
        rw [hnext] at hcarry
        exact choicesFrom_next hcarry

/-- The other digits are counted up as if the first were not there. -/
theorem choicesFrom_cons {count : Nat} (hcount : 0 < count) (counts choices : List Nat) :
    choicesFrom (count :: counts) (0 :: choices) =
      (choicesFrom counts choices).flatMap fun later => (List.range count).map (· :: later) := by
  fun_induction choicesFrom counts choices with
  | case1 choices hlast =>
    rw [choicesFrom_digit counts choices hcount, hlast, Nat.sub_zero, ← List.range_eq_range', List.flatMap_singleton]
    exact List.append_nil _
  | case2 choices next hnext ih =>
    rw [choicesFrom_digit counts choices hcount, hnext, Nat.sub_zero, ← List.range_eq_range', List.flatMap_cons, ← ih]

/-- **Counting goes through all combinations of indices.** -/
theorem choicesFrom_zeros {counts : List Nat} (hcounts : ∀ count ∈ counts, 0 < count) :
    choicesFrom counts (counts.map fun _ => 0) = combinations (counts.map List.range) := by
  induction counts with
  | nil => exact choicesFrom_last rfl
  | cons count counts ih =>
    obtain ⟨hcount, hlater⟩ := List.forall_mem_cons.mp hcounts
    rw [List.map_cons, choicesFrom_cons hcount, ih hlater, List.map_cons, combinations]

end LogCodec.Query
