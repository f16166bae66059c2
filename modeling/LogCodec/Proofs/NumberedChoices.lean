import LogCodec.Proofs.BuiltSubqueries
import Mathlib.Algebra.BigOperators.Group.List.Basic

/-!
# `LogCodec.Proofs.NumberedChoices`: every choice has its turn once

A choice of one reading for each token is a number in a system in which every place has a base of its own: the readings
of the token at that place.  To go on to the next choice is to count up by one, with a carry, and behind the last
number the carry leaves all digits at zero.  So the subqueries of a query are numbered: the one with a number is built
from the readings that the digits of the number stand for.

## Contents
- `choiceAt`, the choice with a number; `existsUnique_number`: every choice has one number.
- `turn`, the carry loop, with `advance_eq`; `turn_choiceAt`: it counts up by one.
- `buildAll_eq_range`: all numbers are gone through, in order.
- `subqueries_numbered`, the result.
-/

namespace LogCodec.Query

/-! ## Digits -/

/-- The choice with a number: the digits of the number, the lowest for the first token.  The value of a digit is the
product of the counts before it. -/
def choiceAt (counts : List Nat) (number : Nat) : List Nat :=
  counts.mapIdx fun place count => number / (counts.take place).prod % count

theorem choiceAt_cons (count : Nat) (counts : List Nat) (number : Nat) :
    choiceAt (count :: counts) number = number % count :: choiceAt counts (number / count) := by
  have hlater : ∀ place, number / ((count :: counts).take (place + 1)).prod =
      number / count / (counts.take place).prod := by
    intro place
    rw [List.take_succ_cons, List.prod_cons, Nat.div_div_eq_div_mul]
  simp only [choiceAt, List.mapIdx_cons, List.take_zero, List.prod_nil, Nat.div_one, hlater]

theorem choiceAt_zero (counts : List Nat) : choiceAt counts 0 = counts.map fun _ => 0 := by
  induction counts with
  | nil => rfl
  | cons count counts ih => rw [choiceAt_cons, Nat.zero_mod, Nat.zero_div, ih, List.map_cons]

section
variable {counts choice : List Nat} {number : Nat}

/-- Every digit stands for a reading. -/
theorem choiceAt_lt (hcounts : ∀ count ∈ counts, 1 ≤ count) (number : Nat) :
    List.Forall₂ (· < ·) (choiceAt counts number) counts := by
  induction counts generalizing number with
  | nil => exact .nil
  | cons count counts ih =>
    obtain ⟨hcount, hlater⟩ := List.forall_mem_cons.mp hcounts
    rw [choiceAt_cons]
    exact .cons (Nat.mod_lt _ hcount) (ih hlater _)

/-- Every choice has a number. -/
theorem exists_number (h : List.Forall₂ (· < ·) choice counts) :
    ∃ number, number < counts.prod ∧ choiceAt counts number = choice := by
  induction h with
  | nil => exact ⟨0, Nat.zero_lt_one, rfl⟩
  | @cons digit count digits counts hdigit _ ih =>
    obtain ⟨number, hlt, rfl⟩ := ih
    have hcount : 0 < count := Nat.zero_lt_of_lt hdigit
    refine ⟨digit + count * number, ?_, ?_⟩
    · have hmore := Nat.mul_le_mul_left count (Nat.succ_le_of_lt hlt)
      rw [Nat.mul_succ] at hmore
      rw [List.prod_cons]
      omega
    · rw [choiceAt_cons, Nat.add_mul_mod_self_left, Nat.mod_eq_of_lt hdigit, Nat.add_mul_div_left _ _ hcount,
        Nat.div_eq_of_lt hdigit, Nat.zero_add]

/-- Different numbers have different digits. -/
theorem choiceAt_injective {other : Nat} (hnumber : number < counts.prod) (hother : other < counts.prod)
    (h : choiceAt counts number = choiceAt counts other) : number = other := by
  induction counts generalizing number other with
  | nil =>
    rw [List.prod_nil] at hnumber hother
    omega
  | cons count counts ih =>
    rw [List.prod_cons] at hnumber hother
    rw [choiceAt_cons, choiceAt_cons] at h
    obtain ⟨hdigit, hdigits⟩ := List.cons.inj h
    have hlater := ih (Nat.div_lt_of_lt_mul hnumber) (Nat.div_lt_of_lt_mul hother) hdigits
    rw [← Nat.mod_add_div number count, ← Nat.mod_add_div other count, hdigit, hlater]

/-- **Every choice has one number.** -/
theorem existsUnique_number (h : List.Forall₂ (· < ·) choice counts) :
    ∃! number, number < counts.prod ∧ choiceAt counts number = choice := by
  obtain ⟨number, hlt, hchoice⟩ := exists_number h
  exact ⟨number, ⟨hlt, hchoice⟩, fun other hother => choiceAt_injective hother.1 hlt (hother.2.trans hchoice.symm)⟩

end

/-! ## The carry -/

/-- The carry loop: indices that cannot go up go back to zero, until one can.  It tells whether there was one. -/
def turn : (counts choices : List Nat) → List Nat × Bool
  | count :: counts, choice :: choices =>
    if choice + 1 < count then ((choice + 1) :: choices, true)
    else (0 :: (turn counts choices).1, (turn counts choices).2)
  | _, choices => (choices, false)

/-- The next choice is what the carry loop leaves, if some index could go up. -/
theorem advance_eq (counts choices : List Nat) :
    advance counts choices = if (turn counts choices).2 then some (turn counts choices).1 else none := by
  fun_induction turn counts choices with
  | case1 count counts choice choices hup => rw [advance, if_pos hup]; rfl
  | case2 count counts choice choices hup ih =>
    rw [advance, if_neg hup, ih]
    cases (turn counts choices).2 <;> rfl
  | case3 counts choices hnil =>
    cases counts with
    | nil => rfl
    | cons count counts =>
      cases choices with
      | nil => rfl
      | cons choice choices => exact absurd rfl (hnil count counts choice choices rfl)

section
variable {counts : List Nat} {number : Nat}

/-- **The carry loop counts up by one**, and behind the last number it leaves zeros. -/
theorem turn_choiceAt (hcounts : ∀ count ∈ counts, 1 ≤ count) (hnumber : number < counts.prod) :
    turn counts (choiceAt counts number) = (choiceAt counts (number + 1), decide (number + 1 < counts.prod)) := by
  induction counts generalizing number with
  | nil =>
    rw [List.prod_nil] at hnumber
    obtain rfl : number = 0 := by omega
    rfl
  | cons count counts ih =>
    obtain ⟨hcount, hlater⟩ := List.forall_mem_cons.mp hcounts
    rw [List.prod_cons] at hnumber ⊢
    have hquotient := Nat.div_lt_of_lt_mul hnumber
    -- The number is its lowest digit and `count` times what the other digits stand for.
    obtain ⟨digit, rest, hdigit, rfl⟩ : ∃ digit rest, digit < count ∧ number = digit + count * rest :=
      ⟨number % count, number / count, Nat.mod_lt _ hcount, (Nat.mod_add_div _ _).symm⟩
    have hsplit : ∀ d, d < count → choiceAt (count :: counts) (d + count * rest) = d :: choiceAt counts rest := by
      intro d hd
      rw [choiceAt_cons, Nat.add_mul_mod_self_left, Nat.mod_eq_of_lt hd, Nat.add_mul_div_left _ _ hcount,
        Nat.div_eq_of_lt hd, Nat.zero_add]
    rw [Nat.add_mul_div_left _ _ hcount, Nat.div_eq_of_lt hdigit, Nat.zero_add] at hquotient
    have hmost := Nat.mul_le_mul_left count (Nat.succ_le_of_lt hquotient)
    rw [Nat.mul_succ] at hmost
    rw [hsplit digit hdigit, turn]
    by_cases hup : digit + 1 < count
    · rw [if_pos hup, Nat.add_right_comm, hsplit _ hup, decide_eq_true (by omega)]
    · have hcarry : digit + count * rest + 1 = 0 + count * (rest + 1) := by
        rw [Nat.mul_succ]
        omega
      rw [if_neg hup, ih hlater hquotient, hcarry, choiceAt_cons, Nat.add_mul_mod_self_left,
        Nat.add_mul_div_left _ _ hcount, Nat.zero_div, Nat.zero_mod, Nat.zero_add, Nat.zero_add]
      simp only [Nat.mul_lt_mul_left hcount]

theorem advance_choiceAt (hcounts : ∀ count ∈ counts, 1 ≤ count) (hnumber : number < counts.prod) :
    advance counts (choiceAt counts number) =
      if number + 1 < counts.prod then some (choiceAt counts (number + 1)) else none := by
  rw [advance_eq, turn_choiceAt hcounts hnumber]
  simp only [decide_eq_true_eq]

/-- From every number on, counting goes through all that follow it. -/
theorem choicesFrom_choiceAt (hcounts : ∀ count ∈ counts, 1 ≤ count) {more : Nat} (h : number + more + 1 = counts.prod) :
    choicesFrom counts (choiceAt counts number) = (List.range' number (more + 1)).map (choiceAt counts) := by
  have hadvance := @advance_choiceAt counts number hcounts (by omega)
  induction more generalizing number with
  | zero =>
    rw [if_neg (by omega)] at hadvance
    exact choicesFrom_last hadvance
  | succ more ih =>
    rw [if_pos (by omega)] at hadvance
    rw [choicesFrom_next hadvance, ih (by omega) (advance_choiceAt hcounts (by omega))]
    rfl

/-- **All numbers are gone through**, in order. -/
theorem buildAll_eq_range {α : Type} (make : List Nat → Except Stop α) (hcounts : ∀ count ∈ counts, 1 ≤ count) :
    buildAll make counts (counts.map fun _ => 0) =
      (List.range counts.prod).mapM fun number => make (choiceAt counts number) := by
  obtain ⟨more, hmore⟩ : ∃ more, 0 + more + 1 = counts.prod := by
    have hzeros := choiceAt_lt hcounts 0
    obtain ⟨number, hlt, -⟩ := exists_number hzeros
    exact ⟨counts.prod - 1, by omega⟩
  rw [buildAll_eq, ← choiceAt_zero, choicesFrom_choiceAt hcounts hmore, List.range_eq_range', ← hmore, Nat.zero_add,
    List.mapM_map]
  rfl

end

/-! ## Subqueries -/

theorem forall₂_of_mapM_eq_ok {α β : Type} {make : α → Except Stop β} {as : List α} {bs : List β}
    (h : as.mapM make = .ok bs) : List.Forall₂ (fun a b => make a = .ok b) as bs := by
  induction as generalizing bs with
  | nil =>
    cases h
    exact .nil
  | cons a as ih =>
    rw [List.mapM_cons] at h
    cases hfirst : make a with
    | error e =>
      rw [hfirst] at h
      cases h
    | ok first =>
      rw [hfirst] at h
      cases hlater : as.mapM make with
      | error e =>
        rw [hlater] at h
        cases h
      | ok later =>
        rw [hlater] at h
        cases h
        exact .cons hfirst (ih hlater)

section
variable {schema : Schema} {width : Width} {limit : UInt64} {query : Bytes}

/-- Every token that is found has a reading. -/
theorem length_choices_of_tokenize {tokens : List QueryToken} {store : Store}
    (h : tokenize schema width limit query = .ok (tokens, store)) : ∀ token ∈ tokens, 1 ≤ token.choices.length := by
  rw [tokenize_eq] at h
  cases hps : readParts schema limit.toNat (Pattern.ofQuery query).spell.length (parts schema (Pattern.ofQuery query)) with
  | none =>
    rw [hps] at h
    cases h
  | some ps =>
    rw [hps] at h
    cases h
    exact length_choices_pos (laid_parts hps).isRead

/-- What there is behind the subqueries of a query: its tokens, and all that is built of them. -/
theorem exists_tokens_of_decomposeInPlace {subqueries : List BuiltSubquery}
    (h : decomposeInPlace schema width limit query = .ok subqueries) :
    ∃ tokens store text, tokenize schema width limit query = .ok (tokens, store) ∧
      partOf store.buffer ⟨0, (Wildcard.normalizeFrom false query).length⟩ = .ok text ∧
      buildAll (build store.buffer text tokens) (tokens.map (·.choices.length)) (tokens.map fun _ => 0) =
        .ok subqueries := by
  rw [decomposeInPlace_of_tokenize] at h
  split at h
  · cases h
  · cases htokens : tokenize schema width limit query with
    | error stop =>
      rw [htokens] at h
      cases h
    | ok found =>
      obtain ⟨tokens, store⟩ := found
      rw [htokens] at h
      replace h : buildWithin limit (Wildcard.normalizeFrom false query).length tokens store = .ok subqueries := h
      rw [buildWithin] at h
      split at h
      · cases h
      · split at h
        · cases h
        · cases htext : partOf store.buffer ⟨0, (Wildcard.normalizeFrom false query).length⟩ with
          | error stop =>
            rw [htext] at h
            cases h
          | ok text =>
            rw [htext] at h
            exact ⟨tokens, store, text, rfl, htext, h⟩

/-- **The subqueries of a query are numbered**, and each number has its turn once.  Every token has a reading; the carry
loop counts up by one and ends behind the last number; and the subquery with a number is built from the readings that
its digits stand for, the first token having the lowest. -/
theorem subqueries_numbered {subqueries : List BuiltSubquery}
    (h : decomposeInPlace schema width limit query = .ok subqueries) :
    ∃ tokens store text, tokenize schema width limit query = .ok (tokens, store) ∧
      partOf store.buffer ⟨0, (Wildcard.normalizeFrom false query).length⟩ = .ok text ∧
      let counts := tokens.map (·.choices.length)
      (∀ count ∈ counts, 1 ≤ count) ∧
      (∀ number < counts.prod,
        turn counts (choiceAt counts number) = (choiceAt counts (number + 1), decide (number + 1 < counts.prod))) ∧
      subqueries.length = counts.prod ∧
      (∀ (number : Nat) (hnumber : number < subqueries.length),
        build store.buffer text tokens (choiceAt counts number) = .ok subqueries[number]) ∧
      ∀ choice, List.Forall₂ (· < ·) choice counts →
        ∃! number, number < counts.prod ∧ choiceAt counts number = choice := by
  obtain ⟨tokens, store, text, htokens, htext, hbuilt⟩ := exists_tokens_of_decomposeInPlace h
  have hcounts : ∀ count ∈ tokens.map (·.choices.length), 1 ≤ count :=
    List.forall_mem_map.mpr (length_choices_of_tokenize htokens)
  have hzeros : (tokens.map fun _ => 0) = (tokens.map fun token => token.choices.length).map fun _ => 0 := by
    rw [List.map_map]
    rfl
  rw [hzeros, buildAll_eq_range _ hcounts] at hbuilt
  obtain ⟨hlength, hall⟩ := List.forall₂_iff_get.mp (forall₂_of_mapM_eq_ok hbuilt)
  rw [List.length_range] at hlength
  refine ⟨tokens, store, text, htokens, htext, hcounts, fun number => turn_choiceAt hcounts, hlength.symm, ?_,
    fun choice => existsUnique_number⟩
  intro number hnumber
  have hnumbered := hall number (by rw [List.length_range, hlength]; exact hnumber) hnumber
  simpa using hnumbered

/-- A query of two tokens, the first with two readings and the second with three: its subquery with number three is
built from the second reading of each. -/
theorem subqueries_numbered_two_tokens :
    ∃ subqueries, decomposeInPlace .standard .eight 6 [0x61, 0x2A, 0x20, 0x31, 0x2A] = .ok subqueries ∧
      ∃ tokens store text fourth,
        tokenize .standard .eight 6 [0x61, 0x2A, 0x20, 0x31, 0x2A] = .ok (tokens, store) ∧
        tokens.map (·.choices.length) = [2, 3] ∧ subqueries[3]? = some fourth ∧
        build store.buffer text tokens [1, 1] = .ok fourth := by
  have hok : (match decomposeInPlace .standard .eight 6 [0x61, 0x2A, 0x20, 0x31, 0x2A],
        tokenize .standard .eight 6 [0x61, 0x2A, 0x20, 0x31, 0x2A] with
      | .ok subqueries, .ok (tokens, _) =>
        decide (subqueries.length = 6) && decide (tokens.map (·.choices.length) = [2, 3])
      | _, _ => false) = true := by decide +kernel
  cases h : decomposeInPlace .standard .eight 6 [0x61, 0x2A, 0x20, 0x31, 0x2A] with
  | error stop =>
    rw [h] at hok
    cases hok
  | ok subqueries =>
    obtain ⟨tokens, store, text, htokens, -, -, -, -, hbuilt, -⟩ := subqueries_numbered h
    rw [h, htokens] at hok
    obtain ⟨hlength, hcounts⟩ := (Bool.and_eq_true _ _).mp hok
    replace hlength : subqueries.length = 6 := of_decide_eq_true hlength
    replace hcounts : tokens.map (·.choices.length) = [2, 3] := of_decide_eq_true hcounts
    have hfourth := hbuilt 3 (by rw [hlength]; decide)
    rw [hcounts] at hfourth
    exact ⟨subqueries, rfl, tokens, store, text, _, htokens, hcounts, List.getElem?_eq_getElem _, hfourth⟩

end

end LogCodec.Query
