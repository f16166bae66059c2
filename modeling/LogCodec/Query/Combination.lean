/-!
# `LogCodec.Query.Combination`: one choice for each part

A combination takes one choice for each of some parts.  The combinations are listed with the choice for the first part
changing fastest, so each has a number whose digits are its choices.  `getElem?_combinations` says that the combination
made from a number is the one at that place of the list.
-/

namespace LogCodec.Query

/-- All combinations that take one choice for each part; the choice for the first part changes fastest. -/
def combinations {α : Type} : List (List α) → List (List α)
  | [] => [[]]
  | choices :: rest => (combinations rest).flatMap fun chosen => choices.map fun choice => choice :: chosen

/-- The combination with a number.  The choices are the digits of the number, that for the first part the lowest, and
the base of each digit is how many choices there are. -/
def combination? {α : Type} : List (List α) → (number : Nat) → Option (List α)
  | [], _ => some []
  | choices :: rest, number => do
    let choice ← choices[number % choices.length]?
    let chosen ← combination? rest (number / choices.length)
    return choice :: chosen

/-- The number of combinations. -/
def combinationCount {α : Type} (choices : List (List α)) : Nat :=
  choices.foldr (fun choices count => choices.length * count) 1

/-- The members of lists of the same length, put one behind the other, by quotient and remainder of their index. -/
theorem getElem?_flatMap_of_length {α β : Type} {f : α → List β} {n : Nat} (h : ∀ a, (f a).length = n) (as : List α)
    (i : Nat) : (as.flatMap f)[i]? = as[i / n]?.bind fun a => (f a)[i % n]? := by
  induction as generalizing i with
  | nil => simp
  | cons a as ih =>
    rw [List.flatMap_cons, List.getElem?_append, h]
    split
    · next hlt => simp [Nat.div_eq_of_lt hlt, Nat.mod_eq_of_lt hlt]
    · next hle =>
      rw [ih]
      rcases Nat.eq_zero_or_pos n with rfl | hn
      · have hnil : ∀ a, f a = [] := fun a => List.length_eq_zero_iff.mp (h a)
        simp [hnil]
      · have hdiv : i / n = (i - n) / n + 1 := by
          rw [Nat.div_eq_sub_div hn (Nat.le_of_not_lt hle)]
        rw [hdiv, List.getElem?_cons_succ, ← Nat.mod_eq_sub_mod (Nat.le_of_not_lt hle)]

theorem length_combinations {α : Type} (choices : List (List α)) :
    (combinations choices).length = combinationCount choices := by
  induction choices with
  | nil => rfl
  | cons first rest ih =>
    simp only [combinations, List.length_flatMap, List.length_map, List.map_const', List.sum_replicate_nat, ih]
    exact Nat.mul_comm ..

/-- The combination with a number stands at this index among all. -/
theorem getElem?_combinations {α : Type} {choices : List (List α)} {number : Nat}
    (h : number < combinationCount choices) : (combinations choices)[number]? = combination? choices number := by
  induction choices generalizing number with
  | nil => simp_all [combinations, combination?, combinationCount]
  | cons first rest ih =>
    have hlt : number / first.length < combinationCount rest := Nat.div_lt_of_lt_mul h
    have hlength : ∀ chosen : List α, (first.map fun choice => choice :: chosen).length = first.length := by simp
    rw [combinations, getElem?_flatMap_of_length hlength, ih hlt, combination?]
    cases combination? rest (number / first.length) with
    | none => cases first[number % first.length]? <;> rfl
    | some chosen =>
      rw [Option.bind_some, List.getElem?_map]
      cases first[number % first.length]? <;> rfl

end LogCodec.Query
