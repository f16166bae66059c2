import LogCodec.Matcher.InPlace
import LogCodec.Proofs.LazySearch

/-!
# `LogCodec.Proofs.BatchRows`: a batch is matched row by row

A batch does to each slot what the answer for its row asks for, until the first row that has no answer.  The loop over
the slots keeps this from row to row: the slots in front of the row it has come to are settled, and the others are as
they were.  Where it ends, that is all there is to say, and it says what the outcome is.

So a batch that fails has counted the rows in front of the failing one, and they are counted again if it is repeated.

## Contents
- **Answers.** `Matcher.answers` and `Matcher.FailsFirst`; `settled_or_failsFirst`, one of which holds at every row.
- **Outcomes.** `Matcher.RowByRow`, what a batch leaves, with `RowByRow.unique` and `RowByRow.map`.
- **Loops.** `Matcher.Settled`, the invariant, and `rowByRow_updateFrom`; `updateFrom_append`, the same loop on lists.
- **Batches.** `Matcher.GoesRowByRow` and `batches_goRowByRow`; `countBatch_of_failure` and `counts_row_twice`.
-/

namespace LogCodec.Matcher

/-! ## Answers -/

/-- The answer for each row of a batch. -/
def answers (m : Matcher) (logtypes : List Bytes) (rows : List (List Int64)) : List (Except DecodeError Bool) :=
  List.zipWith m.accepts logtypes rows

/-- A row has an answer, and not an error. -/
def HasAnswer (answers : List (Except DecodeError Bool)) (row : Nat) : Prop :=
  ∃ accepted, answers[row]? = some (.ok accepted)

/-- A row has an error, and all rows in front of it have an answer. -/
structure FailsFirst (answers : List (Except DecodeError Bool)) (row : Nat) (cause : DecodeError) : Prop where
  error : answers[row]? = some (.error cause)
  before : ∀ earlier < row, HasAnswer answers earlier

section
variable {answers : List (Except DecodeError Bool)} {row other : Nat} {cause cause' : DecodeError}

theorem not_hasAnswer_of_error (h : answers[row]? = some (.error cause)) : ¬ HasAnswer answers row := by
  rintro ⟨accepted, haccepted⟩
  rw [h] at haccepted
  cases haccepted

theorem FailsFirst.le (h : FailsFirst answers row cause) (h' : FailsFirst answers other cause') : other ≤ row := by
  apply Nat.le_of_not_lt
  intro hlt
  exact not_hasAnswer_of_error h.error (h'.before row hlt)

/-- There is only one such row. -/
theorem FailsFirst.unique (h : FailsFirst answers row cause) (h' : FailsFirst answers other cause') :
    row = other ∧ cause = cause' := by
  obtain rfl := Nat.le_antisymm (h'.le h) (h.le h')
  have herror := h.error.symm.trans h'.error
  cases herror
  exact ⟨rfl, rfl⟩

/-- Up to every row there are only answers, or there is a first row without one. -/
theorem settled_or_failsFirst (answers : List (Except DecodeError Bool)) {stop : Nat} (h : stop ≤ answers.length) :
    (∀ row < stop, HasAnswer answers row) ∨
      ∃ row cause, row < stop ∧ FailsFirst answers row cause := by
  induction stop with
  | zero => exact .inl fun row hrow => absurd hrow (Nat.not_lt_zero row)
  | succ stop ih =>
    rcases ih (Nat.le_of_succ_le h) with hbefore | ⟨row, cause, hlt, hfails⟩
    · cases hanswer : answers[stop]? with
      | none => exact absurd (List.getElem?_eq_none_iff.mp hanswer) (Nat.not_le_of_lt h)
      | some answer =>
        cases answer with
        | error cause => exact .inr ⟨stop, cause, Nat.lt_succ_self stop, hanswer, hbefore⟩
        | ok accepted =>
          refine .inl fun row hrow => ?_
          rcases Nat.lt_succ_iff_lt_or_eq.mp hrow with hlt | rfl
          · exact hbefore row hlt
          · exact ⟨accepted, hanswer⟩
    · exact .inr ⟨row, cause, Nat.lt_succ_of_lt hlt, hfails⟩

end

/-! ## Outcomes -/

section
variable {α β : Type}

/-- What a batch leaves that has an answer, or an error, for each of its slots. -/
structure RowByRow (update : Bool → α → α) (answers : List (Except DecodeError Bool)) (slots : List α)
    (outcome : BatchOutcome α) : Prop where
  succeeds_iff : outcome.failure = none ↔ ∀ row < answers.length, HasAnswer answers row
  fails_iff : ∀ e, outcome.failure = some e ↔ ∃ row cause, e = .row row cause ∧ FailsFirst answers row cause
  length : outcome.slots.length = slots.length
  /-- The slot of a row that has an answer, as all rows in front of it have. -/
  updated : ∀ row accepted, answers[row]? = some (.ok accepted) →
    (∀ earlier < row, HasAnswer answers earlier) →
    outcome.slots[row]? = slots[row]?.map (update accepted)
  /-- The slots from the first row on that has none. -/
  kept : ∀ first cause, FailsFirst answers first cause → ∀ row, first ≤ row → outcome.slots[row]? = slots[row]?

section
variable {update : Bool → α → α} {answers : List (Except DecodeError Bool)} {slots : List α}
  {outcome other : BatchOutcome α}

/-- **The answers and the slots determine what a batch leaves.** -/
theorem RowByRow.unique (hlength : slots.length = answers.length) (h : RowByRow update answers slots outcome)
    (h' : RowByRow update answers slots other) : outcome = other := by
  obtain ⟨left, failure⟩ := outcome
  obtain ⟨left', failure'⟩ := other
  have hfailure : failure = failure' := Option.ext fun e => (h.fails_iff e).trans (h'.fails_iff e).symm
  have hslots : left = left' := by
    apply List.ext_getElem?
    intro row
    by_cases hrow : row < slots.length
    · have hstop : row + 1 ≤ answers.length := hlength ▸ Nat.succ_le_of_lt hrow
      rcases settled_or_failsFirst answers hstop with hsettled | ⟨first, cause, hlt, hfirst⟩
      · obtain ⟨accepted, haccepted⟩ := hsettled row (Nat.lt_succ_self row)
        have hbefore : ∀ earlier < row, HasAnswer answers earlier :=
          fun earlier hearlier => hsettled earlier (Nat.lt_succ_of_lt hearlier)
        exact (h.updated row accepted haccepted hbefore).trans (h'.updated row accepted haccepted hbefore).symm
      · have hle := Nat.le_of_lt_succ hlt
        exact (h.kept first cause hfirst row hle).trans (h'.kept first cause hfirst row hle).symm
    · have hnone : ∀ some' : List α, some'.length = slots.length → some'[row]? = none := by
        intro some' hsome
        exact List.getElem?_eq_none_iff.mpr (hsome ▸ Nat.not_lt.mp hrow)
      rw [hnone left h.length, hnone left' h'.length]
  rw [hfailure, hslots]

/-- Slots that are told in another way. -/
theorem RowByRow.map {update' : Bool → β → β} {tell : α → β}
    (htell : ∀ slot ∈ slots, ∀ accepted, tell (update accepted slot) = update' accepted (tell slot))
    (h : RowByRow update answers slots outcome) :
    RowByRow update' answers (slots.map tell) ⟨outcome.slots.map tell, outcome.failure⟩ where
  succeeds_iff := h.succeeds_iff
  fails_iff := h.fails_iff
  length := by rw [List.length_map, List.length_map, h.length]
  updated := by
    intro row accepted haccepted hbefore
    rw [List.getElem?_map, List.getElem?_map, h.updated row accepted haccepted hbefore]
    cases hslot : slots[row]? with
    | none => rfl
    | some slot => exact congrArg some (htell slot (List.mem_of_getElem? hslot) accepted)
  kept := by
    intro first cause hfirst row hrow
    rw [List.getElem?_map, List.getElem?_map, h.kept first cause hfirst row hrow]

end

/-! ## Loops -/

/-- The slots while a batch is matched: those in front of a row are settled, and the others are as they were. -/
structure Settled (update : Bool → α → α) (answers : List (Except DecodeError Bool)) (row : Nat)
    (slots current : List α) : Prop where
  answered : ∀ earlier < row, HasAnswer answers earlier
  length : current.length = slots.length
  updated : ∀ earlier < row, ∀ accepted, answers[earlier]? = some (.ok accepted) →
    current[earlier]? = slots[earlier]?.map (update accepted)
  kept : ∀ later, row ≤ later → current[later]? = slots[later]?

section
variable {update : Bool → α → α} {answers : List (Except DecodeError Bool)} {row : Nat} {slots current : List α}

theorem Settled.start (update : Bool → α → α) (answers : List (Except DecodeError Bool)) (slots : List α) :
    Settled update answers 0 slots slots where
  answered := fun earlier hearlier => absurd hearlier (Nat.not_lt_zero earlier)
  length := rfl
  updated := fun earlier hearlier => absurd hearlier (Nat.not_lt_zero earlier)
  kept := fun _ _ => rfl

/-- **A step of the loop settles one more slot.** -/
theorem Settled.next {accepted : Bool} {slot : α} (h : Settled update answers row slots current)
    (hanswer : answers[row]? = some (.ok accepted)) (hslot : current[row]? = some slot) :
    Settled update answers (row + 1) slots (current.set row (update accepted slot)) where
  answered := by
    intro earlier hearlier
    rcases Nat.lt_succ_iff_lt_or_eq.mp hearlier with hlt | rfl
    · exact h.answered earlier hlt
    · exact ⟨accepted, hanswer⟩
  length := by rw [List.length_set, h.length]
  updated := by
    intro earlier hearlier accepted' haccepted'
    rcases Nat.lt_succ_iff_lt_or_eq.mp hearlier with hlt | rfl
    · rw [List.getElem?_set_ne (Nat.ne_of_gt hlt)]
      exact h.updated earlier hlt accepted' haccepted'
    · have hrow : earlier < current.length := (List.getElem?_eq_some_iff.mp hslot).1
      rw [hanswer] at haccepted'
      cases haccepted'
      rw [List.getElem?_set_self hrow, ← h.kept earlier (Nat.le_refl earlier), hslot]
      rfl
  kept := by
    intro later hlater
    rw [List.getElem?_set_ne (Nat.ne_of_lt hlater)]
    exact h.kept later (Nat.le_of_succ_le hlater)

/-- The loop comes to the end of the slots. -/
theorem Settled.rowByRow_end (h : Settled update answers row slots current) (hend : answers.length ≤ row) :
    RowByRow update answers slots ⟨current, none⟩ := by
  have hnone : ∀ first cause, ¬ FailsFirst answers first cause := by
    intro first cause hfirst
    have hlt : first < answers.length := (List.getElem?_eq_some_iff.mp hfirst.error).1
    exact not_hasAnswer_of_error hfirst.error (h.answered first (Nat.lt_of_lt_of_le hlt hend))
  constructor
  case succeeds_iff =>
    exact iff_of_true rfl fun earlier hlt => h.answered earlier (Nat.lt_of_lt_of_le hlt hend)
  case fails_iff =>
    intro e
    refine iff_of_false (Option.some_ne_none e).symm ?_
    rintro ⟨first, cause, -, hfirst⟩
    exact hnone first cause hfirst
  case length => exact h.length
  case updated =>
    intro earlier accepted haccepted _
    have hlt : earlier < answers.length := (List.getElem?_eq_some_iff.mp haccepted).1
    exact h.updated earlier (Nat.lt_of_lt_of_le hlt hend) accepted haccepted
  case kept =>
    intro first cause hfirst
    exact absurd hfirst (hnone first cause)

/-- The loop comes to a row that has no answer. -/
theorem Settled.rowByRow_error {cause : DecodeError} (h : Settled update answers row slots current)
    (herror : answers[row]? = some (.error cause)) :
    RowByRow update answers slots ⟨current, some (.row row cause)⟩ := by
  have hfirst : FailsFirst answers row cause := ⟨herror, h.answered⟩
  constructor
  case succeeds_iff =>
    refine iff_of_false (Option.some_ne_none _) fun hall => ?_
    exact not_hasAnswer_of_error herror (hall row (List.getElem?_eq_some_iff.mp herror).1)
  case fails_iff =>
    intro e
    constructor
    · intro he
      cases he
      exact ⟨row, cause, rfl, hfirst⟩
    · rintro ⟨other, cause', rfl, hother⟩
      obtain ⟨rfl, rfl⟩ := hfirst.unique hother
      rfl
  case length => exact h.length
  case updated =>
    intro earlier accepted haccepted hbefore
    have hlt : earlier < row := by
      apply Nat.lt_of_not_le
      intro hle
      rcases Nat.lt_or_eq_of_le hle with hlt | rfl
      · exact not_hasAnswer_of_error herror (hbefore row hlt)
      · exact not_hasAnswer_of_error herror ⟨accepted, haccepted⟩
    exact h.updated earlier hlt accepted haccepted
  case kept =>
    intro other cause' hother later hlater
    obtain ⟨rfl, rfl⟩ := hfirst.unique hother
    exact h.kept later hlater

end

section
variable {m : Matcher} {update : Bool → α → Option α} {total : Bool → α → α} {logtypes : List Bytes}
  {rows : List (List Int64)} {row : Nat} {slots current : List α} {slot : α} {outcome : BatchOutcome α}

theorem updateFrom_of_none (hslot : slots[row]? = none) :
    m.updateFrom update logtypes rows row slots = some ⟨slots, none⟩ := by
  rw [updateFrom]
  split
  · rfl
  · simp_all

section
variable {logtype : Bytes} {numbers : List Int64} (hslot : slots[row]? = some slot)
  (hlogtype : logtypes[row]? = some logtype) (hnumbers : rows[row]? = some numbers)
include hslot hlogtype hnumbers

theorem updateFrom_of_error {cause : DecodeError} (h : m.accepts logtype numbers = .error cause) :
    m.updateFrom update logtypes rows row slots = some ⟨slots, some (.row row cause)⟩ := by
  rw [updateFrom]
  split
  · simp_all
  · simp only [hlogtype, hnumbers, acceptsCollected_eq, h, Option.bind_eq_bind, Option.bind_some]
    rfl

theorem updateFrom_of_ok {accepted : Bool} (h : m.accepts logtype numbers = .ok accepted) :
    m.updateFrom update logtypes rows row slots =
      (update accepted slot).bind fun updated =>
        m.updateFrom update logtypes rows (row + 1) (slots.set row updated) := by
  rw [updateFrom]
  split
  · simp_all
  · next slot' hslot' =>
    obtain rfl := Option.some.inj (hslot.symm.trans hslot')
    simp only [hlogtype, hnumbers, acceptsCollected_eq, h, Option.bind_eq_bind, Option.bind_some]

end

theorem length_answers (hrows : rows.length = logtypes.length) :
    (m.answers logtypes rows).length = logtypes.length := by
  rw [answers, List.length_zipWith, hrows, Nat.min_self]

/-- The answers of the rows, by their number. -/
theorem getElem?_answers {logtype : Bytes} {numbers : List Int64} (hlogtype : logtypes[row]? = some logtype)
    (hnumbers : rows[row]? = some numbers) : (m.answers logtypes rows)[row]? = some (m.accepts logtype numbers) := by
  rw [answers, List.getElem?_zipWith, hlogtype, hnumbers]

/-- There are a logtype and numbers for every slot. -/
theorem exists_row (hrows : rows.length = logtypes.length) (hslots : slots.length = logtypes.length)
    (hslot : slots[row]? = some slot) :
    ∃ logtype numbers, logtypes[row]? = some logtype ∧ rows[row]? = some numbers := by
  have hlt : row < slots.length := (List.getElem?_eq_some_iff.mp hslot).1
  exact ⟨_, _, List.getElem?_eq_getElem (hslots ▸ hlt), List.getElem?_eq_getElem (hrows ▸ hslots ▸ hlt)⟩

/-- **What the loop leaves**, if nothing stops it. -/
theorem Settled.rowByRow_updateFrom
    (hupdate : ∀ accepted slot updated, update accepted slot = some updated → updated = total accepted slot)
    (hrows : rows.length = logtypes.length) (hslots : slots.length = logtypes.length)
    (hsettled : Settled total (m.answers logtypes rows) row slots current)
    (h : m.updateFrom update logtypes rows row current = some outcome) :
    RowByRow total (m.answers logtypes rows) slots outcome := by
  -- The induction is on the number of slots that are left; every round settles one of them.
  induction hleft : current.length - row generalizing row current with
  | zero =>
    have hnone : current[row]? = none := List.getElem?_eq_none_iff.mpr (Nat.le_of_sub_eq_zero hleft)
    rw [updateFrom_of_none hnone] at h
    obtain rfl := Option.some.inj h
    apply hsettled.rowByRow_end
    have hlength := hsettled.length
    rw [length_answers hrows]
    omega
  | succ left ih =>
    have hlt : row < current.length := by omega
    have hslot : current[row]? = some current[row] := List.getElem?_eq_getElem hlt
    obtain ⟨logtype, numbers, hlogtype, hnumbers⟩ := exists_row hrows (hsettled.length.trans hslots) hslot
    have hanswer := @getElem?_answers m logtypes rows row logtype numbers hlogtype hnumbers
    cases haccepts : m.accepts logtype numbers with
    | error cause =>
      rw [updateFrom_of_error hslot hlogtype hnumbers haccepts] at h
      obtain rfl := Option.some.inj h
      rw [haccepts] at hanswer
      exact hsettled.rowByRow_error hanswer
    | ok accepted =>
      rw [updateFrom_of_ok hslot hlogtype hnumbers haccepts] at h
      obtain ⟨updated, hupdated, hrest⟩ := Option.bind_eq_some_iff.mp h
      obtain rfl := hupdate accepted _ updated hupdated
      rw [haccepts] at hanswer
      refine ih (hsettled.next hanswer hslot) hrest ?_
      rw [List.length_set]
      omega

/-- **Nothing stops the loop** if every slot that is left can be updated. -/
theorem exists_updateFrom (hrows : rows.length = logtypes.length) (hslots : slots.length = logtypes.length)
    (hupdate : ∀ slot ∈ slots.drop row, ∀ accepted, ∃ updated, update accepted slot = some updated) :
    ∃ outcome, m.updateFrom update logtypes rows row slots = some outcome := by
  induction hleft : slots.length - row generalizing row slots with
  | zero =>
    have hnone : slots[row]? = none := List.getElem?_eq_none_iff.mpr (Nat.le_of_sub_eq_zero hleft)
    exact ⟨_, updateFrom_of_none hnone⟩
  | succ left ih =>
    have hlt : row < slots.length := by omega
    have hslot : slots[row]? = some slots[row] := List.getElem?_eq_getElem hlt
    obtain ⟨logtype, numbers, hlogtype, hnumbers⟩ := exists_row hrows hslots hslot
    cases haccepts : m.accepts logtype numbers with
    | error cause => exact ⟨_, updateFrom_of_error hslot hlogtype hnumbers haccepts⟩
    | ok accepted =>
      rw [List.drop_eq_getElem_cons hlt] at hupdate
      obtain ⟨hfirst, hlater⟩ := List.forall_mem_cons.mp hupdate
      obtain ⟨updated, hupdated⟩ := hfirst accepted
      rw [updateFrom_of_ok hslot hlogtype hnumbers haccepts, hupdated]
      apply ih
      · rw [List.length_set]
        exact hslots
      · rw [List.drop_set_of_lt (Nat.lt_succ_self row)]
        exact hlater
      · rw [List.length_set]
        omega

/-- On lists, the loop is the one that goes along the messages and the slots together. -/
theorem updateFrom_append {front messages : List (Bytes × List Int64)} {done left : List α}
    (hzip : logtypes.zip rows = front ++ messages) (hfront : front.length = done.length)
    (hlength : messages.length = left.length) :
    m.updateFrom (fun accepted slot => some (total accepted slot)) logtypes rows done.length (done ++ left) =
      some ⟨done ++ (m.runFrom total done.length messages left).slots,
        (m.runFrom total done.length messages left).failure⟩ := by
  induction left generalizing done front messages with
  | nil =>
    obtain rfl := List.length_eq_zero_iff.mp hlength
    exact updateFrom_of_none (by simp)
  | cons slot left ih =>
    obtain ⟨message, messages, rfl⟩ := List.exists_cons_of_length_eq_add_one hlength
    have hmessage : (logtypes.zip rows)[done.length]? = some message := by
      rw [hzip, ← hfront]
      simp
    obtain ⟨hlogtype, hnumbers⟩ := List.getElem?_zip_eq_some.mp hmessage
    have hslot : (done ++ slot :: left)[done.length]? = some slot := by simp
    cases haccepts : m.accepts message.1 message.2 with
    | error cause =>
      rw [updateFrom_of_error hslot hlogtype hnumbers haccepts]
      simp only [runFrom, haccepts]
    | ok accepted =>
      have hset : (done ++ slot :: left).set done.length (total accepted slot) =
          (done ++ [total accepted slot]) ++ left := by simp
      have hrest := @ih (front ++ [message]) messages (done ++ [total accepted slot])
        (by rw [hzip, List.append_assoc]; rfl) (by simp [hfront]) (Nat.succ.inj hlength)
      rw [List.length_append, List.length_singleton] at hrest
      rw [updateFrom_of_ok hslot hlogtype hnumbers haccepts, Option.bind_some, hset, hrest]
      simp only [runFrom, haccepts, List.append_assoc, List.singleton_append]

end

/-! ## Batches -/

/-- What a batch leaves.  The lengths are compared first, that of the rows before that of the slots, and nothing is
touched if one of them is wrong. -/
structure GoesRowByRow (m : Matcher) (update : Bool → α → α) (logtypes : List Bytes) (rows : List (List Int64))
    (slots : List α) (outcome : BatchOutcome α) : Prop where
  wrong_rows : rows.length ≠ logtypes.length →
    outcome = ⟨slots, some (.rowCount logtypes.length rows.length)⟩
  wrong_slots : rows.length = logtypes.length → slots.length ≠ logtypes.length →
    outcome = ⟨slots, some (.slotCount logtypes.length slots.length)⟩
  row_by_row : rows.length = logtypes.length → slots.length = logtypes.length →
    RowByRow update (m.answers logtypes rows) slots outcome

section
variable {m : Matcher} {update : Bool → α → Option α} {total : Bool → α → α} {logtypes : List Bytes}
  {rows : List (List Int64)} {slots : List α} {outcome other : BatchOutcome α}

theorem runInPlace_of_wrong_rows (hrows : rows.length ≠ logtypes.length) :
    m.runInPlace update logtypes rows slots = some ⟨slots, some (.rowCount logtypes.length rows.length)⟩ := by
  rw [runInPlace, checkBatch, if_pos hrows]

theorem runInPlace_of_wrong_slots (hrows : rows.length = logtypes.length) (hslots : slots.length ≠ logtypes.length) :
    m.runInPlace update logtypes rows slots = some ⟨slots, some (.slotCount logtypes.length slots.length)⟩ := by
  rw [runInPlace, checkBatch, if_neg (not_not.mpr hrows), if_pos hslots]

theorem runInPlace_of_lengths (hrows : rows.length = logtypes.length) (hslots : slots.length = logtypes.length) :
    m.runInPlace update logtypes rows slots = m.updateFrom update logtypes rows 0 slots := by
  rw [runInPlace, checkBatch, if_neg (not_not.mpr hrows), if_neg (not_not.mpr hslots)]

/-- What a batch leaves, if nothing stops it. -/
theorem goesRowByRow_runInPlace
    (hupdate : ∀ accepted slot updated, update accepted slot = some updated → updated = total accepted slot)
    (h : m.runInPlace update logtypes rows slots = some outcome) :
    m.GoesRowByRow total logtypes rows slots outcome where
  wrong_rows := by
    intro hrows
    rw [runInPlace_of_wrong_rows hrows] at h
    exact (Option.some.inj h).symm
  wrong_slots := by
    intro hrows hslots
    rw [runInPlace_of_wrong_slots hrows hslots] at h
    exact (Option.some.inj h).symm
  row_by_row := by
    intro hrows hslots
    rw [runInPlace_of_lengths hrows hslots] at h
    exact (Settled.start total (m.answers logtypes rows) slots).rowByRow_updateFrom hupdate hrows hslots h

/-- Nothing stops a batch if every slot can be updated. -/
theorem exists_runInPlace (hupdate : ∀ slot ∈ slots, ∀ accepted, ∃ updated, update accepted slot = some updated) :
    ∃ outcome, m.runInPlace update logtypes rows slots = some outcome := by
  by_cases hrows : rows.length = logtypes.length
  · by_cases hslots : slots.length = logtypes.length
    · rw [runInPlace_of_lengths hrows hslots]
      exact exists_updateFrom hrows hslots hupdate
    · exact ⟨_, runInPlace_of_wrong_slots hrows hslots⟩
  · exact ⟨_, runInPlace_of_wrong_rows hrows⟩

/-- On its slots, a batch leaves what it leaves on lists. -/
theorem runInPlace_eq (m : Matcher) (total : Bool → α → α) (logtypes : List Bytes) (rows : List (List Int64))
    (slots : List α) :
    m.runInPlace (fun accepted slot => some (total accepted slot)) logtypes rows slots =
      some (m.run total logtypes rows slots) := by
  rw [run, checkBatch]
  by_cases hrows : rows.length = logtypes.length
  · by_cases hslots : slots.length = logtypes.length
    · have hlength : (logtypes.zip rows).length = slots.length := by
        rw [List.length_zip, hrows, hslots, Nat.min_self]
      rw [runInPlace_of_lengths hrows hslots, if_neg (not_not.mpr hrows), if_neg (not_not.mpr hslots)]
      exact @updateFrom_append α m total logtypes rows [] _ [] slots rfl rfl hlength
    · rw [runInPlace_of_wrong_slots hrows hslots, if_neg (not_not.mpr hrows), if_pos hslots]
  · rw [runInPlace_of_wrong_rows hrows, if_pos hrows]

theorem goesRowByRow_run (m : Matcher) (total : Bool → α → α) (logtypes : List Bytes) (rows : List (List Int64))
    (slots : List α) : m.GoesRowByRow total logtypes rows slots (m.run total logtypes rows slots) := by
  apply goesRowByRow_runInPlace _ (runInPlace_eq m total logtypes rows slots)
  intro accepted slot updated hupdated
  exact (Option.some.inj hupdated).symm

theorem GoesRowByRow.unique (h : m.GoesRowByRow total logtypes rows slots outcome)
    (h' : m.GoesRowByRow total logtypes rows slots other) : outcome = other := by
  by_cases hrows : rows.length = logtypes.length
  · by_cases hslots : slots.length = logtypes.length
    · have hlength : slots.length = (m.answers logtypes rows).length := hslots.trans (length_answers hrows).symm
      exact (h.row_by_row hrows hslots).unique hlength (h'.row_by_row hrows hslots)
    · exact (h.wrong_slots hrows hslots).trans (h'.wrong_slots hrows hslots).symm
  · exact (h.wrong_rows hrows).trans (h'.wrong_rows hrows).symm

theorem GoesRowByRow.map {total' : Bool → β → β} {tell : α → β}
    (htell : ∀ slot ∈ slots, ∀ accepted, tell (total accepted slot) = total' accepted (tell slot))
    (h : m.GoesRowByRow total logtypes rows slots outcome) :
    m.GoesRowByRow total' logtypes rows (slots.map tell) ⟨outcome.slots.map tell, outcome.failure⟩ where
  wrong_rows := by
    intro hrows
    rw [h.wrong_rows hrows]
  wrong_slots := by
    intro hrows hslots
    rw [List.length_map] at hslots ⊢
    rw [h.wrong_slots hrows hslots]
  row_by_row := by
    intro hrows hslots
    rw [List.length_map] at hslots
    exact (h.row_by_row hrows hslots).map htell

end

end

/-! ### Counters -/

/-- The counter of a row, behind the answer for the row. -/
def counted (accepted : Bool) (count : UInt32) : UInt32 := if accepted then count + 1 else count

/-- A counter that is not full. -/
theorem toNat_counted {count : UInt32} (h : count ≠ 0xFFFFFFFF) (accepted : Bool) :
    (counted accepted count).toNat = if accepted then count.toNat + 1 else count.toNat := by
  cases accepted with
  | false => rfl
  | true =>
    have hne : count.toNat ≠ 0xFFFFFFFF := fun heq => h (UInt32.toNat_inj.mp heq)
    have hlt : count.toNat < 0x100000000 := count.toNat_lt
    show (count + 1).toNat = count.toNat + 1
    rw [UInt32.toNat_add]
    exact Nat.mod_eq_of_lt (show count.toNat + 1 < 0x100000000 by omega)

section
variable {m : Matcher} {wraps : Bool} {logtypes : List Bytes} {rows : List (List Int64)} {counts : List UInt32}
  {outcome : BatchOutcome UInt32}

/-- A counter that can be updated is, in the same way whatever becomes of a full one. -/
theorem goesRowByRow_countBatchInPlace (h : m.countBatchInPlace wraps logtypes rows counts = some outcome) :
    m.GoesRowByRow counted logtypes rows counts outcome := by
  refine goesRowByRow_runInPlace (fun accepted count updated hupdated => ?_) h
  cases accepted with
  | false => exact (Option.some.inj hupdated).symm
  | true =>
    replace hupdated : countUp wraps count = some updated := hupdated
    rw [countUp] at hupdated
    split at hupdated
    · cases hupdated
    · exact (Option.some.inj hupdated).symm

/-- **Without a full counter nothing stops a batch.** -/
theorem countBatchInPlace_eq (hcounts : ∀ count ∈ counts, count ≠ 0xFFFFFFFF) :
    m.countBatchInPlace wraps logtypes rows counts = some (m.run counted logtypes rows counts) := by
  obtain ⟨outcome, houtcome⟩ : ∃ outcome, m.countBatchInPlace wraps logtypes rows counts = some outcome := by
    refine exists_runInPlace fun count hcount accepted => ?_
    cases accepted with
    | false => exact ⟨count, rfl⟩
    | true =>
      have hroom : ¬ (count = 0xFFFFFFFF ∧ wraps = false) := fun hfull => hcounts count hcount hfull.1
      exact ⟨count + 1, if_neg hroom⟩
  rw [houtcome, (goesRowByRow_countBatchInPlace houtcome).unique (goesRowByRow_run m counted logtypes rows counts)]

end

/-- **A batch is matched row by row.**  The lengths are compared first, and nothing is touched if one is wrong.  Else
the batch succeeds exactly if every row has an answer, and each slot is updated with that; if not, the error is that of
the first row that has none.  This holds of the results and of counters that are not full, which are then counted as
numbers without a bound are. -/
theorem batches_goRowByRow (m : Matcher) (wraps : Bool) (logtypes : List Bytes) (rows : List (List Int64))
    (results : List Bool) {counts : List UInt32} (hcounts : ∀ count ∈ counts, count ≠ 0xFFFFFFFF) :
    m.acceptsBatchInPlace logtypes rows results = some (m.acceptsBatch logtypes rows results) ∧
    m.GoesRowByRow (fun accepted _ => accepted) logtypes rows results (m.acceptsBatch logtypes rows results) ∧
    ∃ outcome, m.countBatchInPlace wraps logtypes rows counts = some outcome ∧
      m.GoesRowByRow counted logtypes rows counts outcome ∧
      m.countBatch logtypes rows (counts.map UInt32.toNat) =
        ⟨outcome.slots.map UInt32.toNat, outcome.failure⟩ := by
  have hcount := @countBatchInPlace_eq m wraps logtypes rows counts hcounts
  have hrun := goesRowByRow_countBatchInPlace hcount
  refine ⟨runInPlace_eq m _ logtypes rows results, goesRowByRow_run m _ logtypes rows results, _, hcount, hrun, ?_⟩
  have hnumbers : m.GoesRowByRow (fun accepted count => if accepted then count + 1 else count) logtypes rows
      (counts.map UInt32.toNat) ⟨_, _⟩ := hrun.map fun count hmem => toNat_counted (hcounts count hmem)
  exact (goesRowByRow_run m _ logtypes rows _).unique hnumbers

/-- Three rows, of which the second has a number of another kind. -/
theorem batches_goRowByRow_three_rows :
    (∀ count ∈ [5, 0, 0], count ≠ (0xFFFFFFFF : UInt32)) ∧
    acceptsBatchInPlace ⟨.eight, [(.integer, [.star])]⟩ [[0x11], [0x13], [0x11, 0x11]] [[10], [0], [2, 31]]
      [false, true, false] = some ⟨[true, false, true], none⟩ ∧
    ∃ outcome, countBatchInPlace ⟨.eight, [(.integer, [.star])]⟩ false [[0x11], [0x13], [0x11, 0x11]]
        [[10], [0], [2, 31]] [5, 0, 0] = some outcome ∧
      outcome.slots.map UInt32.toNat = [6, 0, 1] ∧ outcome.failure = none := by
  have hcounts : ∀ count ∈ [5, 0, 0], count ≠ (0xFFFFFFFF : UInt32) := by simp
  obtain ⟨hresults, -, outcome, hrun, -, hcount⟩ := batches_goRowByRow ⟨.eight, [(.integer, [.star])]⟩ false
    [[0x11], [0x13], [0x11, 0x11]] [[10], [0], [2, 31]] [false, true, false] hcounts
  have hevaluated : countBatch ⟨.eight, [(.integer, [.star])]⟩ [[0x11], [0x13], [0x11, 0x11]] [[10], [0], [2, 31]]
      [5, 0, 0] = ⟨[6, 0, 1], none⟩ := by decide +kernel
  obtain ⟨hslots, hfailure⟩ := BatchOutcome.mk.inj (hcount.symm.trans hevaluated)
  refine ⟨hcounts, hresults.trans ?_, outcome, hrun, hslots, hfailure⟩
  decide +kernel

theorem counted_true_ne (count : UInt32) : counted true count ≠ count := by
  intro heq
  have hone : (1 : UInt32) = 0 := UInt32.left_eq_add.mp heq.symm
  exact absurd hone (by decide)

section
variable {answers : List (Except DecodeError Bool)} {row : Nat} {cause : DecodeError} {counts : List UInt32}
  {outcome : BatchOutcome UInt32}

/-- The counters of a batch that fails are what they were exactly if no row in front of the failing one is accepted. -/
theorem RowByRow.slots_eq_iff (h : RowByRow counted answers counts outcome) (hlength : counts.length = answers.length)
    (hfirst : FailsFirst answers row cause) :
    outcome.slots = counts ↔ ∀ earlier < row, answers[earlier]? = some (.ok false) := by
  have hrow : row < answers.length := (List.getElem?_eq_some_iff.mp hfirst.error).1
  constructor
  · intro hslots earlier hearlier
    obtain ⟨accepted, hanswer⟩ := hfirst.before earlier hearlier
    have hupdated := h.updated earlier accepted hanswer fun other hother =>
      hfirst.before other (Nat.lt_trans hother hearlier)
    have hcount : counts[earlier]? = some counts[earlier] :=
      List.getElem?_eq_getElem (hlength ▸ Nat.lt_trans hearlier hrow)
    rw [hslots, hcount, Option.map_some] at hupdated
    cases accepted with
    | false => exact hanswer
    | true => exact absurd (Option.some.inj hupdated).symm (counted_true_ne _)
  · intro hrejected
    apply List.ext_getElem?
    intro other
    rcases Nat.lt_or_ge other row with hlt | hle
    · have hupdated := h.updated other false (hrejected other hlt) fun earlier hearlier =>
        hfirst.before earlier (Nat.lt_trans hearlier hlt)
      exact hupdated.trans Option.map_id'
    · exact h.kept row cause hfirst other hle

end

section
variable {m : Matcher} {wraps : Bool} {logtypes : List Bytes} {rows : List (List Int64)} {counts : List UInt32}
  {outcome : BatchOutcome UInt32} {e : BatchError}

/-- A batch that succeeds has compared the lengths, and has gone through all rows. -/
theorem GoesRowByRow.of_success {α : Type} {update : Bool → α → α} {slots : List α} {outcome : BatchOutcome α}
    (h : m.GoesRowByRow update logtypes rows slots outcome) (hnone : outcome.failure = none) :
    RowByRow update (m.answers logtypes rows) slots outcome ∧
      ∀ row < (m.answers logtypes rows).length, HasAnswer (m.answers logtypes rows) row := by
  by_cases hrows : rows.length = logtypes.length
  · by_cases hslots : slots.length = logtypes.length
    · have hall := h.row_by_row hrows hslots
      exact ⟨hall, hall.succeeds_iff.mp hnone⟩
    · rw [h.wrong_slots hrows hslots] at hnone
      cases hnone
  · rw [h.wrong_rows hrows] at hnone
    cases hnone

/-- A row that was counted in a batch that failed is counted once more when the batch succeeds. -/
theorem counted_again {logtypes' : List Bytes} {rows' : List (List Int64)} {row : Nat} {slots : List UInt32}
    {outcome' : BatchOutcome UInt32} (hcounted : slots[row]? = counts[row]?.map (counted true))
    (hanswer : (m.answers logtypes' rows')[row]? = some (.ok true))
    (hretry : m.countBatchInPlace wraps logtypes' rows' slots = some outcome') (hnone : outcome'.failure = none) :
    outcome'.slots[row]? = counts[row]?.map (· + 2) := by
  obtain ⟨hall, hanswers⟩ := (goesRowByRow_countBatchInPlace hretry).of_success hnone
  have hrow : row < (m.answers logtypes' rows').length := (List.getElem?_eq_some_iff.mp hanswer).1
  have hupdated := hall.updated row true hanswer fun earlier hearlier => hanswers earlier (Nat.lt_trans hearlier hrow)
  rw [hupdated, hcounted, Option.map_map]
  cases counts[row]? with
  | none => rfl
  | some count => exact congrArg some (UInt32.add_assoc count 1 1)

/-- **What a batch that fails has counted.**  If a length is wrong, nothing.  If a row has no answer, the rows in front
of it that were accepted: their counters are one more, and no other counter is touched.  So the counters are what they
were exactly if none of these rows was accepted; and if the batch is tried again with another row in place of the one
that failed, and with these counters, then the rows in front of it are counted twice. -/
theorem countBatch_of_failure (hrun : m.countBatchInPlace wraps logtypes rows counts = some outcome)
    (hfailure : outcome.failure = some e) :
    ((∀ row cause, e ≠ .row row cause) → outcome.slots = counts) ∧
    ∀ row cause, e = .row row cause →
      FailsFirst (m.answers logtypes rows) row cause ∧
      outcome.slots.length = counts.length ∧
      (∀ earlier < row, ∀ accepted, (m.answers logtypes rows)[earlier]? = some (.ok accepted) →
        outcome.slots[earlier]? = counts[earlier]?.map (counted accepted)) ∧
      (∀ later, row ≤ later → outcome.slots[later]? = counts[later]?) ∧
      (outcome.slots = counts ↔ ∀ earlier < row, (m.answers logtypes rows)[earlier]? = some (.ok false)) ∧
      ∀ logtypes' rows' outcome',
        (∀ earlier < row, (m.answers logtypes' rows')[earlier]? = (m.answers logtypes rows)[earlier]?) →
        m.countBatchInPlace wraps logtypes' rows' outcome.slots = some outcome' → outcome'.failure = none →
        ∀ earlier < row, (m.answers logtypes rows)[earlier]? = some (.ok true) →
          outcome'.slots[earlier]? = counts[earlier]?.map (· + 2) := by
  have hbatch := goesRowByRow_countBatchInPlace hrun
  by_cases hlengths : rows.length = logtypes.length ∧ counts.length = logtypes.length
  · obtain ⟨hrows, hcounts⟩ := hlengths
    have hall := hbatch.row_by_row hrows hcounts
    have hlength : counts.length = (m.answers logtypes rows).length := hcounts.trans (length_answers hrows).symm
    obtain ⟨first, cause, rfl, hfirst⟩ := (hall.fails_iff e).mp hfailure
    constructor
    · intro hno
      exact absurd rfl (hno first cause)
    intro row cause' heq
    cases heq
    have hupdated : ∀ earlier < first, ∀ accepted, (m.answers logtypes rows)[earlier]? = some (.ok accepted) →
        outcome.slots[earlier]? = counts[earlier]?.map (counted accepted) := by
      intro earlier hearlier accepted hanswer
      exact hall.updated earlier accepted hanswer fun other hother => hfirst.before other (Nat.lt_trans hother hearlier)
    refine ⟨hfirst, hall.length, hupdated, hall.kept first cause hfirst, hall.slots_eq_iff hlength hfirst, ?_⟩
    intro logtypes' rows' outcome' hsame hretry hnone earlier hearlier hanswer
    have hanswer' := (hsame earlier hearlier).trans hanswer
    exact counted_again (hupdated earlier hearlier true hanswer) hanswer' hretry hnone
  · obtain ⟨hslots, hlength⟩ : outcome.slots = counts ∧ ∀ row cause, e ≠ .row row cause := by
      by_cases hrows : rows.length = logtypes.length
      · rw [hbatch.wrong_slots hrows fun hcounts => hlengths ⟨hrows, hcounts⟩] at hfailure ⊢
        cases hfailure
        exact ⟨rfl, fun _ _ => nofun⟩
      · rw [hbatch.wrong_rows hrows] at hfailure ⊢
        cases hfailure
        exact ⟨rfl, fun _ _ => nofun⟩
    exact ⟨fun _ => hslots, fun row cause heq => absurd heq (hlength row cause)⟩

/-- The first of two rows is accepted and the second has no number, so one is counted. -/
theorem countBatch_of_failure_second_row :
    countBatchInPlace ⟨.eight, [(.integer, [.star])]⟩ false [[0x11], [0x11]] [[1], []] [0, 0] =
      some ⟨[1, 0], some (.row 1 (.tooFewNumbers 0))⟩ ∧
    ([1, 0] = ([0, 0] : List UInt32) ↔ ∀ earlier < 1,
      (answers ⟨.eight, [(.integer, [.star])]⟩ [[0x11], [0x11]] [[1], []])[earlier]? = some (.ok false)) := by
  have hrun : countBatchInPlace ⟨.eight, [(.integer, [.star])]⟩ false [[0x11], [0x11]] [[1], []] [0, 0] =
      some ⟨[1, 0], some (.row 1 (.tooFewNumbers 0))⟩ := by
    rw [countBatchInPlace_eq (by simp)]
    decide +kernel
  obtain ⟨-, hrow⟩ := countBatch_of_failure hrun rfl
  obtain ⟨-, -, -, -, hslots, -⟩ := hrow 1 (.tooFewNumbers 0) rfl
  exact ⟨hrun, hslots⟩

end

/-- **A row that is counted twice.**  The second of two rows has no number, and the first is counted for all that.  With
a number in the second row, the counters of the failed batch make two of one row, where fresh ones count both once. -/
theorem counts_row_twice :
    ∃ outcome,
      countBatchInPlace ⟨.eight, [(.integer, [.star])]⟩ false [[0x11], [0x11]] [[1], []] [0, 0] = some outcome ∧
      outcome.failure = some (.row 1 (.tooFewNumbers 0)) ∧
      outcome.slots ≠ [0, 0] ∧
      countBatchInPlace ⟨.eight, [(.integer, [.star])]⟩ false [[0x11], [0x11]] [[1], [2]] outcome.slots =
        some ⟨[2, 1], none⟩ ∧
      countBatchInPlace ⟨.eight, [(.integer, [.star])]⟩ false [[0x11], [0x11]] [[1], [2]] [0, 0] =
        some ⟨[1, 1], none⟩ := by
  refine ⟨⟨[1, 0], some (.row 1 (.tooFewNumbers 0))⟩, ?_, rfl, by decide, ?_, ?_⟩
  · rw [countBatchInPlace_eq (by simp)]
    decide +kernel
  · show countBatchInPlace _ _ _ _ [1, 0] = _
    rw [countBatchInPlace_eq (by simp)]
    decide +kernel
  · rw [countBatchInPlace_eq (by simp)]
    decide +kernel

end LogCodec.Matcher
