import LogCodec.Matcher.Lazy
import LogCodec.Proofs.LogtypeRoundTrip
import LogCodec.Proofs.NumberSearch

/-!
# `LogCodec.Proofs.LazySearch`: the search for one number and the matcher of one pattern

The search for one number takes numbers as it needs them; the matcher collects them first.  Both see the same numbers,
with the same error behind them if there is one (`NumberReader.drain_eq`).  That error is what they can disagree on: the
matcher reports it before any number is rendered, the search only if it comes there.

## Contents
- **Readers.** `Drains`: what is taken one by one is what is drained, for both readers.
- **Taking numbers.** `NumberReader.typedFrom`, what is typed when some numbers are taken; `drain_eq` and `collect_eq`.
- **Searching.** `search_eq` and `acceptsCollected_eq`: the searches on a reader give what the searches on lists give.
- **One pattern.** `accepts_singleton`, the matcher in terms of `anyMatches`, and `search_agrees`, the result.
-/

namespace LogCodec

open Bytes

namespace Logtype

/-! ## Readers -/

/-- A list of items is what a step gives until it gives nothing more. -/
structure Drains {σ α : Type} (next? : σ → Option (α × σ)) (drain : σ → List α) : Prop where
  last : ∀ {s}, next? s = none → drain s = []
  step : ∀ {s s' a}, next? s = some (a, s') → drain s = a :: drain s'

namespace Drains

variable {σ α : Type} {next? : σ → Option (α × σ)} {drain : σ → List α} {s : σ} {item : α} {later : List α}

theorem next?_eq_none (hdrains : Drains next? drain) (h : drain s = []) : next? s = none := by
  cases hnext : next? s with
  | none => rfl
  | some taken =>
    rw [hdrains.step hnext] at h
    cases h

theorem exists_next? (hdrains : Drains next? drain) (h : drain s = item :: later) :
    ∃ s', next? s = some (item, s') ∧ drain s' = later := by
  cases hnext : next? s with
  | none =>
    rw [hdrains.last hnext] at h
    cases h
  | some taken =>
    rw [hdrains.step hnext] at h
    obtain ⟨rfl, rfl⟩ := List.cons.inj h
    exact ⟨taken.2, rfl, rfl⟩

end Drains

theorem Reader.drains : Drains Reader.next? Reader.drain := ⟨drain_of_next?_eq_none, drain_of_next?_eq_some⟩

theorem NumberReader.drains : Drains NumberReader.next? NumberReader.drain :=
  ⟨drain_of_next?_eq_none, drain_of_next?_eq_some⟩

/-! ## Taking numbers -/

namespace NumberReader

/-- What is typed when some of the numbers are taken already: the elements that are left, with the numbers that are. -/
def typedFrom (numbers : List Int64) (taken : Nat) (scan : Scan Element) : Scan Packed :=
  let kinds := scan.items.filterMap Element.number?
  let left := numbers.drop taken
  if left.length < kinds.length then ⟨kinds.zip left, some (.tooFewNumbers numbers.length)⟩
  else ⟨kinds.zip left, scan.failure⟩

section
variable {numbers : List Int64} {taken : Nat} {items : List Element} {failure : Option DecodeError} {item : Element}
  {kind : NumberKind}

theorem typedFrom_nil : typedFrom numbers taken ⟨[], failure⟩ = ⟨[], failure⟩ := by
  simp [typedFrom]

theorem typedFrom_other (h : item.number? = none) :
    typedFrom numbers taken ⟨item :: items, failure⟩ = typedFrom numbers taken ⟨items, failure⟩ := by
  simp only [typedFrom, List.filterMap_cons_none h]

theorem typedFrom_missing (h : item.number? = some kind) (hmissing : numbers[taken]? = none) :
    typedFrom numbers taken ⟨item :: items, failure⟩ = ⟨[], some (.tooFewNumbers numbers.length)⟩ := by
  have hnil : numbers.drop taken = [] := List.drop_eq_nil_of_le (List.getElem?_eq_none_iff.mp hmissing)
  simp [typedFrom, List.filterMap_cons_some h, hnil]

theorem typedFrom_number {number : Int64} (h : item.number? = some kind) (hnumber : numbers[taken]? = some number) :
    typedFrom numbers taken ⟨item :: items, failure⟩ =
      ⟨(kind, number) :: (typedFrom numbers (taken + 1) ⟨items, failure⟩).items,
        (typedFrom numbers (taken + 1) ⟨items, failure⟩).failure⟩ := by
  obtain ⟨hlt, hget⟩ := List.getElem?_eq_some_iff.mp hnumber
  have hdrop : numbers.drop taken = number :: numbers.drop (taken + 1) := by
    rw [List.drop_eq_getElem_cons hlt, hget]
  simp only [typedFrom, List.filterMap_cons_some h, hdrop, List.length_cons, List.zip_cons_cons,
    Nat.add_lt_add_iff_right]
  split <;> rfl

end

/-- From every state on, a reader gives the numbers that are left at the places that are left, and then the error if
there is one. -/
theorem drain_of_outcomes {r : NumberReader} {scan : Scan Element} (h : r.reader.drain = Reader.outcomes scan) :
    r.drain = Reader.outcomes (typedFrom r.numbers r.taken scan) := by
  obtain ⟨items, failure⟩ := scan
  -- The induction is on the elements that are left; at each of them the reader of the logtype takes one step.
  induction items generalizing r with
  | nil =>
    rw [typedFrom_nil]
    cases failure with
    | none => exact drain_of_next?_eq_none (next?_of_none (Reader.drains.next?_eq_none h))
    | some e =>
      obtain ⟨rest, hnext, hrest⟩ := Reader.drains.exists_next? h
      rw [drain_of_next?_eq_some (next?_of_error hnext),
        drain_of_next?_eq_none (next?_of_none (Reader.drains.next?_eq_none hrest))]
      rfl
  | cons item items ih =>
    obtain ⟨rest, hnext, hrest⟩ := Reader.drains.exists_next? h
    cases hplace : item.number? with
    | none =>
      have hdrain : r.drain = drain ⟨rest, r.numbers, r.taken⟩ := by
        rw [drain, drain, next?_of_other hnext hplace]
      rw [hdrain, ih hrest, typedFrom_other hplace]
    | some kind =>
      cases hnumber : r.numbers[r.taken]? with
      | none =>
        rw [drain_of_next?_eq_some (next?_of_missing hnext hplace hnumber), typedFrom_missing hplace hnumber,
          drain_of_next?_eq_none (next?_of_none rfl)]
        rfl
      | some number =>
        rw [drain_of_next?_eq_some (next?_of_number hnext hplace hnumber), typedFrom_number hplace hnumber, ih hrest]
        rfl

/-- **A reader of numbers gives the numbers with their kinds**, and then the error if there is one. -/
theorem drain_eq (logtype : Bytes) (numbers : List Int64) :
    (ofLogtype logtype numbers).drain = Reader.outcomes (typedNumbers logtype numbers) :=
  drain_of_outcomes (Reader.drain_eq logtype)

theorem mapM_id_outcomes {α : Type} (scan : Scan α) : (Reader.outcomes scan).mapM id = scan.toExcept := by
  obtain ⟨items, failure⟩ := scan
  induction items with
  | nil => cases failure <;> rfl
  | cons item items ih =>
    have hcons : Reader.outcomes (Scan.mk (item :: items) failure) = .ok item :: Reader.outcomes ⟨items, failure⟩ := rfl
    rw [hcons, List.mapM_cons, ih]
    cases failure <;> rfl

theorem collect_eq (logtype : Bytes) (numbers : List Int64) :
    (ofLogtype logtype numbers).collect = (typedNumbers logtype numbers).toExcept := by
  rw [collect, drain_eq, mapM_id_outcomes]

/-! ## Searching -/

section
variable {width : Width} {kind : Placeholder} {pattern : Pattern} {r rest : NumberReader}

theorem search_of_none (h : r.next? = none) : r.search width kind pattern = .ok false := by
  rw [search]
  split <;> simp_all

theorem search_of_error {e : DecodeError} (h : r.next? = some (.error e, rest)) :
    r.search width kind pattern = .error e := by
  rw [search]
  split
  · simp_all
  · next hsome =>
    rw [h] at hsome
    cases hsome
    rfl

theorem search_of_number {number : Packed} (h : r.next? = some (.ok number, rest)) :
    r.search width kind pattern =
      (if Placeholder.number number.1 ≠ kind then rest.search width kind pattern
      else do
        let text ← width.render number.1 number.2
        if pattern.isMatch text then return true
        rest.search width kind pattern) := by
  rw [search]
  split
  · simp_all
  · next hsome =>
    rw [h] at hsome
    cases hsome
    rfl

/-- The search goes through what the reader gives until a number matches. -/
theorem search_of_outcomes {scan : Scan Packed} (h : r.drain = Reader.outcomes scan) :
    r.search width kind pattern =
      (do
        if ← anyMatches width kind pattern scan.items then return true
        match scan.failure with
        | none => return false
        | some e => throw e) := by
  obtain ⟨items, failure⟩ := scan
  induction items generalizing r with
  | nil =>
    cases failure with
    | none => exact search_of_none (drains.next?_eq_none h)
    | some e =>
      obtain ⟨rest, hnext, -⟩ := drains.exists_next? h
      exact search_of_error hnext
  | cons number items ih =>
    obtain ⟨rest, hnext, hrest⟩ := drains.exists_next? h
    rw [search_of_number hnext, ih hrest, anyMatches]
    split
    · rfl
    · cases width.render number.1 number.2 with
      | error e => rfl
      | ok text =>
        show (if pattern.isMatch text = true then _ else _) = (if pattern.isMatch text = true then _ else _) >>= _
        split <;> rfl

end

/-- The search on a reader gives what the search among the typed numbers gives. -/
theorem search_eq (width : Width) (kind : Placeholder) (pattern : Pattern) (logtype : Bytes) (numbers : List Int64) :
    (ofLogtype logtype numbers).search width kind pattern = anyNumberMatches width kind pattern logtype numbers :=
  search_of_outcomes (drain_eq logtype numbers)

end NumberReader

end Logtype

theorem Matcher.acceptsCollected_eq (m : Matcher) (logtype : Bytes) (numbers : List Int64) :
    m.acceptsCollected logtype numbers = m.accepts logtype numbers := by
  rw [acceptsCollected, Logtype.NumberReader.collect_eq]
  exact acceptsByRow_eq m logtype numbers

/-! ## One pattern -/

section
variable {width : Width} {kind : NumberKind} {pattern : Pattern} {logtype : Bytes} {numbers : List Int64}

theorem Matcher.acceptsFrom_singleton (packed : List Packed) :
    acceptsFrom width [(kind, pattern)] packed = anyMatches width (.number kind) pattern packed := by
  induction packed with
  | nil => rfl
  | cons number rest ih =>
    rw [acceptsFrom, anyMatches, ih]
    by_cases hkind : kind = number.1
    · simp [hkind, acceptsFrom]
      rfl
    · have hother : Placeholder.number number.1 ≠ .number kind := fun h => hkind (Placeholder.number.inj h).symm
      rw [if_pos hkind, if_pos hother]

/-- The matcher of one pattern searches the numbers for it, if nothing is wrong with them. -/
theorem Matcher.accepts_singleton :
    accepts ⟨width, [(kind, pattern)]⟩ logtype numbers =
      (Logtype.typedNumbers logtype numbers).toExcept.bind (anyMatches width (.number kind) pattern) := by
  cases hpacked : (Logtype.typedNumbers logtype numbers).toExcept with
  | error e => exact accepts_of_error (List.cons_ne_nil _ _) hpacked
  | ok packed =>
    rw [accepts_of_packed (List.cons_ne_nil _ _) hpacked, acceptsFrom_singleton]
    cases packed with
    | nil => rfl
    | cons number rest => exact if_neg (Nat.not_lt_of_le (Nat.le_add_left 1 rest.length))

theorem anyNumberMatches_of_none {kind : Placeholder} (h : (Logtype.typedNumbers logtype numbers).failure = none) :
    anyNumberMatches width kind pattern logtype numbers =
      anyMatches width kind pattern (Logtype.typedNumbers logtype numbers).items := by
  rw [anyNumberMatches, h]
  rcases anyMatches width kind pattern (Logtype.typedNumbers logtype numbers).items with _ | (_ | _) <;> rfl

/-- The search does not come to the end without a match if there is an error on its way. -/
theorem anyNumberMatches_ne_false {kind : Placeholder} {e : DecodeError}
    (h : (Logtype.typedNumbers logtype numbers).failure = some e) :
    anyNumberMatches width kind pattern logtype numbers ≠ .ok false := by
  rw [anyNumberMatches, h]
  rcases anyMatches width kind pattern (Logtype.typedNumbers logtype numbers).items with _ | (_ | _) <;>
    exact fun h => by cases h

theorem anyMatches_dictionary (packed : List Packed) : anyMatches width .dictionary pattern packed = .ok false := by
  induction packed with
  | nil => rfl
  | cons number rest ih => rw [anyMatches, if_pos Placeholder.noConfusion, ih]

/-- Nothing is wrong with a logtype without a dangling escape if there are enough numbers for its places. -/
theorem Logtype.failure_typedNumbers (hescape : ¬ EndsInEscape logtype)
    (hplaces : (countElements (elements logtype).items).encoded ≤ numbers.length) :
    (typedNumbers logtype numbers).failure = none := by
  have hlength : ((elements logtype).items.filterMap Element.number?).length =
      (countElements (elements logtype).items).encoded := by
    rw [countElements, List.length_filterMap_eq_countP]
  rw [typedNumbers, hlength, if_neg (Nat.not_lt_of_le hplaces), failure_eq, if_neg hescape]

/-- **The search for one number and the matcher of one pattern agree.**  An answer of the matcher is the answer of the
search, and if the search comes to the end without a match then so does the matcher.  Only what is wrong behind a match,
or behind a number that cannot be rendered, is seen by the one and not by the other: if nothing is wrong with the
logtype and the numbers, both give the same, even if that is an error.  A dictionary value is never found, and a
matcher is not made for one. -/
theorem Logtype.NumberReader.search_agrees (width : Width) (text logtype : Bytes) (numbers : List Int64) :
    (∀ kind, ∃ m, Matcher.ofQueries width [(.number kind, text)] = .ok m ∧
      let found := (ofLogtype logtype numbers).search width (.number kind) (Pattern.ofBytes text)
      let accepted := m.acceptsCollected logtype numbers
      (∀ b, accepted = .ok b → found = .ok b) ∧
      (found = .ok false → accepted = .ok false) ∧
      (¬ EndsInEscape logtype → (countElements (Logtype.elements logtype).items).encoded ≤ numbers.length →
        found = accepted)) ∧
    Matcher.ofQueries width [(.dictionary, text)] = .error (.notPacked .dictionary) ∧
    (ofLogtype logtype numbers).search width .dictionary (Pattern.ofBytes text) ≠ .ok true := by
  refine ⟨fun kind => ⟨⟨width, [(kind, Pattern.ofBytes text)]⟩, rfl, ?_⟩, rfl, ?_⟩
  · simp only [search_eq, Matcher.acceptsCollected_eq, Matcher.accepts_singleton]
    cases hfailure : (typedNumbers logtype numbers).failure with
    | none =>
      -- Nothing is wrong, so both search the same numbers.
      have hsame : anyNumberMatches width (.number kind) (Pattern.ofBytes text) logtype numbers =
          (typedNumbers logtype numbers).toExcept.bind (anyMatches width (.number kind) (Pattern.ofBytes text)) := by
        rw [anyNumberMatches_of_none hfailure, Scan.toExcept, hfailure]
        rfl
      exact ⟨fun b h => hsame.trans h, fun h => hsame.symm.trans h, fun _ _ => hsame⟩
    | some e =>
      have hreported : (typedNumbers logtype numbers).toExcept = .error e := by rw [Scan.toExcept, hfailure]
      rw [hreported]
      refine ⟨fun b h => (by cases h), fun h => absurd h (anyNumberMatches_ne_false hfailure), fun hescape hplaces => ?_⟩
      rw [failure_typedNumbers hescape hplaces] at hfailure
      cases hfailure
  · rw [search_eq, anyNumberMatches, anyMatches_dictionary]
    cases (typedNumbers logtype numbers).failure <;> exact fun h => by cases h

end

end LogCodec
