import LogCodec.Matcher.Row
import Mathlib.Data.List.Forall2
import Mathlib.Data.List.NodupEquivFin

/-!
# `LogCodec.Proofs.NumberSearch`: a matcher decides whether numbers match in order

The patterns of a matcher are to be met by some of the packed numbers of a message, in order.  What that means has one
equation for the next number: if the number matches the next pattern it may as well be used for it, and otherwise it is
passed over.  The search follows this equation number by number.  A table of one row follows it too: of its cells those
up to the number of matched patterns are set, so that of all cells only the one behind them can change.

## Contents
- **Meaning.** `NumberPattern.Finds`, `Matcher.FoundInOrder` with its two equations, and `foundInOrder_iff_strictMono`,
  the meaning by positions.
- **Search.** `acceptsFrom_eq_ok`: an answer of the search is right; `exists_acceptsFrom`: there is one.
- **Row.** `sweep_eq`, what one number does to the row, and `searchRows_eq`, what all of them do.
- `accepts_decides`, the main statement.
-/

namespace LogCodec

/-- A packed number matches a pattern for numbers. -/
def NumberPattern.Finds (width : Width) (pattern : NumberPattern) (number : Packed) : Prop :=
  pattern.1 = number.1 ∧ ∃ text, width.render number.1 number.2 = .ok text ∧ pattern.2.isMatch text = true

namespace Matcher

/-! ## Meaning -/

/-- Some of the numbers, in order, match the patterns one by one. -/
def FoundInOrder (width : Width) (patterns : List NumberPattern) (packed : List Packed) : Prop :=
  ∃ found, found.Sublist packed ∧ List.Forall₂ (NumberPattern.Finds width) patterns found

section

variable {width : Width} {next : NumberPattern} {later patterns : List NumberPattern} {number : Packed}
  {rest packed : List Packed}

theorem foundInOrder_nil (width : Width) (packed : List Packed) : FoundInOrder width [] packed :=
  ⟨[], List.nil_sublist _, .nil⟩

theorem not_foundInOrder_cons_nil : ¬ FoundInOrder width (next :: later) [] := by
  rintro ⟨found, hfound, hall⟩
  rw [List.sublist_nil] at hfound
  subst hfound
  cases hall

/-- A number that matches the next pattern may as well be used for it. -/
theorem foundInOrder_of_finds (h : next.Finds width number) :
    FoundInOrder width (next :: later) (number :: rest) ↔ FoundInOrder width later rest := by
  constructor
  · rintro ⟨_, hfound, _ | ⟨-, hall⟩⟩
    exact ⟨_, hfound.tail, hall⟩
  · rintro ⟨found, hfound, hall⟩
    exact ⟨number :: found, hfound.cons_cons number, .cons h hall⟩

/-- A number that does not match the next pattern is passed over. -/
theorem foundInOrder_of_not_finds (h : ¬ next.Finds width number) :
    FoundInOrder width (next :: later) (number :: rest) ↔ FoundInOrder width (next :: later) rest := by
  constructor
  · rintro ⟨_, hfound, _ | ⟨hfirst, hall⟩⟩
    cases hfound with
    | cons _ hrest => exact ⟨_, hrest, .cons hfirst hall⟩
    | cons_cons => exact absurd hfirst h
  · rintro ⟨found, hfound, hall⟩
    exact ⟨found, hfound.cons number, hall⟩

/-- The meaning by positions: each pattern has the place of a number that matches it, and the places increase. -/
theorem foundInOrder_iff_strictMono :
    FoundInOrder width patterns packed ↔
      ∃ place : Fin patterns.length → Fin packed.length, StrictMono place ∧
        ∀ j, NumberPattern.Finds width patterns[j] packed[place j] := by
  constructor
  · rintro ⟨found, hfound, hall⟩
    obtain ⟨place, hplace⟩ := List.sublist_iff_exists_fin_orderEmbedding_get_eq.mp hfound
    obtain ⟨hlength, hfinds⟩ := List.forall₂_iff_get.mp hall
    refine ⟨fun j => place (j.cast hlength), fun i j hij => place.strictMono hij, fun j => ?_⟩
    have hj := hfinds j j.2 (hlength ▸ j.2)
    rw [hplace] at hj
    exact hj
  · rintro ⟨place, hmono, hfinds⟩
    refine ⟨List.ofFn fun j => packed[place j], ?_, ?_⟩
    · have hlength : (List.ofFn fun j => packed[place j]).length = patterns.length := List.length_ofFn
      refine List.sublist_iff_exists_fin_orderEmbedding_get_eq.mpr
        ⟨OrderEmbedding.ofStrictMono (fun i => place (i.cast hlength)) fun i j hij => hmono hij, fun i => ?_⟩
      rw [List.get_ofFn]
      rfl
    · refine List.forall₂_iff_get.mpr ⟨List.length_ofFn.symm, fun i hi _ => ?_⟩
      rw [List.get_ofFn]
      exact hfinds ⟨i, hi⟩

/-! ## Search -/

/-- **An answer of the search is right.**  To take the first number that matches loses nothing. -/
theorem acceptsFrom_eq_ok {accepted : Bool} (h : acceptsFrom width patterns packed = .ok accepted) :
    accepted = true ↔ FoundInOrder width patterns packed := by
  fun_induction acceptsFrom width patterns packed with
  | case1 packed =>
    cases h
    exact iff_of_true rfl (foundInOrder_nil width packed)
  | case2 next later =>
    cases h
    exact iff_of_false Bool.false_ne_true not_foundInOrder_cons_nil
  | case3 next later number rest hkind ih =>
    rw [ih h, foundInOrder_of_not_finds fun hfinds => hkind hfinds.1]
  | case4 next later number rest hkind ihLater ihRest =>
    cases htext : width.render number.1 number.2 with
    | error e =>
      rw [htext] at h
      cases h
    | ok text =>
      rw [htext] at h
      replace h : (if next.2.isMatch text = true then acceptsFrom width later rest
        else acceptsFrom width (next :: later) rest) = .ok accepted := h
      split at h
      · next hmatch =>
        rw [ihLater h, foundInOrder_of_finds ⟨Decidable.not_not.mp hkind, text, htext, hmatch⟩]
      · next hmatch =>
        rw [ihRest h, foundInOrder_of_not_finds]
        rintro ⟨-, other, hother, hmatches⟩
        cases htext.symm.trans hother
        exact hmatch hmatches

/-- There is an answer if every number can be rendered. -/
theorem exists_acceptsFrom (patterns : List NumberPattern)
    (hrender : ∀ number ∈ packed, ∃ text, width.render number.1 number.2 = .ok text) :
    ∃ accepted, acceptsFrom width patterns packed = .ok accepted := by
  fun_induction acceptsFrom width patterns packed with
  | case1 => exact ⟨true, rfl⟩
  | case2 => exact ⟨false, rfl⟩
  | case3 next later number rest hkind ih => exact ih (List.forall_mem_cons.mp hrender).2
  | case4 next later number rest hkind ihLater ihRest =>
    obtain ⟨⟨text, htext⟩, hrest⟩ := List.forall_mem_cons.mp hrender
    rw [htext]
    show ∃ accepted, (if next.2.isMatch text = true then acceptsFrom width later rest
      else acceptsFrom width (next :: later) rest) = .ok accepted
    split
    · exact ihLater hrest
    · exact ihRest hrest

end

/-! ## Row -/

/-- The cells when so many patterns have been matched and so many are left. -/
def cellsAfter (matched left : Nat) : List Bool := List.replicate (matched + 1) true ++ List.replicate left false

namespace Row

variable {width : Width} {number : Packed} {matched left : Nat} {text : Option Bytes}

theorem holds_cellsAfter (j : Nat) : Row.holds ⟨cellsAfter matched left, text⟩ j = decide (j ≤ matched) := by
  simp only [holds, cellsAfter, List.getD_eq_getElem?_getD, List.getElem?_append, List.getElem?_replicate,
    List.length_replicate]
  split
  · next hj => simp [Nat.le_of_lt_succ hj]
  · next hj =>
    rw [decide_eq_false (by omega)]
    split <;> rfl

theorem set_cellsAfter : (cellsAfter matched (left + 1)).set (matched + 1) true = cellsAfter (matched + 1) left := by
  rw [cellsAfter, List.set_append_right _ _ (by simp), List.length_replicate, Nat.sub_self]
  show List.replicate (matched + 1) true ++ true :: List.replicate left false = _
  rw [cellsAfter, List.replicate_succ' (n := matched + 1), List.append_assoc]
  rfl

/-- Cells that are set, and cells behind one that is not, stay as they are. -/
theorem foldlM_visit_of_settled {row : Row} {entries : List (NumberPattern × Nat)}
    (h : ∀ entry ∈ entries, row.holds (entry.2 + 1) ∨ ¬ row.holds entry.2) :
    entries.foldlM (visit width number) row = .ok row := by
  induction entries with
  | nil => rfl
  | cons entry entries ih =>
    obtain ⟨hentry, hentries⟩ := List.forall_mem_cons.mp h
    have hvisit : visit width number row entry = .ok row := if_pos (hentry.imp_right Or.inl)
    rw [List.foldlM_cons, hvisit]
    exact ih hentries

/-- The row after the pattern that is next has been tried. -/
def afterNext (width : Width) (number : Packed) (next : NumberPattern) (matched left : Nat) :
    Except DecodeError Row :=
  if next.1 ≠ number.1 then .ok ⟨cellsAfter matched (left + 1), none⟩
  else (width.render number.1 number.2).map fun text =>
    ⟨if next.2.isMatch text then cellsAfter (matched + 1) left else cellsAfter matched (left + 1), some text⟩

/-- Behind the cells that are set, the pattern that is next is tried. -/
theorem visit_next (next : NumberPattern) :
    visit width number ⟨cellsAfter matched (left + 1), none⟩ (next, matched) =
      afterNext width number next matched left := by
  have hset : ¬ Row.holds ⟨cellsAfter matched (left + 1), none⟩ (matched + 1) := by simp [holds_cellsAfter]
  have hbefore : Row.holds ⟨cellsAfter matched (left + 1), none⟩ matched := by simp [holds_cellsAfter]
  rw [visit, afterNext]
  by_cases hkind : next.1 ≠ number.1
  · rw [if_pos (.inr (.inr hkind)), if_pos hkind]
  · rw [if_neg (by simp [hset, hbefore, hkind]), if_neg hkind, set_cellsAfter, render]
    cases width.render number.1 number.2 <;> rfl

end Row

section

variable {m : Matcher} {front later : List NumberPattern} {next : NumberPattern}

/-- **One number** can change only the cell behind the pattern that is next. -/
theorem sweep_eq (hpatterns : m.patterns = front ++ next :: later) (number : Packed) :
    m.sweep number (cellsAfter front.length (later.length + 1)) =
      Row.afterNext m.width number next front.length later.length := by
  have hlater : ∀ entry ∈ (later.zipIdx (front.length + 1)).reverse,
      Row.holds ⟨cellsAfter front.length (later.length + 1), none⟩ (entry.2 + 1) ∨
        ¬ Row.holds ⟨cellsAfter front.length (later.length + 1), none⟩ entry.2 := by
    intro entry hentry
    have hindex := List.le_snd_of_mem_zipIdx (List.mem_reverse.mp hentry)
    refine .inr ?_
    rw [Row.holds_cellsAfter, decide_eq_true_iff]
    omega
  have hfront : ∀ matched left text, front.length ≤ matched → ∀ entry ∈ front.zipIdx.reverse,
      Row.holds ⟨cellsAfter matched left, text⟩ (entry.2 + 1) ∨
        ¬ Row.holds ⟨cellsAfter matched left, text⟩ entry.2 := by
    intro matched left text hmatched entry hentry
    have hindex := List.snd_lt_of_mem_zipIdx (List.mem_reverse.mp hentry)
    refine .inl ?_
    rw [Row.holds_cellsAfter, decide_eq_true_iff]
    omega
  -- The cells of the later patterns come first, then that of the next one, then those that are set.
  have horder : m.patterns.zipIdx.reverse =
      (later.zipIdx (front.length + 1)).reverse ++ ((next, front.length) :: front.zipIdx.reverse) := by
    rw [hpatterns, List.zipIdx_append, List.zipIdx_cons, List.reverse_append, List.reverse_cons, List.append_assoc,
      Nat.zero_add]
    rfl
  rw [sweep, horder, List.foldlM_append, Row.foldlM_visit_of_settled hlater]
  show (Row.visit m.width number ⟨cellsAfter front.length (later.length + 1), none⟩ (next, front.length) >>=
    fun row => front.zipIdx.reverse.foldlM (Row.visit m.width number) row) = _
  rw [Row.visit_next, Row.afterNext]
  split
  · exact Row.foldlM_visit_of_settled (hfront _ _ _ (Nat.le_refl _))
  · cases m.width.render number.1 number.2 with
    | error e => rfl
    | ok text =>
      show front.zipIdx.reverse.foldlM (Row.visit m.width number) ⟨if next.2.isMatch text then _ else _, some text⟩ =
        .ok ⟨if next.2.isMatch text then _ else _, some text⟩
      by_cases hmatch : next.2.isMatch text = true
      · simp only [if_pos hmatch]
        exact Row.foldlM_visit_of_settled (hfront _ _ _ (Nat.le_succ _))
      · simp only [if_neg hmatch]
        exact Row.foldlM_visit_of_settled (hfront _ _ _ (Nat.le_refl _))

/-- **All numbers**: a row whose cells tell how many patterns have been matched goes on like the search for the patterns
that are left. -/
theorem searchRows_eq (hpatterns : m.patterns = front ++ next :: later) (packed : List Packed) :
    m.searchRows (cellsAfter front.length (later.length + 1)) packed =
      acceptsFrom m.width (next :: later) packed := by
  induction packed generalizing front next later with
  | nil => rfl
  | cons number rest ih =>
    have hsize : m.size = front.length + (later.length + 1) := by
      rw [size, hpatterns, List.length_append, List.length_cons]
    have hunset : ∀ text, ¬ Row.holds ⟨cellsAfter front.length (later.length + 1), text⟩ m.size := by
      intro text
      rw [Row.holds_cellsAfter, decide_eq_true_iff]
      omega
    rw [searchRows, sweep_eq hpatterns, Row.afterNext, acceptsFrom]
    split
    · show (if Row.holds ⟨cellsAfter front.length (later.length + 1), none⟩ m.size = true then _ else _) = _
      rw [if_neg (hunset none)]
      exact ih hpatterns
    · cases m.width.render number.1 number.2 with
      | error e => rfl
      | ok text =>
        show (if Row.holds ⟨if next.2.isMatch text then _ else _, some text⟩ m.size = true then _ else _) =
          (if next.2.isMatch text then _ else _)
        by_cases hmatch : next.2.isMatch text = true
        · simp only [if_pos hmatch]
          cases later with
          | nil =>
            rw [if_pos (by rw [Row.holds_cellsAfter, decide_eq_true_iff, hsize]; rfl), acceptsFrom]
            rfl
          | cons following later =>
            have hopen : ¬ Row.holds ⟨cellsAfter (front.length + 1) (later.length + 1), some text⟩ m.size := by
              rw [Row.holds_cellsAfter, decide_eq_true_iff, hsize, List.length_cons]
              omega
            have hnext : m.patterns = (front ++ [next]) ++ following :: later := by
              rw [hpatterns, List.append_assoc]
              rfl
            have hlength : (front ++ [next]).length = front.length + 1 := List.length_append
            rw [List.length_cons, if_neg hopen, ← hlength]
            exact ih hnext
        · simp only [if_neg hmatch]
          rw [if_neg (hunset (some text))]
          exact ih hpatterns

/-- The search with a row gives what the search gives that counts the matched patterns. -/
theorem acceptsByRow_eq (m : Matcher) (logtype : Bytes) (numbers : List Int64) :
    m.acceptsByRow logtype numbers = m.accepts logtype numbers := by
  rw [acceptsByRow, accepts]
  split
  · rfl
  · next hne =>
    obtain ⟨next, later, hpatterns⟩ := List.exists_cons_of_ne_nil (mt List.isEmpty_iff.mpr hne)
    have hcells : true :: List.replicate m.size false =
        cellsAfter ([] : List NumberPattern).length (later.length + 1) := by
      rw [size, hpatterns]
      rfl
    cases (Logtype.typedNumbers logtype numbers).toExcept with
    | error e => rfl
    | ok packed =>
      show (if packed.length < m.size then _ else m.searchRows _ packed) =
        (if packed.length < m.size then _ else acceptsFrom m.width m.patterns packed)
      rw [hcells, searchRows_eq hpatterns, ← hpatterns]

end

/-! ## Messages -/

section

variable {m : Matcher} {logtype : Bytes} {numbers : List Int64} {packed : List Packed}

theorem accepts_of_nil (h : m.patterns = []) : m.accepts logtype numbers = .ok true := by
  rw [accepts, if_pos (by rw [h]; rfl)]

/-- With patterns, whatever is wrong with the logtype or the numbers is reported. -/
theorem accepts_of_error {e : DecodeError} (hne : m.patterns ≠ [])
    (h : (Logtype.typedNumbers logtype numbers).toExcept = .error e) : m.accepts logtype numbers = .error e := by
  rw [accepts, if_neg (mt List.isEmpty_iff.mp hne), h]
  rfl

theorem accepts_of_packed (hne : m.patterns ≠ []) (h : (Logtype.typedNumbers logtype numbers).toExcept = .ok packed) :
    m.accepts logtype numbers =
      if packed.length < m.size then .ok false else acceptsFrom m.width m.patterns packed := by
  rw [accepts, if_neg (mt List.isEmpty_iff.mp hne), h]
  rfl

/-- An answer for a message is right. -/
theorem accepts_eq_ok {accepted : Bool} (hpacked : (Logtype.typedNumbers logtype numbers).toExcept = .ok packed)
    (h : m.accepts logtype numbers = .ok accepted) : accepted = true ↔ FoundInOrder m.width m.patterns packed := by
  by_cases hne : m.patterns = []
  · rw [accepts_of_nil hne] at h
    cases h
    exact iff_of_true rfl (hne ▸ foundInOrder_nil m.width packed)
  · rw [accepts_of_packed hne hpacked] at h
    split at h
    · next hfew =>
      cases h
      refine iff_of_false Bool.false_ne_true ?_
      rintro ⟨found, hfound, hall⟩
      have hlength := hfound.length_le
      rw [← hall.length_eq] at hlength
      exact absurd hlength (Nat.not_le_of_lt hfew)
    · exact acceptsFrom_eq_ok h

/-- There is an answer for a message whose numbers can all be rendered. -/
theorem exists_accepts (hpacked : (Logtype.typedNumbers logtype numbers).toExcept = .ok packed)
    (hrender : ∀ number ∈ packed, ∃ text, m.width.render number.1 number.2 = .ok text) :
    ∃ accepted, m.accepts logtype numbers = .ok accepted := by
  by_cases hne : m.patterns = []
  · exact ⟨true, accepts_of_nil hne⟩
  · rw [accepts_of_packed hne hpacked]
    split
    · exact ⟨false, rfl⟩
    · exact exists_acceptsFrom m.patterns hrender

/-- **A matcher decides whether numbers match in order**, with a row as well as without one.  With patterns an answer
presupposes that the logtype and the numbers fit together, and it is that there are increasing positions at which the
numbers match the patterns one by one; that they do not fit is reported.  There is an answer if they fit and every
number can be rendered, and without patterns there always is. -/
theorem accepts_decides (m : Matcher) (logtype : Bytes) (numbers : List Int64) :
    m.acceptsByRow logtype numbers = m.accepts logtype numbers ∧
      (m.patterns = [] → m.accepts logtype numbers = .ok true) ∧
      (m.patterns ≠ [] → ∀ accepted, m.accepts logtype numbers = .ok accepted →
        ∃ packed, (Logtype.typedNumbers logtype numbers).toExcept = .ok packed ∧
          (accepted = true ↔ ∃ place : Fin m.patterns.length → Fin packed.length, StrictMono place ∧
            ∀ j, NumberPattern.Finds m.width m.patterns[j] packed[place j])) ∧
      (m.patterns ≠ [] → ∀ e, (Logtype.typedNumbers logtype numbers).toExcept = .error e →
        m.accepts logtype numbers = .error e) ∧
      (∀ packed, (Logtype.typedNumbers logtype numbers).toExcept = .ok packed →
        (∀ number ∈ packed, ∃ text, m.width.render number.1 number.2 = .ok text) →
          ∃ accepted, m.accepts logtype numbers = .ok accepted) := by
  refine ⟨acceptsByRow_eq m logtype numbers, accepts_of_nil, fun hne accepted h => ?_,
    fun hne e he => accepts_of_error hne he, fun packed hpacked hrender => exists_accepts hpacked hrender⟩
  cases hpacked : (Logtype.typedNumbers logtype numbers).toExcept with
  | error e =>
    rw [accepts_of_error hne hpacked] at h
    cases h
  | ok packed => exact ⟨packed, rfl, (accepts_eq_ok hpacked h).trans foundInOrder_iff_strictMono⟩

end

end Matcher

end LogCodec
