import LogCodec.Wildcard.Pattern

/-!
# `LogCodec.Wildcard.Match`: which byte strings a pattern matches

A pattern matches a whole byte string: it is anchored at both ends.  `Pattern.Matches` says what that means, symbol by
symbol.  `Pattern.isMatch` decides it run by run, where a run is what stands between two stars: the first run has to
stand at the front of the text and the last one at its end, and for each run between them the first place behind the
runs before it is taken.  To take the first place loses nothing, because it leaves the most text for what follows, and
a pattern that starts with a star matches a longer text if it matches an end piece of it.

## Contents
- `Pattern.Matches`, the meaning.
- `Pattern.runs`, which cuts a pattern at its stars, and `dropRun`, `seek` and `endsWith`, which find a run in a text.
- `Pattern.isMatch`, the decision, and `isMatch_iff`, which says that it decides the meaning.
-/

namespace LogCodec.Pattern

/-- The byte string is made of one piece per symbol: any piece for a star, any one byte for `any`, and the byte itself
for a literal. -/
def Matches : Pattern → Bytes → Prop
  | [], text => text = []
  | .star :: p, text => ∃ taken rest, text = taken ++ rest ∧ Matches p rest
  | .any :: p, text => ∃ b rest, text = b :: rest ∧ Matches p rest
  | .literal b :: p, text => ∃ rest, text = b :: rest ∧ Matches p rest

/-! ## Runs without stars -/

/-- The symbols have no star among them. -/
def StarFree (run : Pattern) : Prop := .star ∉ run

/-- The byte can stand under the symbol. -/
def accepts (b : UInt8) : Symbol → Bool
  | .literal c => b == c
  | _ => true

/-- What is left of a text behind a run that stands at its front. -/
def dropRun : (run : Pattern) → Bytes → Option Bytes
  | [], text => some text
  | _ :: _, [] => none
  | s :: run, b :: text => if accepts b s then dropRun run text else none

/-- What is left of a text behind the first place where a run stands in it. -/
def seek (run : Pattern) : Bytes → Option Bytes
  | [] => dropRun run []
  | b :: text =>
    match dropRun run (b :: text) with
    | some rest => some rest
    | none => seek run text

/-- A run stands at the end of a text. -/
def endsWith (run : Pattern) (text : Bytes) : Bool := dropRun run (text.drop (text.length - run.length)) == some []

/-- The run before the first star of a pattern, and the runs that follow a star each. -/
def runs : Pattern → Pattern × List Pattern
  | [] => ([], [])
  | .star :: p => ([], (runs p).1 :: (runs p).2)
  | s :: p => (s :: (runs p).1, (runs p).2)

/-- Decides whether a text matches some runs with a star before each. -/
def matchRuns : List Pattern → Bytes → Bool
  | [], text => text.isEmpty
  | [run], text => endsWith run text
  | run :: more :: later, text =>
    match seek run text with
    | some rest => matchRuns (more :: later) rest
    | none => false

/-- Decides whether the pattern matches the whole text. -/
def isMatch (p : Pattern) (text : Bytes) : Bool :=
  let (first, later) := runs p
  match dropRun first text with
  | some rest => matchRuns later rest
  | none => false

/-! ## The decision agrees with the meaning -/

theorem matches_star_cons_iff {p : Pattern} {b : UInt8} {text : Bytes} :
    Matches (.star :: p) (b :: text) ↔ Matches p (b :: text) ∨ Matches (.star :: p) text := by
  constructor
  · rintro ⟨taken, rest, htext, h⟩
    cases taken with
    | nil => exact .inl (by rw [List.nil_append] at htext; rwa [htext])
    | cons c taken =>
      rw [List.cons_append, List.cons.injEq] at htext
      exact .inr ⟨taken, rest, htext.2, h⟩
  · rintro (h | ⟨taken, rest, rfl, h⟩)
    · exact ⟨[], b :: text, rfl, h⟩
    · exact ⟨b :: taken, rest, rfl, h⟩

theorem matches_star_of_suffix {p : Pattern} {rest text : Bytes} (hsuffix : rest <:+ text)
    (h : Matches (.star :: p) rest) : Matches (.star :: p) text := by
  obtain ⟨front, rfl⟩ := hsuffix
  obtain ⟨taken, behind, rfl, h⟩ := h
  exact ⟨front ++ taken, behind, (List.append_assoc ..).symm, h⟩

/-- A run at the front of a text is matched in one way only. -/
theorem matches_append_iff {run p : Pattern} (hrun : StarFree run) {text : Bytes} :
    Matches (run ++ p) text ↔ ∃ rest, dropRun run text = some rest ∧ Matches p rest := by
  induction run generalizing text with
  | nil => simp [dropRun]
  | cons s run ih =>
    have hs : s ≠ .star := fun h => hrun (by simp [h])
    have ih := @ih (fun h => hrun (List.mem_cons_of_mem _ h))
    cases text with
    | nil => cases s <;> simp_all [Matches, dropRun]
    | cons b text =>
      cases s with
      | star => exact absurd rfl hs
      | any =>
        simp only [List.cons_append, Matches, dropRun, accepts, if_true]
        constructor
        · rintro ⟨_, _, h, hmatches⟩
          cases h
          exact ih.mp hmatches
        · intro h
          exact ⟨b, text, rfl, ih.mpr h⟩
      | literal c =>
        simp only [List.cons_append, Matches, dropRun, accepts, List.cons.injEq, beq_iff_eq]
        constructor
        · rintro ⟨_, ⟨rfl, rfl⟩, h⟩
          simpa using ih.mp h
        · rintro ⟨rest, hdrop, h⟩
          split at hdrop
          · next hb => exact ⟨text, ⟨hb, rfl⟩, ih.mpr ⟨rest, hdrop, h⟩⟩
          · cases hdrop

theorem dropRun_eq {run : Pattern} {text rest : Bytes} (h : dropRun run text = some rest) :
    run.length ≤ text.length ∧ rest = text.drop run.length := by
  induction run generalizing text with
  | nil => cases h; simp
  | cons s run ih =>
    cases text with
    | nil => cases h
    | cons b text =>
      rw [dropRun] at h
      split at h
      · simpa using ih h
      · cases h

theorem seek_suffix {run : Pattern} {text rest : Bytes} (h : seek run text = some rest) :
    rest <:+ text.drop run.length := by
  induction text with
  | nil =>
    rw [seek] at h
    obtain ⟨_, rfl⟩ := dropRun_eq h
    exact List.suffix_refl _
  | cons b text ih =>
    rw [seek] at h
    split at h
    · next hdrop =>
      cases h
      obtain ⟨_, rfl⟩ := dropRun_eq hdrop
      exact List.suffix_refl _
    · refine (ih h).trans ?_
      have hdrop : text.drop run.length = ((b :: text).drop run.length).drop 1 := by simp
      rw [hdrop]
      exact List.drop_suffix _ _

/-- To take the first place where a run stands between two stars loses nothing. -/
theorem matches_star_append_star_iff {run p : Pattern} (hrun : StarFree run) {text : Bytes} :
    Matches (.star :: (run ++ .star :: p)) text ↔
      ∃ rest, seek run text = some rest ∧ Matches (.star :: p) rest := by
  induction text with
  | nil =>
    rw [seek, ← matches_append_iff hrun]
    constructor
    · rintro ⟨taken, rest, htext, h⟩
      rw [List.append_eq_nil_iff.mp htext.symm |>.2] at h
      exact h
    · intro h
      exact ⟨[], [], rfl, h⟩
  | cons b text ih =>
    rw [matches_star_cons_iff, matches_append_iff hrun, ih, seek]
    split
    · next front hfront =>
      simp only [hfront, Option.some.injEq, exists_eq_left']
      refine ⟨?_, .inl⟩
      rintro (h | ⟨rest, hseek, h⟩)
      · exact h
      · refine matches_star_of_suffix ((seek_suffix hseek).trans ?_) h
        rw [(dropRun_eq hfront).2]
        have hdrop : text.drop run.length = ((b :: text).drop run.length).drop 1 := by simp
        rw [hdrop]
        exact List.drop_suffix _ _
    · next hfront => simp [hfront]

/-- The last run stands at the end of the text. -/
theorem matches_star_run_iff {run : Pattern} (hrun : StarFree run) {text : Bytes} :
    Matches (.star :: run) text ↔ endsWith run text = true := by
  have hmatches : ∀ rest, Matches run rest ↔ dropRun run rest = some [] := by
    intro rest
    have h := @matches_append_iff run [] hrun rest
    rw [List.append_nil] at h
    rw [h]
    simp [Matches]
  rw [endsWith, beq_iff_eq]
  constructor
  · rintro ⟨taken, rest, rfl, h⟩
    have hdrop := (hmatches rest).mp h
    obtain ⟨hle, hnil⟩ := dropRun_eq hdrop
    have hlength : rest.length = run.length := by
      have := congrArg List.length hnil
      simp only [List.length_nil, List.length_drop] at this
      omega
    have htaken : (taken ++ rest).length - run.length = taken.length := by
      rw [List.length_append]
      omega
    rwa [htaken, List.drop_left]
  · intro h
    exact ⟨text.take (text.length - run.length), _, (List.take_append_drop ..).symm, (hmatches _).mpr h⟩

theorem starFree_runs (p : Pattern) : StarFree (runs p).1 ∧ ∀ run ∈ (runs p).2, StarFree run := by
  induction p with
  | nil => simp [runs, StarFree]
  | cons s p ih =>
    obtain ⟨hfirst, hlater⟩ := ih
    cases s with
    | star => exact ⟨by simp [runs, StarFree], by simpa [runs] using ⟨hfirst, hlater⟩⟩
    | any => exact ⟨by simpa [runs, StarFree] using hfirst, by simpa [runs] using hlater⟩
    | literal c => exact ⟨by simpa [runs, StarFree] using hfirst, by simpa [runs] using hlater⟩

/-- A pattern is its runs with stars between them. -/
theorem eq_runs (p : Pattern) : p = (runs p).1 ++ (runs p).2.flatMap (.star :: ·) := by
  induction p with
  | nil => rfl
  | cons s p ih => cases s <;> simpa [runs] using ih

theorem matchRuns_iff {later : List Pattern} (h : ∀ run ∈ later, StarFree run) {text : Bytes} :
    matchRuns later text = true ↔ Matches (later.flatMap (.star :: ·)) text := by
  induction later generalizing text with
  | nil => simp [matchRuns, Matches]
  | cons run later ih =>
    have hrun := h run List.mem_cons_self
    have ih := @ih fun r hr => h r (List.mem_cons_of_mem _ hr)
    cases later with
    | nil => simpa [matchRuns] using (matches_star_run_iff hrun).symm
    | cons more later =>
      have hseek := @matches_star_append_star_iff run (more ++ later.flatMap (.star :: ·)) hrun text
      simp only [List.flatMap_cons, List.cons_append] at ih hseek ⊢
      rw [hseek, matchRuns]
      split
      · next rest hrest => simp [hrest, ih]
      · next hrest => simp [hrest]

/-- The decision agrees with the meaning. -/
theorem isMatch_iff (p : Pattern) (text : Bytes) : isMatch p text = true ↔ Matches p text := by
  obtain ⟨hfirst, hlater⟩ := starFree_runs p
  have hp := @matches_append_iff (runs p).1 ((runs p).2.flatMap (.star :: ·)) hfirst text
  rw [← eq_runs] at hp
  rw [hp, isMatch]
  simp only
  split
  · next rest hrest => simp [hrest, matchRuns_iff hlater]
  · next hrest => simp [hrest]

end LogCodec.Pattern
