import LogCodec.Bytes.EscapePairs
import LogCodec.Proofs.ExactQuery
import Mathlib.Data.List.Chain

/-!
# `LogCodec.Proofs.NormalForm`: what the normal form of a query is like

Escapes and stars get in each other's way in a byte string: a byte that is left out may make its neighbours a pair, or
two stars neighbours.  Among the symbols of a query nothing of this kind can happen, so the laws are proved for them:
collapsing leaves no two stars together, and collapsing again changes nothing.  What is left to show is that a spelling
has no more stars and no more escapes than its symbols ask for, which the places that are not escaped decide.

## Contents
- **Symbols.** `StarsApart`, with `starsApart_collapse` and `collapse_of_starsApart`.
- **Spelling.** What a spelled pattern has behind an escape, at its end and between two stars.
- **Queries.** `dropDangling_eq`; `normalizeFrom_eq`, which goes along the pairs of a query; and
  `normalize_isNormalForm`, the result.
-/

namespace LogCodec

open Bytes

/-! ## Symbols -/

/-- No star stands directly behind another one. -/
def Pattern.StarsApart (p : Pattern) : Prop := p.IsChain fun s t => s = .star → t ≠ .star

namespace Pattern

theorem starsApart_cons_iff {s : Symbol} {p : Pattern} :
    StarsApart (s :: p) ↔ (s = .star → p.head? ≠ some .star) ∧ StarsApart p := by
  unfold StarsApart
  rw [List.isChain_cons]
  constructor
  · rintro ⟨hs, hp⟩
    refine ⟨?_, hp⟩
    intro hstar hhead
    exact hs .star hhead hstar rfl
  · rintro ⟨hs, hp⟩
    refine ⟨?_, hp⟩
    rintro t ht hstar rfl
    exact hs hstar ht

theorem collapse_star_star (p : Pattern) : collapse (.star :: .star :: p) = collapse (.star :: p) := by
  rw [collapse]

/-- A symbol is kept unless it is a star with a star behind it. -/
theorem collapse_cons_of_apart {s : Symbol} {p : Pattern} (h : s = .star → p.head? ≠ some .star) :
    collapse (s :: p) = s :: collapse p := by
  rw [collapse]
  rintro q hstar rfl
  exact h hstar rfl

theorem head?_collapse (p : Pattern) : (collapse p).head? = p.head? := by
  fun_induction collapse p with
  | case1 p ih => rw [ih, List.head?_cons, List.head?_cons]
  | case2 s p _ _ => rfl
  | case3 => rfl

theorem starsApart_collapse (p : Pattern) : StarsApart (collapse p) := by
  fun_induction collapse p with
  | case1 p ih => exact ih
  | case2 s p hapart ih =>
    rw [starsApart_cons_iff, head?_collapse]
    refine ⟨?_, ih⟩
    intro hstar hhead
    obtain ⟨q, rfl⟩ := List.head?_eq_some_iff.mp hhead
    exact hapart q hstar rfl
  | case3 => exact List.isChain_nil

/-- Where no two stars stand together there is nothing to collapse. -/
theorem collapse_of_starsApart {p : Pattern} (h : StarsApart p) : collapse p = p := by
  induction p with
  | nil => rfl
  | cons s p ih =>
    obtain ⟨hs, hp⟩ := starsApart_cons_iff.mp h
    rw [collapse_cons_of_apart hs, ih hp]

end Pattern

/-! ## Spelling -/

namespace Pattern

/-- Every escape of a spelled pattern is needed. -/
theorem escapesOnly_spell (p : Pattern) : EscapesOnly Symbol.isReserved (spell p) := by
  induction p with
  | nil => exact escapesOnly_nil
  | cons s p ih =>
    rw [spell_cons]
    rcases s.spell_cases with ⟨b, hb, -, hs⟩ | ⟨b, hb, -, hs⟩
    · rw [hs]
      exact (escapesOnly_single_iff hb (spell p)).mpr ih
    · rw [hs]
      exact (escapesOnly_pair_iff b (spell p)).mpr ⟨hb, ih⟩

theorem not_endsInEscape_spell (p : Pattern) : ¬ EndsInEscape (spell p) := by
  induction p with
  | nil => exact not_endsInEscape_nil
  | cons s p ih =>
    rw [spell_cons]
    rcases s.spell_cases with ⟨b, hb, -, hs⟩ | ⟨b, -, -, hs⟩
    · rw [hs]
      exact (endsInEscape_single_iff hb (spell p)).not.mpr ih
    · rw [hs]
      exact (endsInEscape_pair_iff b (spell p)).not.mpr ih

/-- A spelled pattern starts with the star byte only if it starts with a star. -/
theorem head?_of_spell_eq {p : Pattern} {rest : Bytes} (h : spell p = starByte :: rest) : p.head? = some .star := by
  cases p with
  | nil => cases h
  | cons s p =>
    rw [spell_cons] at h
    rcases s.spell_cases with ⟨b, -, rfl, hs⟩ | ⟨b, -, rfl, hs⟩
    · rw [hs, List.singleton_append, List.cons.injEq] at h
      rw [h.1]
      rfl
    · rw [hs, List.cons_append, List.cons.injEq] at h
      exact absurd h.1 (by decide)

/-- Where two star bytes stand together in the spelling of stars that stand apart, the first is escaped. -/
theorem StarsApart.endsInEscape {p : Pattern} (hp : StarsApart p) {front back : Bytes}
    (h : spell p = front ++ starByte :: starByte :: back) : EndsInEscape front := by
  by_contra hfront
  induction p generalizing front with
  | nil => simp at h
  | cons s p ih =>
    obtain ⟨hapart, hrestApart⟩ := starsApart_cons_iff.mp hp
    rw [spell_cons] at h
    rcases s.spell_cases with ⟨b, hb, rfl, hs⟩ | ⟨b, -, -, hs⟩
    · rw [hs, List.singleton_append] at h
      rcases place_in_single hb h hfront with ⟨-, hstar, hback⟩ | ⟨front', -, hrest, hfront'⟩
      · -- The first star byte spells a star, and then the second one would do so too.
        rw [← hstar] at hapart
        exact hapart rfl (head?_of_spell_eq hback.symm)
      · exact ih hrestApart hrest hfront'
    · rw [hs, List.cons_append, List.singleton_append] at h
      rcases place_in_pair h hfront with ⟨-, hstar, -⟩ | ⟨front', -, hrest, hfront'⟩
      · exact absurd hstar (by decide)
      · exact ih hrestApart hrest hfront'

/-! ## Queries -/

theorem dropLast_cons_of_endsInEscape (b : UInt8) {rest : Bytes} (h : EndsInEscape rest) :
    (b :: rest).dropLast = b :: rest.dropLast := by
  have hne : rest ≠ [] := by
    rintro rfl
    exact not_endsInEscape_nil h
  exact List.dropLast_cons_of_ne_nil hne

/-- What is dropped at the end of a query is its last byte, if that is an escape byte that escapes nothing. -/
theorem dropDangling_eq (query : Bytes) :
    dropDangling query = if EndsInEscape query then query.dropLast else query := by
  induction query using Bytes.escape_induction with
  | nil => rfl
  | lone => rfl
  | pair b rest ih =>
    rw [dropDangling_pair, ih]
    simp only [endsInEscape_pair_iff]
    by_cases hrest : EndsInEscape rest
    · rw [if_pos hrest, if_pos hrest, List.dropLast_cons_cons, dropLast_cons_of_endsInEscape b hrest]
    · rw [if_neg hrest, if_neg hrest]
  | single b rest hb ih =>
    rw [dropDangling_cons_of_ne_escape hb, ih]
    simp only [endsInEscape_single_iff hb]
    by_cases hrest : EndsInEscape rest
    · rw [if_pos hrest, if_pos hrest, dropLast_cons_of_endsInEscape b hrest]
    · rw [if_neg hrest, if_neg hrest]

theorem collapse_ofQuery (query : Bytes) : collapse (ofQuery query) = ofQuery query :=
  collapse_of_starsApart (starsApart_collapse _)

/-- A pattern in which no two stars stand together is read back from its spelling. -/
theorem ofQuery_spell_of_apart {p : Pattern} (h : StarsApart p) : ofQuery p.spell = p := by
  rw [ofQuery, dropDangling_spell, ofBytes_spell, collapse_of_starsApart h]

end Pattern

namespace Wildcard

open Pattern

/-- The normal form of a query has the symbols of the query in normal form. -/
theorem ofQuery_normalize (query : Bytes) : ofQuery (normalize query) = ofQuery query := by
  rw [ofQuery, normalize, dropDangling_spell, ofBytes_spell, collapse_ofQuery]

theorem normalizeFrom_star (afterStar : Bool) (rest : Bytes) :
    normalizeFrom afterStar (starByte :: rest) =
      if afterStar then normalizeFrom true rest else starByte :: normalizeFrom true rest := by
  rw [normalizeFrom.eq_def]
  simp

theorem normalizeFrom_pair (afterStar : Bool) (b : UInt8) (rest : Bytes) :
    normalizeFrom afterStar (escapeByte :: b :: rest) = (Symbol.literal b).spell ++ normalizeFrom false rest := by
  rw [normalizeFrom, if_neg (by decide), if_pos rfl, Symbol.spell]
  by_cases hb : Symbol.isReserved b = true <;> simp [hb]

theorem normalizeFrom_single (afterStar : Bool) {b : UInt8} (hstar : b ≠ starByte) (hb : b ≠ escapeByte)
    (rest : Bytes) : normalizeFrom afterStar (b :: rest) = b :: normalizeFrom false rest := by
  rw [normalizeFrom.eq_def]
  simp [hstar, hb]

theorem ofByte_ne_star {b : UInt8} (hb : b ≠ starByte) : Symbol.ofByte b ≠ .star := by
  unfold Symbol.ofByte
  by_cases hany : b = anyByte
  · rw [if_neg hb, if_pos hany]
    simp
  · rw [if_neg hb, if_neg hany]
    simp

/-- A symbol that is no star is written in front of what follows it, behind a star and elsewhere. -/
theorem spell_collapse_cons {s : Symbol} (hs : s ≠ .star) (p : Pattern) :
    spell (collapse (s :: p)) = s.spell ++ spell (collapse p) ∧
      spell (collapse (.star :: s :: p)) = starByte :: (s.spell ++ spell (collapse p)) := by
  have hapart : collapse (s :: p) = s :: collapse p := collapse_cons_of_apart fun h => absurd h hs
  constructor
  · rw [hapart, spell_cons]
  · rw [collapse_cons_of_apart (by simp [hs]), hapart, spell_cons, spell_cons]
    rfl

/-- **Byte by byte, the normal form is the same**, behind a star and elsewhere.  The induction is along the pairs of the
query, because an escape takes two bytes at once. -/
theorem normalizeFrom_eq (query : Bytes) :
    normalizeFrom false query = spell (collapse (ofBytes (dropDangling query))) ∧
      starByte :: normalizeFrom true query = spell (collapse (.star :: ofBytes (dropDangling query))) := by
  induction query using Bytes.escape_induction with
  | nil => exact ⟨rfl, rfl⟩
  | lone => exact ⟨rfl, rfl⟩
  | pair b rest ih =>
    obtain ⟨hfirst, hbehind⟩ := @spell_collapse_cons (.literal b) (by simp) (ofBytes (dropDangling rest))
    rw [dropDangling_pair, ofBytes_escape, normalizeFrom_pair, normalizeFrom_pair, ih.1, hfirst, hbehind]
    exact ⟨rfl, rfl⟩
  | single b rest hb ih =>
    rw [dropDangling_cons_of_ne_escape hb, ofBytes_cons_of_ne_escape hb]
    by_cases hstar : b = starByte
    · -- The star that is written here or the one before it: both are read off the second half of the hypothesis.
      rw [hstar, normalizeFrom_star, normalizeFrom_star, if_neg (by decide), if_pos rfl, ih.2]
      exact ⟨rfl, congrArg spell (collapse_star_star _).symm⟩
    · obtain ⟨hfirst, hbehind⟩ := spell_collapse_cons (ofByte_ne_star hstar) (ofBytes (dropDangling rest))
      rw [normalizeFrom_single false hstar hb, normalizeFrom_single true hstar hb, ih.1, hfirst, hbehind,
        Symbol.spell_ofByte hb]
      exact ⟨rfl, rfl⟩

/-- **The normal form of a query means what the query means, and is normal.**  It matches the texts that the query
matches, without the escape byte at its end that escapes nothing.  No two stars stand together in it, its escapes stand
before bytes that need them, and it does not end in an escape that escapes nothing.  It is its own normal form, so it
is decomposed like the query; and to go along the bytes of the query gives the same. -/
theorem normalize_isNormalForm (query : Bytes) :
    (∀ text, isMatch (normalize query) text =
      isMatch (if EndsInEscape query then query.dropLast else query) text) ∧
    (∀ front back, normalize query = front ++ starByte :: starByte :: back → EndsInEscape front) ∧
    EscapesOnly Symbol.isReserved (normalize query) ∧
    ¬ EndsInEscape (normalize query) ∧
    normalize (normalize query) = normalize query ∧
    normalizeFrom false query = normalize query ∧
    ∀ schema width limit,
      Query.decompose schema width limit (normalize query) = Query.decompose schema width limit query := by
  refine ⟨?meaning, ?stars, escapesOnly_spell _, not_endsInEscape_spell _, ?again, (normalizeFrom_eq query).1,
    ?subqueries⟩
  case meaning =>
    intro text
    rw [Bool.eq_iff_iff, isMatch_normalize_iff, isMatch_iff, ofQuery, matches_collapse, dropDangling_eq]
  case stars =>
    intro front back h
    exact (starsApart_collapse _).endsInEscape h
  case again => rw [normalize, ofQuery_normalize, ← normalize]
  case subqueries =>
    intro schema width limit
    unfold Query.decompose
    rw [ofQuery_normalize]

/-- An escaped star and a star stand together; an escape that is not needed and one at the end are gone. -/
example : normalize [0x2A, 0x2A, 0x5C, 0x61, 0x5C, 0x2A, 0x2A, 0x2A, 0x5C, 0x5C, 0x5C] =
    [0x2A, 0x61, 0x5C, 0x2A, 0x2A, 0x5C, 0x5C] := by decide

end Wildcard

end LogCodec
