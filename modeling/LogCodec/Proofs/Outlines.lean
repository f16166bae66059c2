import LogCodec.Proofs.Fields
import LogCodec.Proofs.PackedText

/-!
# `LogCodec.Proofs.Outlines`: what is known of a query token holds of the tokens that it matches

A query token with wildcards is classified before any message is seen.  It is let through as a number unless its
literals rule that out, and it is said to be a variable in any case only on the strength of its literals and of the
byte before it.  Both have to be safe: whatever token the symbols match, a packed number is let through, and what is
said to be a variable is one.

## Contents
- **Numbers.** `couldBeNumber_of_matches`, from the literals of a token to a pattern that matches it, and
  `couldBeNumber_of_pack`.
- **Variables.** `Schema.Sound`, with `standard_sound` and `ofSets_sound`.
-/

namespace LogCodec

namespace Query

/-! ## Numbers -/

section

variable {kind : NumberKind} {starsOnly pointSeen : Bool} {p : Pattern}

/-- A minus sign may come while there are only stars, and a point as long as none was seen. -/
theorem couldBeNumber_mono {starsOnly' pointSeen' : Bool} (hstars : starsOnly = true → starsOnly' = true)
    (hpoint : pointSeen' = true → pointSeen = true) (h : couldBeNumber kind starsOnly pointSeen p = true) :
    couldBeNumber kind starsOnly' pointSeen' p = true := by
  induction p generalizing starsOnly pointSeen starsOnly' pointSeen' with
  | nil => rfl
  | cons s p ih =>
    cases s with
    | star => exact ih hstars hpoint h
    | any => exact ih id hpoint h
    | literal b =>
      rw [couldBeNumber] at h ⊢
      split at h
      · next hb =>
        have hb' : (Bytes.isDigit b || (b == Bytes.ofChar '-' && starsOnly')) = true := by
          rw [Bool.or_eq_true, Bool.and_eq_true] at hb ⊢
          exact hb.imp_right fun hminus => ⟨hminus.1, hstars hminus.2⟩
        rw [if_pos hb']
        exact ih id hpoint h
      · split at h
        · next hdot =>
          simp only [Bool.and_eq_true, beq_iff_eq, Bool.not_eq_true'] at hdot
          obtain ⟨⟨rfl, rfl⟩, hseen⟩ := hdot
          have hseen' : pointSeen' = false := by
            cases hp : pointSeen' with
            | false => rfl
            | true => rw [hpoint hp] at hseen; cases hseen
          rw [hseen']
          have hnone : (Bytes.isDigit (Bytes.ofChar '.') ||
              (Bytes.ofChar '.' == Bytes.ofChar '-' && starsOnly')) = false := rfl
          rw [hnone]
          exact ih id (fun hp => hp) h
        · cases h

/-- What comes behind a literal could be the rest of a number. -/
theorem couldBeNumber_tail {b : UInt8} (h : couldBeNumber kind starsOnly pointSeen (.literal b :: p) = true) :
    couldBeNumber kind false pointSeen p = true := by
  rw [couldBeNumber] at h
  split at h
  · exact h
  · split at h
    · exact couldBeNumber_mono id (fun _ => rfl) h
    · cases h

/-- What comes behind some literals could be the rest of a number, or all of one. -/
theorem couldBeNumber_drop {taken : Bytes}
    (h : couldBeNumber kind starsOnly pointSeen (taken.map .literal ++ p) = true) :
    couldBeNumber kind starsOnly pointSeen p = true := by
  induction taken with
  | nil => exact h
  | cons b taken ih =>
    have hnext := couldBeNumber_tail h
    apply ih
    exact couldBeNumber_mono (fun hfalse => absurd hfalse Bool.false_ne_true) id hnext

/-- A pattern could be a number if a token that it matches could be one. -/
theorem couldBeNumber_of_matches {token : Bytes} (hmatches : Pattern.Matches p token)
    (h : couldBeNumber kind starsOnly pointSeen (token.map .literal) = true) :
    couldBeNumber kind starsOnly pointSeen p = true := by
  induction p generalizing token starsOnly pointSeen with
  | nil => rfl
  | cons s p ih =>
    cases s with
    | star =>
      obtain ⟨taken, rest, rfl, hrest⟩ := hmatches
      rw [List.map_append] at h
      exact ih hrest (couldBeNumber_drop h)
    | any =>
      obtain ⟨b, rest, rfl, hrest⟩ := hmatches
      exact ih hrest (couldBeNumber_tail h)
    | literal b =>
      obtain ⟨rest, rfl, hrest⟩ := hmatches
      rw [List.map_cons, couldBeNumber] at h
      rw [couldBeNumber]
      split at h
      · next hb =>
        rw [if_pos hb]
        exact ih hrest h
      · next hb =>
        rw [if_neg hb]
        split at h
        · next hdot =>
          rw [if_pos hdot]
          exact ih hrest h
        · cases h

/-- Digits in front change nothing but that no minus sign may follow. -/
theorem couldBeNumber_digits {digits : Bytes} (hdigits : digits.all Bytes.isDigit = true)
    (h : couldBeNumber kind false pointSeen p = true) :
    couldBeNumber kind starsOnly pointSeen (digits.map .literal ++ p) = true := by
  induction digits generalizing starsOnly with
  | nil => exact couldBeNumber_mono (fun hfalse => absurd hfalse Bool.false_ne_true) id h
  | cons b digits ih =>
    rw [List.all_cons, Bool.and_eq_true] at hdigits
    rw [List.map_cons, List.cons_append, couldBeNumber, hdigits.1, Bool.true_or, if_pos rfl]
    exact ih hdigits.2

theorem couldBeNumber_digits_only {digits : Bytes} (hdigits : digits.all Bytes.isDigit = true) :
    couldBeNumber kind starsOnly pointSeen (digits.map .literal) = true := by
  have h : couldBeNumber kind starsOnly pointSeen (digits.map .literal ++ []) = true :=
    couldBeNumber_digits hdigits rfl
  rwa [List.append_nil] at h

/-- A minus sign may come first. -/
theorem couldBeNumber_sign {negative : Bool} (h : couldBeNumber kind false pointSeen p = true) :
    couldBeNumber kind true pointSeen ((Bytes.sign negative).map .literal ++ p) = true := by
  cases negative with
  | false => exact couldBeNumber_mono (fun hfalse => absurd hfalse Bool.false_ne_true) id h
  | true => exact h

end

/-- **A token that is packed could be a number** of the kind it is packed as. -/
theorem couldBeNumber_of_pack {width : Width} {token : Bytes} {kind : NumberKind} {word : Int64}
    (h : width.pack token = some (kind, word)) : couldBeNumber kind true false (token.map .literal) = true := by
  have htoken := Bytes.sign_append_splitSign token
  unfold Width.pack at h
  split at h
  · next value hvalue =>
    cases h
    obtain ⟨d, hd, -, -⟩ := Width.packDecimal_eq_some_iff.mp hvalue
    unfold Decimal.ofToken? at hd
    generalize Bytes.splitSign token = parts at hd htoken
    obtain ⟨negative, body⟩ := parts
    simp only at hd htoken
    have hbody := List.takeWhile_append_dropWhile (p := Bytes.isDigit) (l := body)
    have hwhole : (body.takeWhile Bytes.isDigit).all Bytes.isDigit = true := List.all_takeWhile
    split at hd
    · cases hd
    · next point fraction hrest =>
      split at hd
      · next hpoint =>
        obtain ⟨rfl, -, hfraction⟩ := hpoint
        have hbehind : couldBeNumber .float false true (fraction.map .literal) = true :=
          couldBeNumber_digits_only hfraction
        rw [← htoken, List.map_append, ← hbody, hrest, List.map_append, List.map_cons]
        exact couldBeNumber_sign (couldBeNumber_digits hwhole hbehind)
      · cases hd
  · cases hvalue : width.packInteger token with
    | none => simp [hvalue] at h
    | some value =>
      rw [hvalue] at h
      cases h
      obtain ⟨number, hnumber, -, -⟩ := Width.packInteger_eq_some_iff.mp hvalue
      unfold Bytes.toInt? at hnumber
      generalize Bytes.splitSign token = parts at hnumber htoken
      obtain ⟨negative, body⟩ := parts
      simp only at hnumber htoken
      split at hnumber
      · cases hnumber
      · next hdigits =>
        simp only [not_or, Decidable.not_not] at hdigits
        rw [← htoken, List.map_append]
        exact couldBeNumber_sign (couldBeNumber_digits_only hdigits.2)

end Query

/-! ## Variables -/

namespace Pattern

/-- The literals of a pattern stand in every text that it matches, in order. -/
theorem literals_sublist {p : Pattern} {text : Bytes} (h : Matches p text) : p.literals.Sublist text := by
  induction p generalizing text with
  | nil => exact List.nil_sublist text
  | cons s p ih =>
    cases s with
    | star =>
      obtain ⟨taken, rest, rfl, hrest⟩ := h
      exact (ih hrest).trans (List.sublist_append_right taken rest)
    | any =>
      obtain ⟨b, rest, rfl, hrest⟩ := h
      exact (ih hrest).trans (List.sublist_cons_self b rest)
    | literal b =>
      obtain ⟨rest, rfl, hrest⟩ := h
      exact (ih hrest).cons_cons b

/-- The literals before the first wildcard of a pattern stand at the front of every text that it matches. -/
theorem leading_prefix {p : Pattern} {text : Bytes} (h : Matches p text) : p.leading <+: text := by
  induction p generalizing text with
  | nil => exact List.nil_prefix
  | cons s p ih =>
    cases s with
    | star => exact List.nil_prefix
    | any => exact List.nil_prefix
    | literal b =>
      obtain ⟨rest, rfl, hrest⟩ := h
      exact List.cons_prefix_cons.mpr ⟨rfl, ih hrest⟩

theorem startsWithStar_of_leading {p : Pattern} (h : p.leading ≠ []) : p.startsWithStar = false := by
  cases p with
  | nil => rfl
  | cons s p =>
    cases s with
    | star => exact absurd rfl h
    | any => rfl
    | literal b => rfl

end Pattern

namespace Schema

/-- The rules of a schema fit together: a token is known by its bytes and the byte before it, and what they say of an
outline holds of every token that the outline fits.  The byte before the token is the known one unless a star comes
first, which may stand for that byte as well. -/
structure Sound (schema : Schema) : Prop where
  isLocal : schema.IsLocal
  isVariable_of_isDefinite : ∀ {symbols : Pattern} {token : Bytes} {known before : Option UInt8},
    Pattern.Matches symbols token → (symbols.startsWithStar = false → ∀ b, known = some b → before = some b) →
      schema.isDefinite ⟨symbols.literals, symbols.leading, known⟩ = true →
        Query.isVariableAfter schema before token = true

theorem any_of_sublist {f : UInt8 → Bool} {part whole : Bytes} (hsublist : part.Sublist whole)
    (h : part.any f = true) : whole.any f = true := by
  obtain ⟨b, hb, hf⟩ := List.any_eq_true.mp h
  exact List.any_eq_true.mpr ⟨b, hsublist.subset hb, hf⟩

/-- **The rules of version 2 are sound.** -/
theorem standard_sound : standard.Sound where
  isLocal := standard_isLocal
  isVariable_of_isDefinite := by
    intro symbols token known before hmatches hbefore hdefinite
    simp only [Query.isVariableAfter, standard, isStandardVariable, isStandardDefinite, bytes_between,
      before?_between, Bool.or_eq_true, Bool.and_eq_true, beq_iff_eq] at hdefinite ⊢
    rcases hdefinite with hdigit | ⟨hknown, hletter⟩
    · exact .inl (.inl (any_of_sublist (Pattern.literals_sublist hmatches) hdigit))
    · have hleading : symbols.leading ≠ [] := by
        intro hnil
        rw [hnil] at hletter
        cases hletter
      refine .inl (.inr ⟨hbefore (Pattern.startsWithStar_of_leading hleading) _ hknown, ?_⟩)
      exact any_of_sublist (Pattern.leading_prefix hmatches).sublist hletter

/-- Rules given by sets of bytes are sound. -/
theorem ofSets_sound (delimiters marks leaders : Bytes) : (ofSets delimiters marks leaders).Sound where
  isLocal := ofSets_isLocal delimiters marks leaders
  isVariable_of_isDefinite := by
    intro symbols token known before hmatches hbefore hdefinite
    simp only [Query.isVariableAfter, ofSets, bytes_between, before?_between, Bool.or_eq_true, Bool.and_eq_true,
      Bool.not_eq_true', List.isEmpty_eq_false_iff] at hdefinite ⊢
    rcases hdefinite with hmark | ⟨hleader, hleading⟩
    · exact .inl (any_of_sublist (Pattern.literals_sublist hmatches) hmark)
    · right
      cases known with
      | none => cases hleader
      | some b =>
        rw [hbefore (Pattern.startsWithStar_of_leading hleading) b rfl]
        exact hleader

end Schema

end LogCodec
