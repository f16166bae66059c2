import LogCodec.Proofs.PackedText

/-!
# `LogCodec.Proofs.TokenGrammar`: which tokens are packed

There is a grammar for integers and one for decimals.  A token is packed if it is in one of them and its number fits
the width: an integer if its value lies in the range, a decimal if its digits are few enough and stay below a bound
when they are read as one number.  Every decimal has a point and no integer has one, so it does not matter which of the
two is tried first.

## Contents
- **Integers.** `Bytes.SpellsInteger`, the grammar, and `Bytes.toInt?_eq_some_iff`.
- **Decimals.** `Decimal.Spells`, the grammar, and `Decimal.ofToken?_eq_some_iff`.
- **Packing.** `Width.exists_packInteger_iff` and `Width.exists_packDecimal_iff`, with the limits of a width, and
  `Width.packInteger_eq_none_of_packDecimal`.
-/

namespace LogCodec

namespace Bytes

/-! ## Integers -/

/-- The token spells an integer: `0`, or an optional minus sign and digits of which the first is not `0`. -/
inductive SpellsInteger : Bytes → Int → Prop where
  | zero : SpellsInteger [ofChar '0'] 0
  | number {first : UInt8} {rest : Bytes} (negative : Bool) (hfirst : isDigit first = true)
      (hzero : first ≠ ofChar '0') (hrest : rest.all isDigit = true) :
      SpellsInteger (sign negative ++ first :: rest)
        (if negative then -(decimalValue (first :: rest) : Int) else decimalValue (first :: rest))

theorem isDigit_ne {b : UInt8} (h : isDigit b = true) : b ≠ ofChar '-' ∧ b ≠ ofChar '.' := by
  constructor
  · rintro rfl
    exact absurd h (by decide)
  · rintro rfl
    exact absurd h (by decide)

/-- The sign of a token is split off, if what follows it does not look like a sign. -/
theorem splitSign_sign_append (negative : Bool) {b : UInt8} (rest : Bytes) (hb : b ≠ ofChar '-') :
    splitSign (sign negative ++ b :: rest) = (negative, b :: rest) := by
  cases negative with
  | false =>
    show splitSign (b :: rest) = _
    rw [splitSign, if_neg hb]
  | true =>
    show splitSign (ofChar '-' :: b :: rest) = _
    rw [splitSign, if_pos rfl]

/-- **The integers that are read are those of the grammar.** -/
theorem toInt?_eq_some_iff {token : Bytes} {value : Int} : toInt? token = some value ↔ SpellsInteger token value := by
  constructor
  · intro h
    have htoken := sign_append_splitSign token
    unfold toInt? at h
    generalize splitSign token = parts at h htoken
    obtain ⟨negative, body⟩ := parts
    simp only at h htoken
    split at h
    · cases h
    · next hdigits =>
      split at h
      · cases h
      · next hzero =>
        simp only [not_or, Decidable.not_not] at hdigits
        obtain ⟨hne, hall⟩ := hdigits
        obtain ⟨first, rest, rfl⟩ := List.exists_cons_of_ne_nil hne
        rw [List.all_cons, Bool.and_eq_true] at hall
        by_cases hfirst : first = ofChar '0'
        · -- A digit zero in front stands alone and without a sign.
          subst hfirst
          simp only [List.head?_cons, List.length_cons, true_and, not_or, Bool.not_eq_true] at hzero
          obtain ⟨rfl, hlength⟩ := hzero
          obtain rfl := List.length_eq_zero_iff.mp (show rest.length = 0 by omega)
          cases h
          rw [← htoken]
          exact .zero
        · have hspells := SpellsInteger.number negative hall.1 hfirst hall.2
          rw [htoken] at hspells
          cases negative with
          | false =>
            cases h
            exact hspells
          | true =>
            cases h
            exact hspells
  · intro h
    cases h with
    | zero => rfl
    | @number first rest negative hfirst hzero hrest =>
      have hsplit := splitSign_sign_append negative rest (isDigit_ne hfirst).1
      have hall : (first :: rest).all isDigit = true := by rw [List.all_cons, hfirst, hrest]; rfl
      unfold toInt?
      rw [hsplit]
      simp only [hall, List.head?_cons, Option.some.injEq, hzero, reduceCtorEq, not_true_eq_false, or_self, false_and,
        if_false]
      cases negative with
      | false => rfl
      | true => rfl

/-- An integer has no point. -/
theorem SpellsInteger.point_not_mem {token : Bytes} {value : Int} (h : SpellsInteger token value) :
    ofChar '.' ∉ token := by
  cases h with
  | zero => decide
  | @number first rest negative hfirst hzero hrest =>
    intro hmem
    rw [List.mem_append, List.mem_cons] at hmem
    rcases hmem with hsign | hpoint | hrestMem
    · cases negative with
      | false => cases hsign
      | true => exact absurd hsign (by decide)
    · exact (isDigit_ne hfirst).2 hpoint.symm
    · exact (isDigit_ne (List.all_eq_true.mp hrest _ hrestMem)).2 rfl

end Bytes

namespace Decimal

/-! ## Decimals -/

/-- The token spells a decimal: an optional minus sign, digits, a point and at least one more digit. -/
structure Spells (token : Bytes) (negative : Bool) (whole fraction : Bytes) : Prop where
  token_eq : token = Bytes.sign negative ++ (whole ++ Bytes.ofChar '.' :: fraction)
  whole_digits : whole.all Bytes.isDigit = true
  fraction_digits : fraction.all Bytes.isDigit = true
  fraction_ne_nil : fraction ≠ []

/-- What the text of a decimal shows, given its digits in front of the point and behind it. -/
def ofDigits (negative : Bool) (whole fraction : Bytes) : Decimal where
  negative := negative
  digits := Bytes.decimalValue (whole ++ fraction)
  count := whole.length + fraction.length
  places := fraction.length

section
variable {token whole fraction : Bytes} {negative : Bool} (h : Spells token negative whole fraction)
include h

theorem Spells.splitSign_eq : Bytes.splitSign token = (negative, whole ++ Bytes.ofChar '.' :: fraction) := by
  rw [h.token_eq]
  cases whole with
  | nil => exact Bytes.splitSign_sign_append negative fraction (by decide)
  | cons first rest =>
    have hfirst := List.all_eq_true.mp h.whole_digits first List.mem_cons_self
    exact Bytes.splitSign_sign_append negative _ (Bytes.isDigit_ne hfirst).1

theorem Spells.digits : (whole ++ fraction).all Bytes.isDigit = true := by
  rw [List.all_append, h.whole_digits, h.fraction_digits]
  rfl

theorem Spells.point_mem : Bytes.ofChar '.' ∈ token := by
  rw [h.token_eq]
  exact List.mem_append_right _ (List.mem_append_right _ List.mem_cons_self)

/-- A token that spells a decimal is read. -/
theorem Spells.ofToken?_eq : ofToken? token = some (ofDigits negative whole fraction) := by
  have hwhole := List.all_eq_true.mp h.whole_digits
  have hpoint : Bytes.isDigit (Bytes.ofChar '.') = false := by decide
  have htake : (whole ++ Bytes.ofChar '.' :: fraction).takeWhile Bytes.isDigit = whole := by
    rw [List.takeWhile_append_of_pos hwhole, List.takeWhile_cons_of_neg (by simp [hpoint]), List.append_nil]
  have hdrop : (whole ++ Bytes.ofChar '.' :: fraction).dropWhile Bytes.isDigit = Bytes.ofChar '.' :: fraction := by
    rw [List.dropWhile_append_of_pos hwhole, List.dropWhile_cons_of_neg (by simp [hpoint])]
  unfold ofToken?
  rw [h.splitSign_eq]
  simp only [htake, hdrop]
  exact if_pos ⟨trivial, h.fraction_ne_nil, h.fraction_digits⟩

end

/-- **The decimals that are read are those of the grammar.** -/
theorem ofToken?_eq_some_iff {token : Bytes} {d : Decimal} :
    ofToken? token = some d ↔
      ∃ negative whole fraction, Spells token negative whole fraction ∧ d = ofDigits negative whole fraction := by
  constructor
  · intro h
    have htoken := Bytes.sign_append_splitSign token
    unfold ofToken? at h
    generalize Bytes.splitSign token = parts at h htoken
    obtain ⟨negative, body⟩ := parts
    simp only at h htoken
    have hbody := List.takeWhile_append_dropWhile (p := Bytes.isDigit) (l := body)
    split at h
    · cases h
    · next point fraction hrest =>
      split at h
      · next hpoint =>
        obtain ⟨rfl, hne, hfraction⟩ := hpoint
        cases h
        rw [hrest] at hbody
        exact ⟨negative, _, fraction, ⟨by rw [hbody, htoken], List.all_takeWhile, hfraction, hne⟩, rfl⟩
      · cases h
  · rintro ⟨negative, whole, fraction, h, rfl⟩
    exact h.ofToken?_eq

end Decimal

namespace Width

/-! ## Packing -/

/-- The most digits of a packed decimal, and the bound for its digits read as one number. -/
def decimalLimits : Width → Nat × Nat
  | eight => (16, 18014398509481984)
  | four => (8, 33554432)

theorem decimalLimits_eq (width : Width) :
    width.decimalLimits = (width.layout.maxDigits, Nat.pow 2 width.layout.digitBits) := by
  cases width with
  | eight => rfl
  | four => rfl

/-- A token is packed as a decimal exactly if it spells one within the limits of the width. -/
theorem exists_packDecimal_iff {width : Width} {token : Bytes} :
    (∃ word, width.packDecimal token = some word) ↔
      ∃ negative whole fraction, Decimal.Spells token negative whole fraction ∧
        (whole ++ fraction).length ≤ width.decimalLimits.1 ∧
        Bytes.decimalValue (whole ++ fraction) < width.decimalLimits.2 := by
  rw [decimalLimits_eq]
  constructor
  · rintro ⟨word, hword⟩
    obtain ⟨d, hd, hfits, -⟩ := packDecimal_eq_some_iff.mp hword
    obtain ⟨negative, whole, fraction, hspells, rfl⟩ := Decimal.ofToken?_eq_some_iff.mp hd
    refine ⟨negative, whole, fraction, hspells, ?_, hfits.2⟩
    rw [List.length_append]
    exact hfits.1
  · rintro ⟨negative, whole, fraction, hspells, hcount, hdigits⟩
    rw [List.length_append] at hcount
    exact ⟨_, packDecimal_eq_some_iff.mpr ⟨_, hspells.ofToken?_eq, ⟨hcount, hdigits⟩, rfl⟩⟩

/-- A token is packed as an integer exactly if it spells one within the range of the width. -/
theorem exists_packInteger_iff {width : Width} {token : Bytes} :
    (∃ word, width.packInteger token = some word) ↔ ∃ value, Bytes.SpellsInteger token value ∧ width.Holds value := by
  constructor
  · rintro ⟨word, hword⟩
    obtain ⟨value, hvalue, hholds, -⟩ := packInteger_eq_some_iff.mp hword
    exact ⟨value, Bytes.toInt?_eq_some_iff.mp hvalue, hholds⟩
  · rintro ⟨value, hspells, hholds⟩
    exact ⟨_, packInteger_eq_some_iff.mpr ⟨value, Bytes.toInt?_eq_some_iff.mpr hspells, hholds, rfl⟩⟩

/-- A packed integer is the one that the token spells. -/
theorem toInt_of_packInteger {width : Width} {token : Bytes} {word : Int64} (h : width.packInteger token = some word)
    {value : Int} (hspells : Bytes.SpellsInteger token value) : word.toInt = value := by
  obtain ⟨read, hread, hholds, rfl⟩ := packInteger_eq_some_iff.mp h
  rw [toInt_ofInt hholds]
  exact Option.some.inj (hread.symm.trans (Bytes.toInt?_eq_some_iff.mpr hspells))

/-- No token is packed both as an integer and as a decimal. -/
theorem packInteger_eq_none_of_packDecimal {width : Width} {token : Bytes} {word : Int64}
    (h : width.packDecimal token = some word) : width.packInteger token = none := by
  obtain ⟨negative, whole, fraction, hspells, -⟩ := exists_packDecimal_iff.mp ⟨word, h⟩
  cases hinteger : width.packInteger token with
  | none => rfl
  | some value =>
    obtain ⟨read, hread, -⟩ := exists_packInteger_iff.mp ⟨value, hinteger⟩
    exact absurd hspells.point_mem hread.point_not_mem

end Width

end LogCodec
