import LogCodec.Bytes
import LogCodec.Width

/-!
# `LogCodec.Packing.Integer`: integers as text

Only the canonical spelling of an integer is read: an optional `-` and digits without leading zeros, with zero spelled
`0`.  So the text of a packed integer is known from its value alone.
-/

namespace LogCodec

namespace Bytes

/-- A token without the minus sign that it may start with, and whether it does. -/
def splitSign : Bytes → Bool × Bytes
  | [] => (false, [])
  | b :: rest => if b = ofChar '-' then (true, rest) else (false, b :: rest)

/-- The minus sign of a negative number. -/
def sign (negative : Bool) : Bytes := if negative then [ofChar '-'] else []

/-- The canonical spelling of an integer. -/
def ofInt (value : Int) : Bytes := sign (value < 0) ++ decimal value.natAbs

/-- The integer that a token spells canonically. -/
def toInt? (token : Bytes) : Option Int :=
  let (negative, body) := splitSign token
  if body = [] ∨ ¬ body.all isDigit then none
  else if body.head? = some (ofChar '0') ∧ (negative ∨ 1 < body.length) then none
  else if negative then some (-decimalValue body) else some (decimalValue body)

theorem length_splitSign (token : Bytes) : token.length ≤ (splitSign token).2.length + 1 := by
  unfold splitSign
  split
  · simp
  · split <;> simp

/-- An integer of many digits is far from zero. -/
theorem pow_le_natAbs_of_toInt? {token : Bytes} {value : Int} (h : toInt? token = some value)
    (hlength : 2 < token.length) : Nat.pow 10 (token.length - 2) ≤ value.natAbs := by
  have hsign := length_splitSign token
  unfold toInt? at h
  generalize splitSign token = parts at h hsign
  obtain ⟨negative, body⟩ := parts
  simp only at h hsign
  split at h
  · cases h
  · next hdigits =>
    split at h
    · cases h
    · next hzero =>
      obtain ⟨b, rest, rfl⟩ : ∃ b rest, body = b :: rest := by
        cases body with
        | nil => simp at hdigits
        | cons b rest => exact ⟨b, rest, rfl⟩
      have habs : value.natAbs = decimalValue (b :: rest) := by
        split at h <;> cases h <;> simp
      have hb : 0 < digitValue b := by
        simp only [List.cons_ne_nil, List.all_cons, false_or, Decidable.not_not, Bool.and_eq_true] at hdigits
        simp only [List.head?_cons, Option.some.injEq, List.length_cons] at hzero hsign
        have hne : b ≠ ofChar '0' := fun hb => hzero ⟨hb, .inr (by omega)⟩
        have hrange := hdigits.1
        simp only [isDigit, Bool.and_eq_true, decide_eq_true_eq, UInt8.le_iff_toNat_le] at hrange
        have hnat : b.toNat ≠ 0x30 := fun hb => hne (UInt8.toNat_inj.mp hb)
        have := hrange.1
        simp only [digitValue]
        simp at this
        omega
      rw [habs]
      refine Nat.le_trans (Nat.pow_le_pow_right (by omega) ?_) (pow_le_decimalValue hb)
      simp only [List.length_cons] at hsign
      omega

end Bytes

end LogCodec
