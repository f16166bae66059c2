import LogCodec.Proofs.DigitLoop
import LogCodec.Proofs.TokenGrammar

/-!
# `LogCodec.Proofs.PackedImage`: which words are packed numbers

Every integer in the range of a width is rendered, and its text is packed to it again.  Of the words for decimals those
are rendered whose point stands among the digits and whose digits are no more than the word counts.  The text of such a
word is packed to the same word, but for one bit: at width eight no field covers the bit below the sign.  Any other word
is refused, and nothing is written for it.

## Contents
- **Digits.** Digits that were written are read back: `decimalValue_fixedDecimal` and `decimalValue_decimal`.
- **Texts.** `Bytes.spellsInteger_ofInt` and `Decimal.ofToken?_text`: what is rendered is in the grammar of tokens.
- **Words.** `bitsAt`, `Width.HoldsDecimal` and `Width.withoutUnused`; `Width.ofBits_toBits_ofBits`.
- **Rendering.** `Width.packDecimal_of_render`, `Width.packInteger_of_render` and what is refused;
  `Width.renderInPlace_decides`, the main statement.
-/

namespace LogCodec

namespace Bytes

/-! ## Digits -/

theorem isDigit_digit {n : Nat} (h : n < 10) : isDigit (digit n) = true := by
  rw [isDigit_iff, digit, UInt8.toNat_ofNat']
  omega

theorem digitValue_digit {n : Nat} (h : n < 10) : digitValue (digit n) = n := by
  rw [digitValue, digit, UInt8.toNat_ofNat']
  omega

theorem isDigit_fixedDecimal (count n : Nat) : (fixedDecimal count n).all isDigit = true := by
  induction count generalizing n with
  | zero => rfl
  | succ count ih =>
    rw [fixedDecimal, List.all_append, ih, List.all_cons, isDigit_digit (Nat.mod_lt n (by omega))]
    rfl

/-- A number is read back from its digits, if they are enough for it. -/
theorem decimalValue_fixedDecimal {count n : Nat} (h : n < Nat.pow 10 count) :
    decimalValue (fixedDecimal count n) = n := by
  induction count generalizing n with
  | zero =>
    have hzero : n < 1 := h
    obtain rfl : n = 0 := by omega
    rfl
  | succ count ih =>
    have hpow : n < Nat.pow 10 count * 10 := h
    have hfront : n / 10 < Nat.pow 10 count := by omega
    rw [fixedDecimal, decimalValue_concat, ih hfront, digitValue_digit (Nat.mod_lt n (by omega))]
    omega

/-- A positive number is written without a leading zero. -/
theorem exists_decimal_eq {n : Nat} (h : 0 < n) :
    ∃ first rest, decimal n = first :: rest ∧ isDigit first = true ∧ first ≠ ofChar '0' ∧
      rest.all isDigit = true := by
  fun_induction decimal n with
  | case1 n hn =>
    refine ⟨digit n, [], rfl, isDigit_digit hn, ?_, rfl⟩
    intro hzero
    have hvalue := digitValue_digit hn
    rw [hzero] at hvalue
    have hnone : digitValue (ofChar '0') = 0 := rfl
    omega
  | case2 n hn ih =>
    obtain ⟨first, rest, hdecimal, hfirst, hzero, hrest⟩ := ih (by omega)
    refine ⟨first, rest ++ [digit (n % 10)], by rw [hdecimal, List.cons_append], hfirst, hzero, ?_⟩
    rw [List.all_append, hrest, List.all_cons, isDigit_digit (Nat.mod_lt n (by omega))]
    rfl

/-- A number is read back from its digits. -/
theorem decimalValue_decimal (n : Nat) : decimalValue (decimal n) = n := by
  fun_induction decimal n with
  | case1 n hn =>
    show 10 * 0 + digitValue (digit n) = n
    rw [digitValue_digit hn]
    omega
  | case2 n hn ih =>
    rw [decimalValue_concat, ih, digitValue_digit (Nat.mod_lt n (by omega))]
    omega

/-! ## Texts -/

/-- The text of an integer spells it. -/
theorem spellsInteger_ofInt (value : Int) : SpellsInteger (ofInt value) value := by
  by_cases hzero : value = 0
  · subst hzero
    have hdecimal : decimal 0 = [ofChar '0'] := by
      rw [decimal]
      rfl
    show SpellsInteger (decimal 0) 0
    rw [hdecimal]
    exact .zero
  · obtain ⟨first, rest, hdecimal, hfirst, hne, hrest⟩ := exists_decimal_eq (Int.natAbs_pos.mpr hzero)
    have hspells := SpellsInteger.number (decide (value < 0)) hfirst hne hrest
    rw [← hdecimal, decimalValue_decimal] at hspells
    by_cases hnegative : value < 0
    · rw [if_pos (decide_eq_true hnegative)] at hspells
      rw [ofInt]
      have hvalue : -(value.natAbs : Int) = value := by omega
      rw [hvalue] at hspells
      exact hspells
    · rw [if_neg (by simp [hnegative])] at hspells
      have hvalue : (value.natAbs : Int) = value := by omega
      rw [hvalue] at hspells
      exact hspells

end Bytes

namespace Decimal

/-- The text of a decimal spells it. -/
theorem ofToken?_text {d : Decimal} (hsound : d.Sound) (hplaces : 1 ≤ d.places) : ofToken? d.text = some d := by
  obtain ⟨negative, digits, count, places⟩ := d
  obtain ⟨hcount, hdigits⟩ := hsound
  simp only at hcount hdigits hplaces
  obtain ⟨whole, rfl⟩ := Nat.exists_eq_add_of_le' hcount
  have hspells : Spells (Decimal.mk negative digits (whole + places) places).text negative
      (Bytes.fixedDecimal whole (digits / Nat.pow 10 places)) (Bytes.fixedDecimal places digits) := by
    refine ⟨text_eq negative digits whole places, Bytes.isDigit_fixedDecimal _ _, Bytes.isDigit_fixedDecimal _ _, ?_⟩
    apply List.ne_nil_of_length_pos
    rw [Bytes.length_fixedDecimal]
    exact hplaces
  rw [hspells.ofToken?_eq, ofDigits, ← Bytes.fixedDecimal_add, Bytes.decimalValue_fixedDecimal hdigits,
    Bytes.length_fixedDecimal, Bytes.length_fixedDecimal]

/-- The fields of a bit pattern fit the layout that they are cut out by. -/
theorem fits_ofBits (width : Width) (raw : Nat) :
    (ofBits width.layout raw).Fits width.layout ∧ 1 ≤ (ofBits width.layout raw).places := by
  have hcount : Nat.pow 2 width.layout.fieldBits = width.layout.maxDigits := by
    cases width with
    | eight => rfl
    | four => rfl
  have hpos : 0 < Nat.pow 2 width.layout.fieldBits := Nat.pow_pos (by omega)
  have hlt := Nat.mod_lt (raw / Nat.pow 2 width.layout.fieldBits) hpos
  refine ⟨⟨?_, Nat.mod_lt _ (Nat.pow_pos (by omega))⟩, Nat.le_add_left _ _⟩
  rw [← hcount]
  exact hlt

end Decimal

/-! ## Words -/

/-- The number in some bits of a word, from a position on. -/
def bitsAt (word : Int64) (start size : Nat) : Nat := (word.toBitVec.extractLsb' start size).toNat

theorem bitsAt_eq (word : Int64) (start size : Nat) :
    bitsAt word start size = word.toUInt64.toNat / Nat.pow 2 start % Nat.pow 2 size := by
  rw [bitsAt, BitVec.extractLsb'_toNat, Nat.shiftRight_eq_div_pow]
  rfl

namespace Width

/-- The word holds a decimal of the width: the point stands among the digits that the word counts, and the digits are no
more than that. -/
def HoldsDecimal : Width → Int64 → Prop
  | eight, word =>
    bitsAt word 0 4 + 1 ≤ bitsAt word 4 4 + 1 ∧ bitsAt word 8 54 < Nat.pow 10 (bitsAt word 4 4 + 1)
  | four, word =>
    four.Holds word.toInt ∧
      bitsAt word 0 3 + 1 ≤ bitsAt word 3 3 + 1 ∧ bitsAt word 6 25 < Nat.pow 10 (bitsAt word 3 3 + 1)

/-- The word without the bit that no field of the width covers. -/
def withoutUnused : Width → Int64 → Int64
  | eight, word => word &&& ~~~((1 : Int64) <<< 62)
  | four, word => word

/-- The fields of a bit pattern are cut out of the word itself. -/
theorem ofBits_bitsOf (width : Width) (word : Int64) :
    Decimal.ofBits width.layout (width.bitsOf word) =
      ⟨(width.bitsOf word).testBit width.layout.signBit,
        bitsAt word (2 * width.layout.fieldBits) width.layout.digitBits,
        bitsAt word width.layout.fieldBits width.layout.fieldBits + 1, bitsAt word 0 width.layout.fieldBits + 1⟩ := by
  rw [bitsAt_eq, bitsAt_eq, bitsAt_eq]
  unfold Decimal.ofBits bitsOf
  generalize word.toUInt64.toNat = raw
  cases width with
  | eight =>
    have hpow : Nat.pow 2 0 = 1 ∧ Nat.pow 2 4 = 16 ∧ Nat.pow 2 (2 * 4) = 256 ∧ Nat.pow 2 54 = 18014398509481984 ∧
        Nat.pow 2 Width.eight.bits = 18446744073709551616 := ⟨rfl, rfl, rfl, rfl, rfl⟩
    simp only [layout, hpow, Decimal.mk.injEq, true_and]
    refine ⟨?_, ?_, ?_⟩ <;> omega
  | four =>
    have hpow : Nat.pow 2 0 = 1 ∧ Nat.pow 2 3 = 8 ∧ Nat.pow 2 (2 * 3) = 64 ∧ Nat.pow 2 25 = 33554432 ∧
        Nat.pow 2 Width.four.bits = 4294967296 := ⟨rfl, rfl, rfl, rfl, rfl⟩
    simp only [layout, hpow, Decimal.mk.injEq, true_and]
    refine ⟨?_, ?_, ?_⟩ <;> omega

/-- A word holds a decimal exactly if it is in range and its fields are sound. -/
theorem holdsDecimal_iff {width : Width} {word : Int64} :
    width.HoldsDecimal word ↔
      width.Holds word.toInt ∧ (Decimal.ofBits width.layout (width.bitsOf word)).Sound := by
  rw [ofBits_bitsOf]
  cases width with
  | eight =>
    have hholds : eight.Holds word.toInt := ⟨Int64.le_toInt _, Int64.toInt_lt _⟩
    exact ⟨fun h => ⟨hholds, h⟩, fun h => h.2⟩
  | four => exact Iff.rfl

/-- At width four the fields cover the bit pattern; at width eight they leave out the bit below the sign. -/
theorem toBits_ofBits {width : Width} {raw : Nat} (h : raw < Nat.pow 2 width.bits) :
    (Decimal.ofBits width.layout raw).toBits width.layout =
      match width with
      | eight => raw / Nat.pow 2 63 * Nat.pow 2 63 + raw % Nat.pow 2 62
      | four => raw := by
  unfold Decimal.toBits Decimal.ofBits
  cases width with
  | eight =>
    have hpow : Nat.pow 2 4 = 16 ∧ Nat.pow 2 (2 * 4) = 256 ∧ Nat.pow 2 54 = 18014398509481984 ∧
        Nat.pow 2 62 = 4611686018427387904 ∧ Nat.pow 2 63 = 9223372036854775808 := ⟨rfl, rfl, rfl, rfl, rfl⟩
    replace h : raw < 18446744073709551616 := h
    have hsign : (raw.testBit 63).toNat = raw / 9223372036854775808 % 2 := Nat.toNat_testBit raw 63
    simp only [layout, hpow, hsign]
    omega
  | four =>
    have hpow : Nat.pow 2 3 = 8 ∧ Nat.pow 2 (2 * 3) = 64 ∧ Nat.pow 2 25 = 33554432 ∧
        Nat.pow 2 31 = 2147483648 := ⟨rfl, rfl, rfl, rfl⟩
    replace h : raw < 4294967296 := h
    have hsign : (raw.testBit 31).toNat = raw / 2147483648 % 2 := Nat.toNat_testBit raw 31
    simp only [layout, hpow, hsign]
    omega

/-- A word in the range of a width is the word of its bit pattern. -/
theorem ofBits_bitsOf_of_holds {width : Width} {word : Int64} (h : width.Holds word.toInt) :
    width.ofBits (width.bitsOf word) = word := by
  cases width with
  | eight =>
    show (UInt64.ofNat (word.toUInt64.toNat % 18446744073709551616)).toInt64 = word
    rw [Nat.mod_eq_of_lt word.toUInt64.toNat_lt, UInt64.ofNat_toNat]
    rfl
  | four =>
    have hlow : UInt32.ofNat (four.bitsOf word) = word.toUInt64.toUInt32 := by
      apply UInt32.toNat_inj.mp
      rw [UInt32.toNat_ofNat', UInt64.toNat_toUInt32]
      exact Nat.mod_mod _ _
    have hcast : word.toUInt64.toUInt32.toInt32 = word.toInt32 := by
      apply Int32.toBitVec_inj.mp
      rw [Int64.toBitVec_toInt32, BitVec.signExtend_eq_setWidth_of_le _ (by omega)]
      rfl
    have hrange : -0x80000000 ≤ word.toInt ∧ word.toInt < 0x80000000 := h
    show (UInt32.ofNat (four.bitsOf word)).toInt32.toInt64 = word
    rw [hlow, hcast]
    -- Sign extension of the lower half keeps a value that the lower half can hold.
    apply Int64.toInt_inj.mp
    rw [Int32.toInt_toInt64, Int64.toInt_toInt32]
    exact Int.bmod_eq_of_le (by omega) (by omega)

/-- The bit below the sign is cleared in a word that is made of the sign and the bits below that one. -/
theorem ofBits_sign_add_low (word : Int64) :
    eight.ofBits (word.toUInt64.toNat / Nat.pow 2 63 * Nat.pow 2 63 + word.toUInt64.toNat % Nat.pow 2 62) =
      eight.withoutUnused word := by
  apply Int64.toBitVec_inj.mp
  show BitVec.ofNat 64 _ = word.toBitVec &&& ~~~(1#64 <<< 62)
  apply BitVec.eq_of_getLsbD_eq
  intro i hi
  have hword : ∀ i, word.toUInt64.toNat.testBit i = word.toBitVec.getLsbD i := fun i => rfl
  have hlow : word.toUInt64.toNat % 2 ^ 62 < 2 ^ 63 := by omega
  have hbit : (word.toUInt64.toNat / Nat.pow 2 63 * Nat.pow 2 63 + word.toUInt64.toNat % Nat.pow 2 62).testBit i =
      if i < 63 then (word.toUInt64.toNat % 2 ^ 62).testBit i
      else (word.toUInt64.toNat / 2 ^ 63).testBit (i - 63) := by
    rw [Nat.mul_comm]
    exact Nat.testBit_two_pow_mul_add _ hlow _
  rw [BitVec.getLsbD_ofNat, hbit]
  simp only [Nat.testBit_mod_two_pow, Nat.testBit_div_two_pow, hword, BitVec.getLsbD_and, BitVec.getLsbD_not,
    BitVec.getLsbD_shiftLeft, BitVec.getLsbD_one, hi, decide_true, Bool.true_and]
  by_cases hbelow : i < 62
  · have hsign : i < 63 := by omega
    simp [hbelow, hsign]
  · by_cases hsign : i < 63
    · obtain rfl : i = 62 := by omega
      simp
    · obtain rfl : i = 63 := by omega
      simp

/-- The fields of a word in the range are packed to the word again, but for the bit that they leave out. -/
theorem ofBits_toBits_ofBits {width : Width} {word : Int64} (h : width.Holds word.toInt) :
    width.ofBits ((Decimal.ofBits width.layout (width.bitsOf word)).toBits width.layout) =
      width.withoutUnused word := by
  have hraw : width.bitsOf word < Nat.pow 2 width.bits := Nat.mod_lt _ (Nat.pow_pos (by omega))
  rw [toBits_ofBits hraw]
  cases width with
  | eight =>
    have hbits : eight.bitsOf word = word.toUInt64.toNat := Nat.mod_eq_of_lt word.toUInt64.toNat_lt
    simp only [hbits]
    exact ofBits_sign_add_low word
  | four => exact ofBits_bitsOf_of_holds h

/-! ## Rendering -/

theorem check_of_holds {width : Width} {word : Int64} (h : width.Holds word.toInt) : width.check word = .ok () := by
  rw [check, if_pos h]

theorem check_of_not_holds {width : Width} {word : Int64} (h : ¬ width.Holds word.toInt) :
    width.check word = .error (.outOfRange word) := by
  rw [check, if_neg h]

/-- A word that holds a decimal is rendered, and its text is packed to it. -/
theorem renderDecimal_of_holdsDecimal {width : Width} {word : Int64} (h : width.HoldsDecimal word) :
    ∃ text, width.renderDecimal word = .ok text ∧ width.packDecimal text = some (width.withoutUnused word) := by
  obtain ⟨hholds, hsound⟩ := holdsDecimal_iff.mp h
  obtain ⟨hfits, hplaces⟩ := Decimal.fits_ofBits width (width.bitsOf word)
  refine ⟨(Decimal.ofBits width.layout (width.bitsOf word)).text, ?rendered, ?packed⟩
  case rendered =>
    unfold renderDecimal
    rw [check_of_holds hholds]
    exact if_pos hsound
  case packed =>
    apply packDecimal_eq_some_iff.mpr
    exact ⟨_, Decimal.ofToken?_text hsound hplaces, hfits, (ofBits_toBits_ofBits hholds).symm⟩

/-- A word in the range that holds no decimal is refused for its fields. -/
theorem renderDecimal_of_not_holdsDecimal {width : Width} {word : Int64} (hholds : width.Holds word.toInt)
    (h : ¬ width.HoldsDecimal word) : width.renderDecimal word = .error (.corruptDecimal (width.bitsOf word)) := by
  have hunsound : ¬ (Decimal.ofBits width.layout (width.bitsOf word)).Sound := by
    intro hsound
    exact h (holdsDecimal_iff.mpr ⟨hholds, hsound⟩)
  unfold renderDecimal
  rw [check_of_holds hholds]
  exact if_neg hunsound

/-- A word in the range is rendered as an integer, and its text is packed to it. -/
theorem renderInteger_of_holds {width : Width} {word : Int64} (h : width.Holds word.toInt) :
    ∃ text, width.renderInteger word = .ok text ∧ width.packInteger text = some word := by
  refine ⟨Bytes.ofInt word.toInt, ?rendered, ?packed⟩
  case rendered =>
    unfold renderInteger
    rw [check_of_holds h]
    rfl
  case packed =>
    have hvalue := Bytes.toInt?_eq_some_iff.mpr (Bytes.spellsInteger_ofInt word.toInt)
    exact packInteger_eq_some_iff.mpr ⟨_, hvalue, h, (Int64.ofInt_toInt word).symm⟩

/-- A word outside the range is refused for its value. -/
theorem render_of_not_holds {width : Width} {word : Int64} (h : ¬ width.Holds word.toInt) (kind : NumberKind) :
    width.render kind word = .error (.outOfRange word) := by
  cases kind with
  | integer =>
    show width.renderInteger word = _
    unfold renderInteger
    rw [check_of_not_holds h]
    rfl
  | float =>
    show width.renderDecimal word = _
    unfold renderDecimal
    rw [check_of_not_holds h]
    rfl

section
variable {width : Width} {word : Int64} {text : Bytes}

theorem holds_of_render {kind : NumberKind} (h : width.render kind word = .ok text) : width.Holds word.toInt := by
  by_contra hholds
  rw [render_of_not_holds hholds] at h
  cases h

/-- Exactly the words that hold a decimal are rendered as one. -/
theorem holdsDecimal_of_render (h : width.render .float word = .ok text) : width.HoldsDecimal word := by
  by_contra hnone
  have hcorrupt : width.render .float word = _ := renderDecimal_of_not_holdsDecimal (holds_of_render h) hnone
  rw [hcorrupt] at h
  cases h

/-- What is rendered as a decimal is packed to its word, but for the bit that no field covers. -/
theorem packDecimal_of_render (h : width.render .float word = .ok text) :
    width.packDecimal text = some (width.withoutUnused word) := by
  obtain ⟨other, hother, hpacked⟩ := renderDecimal_of_holdsDecimal (holdsDecimal_of_render h)
  cases hother.symm.trans h
  exact hpacked

/-- What is rendered as an integer is packed to its word. -/
theorem packInteger_of_render (h : width.render .integer word = .ok text) : width.packInteger text = some word := by
  obtain ⟨other, hother, hpacked⟩ := renderInteger_of_holds (holds_of_render h)
  cases hother.symm.trans h
  exact hpacked

/-- Something is rendered behind what a buffer holds exactly if there is a text, and then it is that text. -/
theorem renderInPlace_eq_text_iff {kind : NumberKind} {held : Bytes} :
    width.renderInPlace kind held word = some ⟨held ++ text, none⟩ ↔ width.render kind word = .ok text := by
  rw [renderInPlace_eq]
  cases width.render kind word with
  | ok other => simp [Written.append]
  | error e => simp [Written.append]

end

/-- **Which words are rendered, and what becomes of the others.**  As a decimal exactly the words are rendered that
hold one; what is rendered is packed to the word again, but for the bit that no field covers.  As an integer exactly
the words in the range are rendered, and what is rendered is packed to the word itself.  Any other word leaves the
buffer as it was: one outside the range is refused for its value, one in the range for its bits. -/
theorem renderInPlace_decides (width : Width) (word : Int64) (held : Bytes) :
    ((∃ text, width.renderInPlace .float held word = some ⟨held ++ text, none⟩) ↔ width.HoldsDecimal word) ∧
    (∀ text, width.renderInPlace .float held word = some ⟨held ++ text, none⟩ →
      width.packDecimal text = some (width.withoutUnused word)) ∧
    ((∃ text, width.renderInPlace .integer held word = some ⟨held ++ text, none⟩) ↔ width.Holds word.toInt) ∧
    (∀ text, width.renderInPlace .integer held word = some ⟨held ++ text, none⟩ →
      width.packInteger text = some word) ∧
    (¬ width.Holds word.toInt → ∀ kind, width.renderInPlace kind held word = some ⟨held, some (.outOfRange word)⟩) ∧
    (width.Holds word.toInt → ¬ width.HoldsDecimal word →
      width.renderInPlace .float held word = some ⟨held, some (.corruptDecimal (width.bitsOf word))⟩) := by
  simp only [renderInPlace_eq_text_iff]
  refine ⟨⟨?decimal, ?isDecimal⟩, ?packedDecimal, ⟨?integer, ?isInteger⟩, ?packedInteger, ?outOfRange, ?corrupt⟩
  case decimal =>
    rintro ⟨text, htext⟩
    exact holdsDecimal_of_render htext
  case isDecimal =>
    intro hholds
    obtain ⟨text, htext, -⟩ := renderDecimal_of_holdsDecimal hholds
    exact ⟨text, htext⟩
  case packedDecimal =>
    intro text htext
    exact packDecimal_of_render htext
  case integer =>
    rintro ⟨text, htext⟩
    exact holds_of_render htext
  case isInteger =>
    intro hholds
    obtain ⟨text, htext, -⟩ := renderInteger_of_holds hholds
    exact ⟨text, htext⟩
  case packedInteger =>
    intro text htext
    exact packInteger_of_render htext
  case outOfRange =>
    intro hholds kind
    rw [renderInPlace_eq, render_of_not_holds hholds]
    rfl
  case corrupt =>
    intro hholds hnone
    have hcorrupt : width.render .float word = _ := renderDecimal_of_not_holdsDecimal hholds hnone
    rw [renderInPlace_eq, hcorrupt]
    rfl

/-- The word of `1.5` with the bit below the sign set: it is rendered all the same. -/
example : Width.eight.renderDecimal 0x4000000000000F10 = .ok [0x31, 0x2E, 0x35] ∧
    Width.eight.packDecimal [0x31, 0x2E, 0x35] = some 0xF10 := by decide

end Width

end LogCodec
