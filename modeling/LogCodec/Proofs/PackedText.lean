import LogCodec.Packing
import Mathlib.Data.List.Induction

/-!
# `LogCodec.Proofs.PackedText`: a packed number gives its token back

A token is packed only if it is spelled in the one way in which its number is rendered.  So rendering undoes packing,
and two tokens that are packed to the same number of the same kind are the same token.

## Contents
- **Digits.** `decimal` and `fixedDecimal` undo `decimalValue`, for runs without and with leading zeros.
- **Fields.** The fields of a decimal are read back from its bit pattern, and the bit pattern from its word.
- **Tokens.** `render_of_pack`, and `pack_injective` as its consequence.
-/

namespace LogCodec

namespace Bytes

/-! ## Digits -/

theorem isDigit_iff {b : UInt8} : isDigit b = true ↔ 0x30 ≤ b.toNat ∧ b.toNat ≤ 0x39 := by
  simp [isDigit, UInt8.le_iff_toNat_le]

theorem digitValue_lt {b : UInt8} (h : isDigit b = true) : digitValue b < 10 := by
  rw [isDigit_iff] at h
  simp only [digitValue]
  omega

theorem digit_digitValue {b : UInt8} (h : isDigit b = true) : digit (digitValue b) = b := by
  rw [isDigit_iff] at h
  apply UInt8.toNat_inj.mp
  simp only [digit, digitValue, UInt8.toNat_ofNat']
  omega

theorem decimalValue_concat (digits : Bytes) (b : UInt8) :
    decimalValue (digits ++ [b]) = 10 * decimalValue digits + digitValue b := by
  simp [decimalValue]

/-- A run of digits stands for a number with at most as many digits. -/
theorem decimalValue_lt {digits : Bytes} (h : digits.all isDigit = true) :
    decimalValue digits < Nat.pow 10 digits.length := by
  induction digits using List.reverseRecOn with
  | nil => decide
  | append_singleton digits b ih =>
    simp only [List.all_append, List.all_cons, List.all_nil, Bool.and_true, Bool.and_eq_true] at h
    have hb := digitValue_lt h.2
    have hrest := ih h.1
    rw [decimalValue_concat, List.length_append, List.length_singleton]
    show _ < Nat.pow 10 digits.length * 10
    omega

/-- Digits without a leading zero are the decimal form of the number they stand for. -/
theorem decimal_decimalValue {digits : Bytes} (h : digits.all isDigit = true) (hne : digits ≠ [])
    (hzero : digits.head? = some (ofChar '0') → digits.length = 1) : decimal (decimalValue digits) = digits := by
  induction digits using List.reverseRecOn with
  | nil => exact absurd rfl hne
  | append_singleton digits b ih =>
    simp only [List.all_append, List.all_cons, List.all_nil, Bool.and_true, Bool.and_eq_true] at h
    have hb := digitValue_lt h.2
    rw [decimalValue_concat, decimal]
    cases digits with
    | nil =>
      rw [if_pos (by simpa [decimalValue] using hb)]
      simp [decimalValue, digit_digitValue h.2]
    | cons c rest =>
      have hc : c ≠ ofChar '0' := fun hc => by simp [hc] at hzero
      -- The first digit is not zero, so the digits before the last one stand for at least one.
      have hpos : 1 ≤ decimalValue (c :: rest) := by
        have hc' : 0 < digitValue c := by
          have hcd : isDigit c = true := (List.all_eq_true.mp h.1) c List.mem_cons_self
          have hnat : c.toNat ≠ 0x30 := fun heq => hc (UInt8.toNat_inj.mp heq)
          rw [isDigit_iff] at hcd
          simp only [digitValue]
          omega
        have hpow : 0 < Nat.pow 10 rest.length := Nat.pow_pos (by omega)
        exact Nat.le_trans hpow (pow_le_decimalValue hc')
      have hrest : decimal (decimalValue (c :: rest)) = c :: rest :=
        ih h.1 (List.cons_ne_nil c rest) fun hhead => absurd (Option.some.inj hhead) hc
      rw [if_neg (by omega), Nat.mul_add_div (by omega), Nat.div_eq_of_lt hb, Nat.add_zero, hrest,
        Nat.mul_add_mod, Nat.mod_eq_of_lt hb, digit_digitValue h.2]

/-- Digits are the decimal form of fixed length of the number they stand for. -/
theorem fixedDecimal_decimalValue {digits : Bytes} (h : digits.all isDigit = true) :
    fixedDecimal digits.length (decimalValue digits) = digits := by
  induction digits using List.reverseRecOn with
  | nil => rfl
  | append_singleton digits b ih =>
    simp only [List.all_append, List.all_cons, List.all_nil, Bool.and_true, Bool.and_eq_true] at h
    have hb := digitValue_lt h.2
    rw [decimalValue_concat, List.length_append, List.length_singleton, fixedDecimal, Nat.mul_add_div (by omega),
      Nat.div_eq_of_lt hb, Nat.add_zero, ih h.1, Nat.mul_add_mod, Nat.mod_eq_of_lt hb, digit_digitValue h.2]

/-! ## Integers -/

/-- A token is its sign and what comes behind it. -/
theorem sign_append_splitSign (token : Bytes) : sign (splitSign token).1 ++ (splitSign token).2 = token := by
  unfold splitSign
  split
  · rfl
  · split
    · next hb => simp [sign, hb]
    · rfl

/-- An integer is spelled as it was read. -/
theorem ofInt_of_toInt? {token : Bytes} {value : Int} (h : toInt? token = some value) : ofInt value = token := by
  have htoken := sign_append_splitSign token
  unfold toInt? at h
  generalize splitSign token = parts at h htoken
  obtain ⟨negative, body⟩ := parts
  simp only at h htoken
  split at h
  · cases h
  · next hdigits =>
    simp only [not_or, Decidable.not_not] at hdigits
    split at h
    · cases h
    · next hzero =>
      have hbody : decimal (decimalValue body) = body := by
        refine decimal_decimalValue hdigits.2 hdigits.1 fun hhead => ?_
        have hlength : ¬ 1 < body.length := fun hlong => hzero ⟨hhead, .inr hlong⟩
        have hpos : 0 < body.length := List.length_pos_iff.mpr hdigits.1
        omega
      cases negative with
      | false =>
        cases h
        have hsign : ((decimalValue body : Int) < 0) = False := by simp
        simpa [ofInt, sign, hsign, hbody] using htoken
      | true =>
        cases h
        -- Zero has no sign: its spelling starts with the digit zero.
        have hpos : 0 < decimalValue body := by
          refine Nat.pos_of_ne_zero fun hvalue => hzero ⟨?_, .inl rfl⟩
          rw [hvalue] at hbody
          rw [← hbody]
          simp [decimal, digit, ofChar]
        have hsign : (-(decimalValue body : Int) < 0) = True := by simpa using hpos
        simp only [ofInt, hsign, decide_true, Int.natAbs_neg, Int.natAbs_natCast, hbody]
        exact htoken

end Bytes

namespace Decimal

/-! ## Decimals -/

/-- The fields that are read from a token are those that a decimal can have: there is a digit behind the point, and
the digits are as many as the count says. -/
theorem fields_of_ofToken? {token : Bytes} {d : Decimal} (h : ofToken? token = some d) :
    1 ≤ d.places ∧ d.Sound ∧ d.text = token := by
  have htoken := Bytes.sign_append_splitSign token
  unfold ofToken? at h
  generalize Bytes.splitSign token = parts at h htoken
  obtain ⟨negative, body⟩ := parts
  simp only at h htoken
  have hbody := List.takeWhile_append_dropWhile (p := Bytes.isDigit) (l := body)
  have hwhole : (body.takeWhile Bytes.isDigit).all Bytes.isDigit = true := List.all_takeWhile
  generalize body.takeWhile Bytes.isDigit = whole at h hbody hwhole
  split at h
  · cases h
  · next point fraction hrest =>
    split at h
    · next hpoint =>
      obtain ⟨rfl, hne, hfraction⟩ := hpoint
      cases h
      have hall : (whole ++ fraction).all Bytes.isDigit = true := by rw [List.all_append, hwhole, hfraction]; rfl
      have hlength : whole.length + fraction.length = (whole ++ fraction).length := List.length_append.symm
      refine ⟨List.length_pos_iff.mpr hne, ⟨Nat.le_add_left .., ?_⟩, ?_⟩
      · rw [hlength]
        exact Bytes.decimalValue_lt hall
      · rw [text, hlength, Bytes.fixedDecimal_decimalValue hall, ← hlength, Nat.add_sub_cancel, List.take_left,
          List.drop_left, List.append_assoc, ← htoken, ← hbody, hrest]
    · cases h

/-- The fields of a decimal are read back from its bit pattern, which fits the width. -/
theorem ofBits_toBits {width : Width} {d : Decimal} (hfits : d.Fits width.layout) (hplaces : 1 ≤ d.places)
    (hcount : d.places ≤ d.count) :
    d.toBits width.layout < Nat.pow 2 width.bits ∧ ofBits width.layout (d.toBits width.layout) = d := by
  obtain ⟨negative, digits, count, places⟩ := d
  have hsign : negative.toNat = 0 ∧ negative = false ∨ negative.toNat = 1 ∧ negative = true := by
    cases negative <;> simp
  simp only at hplaces hcount
  cases width with
  | eight =>
    have hlayout : (Nat.pow 2 4 = 16 ∧ Nat.pow 2 (2 * 4) = 256) ∧ Nat.pow 2 54 = 18014398509481984 ∧
        Nat.pow 2 63 = 9223372036854775808 ∧ Nat.pow 2 Width.eight.bits = 18446744073709551616 :=
      ⟨⟨rfl, rfl⟩, rfl, rfl, rfl⟩
    simp only [Fits, ofBits, toBits, Width.layout, hlayout, Nat.testBit_eq_decide_div_mod_eq, mk.injEq] at hfits ⊢
    refine ⟨by omega, ?_, by omega, by omega, by omega⟩
    rcases hsign with ⟨hsign, rfl⟩ | ⟨hsign, rfl⟩
    · simp only [decide_eq_false_iff_not]
      omega
    · simp only [decide_eq_true_eq]
      omega
  | four =>
    have hlayout : (Nat.pow 2 3 = 8 ∧ Nat.pow 2 (2 * 3) = 64) ∧ Nat.pow 2 25 = 33554432 ∧
        Nat.pow 2 31 = 2147483648 ∧ Nat.pow 2 Width.four.bits = 4294967296 :=
      ⟨⟨rfl, rfl⟩, rfl, rfl, rfl⟩
    simp only [Fits, ofBits, toBits, Width.layout, hlayout, Nat.testBit_eq_decide_div_mod_eq, mk.injEq] at hfits ⊢
    refine ⟨by omega, ?_, by omega, by omega, by omega⟩
    rcases hsign with ⟨hsign, rfl⟩ | ⟨hsign, rfl⟩
    · simp only [decide_eq_false_iff_not]
      omega
    · simp only [decide_eq_true_eq]
      omega

end Decimal

namespace Width

/-! ## Words -/

/-- A bit pattern is read back from its word. -/
theorem bitsOf_ofBits {width : Width} {raw : Nat} (h : raw < Nat.pow 2 width.bits) :
    width.bitsOf (width.ofBits raw) = raw := by
  cases width with
  | eight =>
    replace h : raw < 18446744073709551616 := h
    show (UInt64.ofNat raw).toInt64.toUInt64.toNat % 18446744073709551616 = raw
    rw [UInt64.toUInt64_toInt64, UInt64.toNat_ofNat']
    omega
  | four =>
    replace h : raw < 4294967296 := h
    have hword : (UInt32.ofNat raw).toInt32.toInt64.toUInt64.toNat =
        ((UInt32.ofNat raw).toInt32.toBitVec.signExtend 64).toNat := by
      rw [← Int32.toBitVec_toInt64]
      rfl
    have hraw : (UInt32.ofNat raw).toInt32.toBitVec.toNat = raw := by
      show (UInt32.ofNat raw).toNat = raw
      rw [UInt32.toNat_ofNat']
      omega
    show (UInt32.ofNat raw).toInt32.toInt64.toUInt64.toNat % 4294967296 = raw
    -- Sign extension sets all of the upper bits or none of them, so the lower half stays as it is.
    rw [hword, BitVec.toNat_signExtend, BitVec.toNat_setWidth, hraw]
    split <;> omega

/-- The word of a bit pattern lies in the range of the width. -/
theorem holds_ofBits (width : Width) (raw : Nat) : width.Holds (width.ofBits raw).toInt := by
  cases width with
  | eight => exact ⟨Int64.le_toInt _, Int64.toInt_lt _⟩
  | four =>
    show _ ≤ (UInt32.ofNat raw).toInt32.toInt64.toInt ∧ (UInt32.ofNat raw).toInt32.toInt64.toInt < _
    rw [Int32.toInt_toInt64]
    exact ⟨Int32.le_toInt _, Int32.toInt_lt _⟩

/-- An integer in the range of a width is read back from its word. -/
theorem toInt_ofInt {width : Width} {value : Int} (h : width.Holds value) : (Int64.ofInt value).toInt = value := by
  have hrange : -0x8000000000000000 ≤ value ∧ value < 0x8000000000000000 := by
    cases width with
    | eight => exact h
    | four =>
      have hhalf : -0x80000000 ≤ value ∧ value < 0x80000000 := h
      omega
  exact Int64.toInt_ofInt_of_le hrange.1 hrange.2

/-! ## Tokens -/

theorem renderInteger_of_pack {width : Width} {token : Bytes} {word : Int64}
    (h : width.packInteger token = some word) : width.renderInteger word = .ok token := by
  obtain ⟨value, hvalue, hholds, rfl⟩ := packInteger_eq_some_iff.mp h
  have hword := toInt_ofInt hholds
  have hcheck : width.check (Int64.ofInt value) = .ok () := by rw [check, hword, if_pos hholds]
  rw [renderInteger, hcheck, hword, Bytes.ofInt_of_toInt? hvalue]
  rfl

theorem renderDecimal_of_pack {width : Width} {token : Bytes} {word : Int64}
    (h : width.packDecimal token = some word) : width.renderDecimal word = .ok token := by
  obtain ⟨d, hd, hfits, rfl⟩ := packDecimal_eq_some_iff.mp h
  obtain ⟨hplaces, hsound, htext⟩ := Decimal.fields_of_ofToken? hd
  obtain ⟨hbits, hfields⟩ := Decimal.ofBits_toBits hfits hplaces hsound.1
  have hcheck : width.check (width.ofBits (d.toBits width.layout)) = .ok () := by
    rw [check, if_pos (holds_ofBits ..)]
  rw [renderDecimal, hcheck, bitsOf_ofBits hbits]
  simp only [hfields, if_pos hsound, htext]
  rfl

/-- **Rendering undoes packing.** -/
theorem render_of_pack {width : Width} {token : Bytes} {kind : NumberKind} {word : Int64}
    (h : width.pack token = some (kind, word)) : width.render kind word = .ok token := by
  unfold pack at h
  split at h
  · next value hvalue =>
    cases h
    exact renderDecimal_of_pack hvalue
  · cases hvalue : width.packInteger token with
    | none => simp [hvalue] at h
    | some value =>
      rw [hvalue] at h
      cases h
      exact renderInteger_of_pack hvalue

/-- Tokens that are packed to the same number of the same kind are the same. -/
theorem pack_injective {width : Width} {token other : Bytes} {packed : Packed}
    (htoken : width.pack token = some packed) (hother : width.pack other = some packed) : token = other := by
  have h := (render_of_pack htoken).symm.trans (render_of_pack hother)
  exact Except.ok.inj h

end Width

end LogCodec
