import LogCodec.Packing.InPlace

/-!
# `LogCodec.Proofs.DigitLoop`: digits written from the right

The text of a packed decimal is written into a buffer that has a zero for every digit and the point in its place.  While
the loop goes on, the buffer is made of three parts: what was held before and the sign, the places that are still to be
written, and the digits behind them.  A number that runs out leaves zeros in front, which are its leading digits; a
number that does not has more digits than there are places.  So in the end the buffer holds the text of the decimal, or
digits are left and the buffer is cut back, and no position was ever outside of it.

## Contents
- **Digits.** `fixedDecimal_add`: the digits behind the point are the last ones.
- **Loop.** `writeDigits_front`, with no point on the way, and `writeDigits_behind`, which starts behind the point; from
  them `writeDigits_pointed`, the whole loop.
- **Fields.** `Word.toNat_field` and `Width.toNat_rawWord`.
- **Rendering.** `Width.renderInPlace_eq`: rendering into a buffer appends what `Width.render` gives, or nothing.
-/

namespace LogCodec

namespace Bytes

/-! ## Digits -/

@[simp] theorem length_fixedDecimal (count n : Nat) : (fixedDecimal count n).length = count := by
  induction count generalizing n with
  | zero => rfl
  | succ count ih => rw [fixedDecimal, List.length_append, ih, List.length_singleton]

/-- Zero has only zeros for digits. -/
theorem fixedDecimal_zero (count : Nat) : fixedDecimal count 0 = List.replicate count (ofChar '0') := by
  induction count with
  | zero => rfl
  | succ count ih =>
    rw [fixedDecimal, Nat.zero_div, ih, List.replicate_succ']
    rfl

/-- The last digits of a number are its own, and those in front are what is left without them. -/
theorem fixedDecimal_add (front back n : Nat) :
    fixedDecimal (front + back) n = fixedDecimal front (n / Nat.pow 10 back) ++ fixedDecimal back n := by
  induction back generalizing n with
  | zero =>
    rw [fixedDecimal, List.append_nil]
    exact congrArg (fixedDecimal front) (Nat.div_one n).symm
  | succ back ih =>
    have hpow : n / Nat.pow 10 (back + 1) = n / 10 / Nat.pow 10 back := by
      rw [Nat.div_div_eq_div_mul, Nat.mul_comm]
      rfl
    rw [← Nat.add_assoc, fixedDecimal, ih, fixedDecimal, hpow, List.append_assoc]

/-- The byte behind some others is replaced. -/
theorem set?_append (front : Bytes) (b c : UInt8) (back : Bytes) {position : Nat} (h : position = front.length) :
    set? (front ++ b :: back) position c = some (front ++ c :: back) := by
  subst h
  have hposition : front.length < (front ++ b :: back).length := by simp
  rw [set?, if_pos hposition, List.set_append_right _ _ (Nat.le_refl _), Nat.sub_self]
  rfl

end Bytes

namespace Decimal

/-! ## Loop -/

theorem writeDigits_of_le {body position : Nat} (h : position ≤ body) (point digits : Nat) (buffer : Bytes) :
    writeDigits body point position digits buffer = some (buffer, digits) := by
  cases position with
  | zero => rfl
  | succ position => rw [writeDigits, if_pos (.inr h)]

theorem writeDigits_zero (body point position : Nat) (buffer : Bytes) :
    writeDigits body point position 0 buffer = some (buffer, 0) := by
  cases position with
  | zero => rfl
  | succ position => rw [writeDigits, if_pos (.inl rfl)]

/-- The loop writes one digit and goes on with the number without it. -/
theorem writeDigits_digit {body point digits : Nat} (hdigits : digits ≠ 0) (front : Bytes)
    (hbody : body ≤ front.length) (hpoint : front.length ≠ point) (b : UInt8) (back : Bytes) :
    writeDigits body point (front.length + 1) digits (front ++ b :: back) =
      writeDigits body point front.length (digits / 10) (front ++ Bytes.digit (digits % 10) :: back) := by
  have hgo : ¬ (digits = 0 ∨ front.length + 1 ≤ body) := by omega
  rw [writeDigits, if_neg hgo, if_neg hpoint, Bytes.set?_append front b _ back rfl]
  rfl

theorem div_pow_succ (digits count : Nat) : digits / 10 / Nat.pow 10 count = digits / Nat.pow 10 (count + 1) := by
  rw [Nat.div_div_eq_div_mul, Nat.mul_comm]
  rfl

/-- With no point on the way the loop writes as many digits as there are places, and leaves the rest of the number. -/
theorem writeDigits_front (front : Bytes) {point count : Nat} (hpoint : front.length + count ≤ point) (digits : Nat)
    (back : Bytes) :
    writeDigits front.length point (front.length + count) digits
        (front ++ (List.replicate count (Bytes.ofChar '0') ++ back)) =
      some (front ++ (Bytes.fixedDecimal count digits ++ back), digits / Nat.pow 10 count) := by
  induction count generalizing digits back with
  | zero =>
    have hone : digits / Nat.pow 10 0 = digits := Nat.div_one digits
    rw [writeDigits_of_le (Nat.le_of_eq (Nat.add_zero _)), hone]
    rfl
  | succ count ih =>
    by_cases hdigits : digits = 0
    · rw [hdigits, writeDigits_zero, Bytes.fixedDecimal_zero, Nat.zero_div]
    · have hlength : (front ++ List.replicate count (Bytes.ofChar '0')).length = front.length + count := by simp
      have hstep := writeDigits_digit hdigits (front ++ List.replicate count (Bytes.ofChar '0'))
        (show front.length ≤ _ by omega) (show _ ≠ point by omega) (Bytes.ofChar '0') back
      simp only [hlength, List.append_assoc] at hstep
      rw [List.replicate_succ', List.append_assoc, List.singleton_append, ← Nat.add_assoc, hstep,
        ih (by omega), div_pow_succ, Bytes.fixedDecimal, List.append_assoc, List.singleton_append]

/-- Behind the point the loop writes the last digits, passes over the point and goes on in front of it. -/
theorem writeDigits_behind (front : Bytes) (whole count digits : Nat) (back : Bytes) :
    writeDigits front.length (front.length + whole) (front.length + whole + 1 + count) digits
        (front ++ (List.replicate whole (Bytes.ofChar '0') ++
          Bytes.ofChar '.' :: (List.replicate count (Bytes.ofChar '0') ++ back))) =
      some (front ++ (Bytes.fixedDecimal whole (digits / Nat.pow 10 count) ++
          Bytes.ofChar '.' :: (Bytes.fixedDecimal count digits ++ back)),
        digits / Nat.pow 10 (whole + count)) := by
  induction count generalizing digits back with
  | zero =>
    have hone : digits / Nat.pow 10 0 = digits := Nat.div_one digits
    by_cases hdigits : digits = 0
    · rw [hdigits, writeDigits_zero, Nat.zero_div, Nat.zero_div, Bytes.fixedDecimal_zero]
      rfl
    · have hgo : ¬ (digits = 0 ∨ front.length + whole + 1 ≤ front.length) := by omega
      rw [Nat.add_zero, writeDigits, if_neg hgo, if_pos rfl, writeDigits_front front (Nat.le_refl _), hone]
      rfl
  | succ count ih =>
    by_cases hdigits : digits = 0
    · rw [hdigits, writeDigits_zero, Nat.zero_div, Nat.zero_div, Bytes.fixedDecimal_zero, Bytes.fixedDecimal_zero]
    · have hlength : (front ++ (List.replicate whole (Bytes.ofChar '0') ++
          Bytes.ofChar '.' :: List.replicate count (Bytes.ofChar '0'))).length = front.length + whole + 1 + count := by
        simp only [List.length_append, List.length_cons, List.length_replicate]
        omega
      have hstep := writeDigits_digit hdigits (front ++ (List.replicate whole (Bytes.ofChar '0') ++
        Bytes.ofChar '.' :: List.replicate count (Bytes.ofChar '0'))) (show front.length ≤ _ by omega)
        (show _ ≠ front.length + whole by omega) (Bytes.ofChar '0') back
      simp only [hlength, List.append_assoc, List.cons_append] at hstep
      rw [List.replicate_succ', List.append_assoc, List.singleton_append, ← Nat.add_assoc, hstep, ih, div_pow_succ,
        div_pow_succ, Bytes.fixedDecimal, List.append_assoc, List.singleton_append]
      rfl

/-- Among the zeros of a blank text the point is set. -/
theorem set?_blank (front : Bytes) (whole places : Nat) :
    Bytes.set? (front ++ List.replicate (whole + places + 1) (Bytes.ofChar '0')) (front.length + whole)
        (Bytes.ofChar '.') =
      some (front ++ (List.replicate whole (Bytes.ofChar '0') ++
        Bytes.ofChar '.' :: List.replicate places (Bytes.ofChar '0'))) := by
  have hlength : front.length + whole = (front ++ List.replicate whole (Bytes.ofChar '0')).length := by simp
  have hset := Bytes.set?_append (front ++ List.replicate whole (Bytes.ofChar '0')) (Bytes.ofChar '0')
    (Bytes.ofChar '.') (List.replicate places (Bytes.ofChar '0')) hlength
  rw [Nat.add_assoc, ← List.replicate_append_replicate, List.replicate_succ, ← List.append_assoc, hset,
    List.append_assoc]

/-- Over a blank text with its point the loop writes the digits around the point. -/
theorem writeDigits_pointed (front : Bytes) (whole places digits : Nat) :
    writeDigits front.length (front.length + whole)
        (front ++ (List.replicate whole (Bytes.ofChar '0') ++
          Bytes.ofChar '.' :: List.replicate places (Bytes.ofChar '0'))).length digits
        (front ++ (List.replicate whole (Bytes.ofChar '0') ++
          Bytes.ofChar '.' :: List.replicate places (Bytes.ofChar '0'))) =
      some (front ++ (Bytes.fixedDecimal whole (digits / Nat.pow 10 places) ++
          Bytes.ofChar '.' :: Bytes.fixedDecimal places digits),
        digits / Nat.pow 10 (whole + places)) := by
  have hloop := writeDigits_behind front whole places digits []
  have hlength : (front ++ (List.replicate whole (Bytes.ofChar '0') ++
      Bytes.ofChar '.' :: List.replicate places (Bytes.ofChar '0'))).length = front.length + whole + 1 + places := by
    simp only [List.length_append, List.length_cons, List.length_replicate]
    omega
  simp only [List.append_nil] at hloop
  rw [hlength]
  exact hloop

/-- The text of a decimal: its last digits stand behind the point. -/
theorem text_eq (negative : Bool) (digits whole places : Nat) :
    (Decimal.mk negative digits (whole + places) places).text =
      Bytes.sign negative ++ (Bytes.fixedDecimal whole (digits / Nat.pow 10 places) ++
        Bytes.ofChar '.' :: Bytes.fixedDecimal places digits) := by
  have hlength := Bytes.length_fixedDecimal whole (digits / Nat.pow 10 places)
  simp only [text]
  rw [Nat.add_sub_cancel, Bytes.fixedDecimal_add, List.take_left' hlength, List.drop_left' hlength, List.append_assoc]

end Decimal

/-! ## Fields -/

/-- The number in some bits of a word. -/
theorem Word.toNat_field (word : UInt64) {start size : Nat} (hstart : start < 64) (hsize : size < 64) :
    (Word.field word start size).toNat = word.toNat / Nat.pow 2 start % Nat.pow 2 size := by
  have hpow : Nat.pow 2 size < 18446744073709551616 := Nat.pow_lt_pow_right (by omega) hsize
  have hpos : 0 < Nat.pow 2 size := Nat.pow_pos (by omega)
  have hone : ((1 : UInt64) <<< UInt64.ofNat size).toNat = Nat.pow 2 size := by
    rw [UInt64.toNat_shiftLeft, UInt64.toNat_ofNat', Nat.shiftLeft_eq]
    have hmod : size % 2 ^ 64 % 64 = size := by omega
    rw [hmod]
    show 1 * Nat.pow 2 size % 18446744073709551616 = _
    omega
  have hmask : ((1 : UInt64) <<< UInt64.ofNat size - 1).toNat = 2 ^ size - 1 := by
    rw [UInt64.toNat_sub, hone]
    show (18446744073709551616 - 1 + Nat.pow 2 size) % 18446744073709551616 = Nat.pow 2 size - 1
    omega
  have hmod : start % 2 ^ 64 % 64 = start := by omega
  rw [Word.field, UInt64.toNat_and, hmask, Nat.and_two_pow_sub_one_eq_mod, UInt64.toNat_shiftRight,
    UInt64.toNat_ofNat', hmod, Nat.shiftRight_eq_div_pow]
  rfl

namespace Width

/-- The bits of a word are its bit pattern for the width. -/
theorem toNat_rawWord (width : Width) (value : Int64) : (width.rawWord value).toNat = width.bitsOf value := by
  cases width with
  | eight => exact (Nat.mod_eq_of_lt value.toUInt64.toNat_lt).symm
  | four =>
    show value.toUInt64.toUInt32.toUInt64.toNat = value.toUInt64.toNat % 4294967296
    rw [UInt32.toNat_toUInt64, UInt64.toNat_toUInt32]

/-- The fields that are cut out of a word are those of its bit pattern. -/
theorem ofBits_fields (width : Width) (word : UInt64) :
    Decimal.ofBits width.layout word.toNat =
      ⟨Word.field word width.layout.signBit 1 == 1,
        (Word.field word (2 * width.layout.fieldBits) width.layout.digitBits).toNat,
        (Word.field word width.layout.fieldBits width.layout.fieldBits).toNat + 1,
        (Word.field word 0 width.layout.fieldBits).toNat + 1⟩ := by
  have hsizes : width.layout.signBit < 64 ∧ 2 * width.layout.fieldBits < 64 ∧ width.layout.digitBits < 64 ∧
      width.layout.fieldBits < 64 := by
    cases width <;> decide
  obtain ⟨hsign, hdigits, hdigitBits, hfield⟩ := hsizes
  have hnegative : (Word.field word width.layout.signBit 1 == 1) = word.toNat.testBit width.layout.signBit := by
    rw [Nat.testBit_eq_decide_div_mod_eq, Bool.eq_iff_iff, beq_iff_eq, decide_eq_true_eq, ← UInt64.toNat_inj,
      Word.toNat_field word hsign (by omega)]
    rfl
  rw [hnegative, Word.toNat_field word hdigits hdigitBits, Word.toNat_field word hfield hfield,
    Word.toNat_field word (by omega) hfield, Decimal.ofBits]
  have hone : Nat.pow 2 0 = 1 := rfl
  rw [hone, Nat.div_one]

/-! ## Rendering -/

/-- Writing a decimal into a buffer either appends its text or finds it unsound and leaves the buffer as it was. -/
theorem renderDecimalInPlace_eq (width : Width) (held : Bytes) (value : Int64) :
    width.renderDecimalInPlace held value = some (.append held (width.renderDecimal value)) := by
  unfold renderDecimalInPlace renderDecimal
  cases hcheck : width.check value with
  | error e => rfl
  | ok =>
    have hfields := width.ofBits_fields (width.rawWord value)
    rw [toNat_rawWord] at hfields
    simp only [bind, Except.bind, hfields, toNat_rawWord]
    generalize (Word.field (width.rawWord value) width.layout.signBit 1 == 1) = negative
    generalize (Word.field (width.rawWord value) (2 * width.layout.fieldBits) width.layout.digitBits).toNat = digits
    generalize (Word.field (width.rawWord value) width.layout.fieldBits width.layout.fieldBits).toNat + 1 = count
    generalize (Word.field (width.rawWord value) 0 width.layout.fieldBits).toNat + 1 = places
    by_cases hplaces : count < places
    · have hunsound : ¬ (Decimal.mk negative digits count places).Sound := fun hsound =>
        Nat.not_le_of_lt hplaces hsound.1
      rw [if_pos hplaces, if_neg hunsound]
      rfl
    · obtain ⟨whole, rfl⟩ := Nat.exists_eq_add_of_le' (Nat.le_of_not_lt hplaces)
      generalize hfront : held ++ Bytes.sign negative = front
      have hback : Bytes.back? (front.length + (whole + places)) places = some (front.length + whole) := by
        rw [Bytes.back?, if_pos (by omega), ← Nat.add_assoc, Nat.add_sub_cancel]
      simp only [if_neg hplaces, hback, Option.bind_some, Decimal.set?_blank, Decimal.writeDigits_pointed]
      -- The loop leaves digits exactly if there are more of them than places.
      have hpos : 0 < Nat.pow 10 (whole + places) := Nat.pow_pos (by omega)
      by_cases hdigits : digits < Nat.pow 10 (whole + places)
      · have hsound : (Decimal.mk negative digits (whole + places) places).Sound := ⟨Nat.le_add_left _ _, hdigits⟩
        rw [if_pos hsound, Nat.div_eq_of_lt hdigits, if_neg (Nat.lt_irrefl 0), ← hfront, Decimal.text_eq,
          List.append_assoc]
        rfl
      · have hunsound : ¬ (Decimal.mk negative digits (whole + places) places).Sound := fun hsound => hdigits hsound.2
        rw [if_neg hunsound, if_pos (Nat.div_pos (Nat.le_of_not_lt hdigits) hpos), ← hfront, List.append_assoc,
          List.take_left]
        rfl

/-- **Rendering into a buffer appends the text of a packed number, or leaves the buffer as it was**, and no position
is outside of it on the way. -/
theorem renderInPlace_eq (width : Width) (kind : NumberKind) (held : Bytes) (value : Int64) :
    width.renderInPlace kind held value = some (.append held (width.render kind value)) := by
  cases kind with
  | float => exact renderDecimalInPlace_eq width held value
  | integer =>
    unfold renderInPlace
    simp only [render, renderInteger]
    cases width.check value with
    | error e => rfl
    | ok => rfl

end Width

end LogCodec
