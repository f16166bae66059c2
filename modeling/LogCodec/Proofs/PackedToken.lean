import LogCodec.Packing.Checked
import LogCodec.Proofs.DigitLoop
import LogCodec.Proofs.TokenGrammar

/-!
# `LogCodec.Proofs.PackedToken`: packing meets no fault

A pass over a token adds up its digits, and there are never so many of them that a word overflows: a body that is too
long is refused beforehand.  What the pass finds are the fields of the decimal that the token spells, and it refuses any
other token.  The fields are then put side by side in a word.  Each has room in the bits that the layout gives it, so
that no shift loses a bit and no two fields have a bit in common.

## Contents
- **Words.** `Word.exact_of_lt`, `Word.shift_of_lt` and `Word.join_of_lt`: when a step has a result.
- **Pass.** `Decimal.foldlM_digits`, one run of digits; `Decimal.scan_digits` and `Decimal.scan_cases`, a whole body.
- **Fields.** `mul_pow_lt` and `mul_pow_add`, a field below those in front of it; `Decimal.joinFields_eq`.
- **Packing.** `Width.packDecimalChecked_eq` and `Width.packChecked_eq`; the main statements are `Width.pack_grammar`,
  which tokens are packed, and `Width.pack_restores`, what becomes of them.
-/

namespace LogCodec

/-! ## Words -/

/-- A step that has a result is followed by the next one. -/
theorem ok_bind {ε α β : Type} (a : α) (next : α → Except ε β) : (Except.ok a >>= next) = next a := rfl

namespace Word

theorem exact_of_lt {result : Nat} (h : result < UInt64.size) : exact result = .ok (UInt64.ofNat result) := if_pos h

theorem minus_of_le {a b : Nat} (h : b ≤ a) : minus a b = .ok (a - b) := if_pos h

/-- A shift has a result if the number still has room in a word. -/
theorem shift_of_lt (number : Nat) {places : Nat} (hplaces : places < 64)
    (h : number * Nat.pow 2 places < UInt64.size) :
    shift (UInt64.ofNat number) places = .ok (UInt64.ofNat (number * Nat.pow 2 places)) := by
  have hpos : 0 < Nat.pow 2 places := Nat.pow_pos (by omega)
  have hnumber : number < UInt64.size := Nat.lt_of_le_of_lt (Nat.le_mul_of_pos_right number hpos) h
  rw [shift, if_pos hplaces, UInt64.toNat_ofNat_of_lt' hnumber, exact_of_lt h]

/-- A multiple of a power of two and a number below that power have no bit in common, and joined they are the sum. -/
theorem join_of_lt {high low places : Nat} (hlow : low < Nat.pow 2 places)
    (h : high * Nat.pow 2 places + low < UInt64.size) :
    join (UInt64.ofNat (high * Nat.pow 2 places)) (UInt64.ofNat low) =
      .ok (UInt64.ofNat (high * Nat.pow 2 places + low)) := by
  have hhigh : (UInt64.ofNat (high * Nat.pow 2 places)).toNat = 2 ^ places * high := by
    rw [UInt64.toNat_ofNat_of_lt' (by omega), Nat.mul_comm]
    rfl
  have hlowNat : (UInt64.ofNat low).toNat = low := UInt64.toNat_ofNat_of_lt' (by omega)
  have hcommon : UInt64.ofNat (high * Nat.pow 2 places) &&& UInt64.ofNat low = 0 := by
    apply UInt64.toNat_inj.mp
    rw [UInt64.toNat_and, hhigh, hlowNat]
    apply Nat.eq_of_testBit_eq
    intro i
    rw [Nat.testBit_and, Nat.testBit_two_pow_mul]
    by_cases hi : places ≤ i
    · rw [Nat.testBit_lt_two_pow (Nat.lt_of_lt_of_le hlow (Nat.pow_le_pow_right (by omega) hi)), Bool.and_false]
      exact (Nat.zero_testBit i).symm
    · simp [hi]
  have hsum : UInt64.ofNat (high * Nat.pow 2 places) ||| UInt64.ofNat low =
      UInt64.ofNat (high * Nat.pow 2 places + low) := by
    apply UInt64.toNat_inj.mp
    rw [UInt64.toNat_or, hhigh, hlowNat, ← Nat.two_pow_add_eq_or_of_lt hlow, UInt64.toNat_ofNat_of_lt' h,
      Nat.mul_comm]
    rfl
  rw [join, if_pos hcommon, hsum]

end Word

namespace Decimal

/-! ## Pass -/

/-- The most digits that a pass can add up; their number has room in a word. -/
theorem pow_lt_size {count : Nat} (h : count ≤ 19) : Nat.pow 10 count < UInt64.size := by
  have hpow : Nat.pow 10 count ≤ Nat.pow 10 19 := Nat.pow_le_pow_right (by omega) h
  have hmost : Nat.pow 10 19 < UInt64.size := by decide
  omega

section
variable (length : Nat) {pass : Pass} {b : UInt8}

/-- A digit is added behind those before it. -/
theorem visit_digit (hb : Bytes.isDigit b = true) {value : Nat} (hvalue : value < Nat.pow 10 pass.count)
    (hdigits : pass.digits = UInt64.ofNat value) (hroom : pass.count < 19) (position : Nat) :
    Pass.visit length pass (b, position) =
        .ok ⟨UInt64.ofNat (10 * value + Bytes.digitValue b), pass.count + 1, pass.places⟩ ∧
      10 * value + Bytes.digitValue b < Nat.pow 10 (pass.count + 1) := by
  have hdigit := Bytes.digitValue_lt hb
  have hpow : Nat.pow 10 (pass.count + 1) = Nat.pow 10 pass.count * 10 := rfl
  have hsize := pow_lt_size (show pass.count + 1 ≤ 19 from hroom)
  refine ⟨?_, by omega⟩
  have hvalueNat : pass.digits.toNat = value := by
    rw [hdigits]
    exact UInt64.toNat_ofNat_of_lt' (by omega)
  have htens : Word.exact (pass.digits.toNat * 10) = .ok (UInt64.ofNat (value * 10)) := by
    rw [hvalueNat]
    exact Word.exact_of_lt (by omega)
  have htensNat : (UInt64.ofNat (value * 10)).toNat = value * 10 := UInt64.toNat_ofNat_of_lt' (by omega)
  have hsum : Word.exact (value * 10 + Bytes.digitValue b) = .ok (UInt64.ofNat (10 * value + Bytes.digitValue b)) := by
    rw [Nat.mul_comm value 10]
    exact Word.exact_of_lt (by omega)
  unfold Pass.visit
  rw [if_pos hb, htens, ok_bind, htensNat, hsum]
  rfl

/-- The point is taken once. -/
theorem visit_point (hplaces : pass.places = none) {position : Nat} (hposition : position + 1 ≤ length) :
    Pass.visit length pass (Bytes.ofChar '.', position) =
      .ok ⟨pass.digits, pass.count, some (length - 1 - position)⟩ := by
  have hdigit : ¬ Bytes.isDigit (Bytes.ofChar '.') = true := by decide
  unfold Pass.visit
  rw [if_neg hdigit, if_pos ⟨rfl, hplaces⟩, Word.minus_of_le (by omega), ok_bind, Word.minus_of_le (by omega)]
  rfl

/-- Any other byte is refused, and so is a second point. -/
theorem visit_refused (hb : Bytes.isDigit b = false) (hpoint : b = Bytes.ofChar '.' → pass.places ≠ none)
    (position : Nat) : Pass.visit length pass (b, position) = .error .refused := by
  have hneither : ¬ (b = Bytes.ofChar '.' ∧ pass.places = none) := fun h => hpoint h.1 h.2
  unfold Pass.visit
  rw [if_neg (by simp [hb]), if_neg hneither]

end

/-- **A run of digits is added up.** -/
theorem foldlM_digits {digits : Bytes} (h : digits.all Bytes.isDigit = true) (length : Nat) {value count : Nat}
    (hvalue : value < Nat.pow 10 count) (hroom : count + digits.length ≤ 19) (places : Option Nat) (position : Nat) :
    (digits.zipIdx position).foldlM (Pass.visit length) ⟨UInt64.ofNat value, count, places⟩ =
      .ok ⟨UInt64.ofNat (digits.foldl (fun value b => 10 * value + Bytes.digitValue b) value), count + digits.length,
        places⟩ := by
  induction digits generalizing value count position with
  | nil => rfl
  | cons b rest ih =>
    rw [List.all_cons, Bool.and_eq_true] at h
    rw [List.length_cons] at hroom
    have hpass : (Pass.mk (UInt64.ofNat value) count places).count < 19 := show count < 19 by omega
    obtain ⟨hvisit, hnext⟩ := visit_digit length h.1 hvalue rfl hpass position
    have hroom : count + 1 + rest.length ≤ 19 := by omega
    rw [List.zipIdx_cons, List.foldlM_cons, hvisit, ok_bind, ih h.2 hnext hroom, List.foldl_cons, List.length_cons,
      Nat.add_assoc, Nat.add_comm 1]

section
variable {whole fraction : Bytes} (hwhole : whole.all Bytes.isDigit = true)
include hwhole

/-- The pass over digits in front of something else. -/
theorem foldlM_whole (length : Nat) (hroom : whole.length ≤ 19) (rest : Bytes) :
    (whole ++ rest).zipIdx.foldlM (Pass.visit length) ⟨0, 0, none⟩ =
      (rest.zipIdx whole.length).foldlM (Pass.visit length)
        ⟨UInt64.ofNat (Bytes.decimalValue whole), whole.length, none⟩ := by
  have hdigits := foldlM_digits hwhole length (show 0 < Nat.pow 10 0 by decide) (by omega) none 0
  rw [List.zipIdx_append, List.foldlM_append]
  show (List.foldlM (Pass.visit length) ⟨UInt64.ofNat 0, 0, none⟩ (whole.zipIdx 0) >>= _) = _
  rw [hdigits, ok_bind, Nat.zero_add]
  rfl

/-- The pass over digits and a point, in front of something else. -/
theorem scan_point (rest : Bytes) (hroom : whole.length ≤ 19) :
    scan (whole ++ Bytes.ofChar '.' :: rest) =
      (rest.zipIdx (whole.length + 1)).foldlM (Pass.visit (whole ++ Bytes.ofChar '.' :: rest).length)
        ⟨UInt64.ofNat (Bytes.decimalValue whole), whole.length, some rest.length⟩ := by
  have hlength : (whole ++ Bytes.ofChar '.' :: rest).length = whole.length + 1 + rest.length := by
    rw [List.length_append, List.length_cons]
    omega
  have hplaces : whole.length + 1 + rest.length - 1 - whole.length = rest.length := by omega
  unfold scan
  rw [foldlM_whole hwhole _ hroom, List.zipIdx_cons, List.foldlM_cons, visit_point _ rfl (by omega), hlength, hplaces]
  rfl

/-- **The pass over a decimal finds its fields.** -/
theorem scan_digits (hfraction : fraction.all Bytes.isDigit = true) (hroom : whole.length + fraction.length ≤ 19) :
    scan (whole ++ Bytes.ofChar '.' :: fraction) =
      .ok ⟨UInt64.ofNat (Bytes.decimalValue (whole ++ fraction)), whole.length + fraction.length,
        some fraction.length⟩ := by
  rw [scan_point hwhole fraction (by omega), foldlM_digits hfraction _ (Bytes.decimalValue_lt hwhole) hroom]
  simp only [Bytes.decimalValue, List.foldl_append]

end

/-- Behind a run of digits stands nothing, or a byte that is no digit. -/
theorem exists_digits (body : Bytes) :
    body.all Bytes.isDigit = true ∨
      ∃ whole b rest, body = whole ++ b :: rest ∧ whole.all Bytes.isDigit = true ∧ Bytes.isDigit b = false := by
  have hbody := List.takeWhile_append_dropWhile (p := Bytes.isDigit) (l := body)
  cases hrest : body.dropWhile Bytes.isDigit with
  | nil =>
    rw [hrest, List.append_nil] at hbody
    rw [← hbody]
    exact .inl List.all_takeWhile
  | cons b rest =>
    have hb : Bytes.isDigit b = false := by
      have := List.head?_dropWhile_not Bytes.isDigit body
      rw [hrest] at this
      simpa using this
    rw [hrest] at hbody
    exact .inr ⟨_, b, rest, hbody.symm, List.all_takeWhile, hb⟩

/-- **What a pass over a short body comes to**: the fields of a decimal, unless the point is last; no point; or a
refusal. -/
theorem scan_cases {body : Bytes} (hroom : body.length ≤ 19) :
    (∃ whole fraction, body = whole ++ Bytes.ofChar '.' :: fraction ∧ whole.all Bytes.isDigit = true ∧
      fraction.all Bytes.isDigit = true) ∨
    (∃ pass, scan body = .ok pass ∧ pass.places = none) ∨ scan body = .error .refused := by
  rcases exists_digits body with hall | ⟨whole, b, rest, rfl, hwhole, hb⟩
  · have hscan := foldlM_whole hall body.length hroom []
    rw [List.append_nil] at hscan
    exact .inr (.inl ⟨_, hscan, rfl⟩)
  · rw [List.length_append, List.length_cons] at hroom
    by_cases hpoint : b = Bytes.ofChar '.'
    · subst hpoint
      rcases exists_digits rest with hall | ⟨more, c, tail, rfl, hmore, hc⟩
      · exact .inl ⟨whole, rest, rfl, hwhole, hall⟩
      · -- The digits behind the point are followed by a byte that is neither a digit nor a first point.
        refine .inr (.inr ?_)
        rw [List.length_append, List.length_cons] at hroom
        rw [scan_point hwhole _ (by omega), List.zipIdx_append, List.foldlM_append,
          foldlM_digits hmore _ (Bytes.decimalValue_lt hwhole) (by omega), ok_bind, List.zipIdx_cons,
          List.foldlM_cons, visit_refused _ hc (fun _ => by simp)]
        rfl
    · refine .inr (.inr ?_)
      unfold scan
      rw [foldlM_whole hwhole _ (by omega), List.zipIdx_cons, List.foldlM_cons,
        visit_refused _ hb (fun h => absurd h hpoint)]
      rfl

/-! ## Fields -/

/-- The layout has a place of its own for each field, in the order of the fields. -/
theorem layout_bounds (width : Width) :
    width.layout.digitBits + 2 * width.layout.fieldBits ≤ width.layout.signBit ∧ width.layout.signBit < 64 ∧
      width.layout.maxDigits ≤ Nat.pow 2 width.layout.fieldBits ∧ Nat.pow 2 width.bits ≤ UInt64.size := by
  cases width with
  | eight => decide
  | four => decide

/-- A number of some bits stays below the place behind these bits, wherever they start. -/
theorem mul_pow_lt {field bits start upper : Nat} (hfield : field < Nat.pow 2 bits) (hupper : bits + start ≤ upper) :
    field * Nat.pow 2 start < Nat.pow 2 upper :=
  calc field * Nat.pow 2 start
      < Nat.pow 2 bits * Nat.pow 2 start := Nat.mul_lt_mul_of_pos_right hfield (Nat.pow_pos (by omega))
    _ = Nat.pow 2 (bits + start) := (Nat.pow_add 2 _ _).symm
    _ ≤ Nat.pow 2 upper := Nat.pow_le_pow_right (by omega) hupper

/-- A field and those in front of it together start where the field does. -/
theorem mul_pow_add {upper start : Nat} (hstart : start ≤ upper) (front field : Nat) :
    front * Nat.pow 2 upper + field * Nat.pow 2 start =
      (front * Nat.pow 2 (upper - start) + field) * Nat.pow 2 start := by
  have hpow : Nat.pow 2 upper = Nat.pow 2 (upper - start) * Nat.pow 2 start := by
    rw [← Nat.sub_add_cancel hstart, Nat.add_sub_cancel]
    exact Nat.pow_add 2 _ _
  rw [hpow, ← Nat.mul_assoc, ← Nat.add_mul]

/-- **The fields of a decimal are put side by side in a word**, and none of them reaches into another. -/
theorem joinFields_eq {width : Width} {d : Decimal} (hfits : d.Fits width.layout) (hplaces : 1 ≤ d.places)
    (hcount : d.places ≤ d.count) :
    joinFields width.layout d.negative (UInt64.ofNat d.digits) d.count d.places =
      .ok (UInt64.ofNat (d.toBits width.layout)) := by
  obtain ⟨hbits, -⟩ := ofBits_toBits hfits hplaces hcount
  obtain ⟨hdigitBits, hsignBit, hmaxDigits, hsize⟩ := layout_bounds width
  obtain ⟨hfew, hdigits⟩ := hfits
  generalize width.layout = layout at *
  have htotal : d.toBits layout < UInt64.size := by omega
  unfold toBits at htotal ⊢
  have hnegative : (if d.negative then 1 else 0 : UInt64) = UInt64.ofNat d.negative.toNat := by
    cases d.negative with
    | false => rfl
    | true => rfl
  have hroom : d.count - 1 < UInt64.size ∧ d.places - 1 < UInt64.size := by
    have hfield : Nat.pow 2 layout.fieldBits ≤ Nat.pow 2 63 := Nat.pow_le_pow_right (by omega) (by omega)
    have hmost : Nat.pow 2 63 < UInt64.size := by decide
    omega
  -- Each field has room in a word, and stays below the field in front of it.
  have hsign := Word.shift_of_lt _ hsignBit (show d.negative.toNat * Nat.pow 2 layout.signBit < UInt64.size by omega)
  have hnumber := Word.shift_of_lt _ (show 2 * layout.fieldBits < 64 by omega)
    (show d.digits * Nat.pow 2 (2 * layout.fieldBits) < UInt64.size by omega)
  have hcounted := Word.shift_of_lt _ (show layout.fieldBits < 64 by omega)
    (show (d.count - 1) * Nat.pow 2 layout.fieldBits < UInt64.size by omega)
  have hbelowSign := mul_pow_lt hdigits hdigitBits
  have hbelowDigits : (d.count - 1) * Nat.pow 2 layout.fieldBits < Nat.pow 2 (2 * layout.fieldBits) :=
    mul_pow_lt (show d.count - 1 < Nat.pow 2 layout.fieldBits by omega) (by omega)
  -- What was joined so far is a multiple of the weight of the last field, so that the next one can be joined to it.
  have hfront := mul_pow_add (show 2 * layout.fieldBits ≤ layout.signBit by omega) d.negative.toNat d.digits
  generalize d.negative.toNat * Nat.pow 2 (layout.signBit - 2 * layout.fieldBits) + d.digits = front at hfront
  have hmiddle := mul_pow_add (show layout.fieldBits ≤ 2 * layout.fieldBits by omega) front (d.count - 1)
  rw [joinFields, hnegative, hsign, ok_bind, hnumber, ok_bind, Word.join_of_lt hbelowSign (by omega), ok_bind,
    Word.minus_of_le (by omega), ok_bind, Word.exact_of_lt hroom.1, ok_bind, hcounted, ok_bind, hfront,
    Word.join_of_lt hbelowDigits (by omega), ok_bind, Word.minus_of_le hplaces, ok_bind, Word.exact_of_lt hroom.2,
    ok_bind, hmiddle, Word.join_of_lt (by omega) (by omega)]

end Decimal

namespace Width

/-- A bit pattern is kept as the word that it is the bit pattern of. -/
theorem keep_eq {width : Width} {raw : Nat} (h : raw < Nat.pow 2 width.bits) :
    width.keep (UInt64.ofNat raw) = .ok (width.ofBits raw) := by
  cases width with
  | eight => rfl
  | four =>
    have hraw : raw < 4294967296 := h
    have hnat : (UInt64.ofNat raw).toNat = raw := UInt64.toNat_ofNat_of_lt' (Nat.lt_trans hraw (by decide))
    have hlow : (UInt64.ofNat raw).toUInt32 = UInt32.ofNat raw := by
      apply UInt32.toNat_inj.mp
      rw [UInt64.toNat_toUInt32, hnat, UInt32.toNat_ofNat']
    rw [keep, hnat, if_pos hraw, hlow]
    rfl

/-- Without a decimal that fits there is no word. -/
theorem packDecimal_eq_none {width : Width} {token : Bytes}
    (h : ∀ negative whole fraction, Decimal.Spells token negative whole fraction →
      ¬ (Decimal.ofDigits negative whole fraction).Fits width.layout) : width.packDecimal token = none := by
  cases hword : width.packDecimal token with
  | none => rfl
  | some word =>
    obtain ⟨d, hd, hfits, -⟩ := packDecimal_eq_some_iff.mp hword
    obtain ⟨negative, whole, fraction, hspells, rfl⟩ := Decimal.ofToken?_eq_some_iff.mp hd
    exact absurd hfits (h negative whole fraction hspells)

/-- A token that spells a decimal is packed if the decimal fits, and refused otherwise. -/
theorem packDecimalChecked_of_spells {width : Width} {token whole fraction : Bytes} {negative : Bool}
    (h : Decimal.Spells token negative whole fraction) :
    width.packDecimalChecked token = Halt.orRefused (width.packDecimal token) := by
  have hunique : ∀ {negative' whole' fraction'}, Decimal.Spells token negative' whole' fraction' →
      Decimal.ofDigits negative' whole' fraction' = Decimal.ofDigits negative whole fraction := by
    intro negative' whole' fraction' h'
    exact Option.some.inj (h'.ofToken?_eq.symm.trans h.ofToken?_eq)
  have hrefused : ¬ (Decimal.ofDigits negative whole fraction).Fits width.layout →
      width.packDecimal token = none := by
    intro hunfit
    apply packDecimal_eq_none
    intro negative' whole' fraction' h'
    rw [hunique h']
    exact hunfit
  have hmost : width.layout.maxDigits ≤ 16 ∧ width.layout.digitBits < 64 := by cases width <;> decide
  have hlength : (whole ++ Bytes.ofChar '.' :: fraction).length = whole.length + fraction.length + 1 := by
    rw [List.length_append, List.length_cons]
    omega
  have hpos : 0 < fraction.length := List.length_pos_iff.mpr h.fraction_ne_nil
  unfold packDecimalChecked
  rw [h.splitSign_eq]
  simp only [hlength]
  by_cases hfew : whole.length + fraction.length ≤ width.layout.maxDigits
  · have hvalue := Bytes.decimalValue_lt h.digits
    rw [List.length_append] at hvalue
    have hroom : Bytes.decimalValue (whole ++ fraction) < UInt64.size :=
      Nat.lt_trans hvalue (Decimal.pow_lt_size (by omega))
    have hfilter : (some fraction.length).filter (0 < ·) = some fraction.length := by simp [hpos]
    have hboundRoom : Nat.pow 2 width.layout.digitBits < UInt64.size := Nat.pow_lt_pow_right (by omega) hmost.2
    have hbound : Word.shift 1 width.layout.digitBits = .ok (UInt64.ofNat (1 * Nat.pow 2 width.layout.digitBits)) :=
      Word.shift_of_lt 1 hmost.2 (by omega)
    have hcompare : UInt64.ofNat (1 * Nat.pow 2 width.layout.digitBits) ≤
        UInt64.ofNat (Bytes.decimalValue (whole ++ fraction)) ↔
          Nat.pow 2 width.layout.digitBits ≤ Bytes.decimalValue (whole ++ fraction) := by
      rw [UInt64.le_iff_toNat_le, UInt64.toNat_ofNat_of_lt' hroom, Nat.one_mul, UInt64.toNat_ofNat_of_lt' hboundRoom]
    rw [if_neg (by omega), Decimal.scan_digits h.whole_digits h.fraction_digits (by omega), ok_bind, hfilter]
    simp only [Halt.orRefused, ok_bind, hbound, hcompare]
    by_cases hdigits : Bytes.decimalValue (whole ++ fraction) < Nat.pow 2 width.layout.digitBits
    · have hfits : (Decimal.ofDigits negative whole fraction).Fits width.layout := ⟨hfew, hdigits⟩
      have hjoin := Decimal.joinFields_eq hfits hpos (Nat.le_add_left _ _)
      obtain ⟨hbits, -⟩ := Decimal.ofBits_toBits hfits hpos (Nat.le_add_left _ _)
      have hword : width.packDecimal token = some _ := packDecimal_eq_some_iff.mpr ⟨_, h.ofToken?_eq, hfits, rfl⟩
      rw [if_neg (by omega), hword]
      exact (congrArg (· >>= width.keep) hjoin).trans (keep_eq hbits)
    · rw [if_pos (.inr (Nat.le_of_not_lt hdigits)), hrefused fun hfits => hdigits hfits.2]
  · rw [if_pos (by omega), hrefused fun hfits => hfew hfits.1]
    rfl

/-- **Packing a decimal in one pass meets no fault**, and has the result of packing it at all. -/
theorem packDecimalChecked_eq (width : Width) (token : Bytes) :
    width.packDecimalChecked token = Halt.orRefused (width.packDecimal token) := by
  by_cases hspells : ∃ negative whole fraction, Decimal.Spells token negative whole fraction
  · obtain ⟨negative, whole, fraction, hspells⟩ := hspells
    exact packDecimalChecked_of_spells hspells
  · have hnone : width.packDecimal token = none := by
      apply packDecimal_eq_none
      intro negative whole fraction h
      exact absurd ⟨negative, whole, fraction, h⟩ hspells
    have hmost : width.layout.maxDigits ≤ 16 := by cases width <;> decide
    have htoken := Bytes.sign_append_splitSign token
    rw [hnone]
    unfold packDecimalChecked
    generalize Bytes.splitSign token = parts at htoken
    obtain ⟨negative, body⟩ := parts
    simp only at htoken ⊢
    by_cases hlong : width.layout.maxDigits + 1 < body.length
    · rw [if_pos hlong]
      rfl
    · rw [if_neg hlong]
      rcases Decimal.scan_cases (show body.length ≤ 19 by omega) with
        ⟨whole, fraction, rfl, hwhole, hfraction⟩ | ⟨pass, hpass, hplaces⟩ | hrefused
      · -- The digits would spell a decimal, if there were any behind the point.
        have hnil : fraction = [] := by
          by_contra hne
          exact hspells ⟨negative, whole, fraction, htoken.symm, hwhole, hfraction, hne⟩
        subst hnil
        rw [List.length_append, List.length_cons, List.length_nil] at hlong
        rw [Decimal.scan_digits hwhole hfraction (by rw [List.length_nil]; omega)]
        rfl
      · rw [hpass, ok_bind, hplaces]
        rfl
      · rw [hrefused]
        rfl

/-- **Packing meets no fault.** -/
theorem packChecked_eq (width : Width) (token : Bytes) :
    width.packChecked token = Halt.orRefused (width.pack token) := by
  unfold packChecked pack
  rw [packDecimalChecked_eq]
  cases width.packDecimal token with
  | some word => rfl
  | none =>
    cases width.packInteger token with
    | some word => rfl
    | none => rfl

/-- **Which tokens are packed.**  As an integer a token is packed exactly if it spells one in the range of the width,
and then it is packed to its value; as a decimal, in one pass, exactly if it spells one of which the digits are few
enough and, read as one number, small enough.  At most one of the two takes a token, so that packing gives the same when
integers come first. -/
theorem pack_grammar (width : Width) (token : Bytes) :
    ((∃ word, width.packInteger token = some word) ↔
      ∃ value, Bytes.SpellsInteger token value ∧ width.Holds value) ∧
    (∀ word, width.packInteger token = some word → Bytes.SpellsInteger token word.toInt) ∧
    width.packDecimalChecked token = Halt.orRefused (width.packDecimal token) ∧
    ((∃ word, width.packDecimal token = some word) ↔
      ∃ negative whole fraction, Decimal.Spells token negative whole fraction ∧
        1 ≤ (whole ++ fraction).length ∧ (whole ++ fraction).length ≤ width.decimalLimits.1 ∧
        Bytes.decimalValue (whole ++ fraction) < width.decimalLimits.2) ∧
    (width.packInteger token = none ∨ width.packDecimal token = none) ∧
    width.pack token =
      match width.packInteger token with
      | some value => some (.integer, value)
      | none => (width.packDecimal token).map fun value => (.float, value) := by
  refine ⟨exists_packInteger_iff, ?value, packDecimalChecked_eq width token, ?decimals, ?once, ?order⟩
  case value =>
    intro word hword
    obtain ⟨value, hspells, -⟩ := exists_packInteger_iff.mp ⟨word, hword⟩
    rw [toInt_of_packInteger hword hspells]
    exact hspells
  case decimals =>
    have hpos : ∀ {negative whole fraction}, Decimal.Spells token negative whole fraction →
        1 ≤ (whole ++ fraction).length := by
      intro negative whole fraction hspells
      have hfraction := List.length_pos_iff.mpr hspells.fraction_ne_nil
      rw [List.length_append]
      omega
    rw [exists_packDecimal_iff]
    constructor
    · rintro ⟨negative, whole, fraction, hspells, hlimits⟩
      exact ⟨negative, whole, fraction, hspells, hpos hspells, hlimits⟩
    · rintro ⟨negative, whole, fraction, hspells, -, hlimits⟩
      exact ⟨negative, whole, fraction, hspells, hlimits⟩
  case once =>
    cases hdecimal : width.packDecimal token with
    | none => exact .inr rfl
    | some word => exact .inl (packInteger_eq_none_of_packDecimal hdecimal)
  case order =>
    unfold pack
    cases hdecimal : width.packDecimal token with
    | some word =>
      rw [packInteger_eq_none_of_packDecimal hdecimal]
      rfl
    | none =>
      cases width.packInteger token with
      | some value => rfl
      | none => rfl

/-- A packed number lies in the range of the width. -/
theorem holds_of_pack {width : Width} {token : Bytes} {kind : NumberKind} {word : Int64}
    (h : width.pack token = some (kind, word)) : width.Holds word.toInt := by
  unfold pack at h
  cases hdecimal : width.packDecimal token with
  | some value =>
    rw [hdecimal] at h
    cases h
    obtain ⟨d, -, -, rfl⟩ := packDecimal_eq_some_iff.mp hdecimal
    exact holds_ofBits width _
  | none =>
    rw [hdecimal] at h
    obtain ⟨value, hvalue, hword⟩ := Option.map_eq_some_iff.mp h
    cases hword
    obtain ⟨number, -, hholds, rfl⟩ := packInteger_eq_some_iff.mp hvalue
    rw [toInt_ofInt hholds]
    exact hholds

/-- The fields of a packed decimal are those that the token shows. -/
theorem ofBits_of_pack {width : Width} {token : Bytes} {word : Int64} (h : width.pack token = some (.float, word)) :
    Decimal.ofToken? token = some (Decimal.ofBits width.layout (width.bitsOf word)) := by
  unfold pack at h
  cases hdecimal : width.packDecimal token with
  | some value =>
    rw [hdecimal] at h
    cases h
    obtain ⟨d, hd, hfits, rfl⟩ := packDecimal_eq_some_iff.mp hdecimal
    obtain ⟨hplaces, hsound, -⟩ := Decimal.fields_of_ofToken? hd
    obtain ⟨hbits, hfields⟩ := Decimal.ofBits_toBits hfits hplaces hsound.1
    rw [bitsOf_ofBits hbits, hfields, hd]
  | none =>
    rw [hdecimal] at h
    obtain ⟨value, -, hword⟩ := Option.map_eq_some_iff.mp h
    cases hword

/-- **What becomes of a token that is packed.**  On the way no word overflows, no shift is out of range and no field
reaches into another.  The packed number lies in the range of the width, and as a decimal it has the fields that the
token shows; rendered, it gives the token back behind whatever a buffer holds.  No other token is packed to it. -/
theorem pack_restores (width : Width) (token : Bytes) :
    width.packChecked token = Halt.orRefused (width.pack token) ∧
    ∀ kind word, width.pack token = some (kind, word) →
      width.Holds word.toInt ∧
      (kind = .float → Decimal.ofToken? token = some (Decimal.ofBits width.layout (width.bitsOf word))) ∧
      (∀ held, width.renderInPlace kind held word = some ⟨held ++ token, none⟩) ∧
      ∀ other, width.pack other = some (kind, word) → other = token := by
  refine ⟨packChecked_eq width token, ?_⟩
  intro kind word hword
  refine ⟨holds_of_pack hword, ?fields, ?rendered, ?unique⟩
  case fields =>
    rintro rfl
    exact ofBits_of_pack hword
  case rendered =>
    intro held
    rw [renderInPlace_eq, render_of_pack hword]
    rfl
  case unique =>
    intro other hother
    exact pack_injective hother hword

/-- The token `-.05`, which has no digit in front of the point and a zero behind it, packed into four bytes. -/
theorem pack_restores_leading_point :
    ∃ word, Width.four.pack [0x2D, 0x2E, 0x30, 0x35] = some (.float, word) ∧
      word.toInt = -2147483319 ∧
      Width.four.renderInPlace .float [0x78] word = some ⟨[0x78, 0x2D, 0x2E, 0x30, 0x35], none⟩ := by
  have hword : Width.four.pack [0x2D, 0x2E, 0x30, 0x35] = some (.float, Int64.ofInt (-2147483319)) := by decide
  obtain ⟨-, hrestores⟩ := pack_restores .four [0x2D, 0x2E, 0x30, 0x35]
  obtain ⟨-, -, hrendered, -⟩ := hrestores .float _ hword
  exact ⟨_, hword, by decide, hrendered [0x78]⟩

end Width

end LogCodec
