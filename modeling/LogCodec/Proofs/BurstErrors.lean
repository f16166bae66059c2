import LogCodec.Proofs.Storage

/-!
# `LogCodec.Proofs.BurstErrors`: a short error in a payload is found

The register of the checksum moves on by an injective step, so that two registers that differ keep differing as long as
they take in the same bytes.  The register has four bytes, and to take in up to four bytes one by one is to take them in
all at once and to move on after that.  So different bytes in a window of four leave different registers behind the
window, wherever it lies and however much follows, and the record is refused for its checksum.

## Contents
- **Bits.** `testBit_stepBit`, what a step does to each bit; from it `stepBit_injective` and `stepBit_xor`.
- **Windows.** `run_eq_repeat`: up to four bytes are taken in at once.  From it `run_injective_of_length_le`.
- **Checksums.** `ofBytes_ne_of_window`, for bytes that differ in a window.
- **Records.** `Record.AgreesOutside`, what damage is; `ofBytes_of_checksum_ne` and `ofBytesChecked_damaged`.
-/

namespace LogCodec

namespace Checksum

open Bytes

/-! ## Bits -/

/-- A register is what its bits are. -/
theorem eq_of_testBit {x y : UInt32} (h : ∀ i, x.toNat.testBit i = y.toNat.testBit i) : x = y := by
  apply UInt32.toNat_inj.mp
  apply Nat.eq_of_testBit_eq
  exact h

theorem and_one_eq_one_iff (x : UInt32) : x &&& 1 = 1 ↔ x.toNat.testBit 0 = true := by
  rw [← UInt32.toNat_inj, UInt32.toNat_and, Nat.testBit_zero, decide_eq_true_iff]
  exact iff_of_eq (congrArg (· = 1) (Nat.and_one_is_mod x.toNat))

/-- **A step moves each bit down by one place**, and flips the bits of the polynomial if the bit that falls out is
set. -/
theorem testBit_stepBit (x : UInt32) (i : Nat) :
    (stepBit x).toNat.testBit i =
      (x.toNat.testBit (i + 1) ^^ (x.toNat.testBit 0 && polynomial.toNat.testBit i)) := by
  have hshift : (x >>> 1).toNat.testBit i = x.toNat.testBit (i + 1) := by
    rw [UInt32.toNat_shiftRight, Nat.testBit_shiftRight, Nat.add_comm i 1]
    rfl
  unfold stepBit
  by_cases hlow : x.toNat.testBit 0 = true
  · rw [if_pos ((and_one_eq_one_iff x).mpr hlow), UInt32.toNat_xor, Nat.testBit_xor, hshift, hlow, Bool.true_and]
  · rw [if_neg fun h => hlow ((and_one_eq_one_iff x).mp h), hshift, Bool.eq_false_iff.mpr hlow, Bool.false_and,
      Bool.xor_false]

/-- No step loses anything: the bit that falls out is the highest one of the register behind the step. -/
theorem stepBit_injective {x y : UInt32} (h : stepBit x = stepBit y) : x = y := by
  have hbits : ∀ i, (x.toNat.testBit (i + 1) ^^ (x.toNat.testBit 0 && polynomial.toNat.testBit i)) =
      (y.toNat.testBit (i + 1) ^^ (y.toNat.testBit 0 && polynomial.toNat.testBit i)) := by
    intro i
    rw [← testBit_stepBit, ← testBit_stepBit, h]
  have hhigh : ∀ z : UInt32, z.toNat.testBit 32 = false := by
    intro z
    exact Nat.testBit_lt_two_pow z.toNat_lt
  have hpolynomial : polynomial.toNat.testBit 31 = true := by decide
  have hlow : x.toNat.testBit 0 = y.toNat.testBit 0 := by
    have htop := hbits 31
    rwa [hhigh, hhigh, hpolynomial, Bool.and_true, Bool.and_true, Bool.false_xor, Bool.false_xor] at htop
  apply eq_of_testBit
  intro i
  cases i with
  | zero => exact hlow
  | succ i =>
    have hnext := hbits i
    rw [hlow] at hnext
    exact Bool.xor_left_inj.mp hnext

/-- What is added with its lowest bit clear is moved down by one place, beside what the step does to the rest. -/
theorem stepBit_xor (x : UInt32) {k : Nat} (h : k <<< 1 < 0x100000000) :
    stepBit (x ^^^ .ofNat (k <<< 1)) = stepBit x ^^^ .ofNat k := by
  have hk : k < 0x100000000 := Nat.lt_of_shiftLeft_lt h
  apply eq_of_testBit
  intro i
  have hlow : (k <<< 1).testBit 0 = false := by simp
  have hnext : (k <<< 1).testBit (i + 1) = k.testBit i := by simp
  rw [testBit_stepBit, UInt32.toNat_xor, UInt32.toNat_xor, UInt32.toNat_ofNat_of_lt' h, UInt32.toNat_ofNat_of_lt' hk,
    Nat.testBit_xor, Nat.testBit_xor, Nat.testBit_xor, testBit_stepBit, hlow, hnext, Bool.xor_false]
  simp only [Bool.xor_assoc, Bool.xor_comm (k.testBit i)]

/-! ## Windows -/

theorem repeat_injective {α : Type} {f : α → α} (hf : ∀ {a b : α}, f a = f b → a = b) {n : Nat} {a b : α}
    (h : Nat.repeat f n a = Nat.repeat f n b) : a = b := by
  induction n with
  | zero => exact h
  | succ n ih => exact ih (hf h)

theorem repeat_repeat {α : Type} (f : α → α) (m n : Nat) (a : α) :
    Nat.repeat f m (Nat.repeat f n a) = Nat.repeat f (m + n) a := by
  induction m with
  | zero => rw [Nat.zero_add]; rfl
  | succ m ih =>
    rw [Nat.succ_add]
    exact congrArg f ih

/-- What is added above the bits that fall out is moved down by as many places. -/
theorem repeat_stepBit_xor (x : UInt32) {n k : Nat} (h : k <<< n < 0x100000000) :
    Nat.repeat stepBit n (x ^^^ .ofNat (k <<< n)) = Nat.repeat stepBit n x ^^^ .ofNat k := by
  induction n generalizing k with
  | zero => rfl
  | succ n ih =>
    have hsplit : k <<< (n + 1) = (k <<< 1) <<< n := by
      rw [← Nat.shiftLeft_add, Nat.add_comm]
    rw [hsplit] at h ⊢
    show stepBit (Nat.repeat stepBit n _) = stepBit (Nat.repeat stepBit n x) ^^^ _
    rw [ih h, stepBit_xor _ (Nat.lt_of_shiftLeft_lt h)]

/-- A byte and a number above it are added as one number. -/
theorem toUInt32_xor_ofNat (b : UInt8) {k : Nat} (h : k <<< 8 < 0x100000000) :
    b.toUInt32 ^^^ .ofNat (k <<< 8) = .ofNat (b.toNat + 256 * k) := by
  have hb : b.toNat < 256 := b.toNat_lt
  have hk : k <<< 8 = 256 * k := by
    rw [Nat.shiftLeft_eq, Nat.mul_comm]
  have hsum : b.toNat + 256 * k < 0x100000000 := by omega
  apply UInt32.toNat_inj.mp
  rw [UInt32.toNat_xor, UInt8.toNat_toUInt32, UInt32.toNat_ofNat_of_lt' h, UInt32.toNat_ofNat_of_lt' hsum,
    Nat.add_comm b.toNat]
  apply Nat.eq_of_testBit_eq
  intro i
  rw [Nat.testBit_xor, Nat.testBit_shiftLeft]
  refine Eq.trans ?_ (@Nat.testBit_two_pow_mul_add k b.toNat 8 hb i).symm
  by_cases hi : i < 8
  · simp [hi, Nat.not_le.mpr hi]
  · have hpow : Nat.pow 2 8 ≤ Nat.pow 2 i := Nat.pow_le_pow_right (by decide) (Nat.not_lt.mp hi)
    have hhigh : b.toNat.testBit i = false := Nat.testBit_lt_two_pow (Nat.lt_of_lt_of_le hb hpow)
    simp [hi, Nat.not_lt.mp hi, hhigh]

/-- **Up to four bytes are taken in at once**: as one number, and moved on by as many bits as they have. -/
theorem run_eq_repeat (x : UInt32) {window : Bytes} (h : window.length ≤ 4) :
    run x window = Nat.repeat stepBit (window.length * 8) (x ^^^ .ofNat (ofLittleEndian window)) := by
  induction window generalizing x with
  | nil => simp [run, ofLittleEndian, Nat.repeat]
  | cons b rest ih =>
    have hrest : rest.length ≤ 3 := Nat.le_of_succ_le_succ h
    have habove : ofLittleEndian rest <<< 8 < 0x100000000 := by
      have hlt := ofLittleEndian_lt rest
      have hle : Nat.pow 256 rest.length ≤ Nat.pow 256 3 := Nat.pow_le_pow_right (by decide) hrest
      rw [Nat.shiftLeft_eq]
      have hvalue : Nat.pow 256 3 = 0x1000000 := rfl
      omega
    have hbits : rest.length * 8 + 8 = (rest.length + 1) * 8 := by omega
    calc run x (b :: rest)
        = run (Nat.repeat stepBit 8 (x ^^^ b.toUInt32)) rest := rfl
      _ = Nat.repeat stepBit (rest.length * 8)
            (Nat.repeat stepBit 8 (x ^^^ b.toUInt32) ^^^ .ofNat (ofLittleEndian rest)) := ih _ (by omega)
      _ = Nat.repeat stepBit (rest.length * 8)
            (Nat.repeat stepBit 8 (x ^^^ b.toUInt32 ^^^ .ofNat (ofLittleEndian rest <<< 8))) := by
          rw [repeat_stepBit_xor _ habove]
      _ = Nat.repeat stepBit ((rest.length + 1) * 8) (x ^^^ .ofNat (ofLittleEndian (b :: rest))) := by
          rw [repeat_repeat, UInt32.xor_assoc, toUInt32_xor_ofNat b habove, hbits, ofLittleEndian]

/-- Different windows of one length leave different registers behind them. -/
theorem run_injective_of_length_le {x : UInt32} {window other : Bytes} (hlength : window.length = other.length)
    (hshort : window.length ≤ 4) (h : run x window = run x other) : window = other := by
  rw [run_eq_repeat x hshort, run_eq_repeat x (hlength ▸ hshort), hlength] at h
  have hsum := repeat_injective stepBit_injective h
  have hlt : ∀ bytes : Bytes, bytes.length ≤ 4 → ofLittleEndian bytes < 0x100000000 := by
    intro bytes hbytes
    exact Nat.lt_of_lt_of_le (ofLittleEndian_lt bytes) (Nat.pow_le_pow_right (by decide) hbytes)
  have hnumber : ofLittleEndian window = ofLittleEndian other := by
    have hword := congrArg UInt32.toNat ((UInt32.xor_right_inj x).mp hsum)
    rwa [UInt32.toNat_ofNat_of_lt' (hlt window hshort),
      UInt32.toNat_ofNat_of_lt' (hlt other (hlength ▸ hshort))] at hword
  rw [← littleEndian_ofLittleEndian window, ← littleEndian_ofLittleEndian other, hnumber, hlength]

/-- Different registers keep differing while they take in the same bytes. -/
theorem run_injective {x y : UInt32} {bytes : Bytes} (h : run x bytes = run y bytes) : x = y := by
  induction bytes generalizing x y with
  | nil => exact h
  | cons b rest ih =>
    have hbyte : stepByte x b = stepByte y b := ih h
    exact (UInt32.xor_left_inj b.toUInt32).mp (repeat_injective stepBit_injective hbyte)

/-! ## Checksums -/

/-- **Byte strings that differ only in a window of up to four bytes have different checksums**, whatever stands in
front of the window and behind it. -/
theorem ofBytes_ne_of_window (front back : Bytes) {window other : Bytes} (hlength : window.length = other.length)
    (hshort : window.length ≤ 4) (hne : window ≠ other) :
    ofBytes (front ++ window ++ back) ≠ ofBytes (front ++ other ++ back) := by
  intro h
  have hrun : run 0xFFFFFFFF (front ++ window ++ back) = run 0xFFFFFFFF (front ++ other ++ back) :=
    UInt32.not_inj.mp h
  unfold run at hrun
  rw [List.foldl_append, List.foldl_append, List.foldl_append, List.foldl_append] at hrun
  exact hne (run_injective_of_length_le hlength hshort (run_injective hrun))

/-- The checksum of the digits `123456789`, by which implementations are told apart. -/
example : ofBytes [0x31, 0x32, 0x33, 0x34, 0x35, 0x36, 0x37, 0x38, 0x39] = 0xCBF43926 := by decide +kernel

end Checksum

namespace Record

/-! ## Records -/

/-- Two byte strings of one length agree outside a window of four bytes. -/
structure AgreesOutside (start : Nat) (bytes other : Bytes) : Prop where
  length : bytes.length = other.length
  outside : ∀ position, position < start ∨ start + 4 ≤ position → bytes[position]? = other[position]?

section
variable {bytes other : Bytes} {start count : Nat} (h : AgreesOutside start bytes other)
include h

theorem AgreesOutside.take_eq (hcount : count ≤ start) : bytes.take count = other.take count := by
  apply List.ext_getElem?
  intro position
  rw [List.getElem?_take, List.getElem?_take]
  split
  · next hlt => exact h.outside position (.inl (Nat.lt_of_lt_of_le hlt hcount))
  · rfl

theorem AgreesOutside.drop_eq (hcount : start + 4 ≤ count) : bytes.drop count = other.drop count := by
  apply List.ext_getElem?
  intro position
  rw [List.getElem?_drop, List.getElem?_drop]
  exact h.outside (count + position) (.inr (Nat.le_add_right_of_le hcount))

/-- Without bytes in front of the window, the window is that much nearer. -/
theorem AgreesOutside.drop (hcount : count ≤ start) :
    AgreesOutside (start - count) (bytes.drop count) (other.drop count) where
  length := by rw [List.length_drop, List.length_drop, h.length]
  outside := by
    intro position hposition
    rw [List.getElem?_drop, List.getElem?_drop]
    apply h.outside
    omega

/-- The checksum tells byte strings apart that agree outside a window of four bytes. -/
theorem AgreesOutside.checksum_ne (hne : bytes ≠ other) : Checksum.ofBytes bytes ≠ Checksum.ofBytes other := by
  have hsplit : ∀ whole : Bytes, whole.take start ++ (whole.drop start).take 4 ++ whole.drop (start + 4) = whole := by
    intro whole
    rw [List.append_assoc, ← List.drop_drop, List.take_append_drop, List.take_append_drop]
  have hwindow : (bytes.drop start).take 4 ≠ (other.drop start).take 4 := by
    intro hsame
    apply hne
    rw [← hsplit bytes, ← hsplit other, h.take_eq (Nat.le_refl start), h.drop_eq (Nat.le_refl _), hsame]
  rw [← hsplit bytes, ← hsplit other, h.take_eq (Nat.le_refl start), h.drop_eq (Nat.le_refl _)]
  apply Checksum.ofBytes_ne_of_window
  · rw [List.length_take, List.length_take, List.length_drop, List.length_drop, h.length]
  · exact List.length_take_le 4 _
  · exact hwindow

end

section
variable {r : Record}

/-- Behind a header that describes the payload, a wrong checksum is what is reported. -/
theorem ofBytes_of_checksum_ne (hfits : r.message.FitsHeader) {payload : Bytes}
    (hlength : payload.length = r.payload.length) (hne : Checksum.ofBytes payload ≠ Checksum.ofBytes r.payload) :
    ofBytes (r.header.toBytes ++ payload) =
      .error (.wrongChecksum (Checksum.ofBytes r.payload) (Checksum.ofBytes payload)) := by
  have hfront := Header.length_toBytes (wellFormed_header r)
  have hread := Header.read_toBytes (wellFormed_header r) payload
  have hlong : Header.size ≤ (r.header.toBytes ++ payload).length := by
    rw [List.length_append, hfront]
    exact Nat.le_add_right Header.size payload.length
  have hdrop : (r.header.toBytes ++ payload).drop Header.size = payload := by
    rw [← hfront, List.drop_left]
  have hmagic : r.header.magic = Header.magicBytes := rfl
  have hversion : r.header.version = Header.layoutVersion := rfl
  have hsize : r.header.payloadSize = payload.length := by
    rw [hlength, payload_eq, (describes_header r hfits).payloadSize_eq]
  have hchecksum : r.header.checksum ≠ Checksum.ofBytes payload := hne.symm
  rw [ofBytes_of_length hlong, hread, hdrop, if_neg (not_not.mpr hmagic), if_neg (not_not.mpr hversion),
    if_neg (not_not.mpr hsize), if_pos hchecksum]
  rfl

/-- **A record with an error in four bytes of its payload is refused for its checksum.**  The header is not touched, so
that the checksum it has is still that of the payload as it was written. -/
theorem ofBytesChecked_damaged (hfits : r.message.FitsHeader) {bytes : Bytes} {start : Nat}
    (hstart : Header.size ≤ start) (hagrees : AgreesOutside start bytes r.toBytes) (hne : bytes ≠ r.toBytes) :
    (Header.read bytes).checksum = Checksum.ofBytes r.payload ∧
      Checksum.ofBytes (bytes.drop Header.size) ≠ Checksum.ofBytes r.payload ∧
      ofBytesChecked bytes = some (.error
        (.wrongChecksum (Checksum.ofBytes r.payload) (Checksum.ofBytes (bytes.drop Header.size)))) := by
  have hheader : bytes.take Header.size = r.header.toBytes := by
    rw [hagrees.take_eq hstart, toBytes, ← Header.length_toBytes (wellFormed_header r), List.take_left]
  have hbytes : bytes = r.header.toBytes ++ bytes.drop Header.size := by
    rw [← hheader, List.take_append_drop]
  have hpayload : AgreesOutside (start - Header.size) (bytes.drop Header.size) r.payload := by
    rw [← drop_toBytes r]
    exact hagrees.drop hstart
  have hchecksum : Checksum.ofBytes (bytes.drop Header.size) ≠ Checksum.ofBytes r.payload := by
    apply hpayload.checksum_ne
    intro hsame
    rw [hsame] at hbytes
    exact hne hbytes
  have hread : Header.read bytes = r.header := by
    rw [hbytes]
    exact Header.read_toBytes (wellFormed_header r) _
  refine ⟨congrArg Header.checksum hread, hchecksum, ?_⟩
  rw [ofBytesChecked_eq, ← ofBytes_of_checksum_ne hfits hpayload.length hchecksum, ← hbytes]

/-- The theorem at the record of a message with the static text `a` and the dictionary value `b`, of which the last byte
is changed.  The window reaches over the end of the record. -/
theorem ofBytesChecked_damaged_last_byte :
    ∃ (r : Record) (bytes : Bytes), r.message.FitsHeader ∧ Header.size ≤ 36 ∧ AgreesOutside 36 bytes r.toBytes ∧
      bytes ≠ r.toBytes ∧ ∃ actual, ofBytesChecked bytes = some (.error
        (.wrongChecksum (Checksum.ofBytes r.payload) actual)) := by
  let r : Record := ⟨.eight, (EncodedMessage.empty.appendText [0x61]).appendDictionary [0x62]⟩
  have hfits : r.message.FitsHeader := ⟨by decide, by decide, by decide, by decide⟩
  have hstart : Header.size ≤ 36 := by decide
  have hagrees : AgreesOutside 36 (r.toBytes.set 38 0x01) r.toBytes := by
    refine ⟨List.length_set, fun position hposition => List.getElem?_set_ne ?_⟩
    omega
  have hne : r.toBytes.set 38 0x01 ≠ r.toBytes := by decide +kernel
  obtain ⟨-, -, hread⟩ := ofBytesChecked_damaged hfits hstart hagrees hne
  exact ⟨r, _, hfits, hstart, hagrees, hne, _, hread⟩

end

end Record

end LogCodec
