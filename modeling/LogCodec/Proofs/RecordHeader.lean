import LogCodec.Record.Checked
import LogCodec.Proofs.FixedWidth
import Mathlib.Data.List.Basic

/-!
# `LogCodec.Proofs.RecordHeader`: the header is read as it was written

The fields of a header stand one behind the other and fill it, so that writing and reading a header undo each other in
both directions.  Not all of it tells something, though: of the flags only the lowest bit is looked at, and the reserved
bytes not at all.

## Contents
- **Both directions.** `Header.read_toBytes` and `Header.toBytes_read`.
- **Checked reading.** `Header.read?_take`.
- **Bits that are looked at.** `Record.readMask`, `Record.readBits` and `Record.readBits_toBytes_append`.
-/

namespace LogCodec

namespace Bytes

theorem splitAt?_of_le {position : Nat} {bytes : Bytes} (h : position ≤ bytes.length) :
    splitAt? position bytes = some (bytes.take position, bytes.drop position) :=
  if_pos h

theorem splitAt?_append (front back : Bytes) : splitAt? front.length (front ++ back) = some (front, back) := by
  rw [splitAt?_of_le (by rw [List.length_append]; exact Nat.le_add_right _ _), List.take_left, List.drop_left]

theorem numberAt?_of_le {bytes : Bytes} {start width : Nat} (h : start + width ≤ bytes.length) :
    bytes.numberAt? start width = some (Record.Header.numberAt bytes start width) := by
  rw [numberAt?, Span.slice?_of_fits ⟨Nat.le_add_right start width, h⟩]
  rfl

end Bytes

namespace Record

namespace Header

/-! ## Both directions -/

/-- The fields that are byte strings have their length. -/
structure WellFormed (h : Header) : Prop where
  magic : h.magic.length = 4
  reserved : h.reserved.length = 4

theorem length_toBytes {h : Header} (hwell : h.WellFormed) : h.toBytes.length = size := by
  simp only [toBytes, List.length_append, Bytes.length_littleEndian, hwell.magic, hwell.reserved]
  rfl

/-- **A header is read as it was written**, whatever stands behind it. -/
theorem read_toBytes {h : Header} (hwell : h.WellFormed) (rest : Bytes) : read (h.toBytes ++ rest) = h := by
  obtain ⟨magic, version, flags, logtypeLength, dictionaryLength, dictionaryCount, numberCount, checksum, reserved⟩ := h
  obtain ⟨hmagic, hreserved⟩ := hwell
  obtain ⟨a, b, c, d, rfl⟩ := List.length_eq_four.mp hmagic
  obtain ⟨p, q, r, s, rfl⟩ := List.length_eq_four.mp hreserved
  -- The bytes of each field are its slice by computation alone.
  rw [read, mk.injEq]
  refine ⟨rfl, Bytes.ofLittleEndian_uint16 version, Bytes.ofLittleEndian_uint16 flags,
    Bytes.ofLittleEndian_uint32 logtypeLength, Bytes.ofLittleEndian_uint32 dictionaryLength,
    Bytes.ofLittleEndian_uint32 dictionaryCount, Bytes.ofLittleEndian_uint32 numberCount,
    Bytes.ofLittleEndian_uint32 checksum, rfl⟩

section
variable {bytes : Bytes}

/-- A slice of the header fits, if there is a header. -/
theorem fits_of_le (hlength : size ≤ bytes.length) {start stop : Nat} (h : start ≤ stop) (h' : stop ≤ size) :
    (Span.mk start stop).Fits bytes.length :=
  ⟨h, Nat.le_trans h' hlength⟩

theorem wellFormed_read (hlength : size ≤ bytes.length) : (read bytes).WellFormed where
  magic := Span.length_slice bytes (fits_of_le hlength (by decide) (by decide))
  reserved := Span.length_slice bytes (fits_of_le hlength (by decide) (by decide))

/-- **The bytes of a header that is read are written again.** -/
theorem toBytes_read (hlength : size ≤ bytes.length) : (read bytes).toBytes = bytes.take size := by
  have hfits : ∀ {start stop : Nat}, start ≤ stop → stop ≤ size →
      ((Span.mk start stop).slice bytes).length = stop - start := fun h h' =>
    Span.length_slice bytes (fits_of_le hlength h h')
  have hfront : (Span.mk 0 size).slice bytes = bytes.take size := rfl
  simp only [toBytes, read, numberAt]
  rw [Bytes.littleEndian_uint16 (hfits (by decide) (by decide)),
    Bytes.littleEndian_uint16 (hfits (by decide) (by decide)),
    Bytes.littleEndian_uint32 (hfits (by decide) (by decide)),
    Bytes.littleEndian_uint32 (hfits (by decide) (by decide)),
    Bytes.littleEndian_uint32 (hfits (by decide) (by decide)),
    Bytes.littleEndian_uint32 (hfits (by decide) (by decide)),
    Bytes.littleEndian_uint32 (hfits (by decide) (by decide))]
  repeat rw [Span.slice_append_slice bytes (by decide) (by decide)]
  exact hfront

/-- The header is what the front of a record is read as, and the rest is behind it. -/
theorem toBytes_read_append (hlength : size ≤ bytes.length) :
    (read bytes).toBytes ++ bytes.drop size = bytes := by
  rw [toBytes_read hlength, List.take_append_drop]

/-! ## Checked reading -/

/-- No field of a header is cut out of range. -/
theorem read?_take (hlength : size ≤ bytes.length) : read? (bytes.take size) = some (read bytes) := by
  have htake : (bytes.take size).length = size := List.length_take_of_le hlength
  have hslice : ∀ {start stop : Nat}, start ≤ stop → stop ≤ size →
      (Span.mk start stop).slice? (bytes.take size) = some ((Span.mk start stop).slice bytes) := by
    intro start stop h h'
    rw [Span.slice?_of_fits (fits_of_le (Nat.le_of_eq htake.symm) h h'), Span.slice_take bytes ⟨h, h'⟩]
  have hnumber : ∀ {start width : Nat}, start + width ≤ size →
      Bytes.numberAt? (bytes.take size) start width = some (numberAt bytes start width) := by
    intro start width h
    rw [Bytes.numberAt?, hslice (Nat.le_add_right start width) h]
    rfl
  rw [read?, hslice (by decide) (by decide), hnumber (by decide), hnumber (by decide), hnumber (by decide),
    hnumber (by decide), hnumber (by decide), hnumber (by decide), hnumber (by decide), hslice (by decide) (by decide)]
  rfl

end

/-! ## Bits that are looked at -/

/-- The header with the same fields and nothing in the flags and the reserved bytes but what is looked at. -/
def canonical (h : Header) : Header := { h with flags := flagsOf h.width, reserved := [0, 0, 0, 0] }

theorem WellFormed.canonical {h : Header} (hwell : h.WellFormed) : h.canonical.WellFormed := ⟨hwell.magic, rfl⟩

theorem width_eq (h : Header) : h.width = if h.flags.toNat % 2 = 1 then .four else .eight := by
  have hbit : h.flags &&& 1 = 1 ↔ h.flags.toNat % 2 = 1 := by
    rw [← UInt16.toNat_inj, UInt16.toNat_and]
    exact iff_of_eq (congrArg (· = 1) (Nat.and_one_is_mod h.flags.toNat))
  exact if_congr hbit rfl rfl

theorem flagsOf_injective {width other : Width} (h : flagsOf width = flagsOf other) : width = other := by
  cases width <;> cases other
  case eight.eight => rfl
  case four.four => rfl
  case eight.four => exact absurd h (by decide)
  case four.eight => exact absurd h (by decide)

theorem width_of_flags {h : Header} {width : Width} (hflags : h.flags = flagsOf width) : h.width = width := by
  rw [width_eq, hflags]
  cases width
  case eight => rfl
  case four => rfl

/-- The lowest bit of the flags is the flags of the width. -/
theorem flags_and_one (h : Header) : h.flags.toUInt8 &&& 1 = (flagsOf h.width).toUInt8 := by
  have hbit : (h.flags.toUInt8 &&& 1).toNat = h.flags.toNat % 2 := by
    rw [UInt8.toNat_and, UInt16.toNat_toUInt8]
    refine (Nat.and_one_is_mod _).trans ?_
    omega
  apply UInt8.toNat_inj.mp
  rw [hbit, width_eq]
  rcases Nat.mod_two_eq_zero_or_one h.flags.toNat with h0 | h1
  · rw [h0]
    rfl
  · rw [h1]
    rfl

end Header

/-- The bits that a reader looks at in the byte at a position of a record: of the flags only the lowest one, of the
reserved bytes none, and of all other bytes all. -/
def readMask (position : Nat) : UInt8 :=
  if position = 6 then 0x01
  else if position = 7 ∨ 28 ≤ position ∧ position < 32 then 0x00
  else 0xFF

/-- A record with the bits cleared that no reader looks at. -/
def readBits (bytes : Bytes) : Bytes := bytes.mapIdx fun position b => b &&& readMask position

theorem length_readBits (bytes : Bytes) : (readBits bytes).length = bytes.length := List.length_mapIdx

theorem readMask_payload (position : Nat) : readMask (position + Header.size) = 0xFF := by
  have h : ¬ (position + Header.size = 7 ∨ 28 ≤ position + Header.size ∧ position + Header.size < 32) := by
    unfold Header.size
    omega
  rw [readMask, if_neg (by unfold Header.size; omega), if_neg h]

theorem readBits_append {front : Bytes} (hfront : front.length = Header.size) (payload : Bytes) :
    readBits (front ++ payload) = readBits front ++ payload := by
  have hpayload : (payload.mapIdx fun position b => b &&& readMask (position + Header.size)) = payload := by
    refine List.ext_getElem (List.length_mapIdx) fun position _ _ => ?_
    rw [List.getElem_mapIdx, readMask_payload]
    exact UInt8.and_neg_one
  rw [readBits, List.mapIdx_append, hfront, hpayload, readBits]

/-- **Of a header, what is left is its canonical form.** -/
theorem readBits_toBytes {h : Header} (hwell : h.WellFormed) : readBits h.toBytes = h.canonical.toBytes := by
  have hflags := h.flags_and_one
  have hhigh : UInt8.ofNat ((Header.flagsOf h.width).toNat / 256) = 0 := by
    cases h.width
    case eight => rfl
    case four => rfl
  have hall : ∀ b : UInt8, b &&& 0xFF = b := fun _ => UInt8.and_neg_one
  have hnone : ∀ b : UInt8, b &&& 0 = 0 := fun _ => UInt8.and_zero
  obtain ⟨a, b, c, d, hmagic⟩ := List.length_eq_four.mp hwell.magic
  obtain ⟨p, q, r, s, hreserved⟩ := List.length_eq_four.mp hwell.reserved
  simp [readBits, Header.toBytes, Header.canonical, hmagic, hreserved, Bytes.littleEndian, List.mapIdx_cons, readMask,
    hflags, hhigh, hall, hnone]

end Record

end LogCodec
