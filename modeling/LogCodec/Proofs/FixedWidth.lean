import LogCodec.Bytes.LittleEndian

/-!
# `LogCodec.Proofs.FixedWidth`: numbers of fixed width are read as they were written

Writing a number in a fixed number of bytes and reading it undo each other in both directions, for the integer types
and for lists of numbers that stand back to back.

## Contents
- **Numbers.** `littleEndian_ofLittleEndian`, and the two directions for 16, 32 and 64 bits.
- **Lists.** `flatten_chunks`, `chunks_flatMap` and, from them, `map_chunks_flatMap` and `flatMap_map_chunks`.
-/

namespace LogCodec.Bytes

/-! ## Numbers -/

/-- The bytes of a number that is read are written again. -/
theorem littleEndian_ofLittleEndian (bytes : Bytes) : littleEndian bytes.length (ofLittleEndian bytes) = bytes := by
  induction bytes with
  | nil => rfl
  | cons b rest ih =>
    have hb := b.toNat_lt
    have hrest : (b.toNat + 256 * ofLittleEndian rest) / 256 = ofLittleEndian rest := by omega
    have hfirst : UInt8.ofNat (b.toNat + 256 * ofLittleEndian rest) = b := by
      apply UInt8.toNat_inj.mp
      rw [UInt8.toNat_ofNat']
      omega
    rw [List.length_cons, ofLittleEndian, littleEndian, hfirst, hrest, ih]

/-- A number that fits its width is read as it was written. -/
theorem ofLittleEndian_littleEndian_of_lt {width n : Nat} (h : n < Nat.pow 256 width) :
    ofLittleEndian (littleEndian width n) = n := by
  rw [ofLittleEndian_littleEndian, Nat.mod_eq_of_lt h]

section
variable {bytes : Bytes}

theorem ofLittleEndian_uint16 (x : UInt16) : UInt16.ofNat (ofLittleEndian (littleEndian 2 x.toNat)) = x := by
  rw [ofLittleEndian_littleEndian_of_lt x.toNat_lt, UInt16.ofNat_toNat]

theorem ofLittleEndian_uint32 (x : UInt32) : UInt32.ofNat (ofLittleEndian (littleEndian 4 x.toNat)) = x := by
  rw [ofLittleEndian_littleEndian_of_lt x.toNat_lt, UInt32.ofNat_toNat]

theorem ofLittleEndian_int64 (x : Int64) :
    (UInt64.ofNat (ofLittleEndian (littleEndian 8 x.toUInt64.toNat))).toInt64 = x := by
  rw [ofLittleEndian_littleEndian_of_lt x.toUInt64.toNat_lt, UInt64.ofNat_toNat, Int64.toInt64_toUInt64]

theorem littleEndian_uint16 (h : bytes.length = 2) :
    littleEndian 2 (UInt16.ofNat (ofLittleEndian bytes)).toNat = bytes := by
  have hlt := ofLittleEndian_lt bytes
  rw [h] at hlt
  rw [UInt16.toNat_ofNat_of_lt' hlt, ← h, littleEndian_ofLittleEndian]

theorem littleEndian_uint32 (h : bytes.length = 4) :
    littleEndian 4 (UInt32.ofNat (ofLittleEndian bytes)).toNat = bytes := by
  have hlt := ofLittleEndian_lt bytes
  rw [h] at hlt
  rw [UInt32.toNat_ofNat_of_lt' hlt, ← h, littleEndian_ofLittleEndian]

theorem littleEndian_int64 (h : bytes.length = 8) :
    littleEndian 8 (UInt64.ofNat (ofLittleEndian bytes)).toInt64.toUInt64.toNat = bytes := by
  have hlt := ofLittleEndian_lt bytes
  rw [h] at hlt
  rw [UInt64.toUInt64_toInt64, UInt64.toNat_ofNat_of_lt' hlt, ← h, littleEndian_ofLittleEndian]

end

/-! ## Lists -/

theorem length_chunks (width count : Nat) (bytes : Bytes) : (chunks width count bytes).length = count := by
  induction count generalizing bytes with
  | zero => rfl
  | succ count ih => rw [chunks, List.length_cons, ih]

/-- Each chunk has the width, if the bytes last. -/
theorem length_of_mem_chunks {width count : Nat} {bytes chunk : Bytes} (hlength : count * width ≤ bytes.length)
    (h : chunk ∈ chunks width count bytes) : chunk.length = width := by
  induction count generalizing bytes with
  | zero => cases h
  | succ count ih =>
    rw [Nat.succ_mul] at hlength
    rw [chunks, List.mem_cons] at h
    rcases h with rfl | h
    · rw [List.length_take]
      omega
    · refine ih ?_ h
      rw [List.length_drop]
      omega

/-- The chunks one behind the other are what was cut up. -/
theorem flatten_chunks (width count : Nat) (bytes : Bytes) :
    (chunks width count bytes).flatten = bytes.take (count * width) := by
  induction count generalizing bytes with
  | zero => simp [chunks]
  | succ count ih => rw [chunks, List.flatten_cons, ih, Nat.succ_mul, Nat.add_comm (count * width), List.take_add]

/-- Nothing behind the last chunk matters. -/
theorem chunks_take (width count : Nat) (bytes : Bytes) :
    chunks width count (bytes.take (count * width)) = chunks width count bytes := by
  induction count generalizing bytes with
  | zero => rfl
  | succ count ih =>
    have hfirst : min width (count * width + width) = width := Nat.min_eq_left (Nat.le_add_left width _)
    have hrest : count * width + width - width = count * width := Nat.add_sub_cancel _ _
    rw [Nat.succ_mul, chunks, chunks, List.take_take, hfirst, List.drop_take, hrest, ih]

section
variable {α : Type} {width : Nat} {write : α → Bytes} {read : Bytes → α}

theorem length_flatMap_of_width (hwidth : ∀ a, (write a).length = width) (values : List α) :
    (values.flatMap write).length = values.length * width := by
  induction values with
  | nil => simp
  | cons a values ih => rw [List.flatMap_cons, List.length_append, hwidth, ih, List.length_cons, Nat.succ_mul,
      Nat.add_comm]

/-- Values of one width that stand back to back are cut up into the values. -/
theorem chunks_flatMap (hwidth : ∀ a, (write a).length = width) (values : List α) :
    chunks width values.length (values.flatMap write) = values.map write := by
  induction values with
  | nil => rfl
  | cons a values ih =>
    have htake : (write a ++ values.flatMap write).take width = write a := by
      rw [← hwidth a, List.take_left]
    have hdrop : (write a ++ values.flatMap write).drop width = values.flatMap write := by
      rw [← hwidth a, List.drop_left]
    rw [List.length_cons, List.flatMap_cons, chunks, htake, hdrop, ih, List.map_cons]

/-- **Values that were written back to back are read back.** -/
theorem map_chunks_flatMap (hwidth : ∀ a, (write a).length = width) {values : List α}
    (hread : ∀ a ∈ values, read (write a) = a) :
    (chunks width values.length (values.flatMap write)).map read = values := by
  calc (chunks width values.length (values.flatMap write)).map read
      = values.map (read ∘ write) := by rw [chunks_flatMap hwidth, List.map_map]
    _ = values.map id := List.map_congr_left hread
    _ = values := List.map_id values

/-- **The bytes of values that were read back to back are written again.** -/
theorem flatMap_map_chunks (hwrite : ∀ chunk : Bytes, chunk.length = width → write (read chunk) = chunk)
    {count : Nat} {bytes : Bytes} (hlength : count * width = bytes.length) :
    ((chunks width count bytes).map read).flatMap write = bytes := by
  have hchunks : (chunks width count bytes).map (write ∘ read) = (chunks width count bytes).map id :=
    List.map_congr_left fun chunk hchunk => hwrite chunk (length_of_mem_chunks (Nat.le_of_eq hlength) hchunk)
  calc ((chunks width count bytes).map read).flatMap write
      = ((chunks width count bytes).map (write ∘ read)).flatten := by rw [List.flatMap_def, List.map_map]
    _ = (chunks width count bytes).flatten := by rw [hchunks, List.map_id]
    _ = bytes.take (count * width) := flatten_chunks width count bytes
    _ = bytes := by rw [hlength, List.take_length]

end

end LogCodec.Bytes
