import LogCodec.Proofs.RecordSize

/-!
# `LogCodec.Proofs.DamagedHeaders`: one changed byte in the header of a record

The checksum of a record is that of its payload, so it does not protect the header.  What a changed byte of the header
comes to is up to the field that it belongs to.  The magic bytes, the version and the checksum are compared with what
they have to be.  A length or a count that is changed alone changes the size that the header accounts for.  The reserved
bytes and all of the flags but the lowest bit are not looked at.  That leaves one bit that is read and not checked: the
lowest bit of the flags, which tells the width of the packed numbers.

## Contents
- **Fields.** `Header.numberAt_set_of_outside` and `Header.numberAt_set_ne`; `Header.payloadSize_read_set_ne`, for the
  lengths and counts; `Header.width_read`, for the flags.
- **Records.** `eq_of_ofBytes_toBytes`: a record that is read at all is read as itself.
- **Changed headers.** `Record.ReadsChanged`, what a changed byte comes to, and `readsChanged_set`;
  `ofBytesChecked_set_header`, the main statement, and `reads_flipped_width`, a record that is read as another one.
-/

namespace LogCodec

/-- Byte strings of one length that stand for the same number are the same. -/
theorem Bytes.ofLittleEndian_inj {bytes other : Bytes} (hlength : bytes.length = other.length)
    (h : ofLittleEndian bytes = ofLittleEndian other) : bytes = other := by
  rw [← littleEndian_ofLittleEndian bytes, ← littleEndian_ofLittleEndian other, h, hlength]

namespace Record

/-! ## Fields -/

/-- The width that the first byte of the flags tells. -/
def widthOfByte (b : UInt8) : Width := if b.toNat % 2 = 1 then .four else .eight

namespace Header

section
variable {bytes : Bytes} {position start width : Nat} {b : UInt8}

theorem numberAt_lt (bytes : Bytes) (start width : Nat) : numberAt bytes start width < Nat.pow 256 width := by
  have hlength : ((Span.mk start (start + width)).slice bytes).length ≤ width := by
    unfold Span.slice Span.length
    refine Nat.le_trans (List.length_take_le _ _) ?_
    exact Nat.le_of_eq (Nat.add_sub_cancel_left start width)
  unfold numberAt
  exact Nat.lt_of_lt_of_le (Bytes.ofLittleEndian_lt _) (Nat.pow_le_pow_right (by decide) hlength)

theorem numberAt_set_of_outside (h : position < start ∨ start + width ≤ position) (bytes : Bytes) (b : UInt8) :
    numberAt (bytes.set position b) start width = numberAt bytes start width := by
  unfold numberAt
  rw [Span.slice_set_of_outside h]

theorem numberAt_set_ne (hstart : start ≤ position) (hstop : position < start + width)
    (hfits : start + width ≤ bytes.length) (hb : bytes[position]? ≠ some b) :
    numberAt (bytes.set position b) start width ≠ numberAt bytes start width := by
  intro hsame
  have hspan : (Span.mk start (start + width)).Fits bytes.length := ⟨Nat.le_add_right start width, hfits⟩
  have hlength : ((Span.mk start (start + width)).slice (bytes.set position b)).length =
      ((Span.mk start (start + width)).slice bytes).length := by
    rw [Span.length_slice bytes hspan, Span.length_slice _ (by rwa [List.length_set])]
  exact Span.slice_set_ne hstart hstop (Nat.lt_of_lt_of_le hstop hfits) hb (Bytes.ofLittleEndian_inj hlength hsame)

/-- The size that a header accounts for, by the bytes of its lengths and counts. -/
theorem payloadSize_read (bytes : Bytes) :
    (read bytes).payloadSize =
      numberAt bytes 8 4 + numberAt bytes 12 4 + numberAt bytes 16 4 * 4 + numberAt bytes 20 4 * 8 := by
  have hnumber : ∀ start, (UInt32.ofNat (numberAt bytes start 4)).toNat = numberAt bytes start 4 := by
    intro start
    exact UInt32.toNat_ofNat_of_lt' (numberAt_lt bytes start 4)
  simp only [payloadSize, read, hnumber]

/-- **A length or a count that is changed alone changes the size that the header accounts for.** -/
theorem payloadSize_read_set_ne (hlength : size ≤ bytes.length) (hstart : 8 ≤ position) (hstop : position < 24)
    (hb : bytes[position]? ≠ some b) :
    (read (bytes.set position b)).payloadSize ≠ (read bytes).payloadSize := by
  -- One of the four numbers is changed, and none of the others.
  have hfield : ∀ start, start + 4 ≤ size →
      (position < start ∨ start + 4 ≤ position) ∧
        numberAt (bytes.set position b) start 4 = numberAt bytes start 4 ∨
      (start ≤ position ∧ position < start + 4) ∧
        numberAt (bytes.set position b) start 4 ≠ numberAt bytes start 4 := by
    intro start hfits
    by_cases houtside : position < start ∨ start + 4 ≤ position
    · exact .inl ⟨houtside, numberAt_set_of_outside houtside bytes b⟩
    · have hinside : start ≤ position ∧ position < start + 4 := by omega
      exact .inr ⟨hinside, numberAt_set_ne hinside.1 hinside.2 (Nat.le_trans hfits hlength) hb⟩
  have hlogtype := hfield 8 (by decide)
  have hdictionary := hfield 12 (by decide)
  have hvalues := hfield 16 (by decide)
  have hnumbers := hfield 20 (by decide)
  rw [payloadSize_read, payloadSize_read]
  omega

/-- The lowest bit of the flags is that of their first byte. -/
theorem width_read (hb : bytes[6]? = some b) : (read bytes).width = widthOfByte b := by
  obtain ⟨hlength, rfl⟩ := List.getElem?_eq_some_iff.mp hb
  have hslice : (Span.mk 6 8).slice bytes = bytes[6] :: (bytes.drop 7).take 1 := by
    unfold Span.slice Span.length
    rw [List.drop_eq_getElem_cons hlength]
    rfl
  have hflags : (read bytes).flags =
      UInt16.ofNat (bytes[6].toNat + 256 * Bytes.ofLittleEndian ((bytes.drop 7).take 1)) := by
    show UInt16.ofNat (Bytes.ofLittleEndian ((Span.mk 6 8).slice bytes)) = _
    rw [hslice, Bytes.ofLittleEndian]
  have hbit : (read bytes).flags.toNat % 2 = bytes[6].toNat % 2 := by
    rw [hflags, UInt16.toNat_ofNat']
    omega
  rw [width_eq, hbit]
  rfl

end

end Header

/-! ## Records -/

section
variable {r loaded : Record}

/-- A header accounts for the payload of its record only if the lengths and counts fit it. -/
theorem fitsHeader_of_payloadSize_eq (h : r.header.payloadSize = r.payload.length) : r.message.FitsHeader := by
  rw [length_payload] at h
  simp only [header, Header.payloadSize, UInt32.toNat_ofNat'] at h
  constructor
  all_goals omega

theorem sectionsOf_injective {m m' : EncodedMessage} (h : sectionsOf m = sectionsOf m') : m = m' := by
  obtain ⟨logtype, dictionary, numbers⟩ := m
  obtain ⟨logtype', dictionary', numbers'⟩ := m'
  simp only [sectionsOf, Sections.mk.injEq] at h
  obtain ⟨hlogtype, hbytes, hends, hnumbers⟩ := h
  rw [EncodedMessage.mk.injEq]
  exact ⟨hlogtype, FlatBytes.ext hbytes hends, hnumbers⟩

/-- **A record that is read at all after it was written is read as itself.** -/
theorem eq_of_ofBytes_toBytes (h : ofBytes r.toBytes = .ok loaded) : loaded = r := by
  obtain ⟨-, hstorable, -, hheader, hpayload⟩ := ofBytes_eq_ok_iff_header.mp h
  rw [read_toBytes, canonical_header] at hheader
  rw [drop_toBytes] at hpayload
  have hloaded := describes_header loaded hstorable.fits
  have hfits : r.message.FitsHeader := by
    apply fitsHeader_of_payloadSize_eq
    rw [hheader, hpayload, payload_eq, hloaded.payloadSize_eq]
  have hsections : sectionsOf loaded.message = sectionsOf r.message := by
    calc sectionsOf loaded.message
        = sections loaded.header loaded.payload := (sections_toBytes hloaded hstorable.fits.ends_lt).symm
      _ = sections r.header r.payload := by rw [hheader, hpayload]
      _ = sectionsOf r.message := sections_toBytes (describes_header r hfits) hfits.ends_lt
  have hwidth : loaded.width = r.width := Header.flagsOf_injective (congrArg Header.flags hheader).symm
  obtain ⟨width, message⟩ := loaded
  obtain ⟨width', message'⟩ := r
  rw [Record.mk.injEq]
  exact ⟨hwidth, sectionsOf_injective hsections⟩

end

/-! ## Changed headers -/

/-- The change flips the bit that tells the width. -/
def FlipsWidth (r : Record) (position : Nat) (b : UInt8) : Prop := position = 6 ∧ widthOfByte b ≠ r.width

/-- What a record is read as when the byte at a position of its header is changed to another one. -/
inductive ReadsChanged (r : Record) (position : Nat) (b : UInt8) : Except RecordError Record → Prop where
  | magic (h : position < 4) : ReadsChanged r position b (.error .wrongMagic)
  | version {version : UInt16} (h : 4 ≤ position ∧ position < 6) (hversion : version ≠ Header.layoutVersion) :
    ReadsChanged r position b (.error (.unknownVersion version))
  /-- The first byte of the flags is not checked; a bit of it tells the width. -/
  | width (h : position = 6) : ReadsChanged r position b (.ok ⟨widthOfByte b, r.message⟩)
  /-- One of the lengths and counts is changed. -/
  | size {expected : Nat} (h : 8 ≤ position ∧ position < 24) (hexpected : expected ≠ r.toBytes.length) :
    ReadsChanged r position b (.error (.wrongSize expected r.toBytes.length))
  | checksum {expected : UInt32} (h : 24 ≤ position ∧ position < 28)
    (hexpected : expected ≠ Checksum.ofBytes r.payload) :
    ReadsChanged r position b (.error (.wrongChecksum expected (Checksum.ofBytes r.payload)))
  /-- The second byte of the flags or a reserved byte is changed. -/
  | unused (h : position = 7 ∨ 28 ≤ position ∧ position < 32) : ReadsChanged r position b (.ok r)

section
variable {r : Record} {position : Nat} {b : UInt8} {outcome : Except RecordError Record}

/-- The record is refused or read as itself, unless the bit that tells the width is flipped. -/
theorem ReadsChanged.eq_or_error (h : r.ReadsChanged position b outcome) (hkept : ¬ r.FlipsWidth position b) :
    outcome = .ok r ∨ ∃ e, outcome = .error e := by
  cases h with
  | magic _ => exact .inr ⟨_, rfl⟩
  | version _ _ => exact .inr ⟨_, rfl⟩
  | width hposition =>
    have hwidth : widthOfByte b = r.width := by
      by_contra hne
      exact hkept ⟨hposition, hne⟩
    rw [hwidth]
    exact .inl rfl
  | size _ _ => exact .inr ⟨_, rfl⟩
  | checksum _ _ => exact .inr ⟨_, rfl⟩
  | unused _ => exact .inl rfl

/-- If it is flipped, the message is read with the other width. -/
theorem ReadsChanged.eq_of_flipsWidth (h : r.ReadsChanged position b outcome) (hflips : r.FlipsWidth position b) :
    outcome = .ok ⟨widthOfByte b, r.message⟩ := by
  obtain ⟨hposition, -⟩ := hflips
  cases h with
  | width _ => rfl
  | magic h => omega
  | version h _ => omega
  | size h _ => omega
  | checksum h _ => omega
  | unused h => omega

end

section
variable {r : Record} {position : Nat} {b : UInt8}

/-! ### The fields of a changed header -/

theorem size_le_length_set (r : Record) (position : Nat) (b : UInt8) :
    Header.size ≤ (r.toBytes.set position b).length := by
  rw [List.length_set, length_toBytes]
  exact Nat.le_add_right Header.size r.payload.length

theorem drop_set_toBytes (hposition : position < Header.size) (b : UInt8) :
    (r.toBytes.set position b).drop Header.size = r.payload := by
  rw [List.drop_set_of_lt hposition, drop_toBytes]

theorem magic_read_set (h : 4 ≤ position) (b : UInt8) :
    (Header.read (r.toBytes.set position b)).magic = Header.magicBytes := by
  have hslice : (Span.mk 0 4).slice (r.toBytes.set position b) = (Span.mk 0 4).slice r.toBytes :=
    Span.slice_set_of_outside (.inr h) r.toBytes b
  exact hslice.trans (congrArg Header.magic (read_toBytes r))

theorem version_read_set (h : 6 ≤ position) (b : UInt8) :
    (Header.read (r.toBytes.set position b)).version = Header.layoutVersion := by
  have hnumber := @Header.numberAt_set_of_outside position 4 2 (.inr h) r.toBytes b
  exact (congrArg UInt16.ofNat hnumber).trans (congrArg Header.version (read_toBytes r))

/-- Outside the lengths and counts nothing changes the size that the header accounts for. -/
theorem payloadSize_read_set (h : position < 8 ∨ 24 ≤ position) (b : UInt8) :
    (Header.read (r.toBytes.set position b)).payloadSize = (Header.read r.toBytes).payloadSize := by
  have hnumber : ∀ start, 8 ≤ start → start + 4 ≤ 24 →
      Header.numberAt (r.toBytes.set position b) start 4 = Header.numberAt r.toBytes start 4 := by
    intro start hstart hstop
    exact Header.numberAt_set_of_outside (by omega) r.toBytes b
  rw [Header.payloadSize_read, Header.payloadSize_read, hnumber 8 (by decide) (by decide),
    hnumber 12 (by decide) (by decide), hnumber 16 (by decide) (by decide), hnumber 20 (by decide) (by decide)]

theorem magic_read_set_ne (h : position < 4) (hb : r.toBytes[position]? ≠ some b) :
    (Header.read (r.toBytes.set position b)).magic ≠ Header.magicBytes := by
  intro hmagic
  have hposition : position < r.toBytes.length := by
    rw [length_toBytes]
    unfold Header.size
    omega
  have hslice : (Span.mk 0 4).slice (r.toBytes.set position b) ≠ (Span.mk 0 4).slice r.toBytes :=
    Span.slice_set_ne (Nat.zero_le position) h hposition hb
  exact hslice (hmagic.trans (congrArg Header.magic (read_toBytes r)).symm)

theorem version_read_set_ne (h : 4 ≤ position ∧ position < 6) (hb : r.toBytes[position]? ≠ some b) :
    (Header.read (r.toBytes.set position b)).version ≠ Header.layoutVersion := by
  intro hversion
  have hfits : 4 + 2 ≤ r.toBytes.length := by
    rw [length_toBytes]
    unfold Header.size
    omega
  have hsame := hversion.trans (congrArg Header.version (read_toBytes r)).symm
  have hnumbers := congrArg UInt16.toNat hsame
  simp only [Header.read, UInt16.toNat_ofNat_of_lt' (Header.numberAt_lt _ 4 2)] at hnumbers
  exact Header.numberAt_set_ne h.1 h.2 hfits hb hnumbers

theorem checksum_read_set_ne (h : 24 ≤ position ∧ position < 28) (hb : r.toBytes[position]? ≠ some b) :
    (Header.read (r.toBytes.set position b)).checksum ≠ Checksum.ofBytes r.payload := by
  intro hchecksum
  have hfits : 24 + 4 ≤ r.toBytes.length := by
    rw [length_toBytes]
    unfold Header.size
    omega
  have hsame := hchecksum.trans (congrArg Header.checksum (read_toBytes r)).symm
  have hnumbers := congrArg UInt32.toNat hsame
  simp only [Header.read, UInt32.toNat_ofNat_of_lt' (Header.numberAt_lt _ 24 4)] at hnumbers
  exact Header.numberAt_set_ne h.1 h.2 hfits hb hnumbers

/-- A byte that is not changed tells the width as before. -/
theorem width_read_set (h : position ≠ 6) (b : UInt8) : (Header.read (r.toBytes.set position b)).width = r.width := by
  have hlength : 6 < r.toBytes.length := by
    rw [length_toBytes]
    unfold Header.size
    omega
  have hbyte : (r.toBytes.set position b)[6]? = some r.toBytes[6] := by
    rw [List.getElem?_set_ne h, List.getElem?_eq_getElem hlength]
  calc (Header.read (r.toBytes.set position b)).width
      = widthOfByte r.toBytes[6] := Header.width_read hbyte
    _ = (Header.read r.toBytes).width := (Header.width_read (List.getElem?_eq_getElem hlength)).symm
    _ = r.width := by rw [read_toBytes, Header.width_of_flags rfl]

/-! ### What is read -/

/-- A record of which only flags and reserved bytes are changed is read with the width that the flags tell. -/
theorem ofBytes_set_unchecked (hconsistent : r.message.Consistent) (hstorable : r.IsStorable)
    (h : position = 6 ∨ position = 7 ∨ 28 ≤ position ∧ position < 32) (b : UInt8) :
    ofBytes (r.toBytes.set position b) = .ok ⟨(Header.read (r.toBytes.set position b)).width, r.message⟩ := by
  have hposition : position < Header.size := by
    unfold Header.size
    omega
  have hlength : ∀ start, 8 ≤ start → start + 4 ≤ 28 → ∀ field : Header → UInt32,
      (∀ bytes, field (Header.read bytes) = UInt32.ofNat (Header.numberAt bytes start 4)) →
      field (Header.read (r.toBytes.set position b)) = field r.header := by
    intro start hstart hstop field hfield
    rw [hfield, Header.numberAt_set_of_outside (by omega) r.toBytes b, ← hfield, read_toBytes]
  refine ofBytes_eq_ok_iff_header.mpr
    ⟨hconsistent, ⟨hstorable.tight, hstorable.fits⟩, size_le_length_set r position b, ?_, drop_set_toBytes hposition b⟩
  rw [Header.canonical, header, Header.mk.injEq]
  refine ⟨magic_read_set (by omega) b, version_read_set (by omega) b, rfl, ?_, ?_, ?_, ?_, ?_, rfl⟩
  · exact hlength 8 (by decide) (by decide) Header.logtypeLength fun _ => rfl
  · exact hlength 12 (by decide) (by decide) Header.dictionaryLength fun _ => rfl
  · exact hlength 16 (by decide) (by decide) Header.dictionaryCount fun _ => rfl
  · exact hlength 20 (by decide) (by decide) Header.numberCount fun _ => rfl
  · exact hlength 24 (by decide) (by decide) Header.checksum fun _ => rfl

/-- **What a changed byte comes to**, field by field. -/
theorem readsChanged_set (hconsistent : r.message.Consistent) (hstorable : r.IsStorable)
    (hposition : position < Header.size) (hb : r.toBytes[position]? ≠ some b) :
    r.ReadsChanged position b (ofBytes (r.toBytes.set position b)) := by
  have hlong := size_le_length_set r position b
  have hpayload := @drop_set_toBytes r position hposition b
  have hdescribes := describes_header r hstorable.fits
  have hsize : (Header.read r.toBytes).payloadSize = r.payload.length := by
    rw [read_toBytes, hdescribes.payloadSize_eq, payload_eq]
  unfold Header.size at hposition
  by_cases hmagic : position < 4
  · rw [ofBytes_of_length hlong, if_pos (magic_read_set_ne hmagic hb)]
    exact .magic hmagic
  have hmagicKept := @magic_read_set r position (Nat.not_lt.mp hmagic) b
  by_cases hversion : position < 6
  · have hversionRange : 4 ≤ position ∧ position < 6 := ⟨Nat.not_lt.mp hmagic, hversion⟩
    have hne := version_read_set_ne hversionRange hb
    rw [ofBytes_of_length hlong, if_neg (not_not.mpr hmagicKept), if_pos hne]
    exact .version hversionRange hne
  have hversionKept := @version_read_set r position (Nat.not_lt.mp hversion) b
  by_cases hflags : position = 6
  · have hbyte : (r.toBytes.set position b)[6]? = some b := by
      rw [hflags, List.getElem?_set_self (Nat.lt_of_lt_of_le (by decide) (List.length_set ▸ hlong))]
    rw [ofBytes_set_unchecked hconsistent hstorable (.inl hflags), Header.width_read hbyte]
    exact .width hflags
  by_cases hunused : position = 7 ∨ 28 ≤ position ∧ position < 32
  · rw [ofBytes_set_unchecked hconsistent hstorable (.inr hunused), width_read_set hflags]
    exact .unused hunused
  by_cases hcounts : position < 24
  · have hcountsRange : 8 ≤ position ∧ position < 24 := by omega
    have hne : (Header.read (r.toBytes.set position b)).payloadSize ≠ r.payload.length := by
      rw [← hsize]
      exact Header.payloadSize_read_set_ne (List.length_set ▸ hlong) hcountsRange.1 hcountsRange.2 hb
    have hexpected : Header.size + (Header.read (r.toBytes.set position b)).payloadSize ≠ r.toBytes.length := by
      rw [length_toBytes]
      omega
    rw [ofBytes_of_length hlong, if_neg (not_not.mpr hmagicKept), if_neg (not_not.mpr hversionKept), hpayload,
      if_pos hne, List.length_set]
    exact .size hcountsRange hexpected
  · have hchecksumRange : 24 ≤ position ∧ position < 28 := by omega
    have hne := checksum_read_set_ne hchecksumRange hb
    have hsizeKept := @payloadSize_read_set r position (.inr (Nat.not_lt.mp hcounts)) b
    rw [ofBytes_of_length hlong, if_neg (not_not.mpr hmagicKept), if_neg (not_not.mpr hversionKept), hpayload,
      if_neg (not_not.mpr (hsizeKept.trans hsize)), if_pos hne]
    exact .checksum hchecksumRange hne

end

section
variable {r loaded : Record} {position : Nat} {b : UInt8}

/-- **A changed byte in the header of a record is found, or it does not matter, or it tells the width.**  If a record is
read at all, then with one byte of its header changed it is refused or read as the same record, except when the change
flips the bit of the flags that tells the width.  That one is not found: the same message is read, with the other
width.  For each field of the header, what is read is what `ReadsChanged` says. -/
theorem ofBytesChecked_set_header (hloads : ofBytesChecked r.toBytes = some (.ok loaded))
    (hposition : position < Header.size) (hb : r.toBytes[position]? ≠ some b) :
    ∃ outcome, ofBytesChecked (r.toBytes.set position b) = some outcome ∧
      r.ReadsChanged position b outcome ∧
      (¬ r.FlipsWidth position b → outcome = .ok r ∨ ∃ e, outcome = .error e) ∧
      (r.FlipsWidth position b → outcome = .ok ⟨widthOfByte b, r.message⟩) := by
  rw [ofBytesChecked_eq] at hloads
  have hread := Option.some.inj hloads
  obtain rfl := eq_of_ofBytes_toBytes hread
  obtain ⟨hconsistent, hstorable, -⟩ := ofBytes_eq_ok_iff.mp hread
  have hchanged := readsChanged_set hconsistent hstorable hposition hb
  exact ⟨_, ofBytesChecked_eq _, hchanged, hchanged.eq_or_error, hchanged.eq_of_flipsWidth⟩

end

/-- A record with the packed number 5000000000, which does not fit four bytes. -/
def wide : Record := ⟨.eight, EncodedMessage.empty.appendNumber (.integer, 5000000000)⟩

/-- With the first byte of the length of its logtype changed, the record is refused for its size. -/
theorem ofBytesChecked_set_header_size :
    ofBytesChecked wide.toBytes = some (.ok wide) ∧ 8 < Header.size ∧ wide.toBytes[8]? ≠ some 2 ∧
      ¬ wide.FlipsWidth 8 2 ∧
      ∃ e, ofBytesChecked (wide.toBytes.set 8 2) = some (.error e) := by
  have hloads : ofBytesChecked wide.toBytes = some (.ok wide) := by decide +kernel
  have hposition : 8 < Header.size := by decide
  have hb : wide.toBytes[8]? ≠ some 2 := by decide +kernel
  have hkept : ¬ wide.FlipsWidth 8 2 := by
    rintro ⟨hwidth, -⟩
    exact absurd hwidth (by decide)
  obtain ⟨outcome, hread, hchanged, -, -⟩ := ofBytesChecked_set_header hloads hposition hb
  refine ⟨hloads, hposition, hb, hkept, ?_⟩
  rw [hread]
  cases hchanged with
  | size _ _ => exact ⟨_, rfl⟩
  | magic h => omega
  | version h _ => omega
  | width h => omega
  | checksum h _ => omega
  | unused h => omega

/-- With the lowest bit of its flags changed, the record is read as another one: its message is the same, but the number
is taken for one of four bytes, and has no text any more. -/
theorem reads_flipped_width :
    ofBytesChecked wide.toBytes = some (.ok wide) ∧ 6 < Header.size ∧ wide.toBytes[6]? ≠ some 1 ∧
      ∃ read, ofBytesChecked (wide.toBytes.set 6 1) = some (.ok read) ∧ read ≠ wide ∧ read.width ≠ wide.width ∧
        wide.message.decode wide.width = .ok (Bytes.ofString "5000000000") ∧
        read.message.decode read.width = .error (.outOfRange 5000000000) := by
  refine ⟨by decide +kernel, by decide, by decide +kernel, ⟨.four, wide.message⟩, ?_⟩
  exact ⟨by decide +kernel, by decide +kernel, by decide, by decide +kernel, by decide +kernel⟩

end Record

end LogCodec
