import LogCodec.Proofs.Consistency
import LogCodec.Proofs.RecordHeader

/-!
# `LogCodec.Proofs.RecordFormat`: which byte strings are records

A record is read from its own bytes, from bytes that differ from them only in bits that no reader looks at, and from no
others.  The two directions meet in the header: reading accepts a byte string exactly if the canonical form of its
header is the header of the record and what stands behind it is the payload of the record.  Nothing here looks into the
checksum, which could be any function of the payload.

## Contents
- **Storable records.** `EncodedMessage.FitsHeader` and `Record.IsStorable`.
- **Sections.** `Header.Describes`, `Header.Cuts` and `exists_cuts`; `sections_toBytes` and `toBytes_sections`, the two
  directions for payloads.
- **Records.** `ofBytes_eq_ok_iff_header` and `readBits_eq_iff_header`, which meet in `ofBytes_eq_ok_iff`.
- **Checked reading.** `ofBytesChecked_eq`, by which no cut is out of range, and `ofBytes_decides`, which brings all of
  this together.
-/

namespace LogCodec

/-! ## Storable records -/

/-- The lengths and the counts of a message fit the four bytes that a header has for each. -/
structure EncodedMessage.FitsHeader (m : EncodedMessage) : Prop where
  logtype : m.logtype.length < 0x100000000
  dictionary : m.dictionary.bytes.length < 0x100000000
  values : m.dictionary.size < 0x100000000
  numbers : m.numbers.length < 0x100000000

theorem EndsWithin.le_of_mem {length previous stop : Nat} {ends : List Nat} (h : EndsWithin length previous ends)
    (hstop : stop ∈ ends) : stop ≤ length := by
  induction ends generalizing previous with
  | nil => cases hstop
  | cons first rest ih =>
    obtain ⟨-, hfirst, hrest⟩ := h
    rcases List.mem_cons.mp hstop with rfl | hmem
    · exact hfirst
    · exact ih hrest hmem

theorem EncodedMessage.FitsHeader.ends_lt {m : EncodedMessage} (hfits : m.FitsHeader) :
    ∀ stop ∈ m.dictionary.ends, stop < 0x100000000 := by
  intro stop hstop
  exact Nat.lt_of_le_of_lt (m.dictionary.ends_within.le_of_mem hstop) hfits.dictionary

namespace Record

/-- A record can be read back after it was written. -/
structure IsStorable (r : Record) : Prop where
  tight : r.message.dictionary.Tight
  fits : r.message.FitsHeader

/-! ## Sections -/

/-- The sections that a message is written as. -/
def sectionsOf (m : EncodedMessage) : Sections where
  logtype := m.logtype
  dictionary := m.dictionary.bytes
  ends := m.dictionary.ends
  numbers := m.numbers

/-- Sections as they are written. -/
def Sections.toBytes (s : Sections) : Bytes :=
  s.logtype ++ s.dictionary ++ s.ends.flatMap (Bytes.littleEndian 4)
    ++ s.numbers.flatMap fun number => Bytes.littleEndian 8 number.toUInt64.toNat

theorem payload_eq (r : Record) : r.payload = (sectionsOf r.message).toBytes := rfl

/-- A header tells the lengths and the counts of sections. -/
structure Header.Describes (h : Header) (s : Sections) : Prop where
  logtype : h.logtypeLength.toNat = s.logtype.length
  dictionary : h.dictionaryLength.toNat = s.dictionary.length
  ends : h.dictionaryCount.toNat = s.ends.length
  numbers : h.numberCount.toNat = s.numbers.length

section
variable (ends : List Nat) (numbers : List Int64)

theorem length_writeEnds : (ends.flatMap (Bytes.littleEndian 4)).length = ends.length * 4 :=
  Bytes.length_flatMap_of_width (Bytes.length_littleEndian 4) ends

theorem length_writeNumbers :
    (numbers.flatMap fun number => Bytes.littleEndian 8 number.toUInt64.toNat).length = numbers.length * 8 :=
  Bytes.length_flatMap_of_width (fun number => Bytes.length_littleEndian 8 number.toUInt64.toNat) numbers

theorem readEnds_writeEnds (hends : ∀ stop ∈ ends, stop < 0x100000000) :
    (Bytes.chunks 4 ends.length (ends.flatMap (Bytes.littleEndian 4))).map Bytes.ofLittleEndian = ends :=
  Bytes.map_chunks_flatMap (Bytes.length_littleEndian 4) fun stop hstop =>
    Bytes.ofLittleEndian_littleEndian_of_lt (hends stop hstop)

theorem readNumbers_writeNumbers :
    (Bytes.chunks 8 numbers.length (numbers.flatMap fun number => Bytes.littleEndian 8 number.toUInt64.toNat)).map
      (fun chunk => (UInt64.ofNat (Bytes.ofLittleEndian chunk)).toInt64) = numbers :=
  @Bytes.map_chunks_flatMap _ 8 (fun number : Int64 => Bytes.littleEndian 8 number.toUInt64.toNat)
    (fun chunk => (UInt64.ofNat (Bytes.ofLittleEndian chunk)).toInt64)
    (fun number => Bytes.length_littleEndian 8 number.toUInt64.toNat) numbers
    (fun number _ => Bytes.ofLittleEndian_int64 number)

end

section
variable {count : Nat} {bytes : Bytes}

theorem writeEnds_readEnds (h : count * 4 = bytes.length) :
    ((Bytes.chunks 4 count bytes).map Bytes.ofLittleEndian).flatMap (Bytes.littleEndian 4) = bytes := by
  refine Bytes.flatMap_map_chunks (fun chunk hchunk => ?_) h
  rw [← hchunk, Bytes.littleEndian_ofLittleEndian]

theorem writeNumbers_readNumbers (h : count * 8 = bytes.length) :
    ((Bytes.chunks 8 count bytes).map fun chunk => (UInt64.ofNat (Bytes.ofLittleEndian chunk)).toInt64).flatMap
      (fun number => Bytes.littleEndian 8 number.toUInt64.toNat) = bytes := by
  refine @Bytes.flatMap_map_chunks _ 8 (fun number : Int64 => Bytes.littleEndian 8 number.toUInt64.toNat)
    (fun chunk => (UInt64.ofNat (Bytes.ofLittleEndian chunk)).toInt64) (fun chunk hchunk => ?_) count bytes h
  exact Bytes.littleEndian_int64 hchunk

end

/-- A header tells where a payload is cut into four pieces. -/
structure Header.Cuts (h : Header) (logtype dictionary ends numbers : Bytes) : Prop where
  logtype : h.logtypeLength.toNat = logtype.length
  dictionary : h.dictionaryLength.toNat = dictionary.length
  ends : h.dictionaryCount.toNat * 4 = ends.length
  numbers : h.numberCount.toNat * 8 = numbers.length

section
variable {h : Header} {logtype dictionary ends numbers payload : Bytes}

/-- The sections of four pieces. -/
theorem sections_append (hcuts : h.Cuts logtype dictionary ends numbers) :
    sections h (logtype ++ (dictionary ++ (ends ++ numbers))) =
      { logtype
        dictionary
        ends := (Bytes.chunks 4 h.dictionaryCount.toNat ends).map Bytes.ofLittleEndian
        numbers := (Bytes.chunks 8 h.numberCount.toNat numbers).map fun chunk =>
          (UInt64.ofNat (Bytes.ofLittleEndian chunk)).toInt64 } := by
  have hends : Bytes.chunks 4 h.dictionaryCount.toNat (ends ++ numbers) =
      Bytes.chunks 4 h.dictionaryCount.toNat ends := by
    rw [← Bytes.chunks_take, hcuts.ends, List.take_left]
  simp only [sections, hcuts.logtype, hcuts.dictionary, hcuts.ends, List.take_left, List.drop_left, hends]

/-- **A payload of the right size has four pieces.** -/
theorem exists_cuts (hsize : h.payloadSize = payload.length) :
    ∃ logtype dictionary ends numbers : Bytes,
      payload = logtype ++ (dictionary ++ (ends ++ numbers)) ∧ h.Cuts logtype dictionary ends numbers := by
  unfold Header.payloadSize at hsize
  refine ⟨payload.take h.logtypeLength.toNat,
    (payload.drop h.logtypeLength.toNat).take h.dictionaryLength.toNat,
    ((payload.drop h.logtypeLength.toNat).drop h.dictionaryLength.toNat).take (h.dictionaryCount.toNat * 4),
    ((payload.drop h.logtypeLength.toNat).drop h.dictionaryLength.toNat).drop (h.dictionaryCount.toNat * 4), ?_, ?_⟩
  · rw [List.take_append_drop, List.take_append_drop, List.take_append_drop]
  · constructor
    all_goals
      simp only [List.length_take, List.length_drop]
      omega

end

section
variable {h : Header} {s : Sections} {payload : Bytes}

theorem Header.Describes.payloadSize_eq (hdescribes : h.Describes s) : h.payloadSize = s.toBytes.length := by
  rw [Header.payloadSize, Sections.toBytes, List.length_append, List.length_append, List.length_append,
    length_writeEnds, length_writeNumbers, hdescribes.logtype, hdescribes.dictionary, hdescribes.ends,
    hdescribes.numbers]

/-- **Sections are read as they were written.** -/
theorem sections_toBytes (hdescribes : h.Describes s) (hends : ∀ stop ∈ s.ends, stop < 0x100000000) :
    sections h s.toBytes = s := by
  obtain ⟨logtype, dictionary, ends, numbers⟩ := s
  obtain ⟨hlogtype, hdictionary, hcount, hnumbers⟩ := hdescribes
  simp only at hlogtype hdictionary hcount hnumbers hends
  have hcuts : h.Cuts logtype dictionary (ends.flatMap (Bytes.littleEndian 4))
      (numbers.flatMap fun number => Bytes.littleEndian 8 number.toUInt64.toNat) :=
    ⟨hlogtype, hdictionary, by rw [length_writeEnds, hcount], by rw [length_writeNumbers, hnumbers]⟩
  rw [Sections.toBytes, List.append_assoc, List.append_assoc, sections_append hcuts, hcount, hnumbers,
    readEnds_writeEnds ends hends, readNumbers_writeNumbers]

/-- The header in front of a payload describes the sections that are cut out of it. -/
theorem describes_sections (hsize : h.payloadSize = payload.length) : h.Describes (sections h payload) := by
  obtain ⟨logtype, dictionary, ends, numbers, rfl, hcuts⟩ := exists_cuts hsize
  rw [sections_append hcuts]
  constructor
  case logtype => exact hcuts.logtype
  case dictionary => exact hcuts.dictionary
  case ends => rw [List.length_map, Bytes.length_chunks]
  case numbers => rw [List.length_map, Bytes.length_chunks]

/-- **The bytes of sections that are read are written again.** -/
theorem toBytes_sections (hsize : h.payloadSize = payload.length) : (sections h payload).toBytes = payload := by
  obtain ⟨logtype, dictionary, ends, numbers, rfl, hcuts⟩ := exists_cuts hsize
  rw [sections_append hcuts, Sections.toBytes]
  simp only
  rw [writeEnds_readEnds hcuts.ends, writeNumbers_readNumbers hcuts.numbers, List.append_assoc, List.append_assoc]

/-- Sections are put together to a message exactly if they are the sections of a consistent one with nothing behind its
last dictionary value. -/
theorem Sections.message_eq_ok_iff {m : EncodedMessage} :
    s.message = .ok m ↔ s = sectionsOf m ∧ m.dictionary.Tight ∧ m.Consistent := by
  constructor
  · intro h
    rw [Sections.message] at h
    split at h
    · cases h
    · next dictionary hdictionary =>
      obtain ⟨hbytes, hends⟩ := FlatBytes.ofParts_eq_ok_iff.mp hdictionary
      obtain ⟨hstop, hparts⟩ := error_else_eq_ok_iff.mp h
      obtain ⟨rfl, hconsistent⟩ := EncodedMessage.ofParts_eq_ok_iff.mp (mapError_eq_ok_iff.mp hparts)
      refine ⟨?_, ?_, hconsistent⟩
      · rw [sectionsOf, hbytes, hends]
      · rw [FlatBytes.Tight, hbytes, hends, not_not.mp hstop]
  · rintro ⟨rfl, htight, hconsistent⟩
    have hdictionary : FlatBytes.ofParts m.dictionary.bytes m.dictionary.ends = .ok m.dictionary :=
      FlatBytes.ofParts_eq_ok_iff.mpr ⟨rfl, rfl⟩
    have hparts : EncodedMessage.ofParts m.logtype m.dictionary m.numbers = .ok m :=
      EncodedMessage.ofParts_eq_ok_iff.mpr ⟨rfl, hconsistent⟩
    simp only [Sections.message, sectionsOf, hdictionary]
    exact error_else_eq_ok_iff.mpr ⟨not_not.mpr htight, mapError_eq_ok_iff.mpr hparts⟩

end

/-! ## Records -/

section
variable {bytes : Bytes} {r : Record}

/-- A header is accepted in front of a payload. -/
structure Header.Accepts (h : Header) (payload : Bytes) : Prop where
  magic : h.magic = Header.magicBytes
  version : h.version = Header.layoutVersion
  size : h.payloadSize = payload.length
  checksum : h.checksum = Checksum.ofBytes payload

/-- What reading goes through to give a record. -/
theorem ofBytes_eq_ok_iff_accepts :
    ofBytes bytes = .ok r ↔ Header.size ≤ bytes.length ∧
      (Header.read bytes).Accepts (bytes.drop Header.size) ∧
      (sections (Header.read bytes) (bytes.drop Header.size)).message = .ok r.message ∧
      (Header.read bytes).width = r.width := by
  have hmap : ∀ {width : Width} {read : Except RecordError EncodedMessage},
      read.map (Record.mk width) = .ok r ↔ read = .ok r.message ∧ width = r.width := by
    intro width read
    cases read with
    | error e => simp [Except.map]
    | ok m =>
      obtain ⟨width', m'⟩ := r
      simp [Except.map, and_comm]
  rw [ofBytes, error_else_eq_ok_iff, error_else_eq_ok_iff, error_else_eq_ok_iff, error_else_eq_ok_iff,
    error_else_eq_ok_iff, hmap, Nat.not_lt]
  simp only [Header.hasMagic, Header.hasVersion, Bool.not_eq_true', Bool.not_eq_false, beq_iff_eq, not_not]
  constructor
  · rintro ⟨hlength, hmagic, hversion, hsize, hchecksum, hread⟩
    exact ⟨hlength, ⟨hmagic, hversion, hsize, hchecksum⟩, hread⟩
  · rintro ⟨hlength, ⟨hmagic, hversion, hsize, hchecksum⟩, hread⟩
    exact ⟨hlength, hmagic, hversion, hsize, hchecksum, hread⟩

end

/-! ### The header of a record -/

section
variable (r : Record)

theorem wellFormed_header : r.header.WellFormed := ⟨rfl, rfl⟩

theorem canonical_header : r.header.canonical = r.header := by
  rw [Header.canonical, Header.width_of_flags (rfl : r.header.flags = Header.flagsOf r.width)]
  rfl

theorem describes_header (hfits : r.message.FitsHeader) : r.header.Describes (sectionsOf r.message) where
  logtype := UInt32.toNat_ofNat_of_lt' hfits.logtype
  dictionary := UInt32.toNat_ofNat_of_lt' hfits.dictionary
  ends := UInt32.toNat_ofNat_of_lt' hfits.values
  numbers := UInt32.toNat_ofNat_of_lt' hfits.numbers

end

section
variable {r : Record} {h : Header}

/-- Only a message that fits a header is described by one. -/
theorem Header.Describes.fits {m : EncodedMessage} (hdescribes : h.Describes (sectionsOf m)) : m.FitsHeader where
  logtype := hdescribes.logtype ▸ h.logtypeLength.toNat_lt
  dictionary := hdescribes.dictionary ▸ h.dictionaryLength.toNat_lt
  values := lt_of_eq_of_lt hdescribes.ends.symm h.dictionaryCount.toNat_lt
  numbers := hdescribes.numbers ▸ h.numberCount.toNat_lt

/-- **The canonical form of a header is the header of a record** if the header is accepted in front of the payload of
the record and describes its sections. -/
theorem canonical_eq_header_iff (hfits : r.message.FitsHeader) :
    h.canonical = r.header ↔ h.Accepts r.payload ∧ h.Describes (sectionsOf r.message) ∧ h.width = r.width := by
  have hheader := describes_header r hfits
  constructor
  · intro heq
    have hdescribes : h.Describes (sectionsOf r.message) := by
      have hcanonical : h.canonical.Describes (sectionsOf r.message) := heq ▸ hheader
      exact ⟨hcanonical.logtype, hcanonical.dictionary, hcanonical.ends, hcanonical.numbers⟩
    refine ⟨⟨congrArg Header.magic heq, congrArg Header.version heq, ?_, congrArg Header.checksum heq⟩, hdescribes, ?_⟩
    · rw [hdescribes.payloadSize_eq, payload_eq]
    · exact Header.flagsOf_injective (congrArg Header.flags heq)
  · rintro ⟨haccepts, hdescribes, hwidth⟩
    rw [Header.canonical, header, Header.mk.injEq]
    refine ⟨haccepts.magic, haccepts.version, congrArg Header.flagsOf hwidth, ?_, ?_, ?_, ?_, haccepts.checksum, rfl⟩
    · exact UInt32.toNat_inj.mp (hdescribes.logtype.trans hheader.logtype.symm)
    · exact UInt32.toNat_inj.mp (hdescribes.dictionary.trans hheader.dictionary.symm)
    · exact UInt32.toNat_inj.mp (hdescribes.ends.trans hheader.ends.symm)
    · exact UInt32.toNat_inj.mp (hdescribes.numbers.trans hheader.numbers.symm)

end

/-! ### Both directions -/

section
variable {bytes : Bytes} {r : Record}

/-- **Reading gives a record** if what is looked at in the header is the header of the record, and its payload stands
behind the header. -/
theorem ofBytes_eq_ok_iff_header :
    ofBytes bytes = .ok r ↔ r.message.Consistent ∧ r.IsStorable ∧ Header.size ≤ bytes.length ∧
      (Header.read bytes).canonical = r.header ∧ bytes.drop Header.size = r.payload := by
  rw [ofBytes_eq_ok_iff_accepts, Sections.message_eq_ok_iff]
  constructor
  · rintro ⟨hlength, haccepts, ⟨hsections, htight, hconsistent⟩, hwidth⟩
    have hdescribes : (Header.read bytes).Describes (sectionsOf r.message) := by
      rw [← hsections]
      exact describes_sections haccepts.size
    have hpayload : bytes.drop Header.size = r.payload := by
      rw [payload_eq, ← hsections, toBytes_sections haccepts.size]
    rw [hpayload] at haccepts
    have hfits := hdescribes.fits
    exact ⟨hconsistent, ⟨htight, hfits⟩, hlength,
      (canonical_eq_header_iff hfits).mpr ⟨haccepts, hdescribes, hwidth⟩, hpayload⟩
  · rintro ⟨hconsistent, ⟨htight, hfits⟩, hlength, hheader, hpayload⟩
    obtain ⟨haccepts, hdescribes, hwidth⟩ := (canonical_eq_header_iff hfits).mp hheader
    have hsections : sections (Header.read bytes) (bytes.drop Header.size) = sectionsOf r.message := by
      rw [hpayload, payload_eq]
      exact sections_toBytes hdescribes hfits.ends_lt
    rw [hpayload] at hsections ⊢
    exact ⟨hlength, haccepts, ⟨hsections, htight, hconsistent⟩, hwidth⟩

/-- **A byte string agrees with a record in the bits that are looked at** under the same conditions. -/
theorem readBits_eq_iff_header :
    readBits bytes = readBits r.toBytes ↔ Header.size ≤ bytes.length ∧
      (Header.read bytes).canonical = r.header ∧ bytes.drop Header.size = r.payload := by
  have hrecord : readBits r.toBytes = r.header.toBytes ++ r.payload := by
    rw [toBytes, readBits_append (Header.length_toBytes (wellFormed_header r)), readBits_toBytes (wellFormed_header r),
      canonical_header]
  have hheaderLength := Header.length_toBytes (wellFormed_header r)
  have hread : Header.size ≤ bytes.length →
      readBits bytes = (Header.read bytes).canonical.toBytes ++ bytes.drop Header.size := by
    intro hlength
    have hwell := Header.wellFormed_read hlength
    rw [← readBits_toBytes hwell, ← readBits_append (Header.length_toBytes hwell), Header.toBytes_read_append hlength]
  constructor
  · intro heq
    have hlength : Header.size ≤ bytes.length := by
      have hlengths := congrArg List.length heq
      rw [length_readBits, hrecord, List.length_append, hheaderLength] at hlengths
      omega
    have hwell := (Header.wellFormed_read hlength).canonical
    rw [hread hlength, hrecord] at heq
    obtain ⟨hheader, hpayload⟩ := List.append_inj heq ((Header.length_toBytes hwell).trans hheaderLength.symm)
    refine ⟨hlength, ?_, hpayload⟩
    -- A header can be read from what is written of it, so that what is written tells the header.
    calc (Header.read bytes).canonical
        = Header.read ((Header.read bytes).canonical.toBytes ++ []) := (Header.read_toBytes hwell []).symm
      _ = Header.read (r.header.toBytes ++ []) := by rw [hheader]
      _ = r.header := Header.read_toBytes (wellFormed_header r) []
  · rintro ⟨hlength, hheader, hpayload⟩
    rw [hread hlength, hrecord, hheader, hpayload]

/-- **A byte string is read as a record if it is that record as written**, in all bits that are looked at. -/
theorem ofBytes_eq_ok_iff :
    ofBytes bytes = .ok r ↔ r.message.Consistent ∧ r.IsStorable ∧ readBits bytes = readBits r.toBytes := by
  rw [ofBytes_eq_ok_iff_header, readBits_eq_iff_header]

end

/-! ## Checked reading -/

section
variable {count width : Nat} {bytes : Bytes}

/-- No number is cut out of range of its chunk. -/
theorem mapM_numberAt?_chunks (hlength : count * width = bytes.length) :
    (Bytes.chunks width count bytes).mapM (fun chunk => Bytes.numberAt? chunk 0 width) =
      some ((Bytes.chunks width count bytes).map Bytes.ofLittleEndian) := by
  induction count generalizing bytes with
  | zero => rfl
  | succ count ih =>
    rw [Nat.succ_mul] at hlength
    have hfirst : (bytes.take width).length = width := List.length_take_of_le (by omega)
    have hnumber : Bytes.numberAt? (bytes.take width) 0 width = some (Bytes.ofLittleEndian (bytes.take width)) := by
      rw [Bytes.numberAt?_of_le (by omega), Header.numberAt, Span.slice, Span.length, List.drop_zero, List.take_take]
      simp
    have hrest := @ih (bytes.drop width) (by rw [List.length_drop]; omega)
    rw [Bytes.chunks, List.mapM_cons, hnumber, hrest]
    rfl

end

/-- No section is cut out of range, and what is left behind the end offsets are the packed numbers. -/
theorem sections?_eq {h : Header} {payload : Bytes} (hsize : h.payloadSize = payload.length) :
    sections? h payload = some (sections h payload) := by
  obtain ⟨logtype, dictionary, ends, numbers, rfl, hcuts⟩ := exists_cuts hsize
  have hendCount : ends.length / 4 = h.dictionaryCount.toNat := by
    have := hcuts.ends
    omega
  have hnumberCount : numbers.length / 8 = h.numberCount.toNat := by
    have := hcuts.numbers
    omega
  rw [sections?, hcuts.logtype, hcuts.dictionary, hcuts.ends, Bytes.splitAt?_append]
  simp only [Option.bind_eq_bind, Option.bind_some, Bytes.splitAt?_append, hendCount, hnumberCount,
    mapM_numberAt?_chunks hcuts.ends, mapM_numberAt?_chunks hcuts.numbers]
  rw [sections_append hcuts, List.map_map]
  rfl

/-- **No cut is out of range when a record is read.** -/
theorem ofBytesChecked_eq (bytes : Bytes) : ofBytesChecked bytes = some (ofBytes bytes) := by
  rw [ofBytesChecked, ofBytes]
  by_cases hlength : bytes.length < Header.size
  · rw [if_pos hlength, if_pos hlength]
  have hfront : Header.size ≤ bytes.length := Nat.not_lt.mp hlength
  rw [if_neg hlength, if_neg hlength, Bytes.splitAt?_of_le hfront]
  simp only [Option.bind_eq_bind, Option.bind_some, Header.read?_take hfront]
  -- Both readers make the same checks; only behind the one of the size are there cuts.
  split
  · rfl
  split
  · rfl
  split
  · rfl
  split
  · rfl
  · next hsize _ =>
    rw [sections?_eq (not_not.mp hsize)]
    rfl

/-- **A byte string is read as a record exactly if it is the record as written, but for bits of the header that no
reader looks at**; any other byte string is refused, and no cut is out of range on the way. -/
theorem ofBytes_decides (bytes : Bytes) :
    (∀ r : Record, r.message.Consistent →
      (ofBytes bytes = .ok r ↔ r.IsStorable ∧ readBits bytes = readBits r.toBytes)) ∧
    ((¬ ∃ r : Record, r.message.Consistent ∧ r.IsStorable ∧ readBits bytes = readBits r.toBytes) →
      ∃ e, ofBytes bytes = .error e) ∧
    ofBytesChecked bytes = some (ofBytes bytes) := by
  refine ⟨?accepts, ?refuses, ofBytesChecked_eq bytes⟩
  case accepts =>
    intro r hconsistent
    rw [ofBytes_eq_ok_iff]
    exact and_iff_right hconsistent
  case refuses =>
    intro hnone
    cases hread : ofBytes bytes with
    | error e => exact ⟨e, rfl⟩
    | ok r => exact absurd ⟨r, ofBytes_eq_ok_iff.mp hread⟩ hnone

end Record

end LogCodec
