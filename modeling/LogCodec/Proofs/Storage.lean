import LogCodec.Proofs.Operations
import LogCodec.Proofs.RecordFormat

/-!
# `LogCodec.Proofs.Storage`: which messages survive being stored

Records are written from every message, but are read with a rule that messages need not keep: no bytes may stand behind
the last dictionary value.  A caller can come to a message that has such bytes, if it takes one from parts or from JSON.
That message is refused when its record is read; every other one comes back as it was.

## Contents
- `Record.ofBytes_of_length`: what is checked, in order.  `Record.ofBytes_of_accepts` and `Record.ofBytes_toBytes`: what
  is left to decide for a record that was written.
- `Record.ofBytes_toBytes_run`, and `Record.refuses_unused_byte`, a message that does not come back.
-/

namespace LogCodec.Record

/-! ## The checks in their order -/

section
variable {bytes : Bytes}

/-- A byte string that is long enough to have a header is read by the checks of the header, and then by its
sections. -/
theorem ofBytes_of_length (hlength : Header.size ≤ bytes.length) :
    ofBytes bytes =
      if (Header.read bytes).magic ≠ Header.magicBytes then .error .wrongMagic
      else if (Header.read bytes).version ≠ Header.layoutVersion then
        .error (.unknownVersion (Header.read bytes).version)
      else if (Header.read bytes).payloadSize ≠ (bytes.drop Header.size).length then
        .error (.wrongSize (Header.size + (Header.read bytes).payloadSize) bytes.length)
      else if (Header.read bytes).checksum ≠ Checksum.ofBytes (bytes.drop Header.size) then
        .error (.wrongChecksum (Header.read bytes).checksum (Checksum.ofBytes (bytes.drop Header.size)))
      else (sections (Header.read bytes) (bytes.drop Header.size)).message.map (⟨(Header.read bytes).width, ·⟩) := by
  unfold ofBytes
  rw [if_neg (Nat.not_lt.mpr hlength)]
  simp only [Header.hasMagic, Header.hasVersion, Bool.not_eq_true', beq_eq_false_iff_ne]

/-- Behind a header that is accepted, the sections decide. -/
theorem ofBytes_of_accepts (hlength : Header.size ≤ bytes.length)
    (haccepts : (Header.read bytes).Accepts (bytes.drop Header.size)) :
    ofBytes bytes = (sections (Header.read bytes) (bytes.drop Header.size)).message.map
      (⟨(Header.read bytes).width, ·⟩) := by
  rw [ofBytes_of_length hlength, if_neg (not_not.mpr haccepts.magic), if_neg (not_not.mpr haccepts.version),
    if_neg (not_not.mpr haccepts.size), if_neg (not_not.mpr haccepts.checksum)]

end

section
variable {r : Record}

/-- The message of the sections of a consistent message. -/
theorem message_sectionsOf {m : EncodedMessage} (hconsistent : m.Consistent) :
    (sectionsOf m).message =
      if m.dictionary.Tight then .ok m
      else .error (.unusedBytes (m.dictionary.ends.getLastD 0) m.dictionary.bytes.length) := by
  by_cases htight : m.dictionary.Tight
  · rw [if_pos htight]
    exact Sections.message_eq_ok_iff.mpr ⟨rfl, htight, hconsistent⟩
  · have hdictionary : FlatBytes.ofParts m.dictionary.bytes m.dictionary.ends = .ok m.dictionary :=
      FlatBytes.ofParts_eq_ok_iff.mpr ⟨rfl, rfl⟩
    rw [if_neg htight]
    simp only [Sections.message, sectionsOf, hdictionary]
    exact if_pos htight

theorem length_toBytes (r : Record) : r.toBytes.length = Header.size + r.payload.length := by
  rw [toBytes, List.length_append, Header.length_toBytes (wellFormed_header r)]

theorem read_toBytes (r : Record) : Header.read r.toBytes = r.header :=
  Header.read_toBytes (wellFormed_header r) r.payload

theorem drop_toBytes (r : Record) : r.toBytes.drop Header.size = r.payload := by
  rw [toBytes, ← Header.length_toBytes (wellFormed_header r), List.drop_left]

/-- **A record that was written is read back, or refused for bytes behind its last dictionary value.** -/
theorem ofBytes_toBytes (hconsistent : r.message.Consistent) (hfits : r.message.FitsHeader) :
    ofBytes r.toBytes =
      if r.message.dictionary.Tight then .ok r
      else .error (.unusedBytes (r.message.dictionary.ends.getLastD 0) r.message.dictionary.bytes.length) := by
  have hsize : Header.size ≤ r.toBytes.length := by
    rw [length_toBytes]
    exact Nat.le_add_right Header.size r.payload.length
  obtain ⟨haccepts, hdescribes, hwidth⟩ := (canonical_eq_header_iff hfits).mp (canonical_header r)
  have hsections : sections r.header r.payload = sectionsOf r.message := sections_toBytes hdescribes hfits.ends_lt
  have hbehind : (Header.read r.toBytes).Accepts (r.toBytes.drop Header.size) := by
    rw [read_toBytes, drop_toBytes]
    exact haccepts
  rw [ofBytes_of_accepts hsize hbehind, read_toBytes, drop_toBytes, hsections, message_sectionsOf hconsistent, hwidth]
  by_cases htight : r.message.dictionary.Tight
  · rw [if_pos htight, if_pos htight]
    rfl
  · rw [if_neg htight, if_neg htight]
    rfl

end

/-! ## Messages that a caller comes to -/

section
open EncodedMessage

variable {operations : List Operation} {m : EncodedMessage}

/-- **A message that a caller came to is stored and read back as it was exactly if no bytes stand behind its last
dictionary value**; else its record is refused for these bytes.  There are none if no operation brought such bytes
along. -/
theorem ofBytes_toBytes_run (hrun : run operations .empty = some m) (hfits : m.FitsHeader) (width : Width) :
    (ofBytes (toBytes ⟨width, m⟩) =
      if m.dictionary.Tight then .ok ⟨width, m⟩
      else .error (.unusedBytes (m.dictionary.ends.getLastD 0) m.dictionary.bytes.length)) ∧
    ((∀ operation ∈ operations, operation.BringsTight) → m.dictionary.Tight) :=
  ⟨@ofBytes_toBytes ⟨width, m⟩ (consistent_run hrun) hfits, tight_run hrun⟩

/-- The theorem at a message with the static text `a` and the dictionary value `b`. -/
theorem ofBytes_toBytes_run_a_b :
    ∃ m, run [.text [0x61], .dictionary [0x62]] .empty = some m ∧ m.FitsHeader ∧
      ofBytes (toBytes ⟨.eight, m⟩) = .ok ⟨.eight, m⟩ := by
  have hrun : run [.text [0x61], .dictionary [0x62]] .empty =
      some ((empty.appendText [0x61]).appendDictionary [0x62]) := rfl
  have hfits : ((empty.appendText [0x61]).appendDictionary [0x62]).FitsHeader :=
    ⟨by decide, by decide, by decide, by decide⟩
  obtain ⟨hread, htight⟩ := ofBytes_toBytes_run hrun hfits .eight
  refine ⟨_, hrun, hfits, ?_⟩
  rw [hread, if_pos]
  apply htight
  intro operation hmem
  rcases List.mem_cons.mp hmem with rfl | hmem
  · trivial
  · obtain rfl := List.mem_singleton.mp hmem
    trivial

/-- A message with a byte behind its last dictionary value can be put together and does not come back: its dictionary
bytes are `ab`, and its only value ends behind the `a`. -/
theorem refuses_unused_byte :
    ∃ m, run [.parts [0x12] [0x61, 0x62] [1] []] .empty = some m ∧ m.FitsHeader ∧
      ofBytes (toBytes ⟨.eight, m⟩) = .error (.unusedBytes 1 2) := by
  have hrun : run [.parts [0x12] [0x61, 0x62] [1] []] .empty =
      some ⟨[0x12], ⟨[0x61, 0x62], [1], by decide⟩, []⟩ := by rfl
  have hfits : (⟨[0x12], ⟨[0x61, 0x62], [1], by decide⟩, []⟩ : EncodedMessage).FitsHeader :=
    ⟨by decide, by decide, by decide, by decide⟩
  refine ⟨_, hrun, hfits, ?_⟩
  rw [@ofBytes_toBytes ⟨.eight, _⟩ (consistent_run hrun) hfits]
  exact if_neg (by decide)

end

end LogCodec.Record
