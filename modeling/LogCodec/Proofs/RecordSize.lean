import LogCodec.Proofs.EncodingInPlace
import LogCodec.Proofs.Fields
import LogCodec.Proofs.Storage

/-!
# `LogCodec.Proofs.RecordSize`: which encoded texts survive being stored

A header has four bytes for each length and each count, and what does not fit is cut off.  An encoded text has at most
as many dictionary bytes, dictionary values and packed numbers as the text has bytes, so that these always fit.  The
logtype can become longer than the text, since every reserved byte of static text is written with an escape in front.
A text with more than 2 ^ 31 bytes can be encoded and be too long as a logtype: its record is refused for its size.

## Contents
- **Chunks.** `Chunk.HoldsByte` and what a chunk adds to each section; `EncodedMessage.exists_chunks`.
- **Encoded texts.** `length_logtype_le` and `fitsHeader_iff`: only the logtype can fail to fit.
- **Records.** `ofBytes_toBytes_of_size_ne` and `payloadSize_add`, for a logtype that does not fit; from them
  `ofBytes_toBytes_encode`, and `refuses_escaped_text`, a text whose record is refused.
-/

namespace LogCodec

/-! ## Chunks -/

/-- Static text is as long as it was, and one byte longer for each byte that has to be escaped. -/
theorem Logtype.length_writeText (text : Bytes) :
    (writeText text).length = text.length + text.countP needsEscape := by
  unfold writeText
  induction text with
  | nil => rfl
  | cons b text ih =>
    rw [List.flatMap_cons, List.length_append, ih, List.length_cons, List.countP_cons, writeByte]
    by_cases hb : needsEscape b = true
    · rw [if_pos hb, if_pos hb]
      simp only [List.length_cons, List.length_nil]
      omega
    · rw [if_neg hb, if_neg hb]
      simp only [List.length_cons, List.length_nil]
      omega

namespace Chunk

/-- A chunk that is a token holds at least one byte. -/
def HoldsByte : Chunk → Prop
  | text _ => True
  | token bytes => 0 < bytes.length

section
variable {c : Chunk} (h : c.HoldsByte) (width : Width)

include h in
theorem HoldsByte.length_writeElement_le :
    (Logtype.writeElement (c.element width)).length ≤ (Logtype.writeText c.bytes).length := by
  cases c with
  | text bytes => exact Nat.le_refl _
  | token bytes =>
    have hplace : (Logtype.writeElement ((token bytes).element width)).length = 1 := by
      rw [element]
      cases width.pack bytes with
      | some packed => rfl
      | none => rfl
    have hbytes : 0 < bytes.length := h
    rw [hplace, Logtype.length_writeText]
    exact Nat.le_add_right_of_le hbytes

include h in
/-- A token becomes one variable, which is less than it has bytes. -/
theorem HoldsByte.length_variables_le :
    (c.dictionary? width).toList.length ≤ c.bytes.length ∧ (c.packed? width).toList.length ≤ c.bytes.length := by
  cases c with
  | text bytes => exact ⟨Nat.zero_le _, Nat.zero_le _⟩
  | token bytes =>
    have hbytes : 0 < bytes.length := h
    exact ⟨Nat.le_trans Option.length_toList_le hbytes, Nat.le_trans Option.length_toList_le hbytes⟩

end

end Chunk

/-- Where each item of a list adds no more to one list than to another, all of them add no more. -/
theorem length_flatMap_le {α β γ : Type} {f : α → List β} {g : α → List γ} {items : List α}
    (h : ∀ item ∈ items, (f item).length ≤ (g item).length) : (items.flatMap f).length ≤ (items.flatMap g).length := by
  induction items with
  | nil => exact Nat.le_refl 0
  | cons item items ih =>
    obtain ⟨hitem, hitems⟩ := List.forall_mem_cons.mp h
    rw [List.flatMap_cons, List.flatMap_cons, List.length_append, List.length_append]
    exact Nat.add_le_add hitem (ih hitems)

/-- The tokens that a text is cut at hold a byte each. -/
theorem holdsByte_chunksFrom (locate : Locator) (named : Nat) (c : Cursor) :
    ∀ cs, chunksFrom locate named c = .ok cs → ∀ chunk ∈ cs, chunk.HoldsByte := by
  fun_induction chunksFrom locate named c with
  | case1 =>
    intro cs hcs chunk hmem
    obtain rfl := Except.ok.inj hcs
    obtain rfl := List.mem_singleton.mp hmem
    trivial
  | case2 named c span _ token hgood ih =>
    intro cs hcs chunk hmem
    obtain ⟨-, hlength, hwhole⟩ := hgood
    cases hrest : chunksFrom locate (named + 1) token.stop with
    | error e =>
      rw [hrest] at hcs
      cases hcs
    | ok rest =>
      rw [hrest] at hcs
      obtain rfl := Except.ok.inj hcs
      rcases List.mem_cons.mp hmem with rfl | hmem
      · trivial
      rcases List.mem_cons.mp hmem with rfl | hmem
      · show 0 < token.bytes.length
        rw [hwhole]
        exact hlength
      · exact ih rest hrest chunk hmem
  | case3 =>
    intro cs hcs
    cases hcs

namespace EncodedMessage

/-! ## Encoded texts -/

section
variable {width : Width} {locate : Locator} {text : Bytes} {e : EncodedMessage}
  (he : encode width locate text = .ok e)
include he

/-- An encoded text is made of chunks that cover it. -/
theorem exists_chunks : ∃ cs, e = ofChunks width cs ∧ cs.flatMap Chunk.bytes = text ∧ (∀ c ∈ cs, c.HoldsByte) ∧
    text.length < 0x100000000 := by
  obtain ⟨hlength, cs, hcs, rfl⟩ := encode_eq_ok_iff.mp he
  exact ⟨cs, rfl, bytes_of_chunks hcs, holdsByte_chunksFrom locate 0 _ cs hcs, Nat.lt_succ_of_le hlength⟩

/-- **The logtype of a text is no longer than the text would be as static text.** -/
theorem length_logtype_le : e.logtype.length ≤ (Logtype.writeText text).length := by
  obtain ⟨cs, rfl, rfl, hcs, -⟩ := exists_chunks he
  have hwrite : Logtype.writeText (cs.flatMap Chunk.bytes) = cs.flatMap fun c => Logtype.writeText c.bytes :=
    List.flatMap_assoc
  rw [hwrite]
  show ((cs.map (Chunk.element width)).flatMap Logtype.writeElement).length ≤ _
  rw [List.flatMap_map]
  exact length_flatMap_le fun c hc => Chunk.HoldsByte.length_writeElement_le (hcs c hc) width

/-- What is taken out of a text has no more parts than the text has bytes. -/
theorem lengths_le :
    e.dictionary.bytes.length ≤ text.length ∧ e.dictionary.size ≤ text.length ∧ e.numbers.length ≤ text.length := by
  obtain ⟨cs, rfl, rfl, hcs, -⟩ := exists_chunks he
  refine ⟨?bytes, ?values, ?numbers⟩
  case bytes =>
    exact Chunk.length_values_le width cs
  case values =>
    show (FlatBytes.ofList (cs.filterMap (Chunk.dictionary? width))).size ≤ _
    rw [← FlatBytes.length_toList, FlatBytes.toList_ofList, List.filterMap_eq_flatMap_toList]
    exact length_flatMap_le fun c hc => (Chunk.HoldsByte.length_variables_le (hcs c hc) width).1
  case numbers =>
    show ((cs.filterMap (Chunk.packed? width)).map Prod.snd).length ≤ _
    rw [List.length_map, List.filterMap_eq_flatMap_toList]
    exact length_flatMap_le fun c hc => (Chunk.HoldsByte.length_variables_le (hcs c hc) width).2

theorem length_lt : text.length < 0x100000000 := by
  obtain ⟨-, -, -, -, hshort⟩ := exists_chunks he
  exact hshort

/-- **Only the logtype of an encoded text can be too long for a header.** -/
theorem fitsHeader_iff : e.FitsHeader ↔ e.logtype.length < 0x100000000 := by
  obtain ⟨hbytes, hvalues, hnumbers⟩ := lengths_le he
  have hshort := length_lt he
  constructor
  · intro hfits
    exact hfits.logtype
  · intro hlogtype
    exact ⟨hlogtype, Nat.lt_of_le_of_lt hbytes hshort, Nat.lt_of_le_of_lt hvalues hshort,
      Nat.lt_of_le_of_lt hnumbers hshort⟩

/-- An encoded text has a value for every place, and nothing stands behind its last dictionary value. -/
theorem consistent_and_tight : e.Consistent ∧ e.dictionary.Tight := by
  obtain ⟨cs, -, hrun⟩ := run_of_encode width locate he
  have hbrings : ∀ operation ∈ Operation.clear :: cs.map (Chunk.operation width), operation.BringsTight := by
    rw [List.forall_mem_cons, List.forall_mem_map]
    exact ⟨trivial, fun c _ => c.bringsTight_operation width⟩
  exact ⟨consistent_run (hrun .empty), tight_run (hrun .empty) hbrings⟩

end

end EncodedMessage

/-! ## Records -/

namespace Record

/-- A record whose header does not account for all bytes behind it is refused for its size. -/
theorem ofBytes_toBytes_of_size_ne {r : Record} (hsize : r.header.payloadSize ≠ r.payload.length) :
    ofBytes r.toBytes = .error (.wrongSize (Header.size + r.header.payloadSize) r.toBytes.length) := by
  have hlong : Header.size ≤ r.toBytes.length := by
    rw [length_toBytes]
    exact Nat.le_add_right Header.size r.payload.length
  have hmagic : r.header.magic = Header.magicBytes := rfl
  have hversion : r.header.version = Header.layoutVersion := rfl
  rw [ofBytes_of_length hlong, read_toBytes, drop_toBytes, if_neg (not_not.mpr hmagic), if_neg (not_not.mpr hversion),
    if_pos hsize]

theorem length_payload (r : Record) :
    r.payload.length = r.message.logtype.length + r.message.dictionary.bytes.length + r.message.dictionary.size * 4 +
      r.message.numbers.length * 8 := by
  rw [payload, List.length_append, List.length_append, List.length_append, length_writeEnds, length_writeNumbers]
  rfl

section
open EncodedMessage

variable {width : Width} {locate : Locator} {text : Bytes} {e : EncodedMessage}
  (he : encode width locate text = .ok e)
include he

/-- The header of a text whose logtype is too long accounts for 2 ^ 32 bytes less than there are. -/
theorem payloadSize_add (hlogtype : 0x100000000 ≤ e.logtype.length) :
    (header ⟨width, e⟩).payloadSize + 0x100000000 = (payload ⟨width, e⟩).length := by
  obtain ⟨hbytes, hvalues, hnumbers⟩ := lengths_le he
  have hshort := length_lt he
  have htwice : e.logtype.length ≤ text.length + text.countP needsEscape := by
    rw [← Logtype.length_writeText]
    exact length_logtype_le he
  have hescapes : text.countP needsEscape ≤ text.length := List.countP_le_length
  rw [length_payload]
  simp only [header, Header.payloadSize, UInt32.toNat_ofNat']
  omega

/-- **An encoded text survives being stored exactly if its logtype is shorter than 2 ^ 32 bytes.**  Else its record is
refused, since the header accounts for 2 ^ 32 bytes less than there are.  The logtype is no longer than the text and an
escape for every byte that needs one, and the encoded text always decodes to the text. -/
theorem ofBytes_toBytes_encode :
    (ofBytes (toBytes ⟨width, e⟩) =
      if e.logtype.length < 0x100000000 then .ok ⟨width, e⟩
      else .error (.wrongSize ((toBytes ⟨width, e⟩).length - 0x100000000) (toBytes ⟨width, e⟩).length)) ∧
    (e.FitsHeader ↔ e.logtype.length < 0x100000000) ∧
    e.logtype.length ≤ text.length + text.countP needsEscape ∧ e.decode width = .ok text := by
  refine ⟨?read, fitsHeader_iff he, ?length, decode_encode he⟩
  case read =>
    obtain ⟨hconsistent, htight⟩ := consistent_and_tight he
    by_cases hlogtype : e.logtype.length < 0x100000000
    · rw [if_pos hlogtype, @ofBytes_toBytes ⟨width, e⟩ hconsistent ((fitsHeader_iff he).mpr hlogtype), if_pos htight]
    · have hadd := payloadSize_add he (Nat.not_lt.mp hlogtype)
      have hsize : Header.size + (header ⟨width, e⟩).payloadSize = (toBytes ⟨width, e⟩).length - 0x100000000 := by
        rw [length_toBytes]
        omega
      rw [if_neg hlogtype, ofBytes_toBytes_of_size_ne (by omega), hsize]
  case length =>
    rw [← Logtype.length_writeText]
    exact length_logtype_le he

end

open EncodedMessage in
/-- A text with a byte that is escaped. -/
theorem ofBytes_toBytes_encode_a_backslash :
    ∃ e, encode .eight Schema.standard.locator [0x61, 0x5C] = .ok e ∧ e.logtype = [0x61, 0x5C, 0x5C] ∧
      ofBytes (toBytes ⟨.eight, e⟩) = .ok ⟨.eight, e⟩ ∧ e.decode .eight = .ok [0x61, 0x5C] := by
  have he : encode .eight Schema.standard.locator [0x61, 0x5C] = .ok ⟨[0x61, 0x5C, 0x5C], .ofList [], []⟩ := by
    rw [encode_eq Schema.standard_isLocal]
    rfl
  obtain ⟨hread, -, -, hdecode⟩ := ofBytes_toBytes_encode he
  exact ⟨_, he, rfl, hread.trans (if_pos (by decide)), hdecode⟩

end Record

/-! ### A text that is too long as a logtype -/

/-- Nothing but backslashes is static text. -/
theorem Schema.fields_backslashes (count : Nat) :
    Schema.standard.fields id (List.replicate count (0x5C : UInt8)) = List.replicate count (.byte 0x5C) := by
  have hmembers : ∀ b ∈ List.replicate count (0x5C : UInt8), Schema.standard.isDelimiter (id b) = false := by
    intro b hb
    obtain rfl := List.eq_of_mem_replicate hb
    rfl
  have hstatic : Query.isVariableAfter Schema.standard none ((List.replicate count (0x5C : UInt8)).map id) = false := by
    rw [List.map_id]
    apply Schema.standard_static
    intro b hb
    obtain rfl := List.eq_of_mem_replicate hb
    exact ⟨rfl, rfl, rfl⟩
  rw [Schema.fields, Schema.fieldsFrom_of_members hmembers, List.nil_append, Schema.runFields_of_static hstatic,
    List.map_replicate]

open EncodedMessage in
/-- A text of backslashes that is too long as a logtype is encoded, and its record is refused. -/
theorem Record.refuses_backslashes (width : Width) {count : Nat} (hlong : 0x80000000 ≤ count)
    (hcount : count < 0x100000000) :
    ∃ e, encode width Schema.standard.locator (List.replicate count 0x5C) = .ok e ∧
      e.decode width = .ok (List.replicate count 0x5C) ∧
      ofBytes (toBytes ⟨width, e⟩) = .error (.wrongSize (2 * count - 0xFFFFFFE0) (2 * count + 0x20)) := by
  have he : encode width Schema.standard.locator (List.replicate count 0x5C) =
      .ok (ofAtoms ((List.replicate count 0x5C).map .byte)) := by
    have hshort : ¬ maxMessageLength < (List.replicate count (0x5C : UInt8)).length := by
      rw [List.length_replicate]
      exact Nat.not_lt.mpr (Nat.le_of_lt_succ hcount)
    rw [encode_eq Schema.standard_isLocal, if_neg hshort, Schema.fields_backslashes, List.map_replicate,
      List.map_replicate]
    rfl
  have hlogtype : (ofAtoms ((List.replicate count 0x5C).map .byte)).logtype.length = 2 * count := by
    show (((List.replicate count 0x5C).map Atom.byte).flatMap Atom.wire).length = 2 * count
    rw [Atom.flatMap_wire_bytes, Logtype.length_writeText, List.countP_replicate, List.length_replicate, Nat.two_mul]
    rfl
  have hpayload : (payload ⟨width, ofAtoms ((List.replicate count 0x5C).map .byte)⟩).length = 2 * count := by
    rw [length_payload, hlogtype, ofAtoms, Atom.filterMap_value?_bytes, Atom.filterMap_packed?_bytes]
    rfl
  have hadd := payloadSize_add he (by omega)
  have hsize : Header.size + (header ⟨width, ofAtoms ((List.replicate count 0x5C).map .byte)⟩).payloadSize =
      2 * count - 0xFFFFFFE0 := by
    rw [Header.size]
    omega
  refine ⟨_, he, decode_encode he, ?_⟩
  rw [ofBytes_toBytes_of_size_ne (by omega), hsize, length_toBytes, hpayload, Nat.add_comm]
  rfl

/-- A message of 2 ^ 31 backslashes is encoded and decodes to itself, but its record is refused. -/
theorem Record.refuses_escaped_text :
    ∃ e, EncodedMessage.encode .eight Schema.standard.locator (List.replicate 0x80000000 0x5C) = .ok e ∧
      e.decode .eight = .ok (List.replicate 0x80000000 0x5C) ∧
      ofBytes (toBytes ⟨.eight, e⟩) = .error (.wrongSize 0x20 0x100000020) := by
  obtain ⟨e, he, hdecode, hread⟩ := @refuses_backslashes .eight 0x80000000 (by decide) (by decide)
  exact ⟨e, he, hdecode, hread⟩

end LogCodec
