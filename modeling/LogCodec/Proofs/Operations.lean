import LogCodec.Message.Operation
import LogCodec.Proofs.Consistency

/-!
# `LogCodec.Proofs.Operations`: what holds of every message that a caller can have

Each operation keeps a message consistent, and so every message that a caller can come to is.  That no bytes stand
behind the last dictionary value is kept by appending as well, but a message that is taken from elsewhere may bring such
bytes along.

## Contents
- `Operation.Leads`: what each operation does when it succeeds, and `Operation.apply_eq_some_iff`.
- `run_induction`: what every operation keeps is kept by all of them together.
- `consistent_run`, and `tight_run` with `Operation.BringsTight`.
-/

namespace LogCodec.EncodedMessage

/-! ## One operation -/

/-- An operation that succeeds leads from one message to another. -/
inductive Operation.Leads (m : EncodedMessage) : Operation → EncodedMessage → Prop where
  | clear : Leads m .clear empty
  | text (bytes : Bytes) : Leads m (.text bytes) (m.appendText bytes)
  | dictionary (value : Bytes) (hfits : (m.dictionary.bytes ++ value).length < 0x100000000) :
      Leads m (.dictionary value) (m.appendDictionary value)
  | encoded (kind : NumberKind) (value : Int64) :
      Leads m (.encoded (.number kind) value) (m.appendNumber (kind, value))
  | parts {logtype bytes : Bytes} {ends : List UInt32} {numbers : List Int64} {values : FlatBytes}
      (hvalues : FlatBytes.ofParts bytes (ends.map UInt32.toNat) = .ok values)
      (hconsistent : Consistent ⟨logtype, values, numbers⟩) :
      Leads m (.parts logtype bytes ends numbers) ⟨logtype, values, numbers⟩
  | json {text : String} {read : EncodedMessage} (hread : ofJson text = .ok read) : Leads m (.json text) read

section
variable {operation : Operation} {m m' : EncodedMessage}

/-- **What an operation does.** -/
theorem Operation.apply_eq_some_iff : operation.apply m = some m' ↔ operation.Leads m m' := by
  constructor
  · intro h
    cases operation with
    | clear =>
      obtain rfl := Option.some.inj h
      exact .clear
    | text bytes =>
      obtain rfl := Option.some.inj h
      exact .text bytes
    | dictionary value =>
      rw [apply] at h
      by_cases hfits : (m.dictionary.bytes ++ value).length < 0x100000000
      · rw [if_pos hfits] at h
        obtain rfl := Option.some.inj h
        exact .dictionary value hfits
      · rw [if_neg hfits] at h
        cases h
    | encoded placeholder value =>
      cases placeholder with
      | number kind =>
        obtain rfl := Option.some.inj h
        exact .encoded kind value
      | dictionary => cases h
    | parts logtype bytes ends numbers =>
      cases hvalues : FlatBytes.ofParts bytes (ends.map UInt32.toNat) with
      | error e =>
        rw [apply, hvalues] at h
        cases h
      | ok values =>
        rw [apply, hvalues] at h
        obtain ⟨rfl, hconsistent⟩ := ofParts_eq_ok_iff.mp (toOption_eq_some_iff.mp h)
        exact .parts hvalues hconsistent
    | json text => exact .json (toOption_eq_some_iff.mp h)
  · intro h
    cases h with
    | clear => rfl
    | text bytes => rfl
    | dictionary value hfits => exact if_pos hfits
    | encoded kind value => rfl
    | parts hvalues hconsistent =>
      rw [apply, hvalues]
      exact toOption_eq_some_iff.mpr (ofParts_eq_ok_iff.mpr ⟨rfl, hconsistent⟩)
    | json hread => exact toOption_eq_some_iff.mpr hread

/-- A message that is read from JSON was put together from parts. -/
theorem consistent_of_ofJson {text : String} {read : EncodedMessage} (h : ofJson text = .ok read) :
    read.Consistent := by
  obtain ⟨made, hmade, hclean⟩ := bind_eq_ok_iff.mp h
  obtain ⟨fields, -, hlogtype⟩ := bind_eq_ok_iff.mp hmade
  obtain ⟨logtype, -, hdictionary⟩ := bind_eq_ok_iff.mp hlogtype
  obtain ⟨dictionary, -, hnumbers⟩ := bind_eq_ok_iff.mp hdictionary
  obtain ⟨numbers, -, hparts⟩ := bind_eq_ok_iff.mp hnumbers
  have hsame : made = read := by
    split at hclean
    · exact Except.ok.inj hclean
    · cases hclean
  rw [← hsame]
  exact (ofParts_eq_ok_iff.mp (mapError_eq_ok_iff.mp hparts)).2

/-- **Every operation keeps a message consistent.** -/
theorem Operation.Leads.consistent (h : operation.Leads m m') (hconsistent : m.Consistent) : m'.Consistent := by
  cases h with
  | clear => exact consistent_empty
  | text bytes => exact hconsistent.appendText bytes
  | dictionary value _ => exact hconsistent.appendDictionary value
  | encoded kind value => exact hconsistent.appendNumber (kind, value)
  | parts _ hparts => exact hparts
  | json hread => exact consistent_of_ofJson hread

/-- A message that an operation takes from elsewhere has no bytes behind its last dictionary value. -/
def Operation.BringsTight : Operation → Prop
  | .parts _ bytes ends _ => (ends.map UInt32.toNat).getLastD 0 = bytes.length
  | .json content => ∀ read, ofJson content = .ok read → read.dictionary.Tight
  | _ => True

/-- Bytes behind the last dictionary value are brought along by a message from elsewhere or not at all. -/
theorem Operation.Leads.tight (h : operation.Leads m m') (hbrings : operation.BringsTight)
    (htight : m.dictionary.Tight) : m'.dictionary.Tight := by
  cases h with
  | clear => exact FlatBytes.tight_empty
  | text bytes => exact htight
  | dictionary value _ => exact m.dictionary.tight_push value
  | encoded kind value => exact htight
  | parts hvalues _ =>
    obtain ⟨hbytes, hends⟩ := FlatBytes.ofParts_eq_ok_iff.mp hvalues
    unfold FlatBytes.Tight
    rw [hbytes, hends]
    exact hbrings
  | json hread => exact hbrings _ hread

end

/-! ## One operation after the other -/

section
variable {operations : List Operation} {m m' : EncodedMessage}

/-- **What every operation keeps, all of them together keep.** -/
theorem run_induction {motive : EncodedMessage → Prop} (h : run operations m = some m') (start : motive m)
    (step : ∀ operation ∈ operations, ∀ {m m' : EncodedMessage}, operation.Leads m m' → motive m → motive m') :
    motive m' := by
  unfold run at h
  induction operations generalizing m with
  | nil =>
    obtain rfl := Option.some.inj h
    exact start
  | cons operation operations ih =>
    obtain ⟨next, hnext, hrest⟩ := Option.bind_eq_some_iff.mp h
    have hleads := Operation.apply_eq_some_iff.mp hnext
    apply ih hrest (step operation List.mem_cons_self hleads start)
    intro other hother
    exact step other (List.mem_cons_of_mem operation hother)

/-- **Every message that a caller comes to is consistent.** -/
theorem consistent_run (h : run operations .empty = some m) : m.Consistent :=
  run_induction h consistent_empty fun _ _ _ _ hleads => hleads.consistent

/-- **No bytes stand behind the last dictionary value** if no operation brought such bytes along. -/
theorem tight_run (h : run operations .empty = some m)
    (hbrings : ∀ operation ∈ operations, operation.BringsTight) : m.dictionary.Tight :=
  run_induction h FlatBytes.tight_empty fun operation hmem _ _ hleads => hleads.tight (hbrings operation hmem)

end

end LogCodec.EncodedMessage
