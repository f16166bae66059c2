import LogCodec.Bytes

/-!
# `LogCodec.FlatBytes`: byte strings stored back to back

A list of byte strings is kept as one buffer and the end offset of each string; a string starts where the one before
it ends.  Bytes behind the last end offset belong to no string until one more is appended: that string then starts
with them.

## Contents
- `EndsWithin`, what end offsets have to satisfy, and `checkEnds`, which finds the first one that does not.
- `OffsetError`, what is wrong with that one.
- `FlatBytes` with `toList`, `get?`, `push`, `pushAll`, `ofList` and `ofParts`.
- `FlatBytes.Tight`: no bytes stand behind the last end offset.
-/

namespace LogCodec

/-- What is wrong with a list of end offsets. -/
inductive OffsetError where
  /-- An offset is less than the one before it. -/
  | decreases (index offset previous : Nat)
  /-- An offset lies behind the end of the buffer. -/
  | beyondEnd (index offset length : Nat)
deriving DecidableEq, Repr

/-- The wording of an offset error. -/
def OffsetError.message : OffsetError → String
  | .decreases index offset previous =>
    s!"end offset {offset} at index {index} is less than the previous end offset {previous}"
  | .beyondEnd index offset length =>
    s!"end offset {offset} at index {index} exceeds buffer length {length}"

/-- Every end offset is at least the one before it and lies within a buffer of the given length. -/
def EndsWithin (length : Nat) : (previous : Nat) → List Nat → Prop
  | _, [] => True
  | previous, stop :: rest => previous ≤ stop ∧ stop ≤ length ∧ EndsWithin length stop rest

instance EndsWithin.decidable (length previous : Nat) :
    (ends : List Nat) → Decidable (EndsWithin length previous ends)
  | [] => isTrue trivial
  | stop :: rest =>
    have := EndsWithin.decidable length stop rest
    inferInstanceAs (Decidable (_ ∧ _ ∧ _))

/-- Finds the first end offset that is less than the one before it or lies behind the end of the buffer.  Offsets are
numbered from `index`. -/
def checkEndsFrom (length : Nat) : (index previous : Nat) → List Nat → Except OffsetError Unit
  | _, _, [] => .ok ()
  | index, previous, stop :: rest =>
    if stop < previous then .error (.decreases index stop previous)
    else if length < stop then .error (.beyondEnd index stop length)
    else checkEndsFrom length (index + 1) stop rest

/-- Finds the first end offset that breaks the order or the bound. -/
def checkEnds (ends : List Nat) (length : Nat) : Except OffsetError Unit := checkEndsFrom length 0 0 ends

theorem checkEndsFrom_eq_ok_iff {length index previous : Nat} {ends : List Nat} :
    checkEndsFrom length index previous ends = .ok () ↔ EndsWithin length previous ends := by
  induction ends generalizing index previous with
  | nil => simp [checkEndsFrom, EndsWithin]
  | cons stop rest ih =>
    simp only [checkEndsFrom, EndsWithin]
    split
    · simp; omega
    · split
      · simp; omega
      · rw [ih]; constructor
        · intro h; exact ⟨by omega, by omega, h⟩
        · intro h; exact h.2.2

/-- A buffer that grows keeps its end offsets, and there may be more of them behind its old end. -/
theorem EndsWithin.append {length grown previous : Nat} {ends more : List Nat} (h : EndsWithin length previous ends)
    (hprevious : previous ≤ length) (hgrown : length ≤ grown) (hmore : EndsWithin grown length more) :
    EndsWithin grown previous (ends ++ more) := by
  induction ends generalizing previous with
  | nil =>
    cases more with
    | nil => trivial
    | cons stop rest => exact ⟨Nat.le_trans hprevious hmore.1, hmore.2⟩
  | cons stop rest ih => exact ⟨h.1, Nat.le_trans h.2.1 hgrown, ih h.2.2 h.2.1⟩

/-- Byte strings stored back to back. -/
@[ext]
structure FlatBytes where
  /-- The strings, one behind the other. -/
  bytes : Bytes
  /-- Where each string ends. -/
  ends : List Nat
  ends_within : EndsWithin bytes.length 0 ends
deriving DecidableEq

namespace FlatBytes

/-- No byte strings. -/
def empty : FlatBytes := ⟨[], [], trivial⟩

instance : Inhabited FlatBytes := ⟨empty⟩

/-- No bytes stand behind the last end offset. -/
def Tight (f : FlatBytes) : Prop := f.ends.getLastD 0 = f.bytes.length

instance Tight.decidable (f : FlatBytes) : Decidable f.Tight := inferInstanceAs (Decidable (_ = _))

/-- The strings of a buffer that is given from the start of the first one on, with where that one starts and where each
one ends. -/
def segments (rest : Bytes) (start : Nat) : List Nat → List Bytes
  | [] => []
  | stop :: ends => rest.take (stop - start) :: segments (rest.drop (stop - start)) stop ends

/-- The byte strings in order. -/
def toList (f : FlatBytes) : List Bytes := segments f.bytes 0 f.ends

/-- The number of byte strings. -/
def size (f : FlatBytes) : Nat := f.ends.length

/-- Where a byte string starts: at the end of the one before it. -/
def startOf (f : FlatBytes) : Nat → Nat
  | 0 => 0
  | index + 1 => f.ends.getD index 0

/-- One of the byte strings. -/
def get? (f : FlatBytes) (index : Nat) : Option Bytes :=
  f.ends[index]?.map fun stop => (Span.mk (f.startOf index) stop).slice f.bytes

/-- Appends a byte string, which takes in the bytes behind the last end offset. -/
def push (f : FlatBytes) (segment : Bytes) : FlatBytes where
  bytes := f.bytes ++ segment
  ends := f.ends ++ [(f.bytes ++ segment).length]
  ends_within := by
    have hgrown : f.bytes.length ≤ (f.bytes ++ segment).length := by
      rw [List.length_append]
      exact Nat.le_add_right _ _
    exact f.ends_within.append (Nat.zero_le _) hgrown ⟨hgrown, Nat.le_refl _, trivial⟩

/-- Where byte strings end that are stored back to back from a position on. -/
def endsFrom (start : Nat) : List Bytes → List Nat
  | [] => []
  | segment :: rest => (start + segment.length) :: endsFrom (start + segment.length) rest

theorem endsWithin_endsFrom {length start : Nat} {segments : List Bytes}
    (h : start + segments.flatten.length ≤ length) : EndsWithin length start (endsFrom start segments) := by
  induction segments generalizing start with
  | nil => trivial
  | cons segment rest ih =>
    simp only [List.flatten_cons, List.length_append] at h
    exact ⟨by omega, by omega, ih (by omega)⟩

/-- Appends byte strings, one behind the other. -/
def pushAll (f : FlatBytes) (segments : List Bytes) : FlatBytes where
  bytes := f.bytes ++ segments.flatten
  ends := f.ends ++ endsFrom f.bytes.length segments
  ends_within := by
    have hlength : f.bytes.length + segments.flatten.length = (f.bytes ++ segments.flatten).length :=
      List.length_append.symm
    exact f.ends_within.append (Nat.zero_le _) (hlength ▸ Nat.le_add_right _ _)
      (endsWithin_endsFrom (Nat.le_of_eq hlength))

/-- Stores byte strings back to back. -/
def ofList (segments : List Bytes) : FlatBytes :=
  ⟨segments.flatten, endsFrom 0 segments, endsWithin_endsFrom (by simp)⟩

/-- Byte strings from a buffer and end offsets, which have to be in order and within the buffer. -/
def ofParts (bytes : Bytes) (ends : List Nat) : Except OffsetError FlatBytes :=
  match h : checkEnds ends bytes.length with
  | .error e => .error e
  | .ok () => .ok ⟨bytes, ends, checkEndsFrom_eq_ok_iff.mp h⟩

@[simp] theorem length_segments (rest : Bytes) (start : Nat) (ends : List Nat) :
    (segments rest start ends).length = ends.length := by
  induction ends generalizing rest start with
  | nil => rfl
  | cons stop ends ih => simp [segments, ih]

@[simp] theorem length_toList (f : FlatBytes) : f.toList.length = f.size := length_segments ..

@[simp] theorem size_push (f : FlatBytes) (segment : Bytes) : (f.push segment).size = f.size + 1 := by
  simp [size, push]

theorem tight_empty : empty.Tight := rfl

/-- A byte string that is appended takes in all that stood behind the last end offset. -/
theorem tight_push (f : FlatBytes) (segment : Bytes) : (f.push segment).Tight := by
  unfold Tight push
  exact List.getLastD_concat

theorem endsFrom_append (start : Nat) (segments more : List Bytes) :
    endsFrom start (segments ++ more) =
      endsFrom start segments ++ endsFrom (start + segments.flatten.length) more := by
  induction segments generalizing start with
  | nil => simp [endsFrom]
  | cons segment rest ih => simp [endsFrom, ih, Nat.add_assoc]

@[simp] theorem pushAll_nil (f : FlatBytes) : f.pushAll [] = f := by
  ext1
  · exact List.append_nil f.bytes
  · exact List.append_nil f.ends

theorem pushAll_singleton (f : FlatBytes) (segment : Bytes) : f.pushAll [segment] = f.push segment := by
  ext1
  · simp [pushAll, push]
  · simp [pushAll, push, endsFrom]

/-- Byte strings may be appended in several goes. -/
theorem pushAll_append (f : FlatBytes) (segments more : List Bytes) :
    f.pushAll (segments ++ more) = (f.pushAll segments).pushAll more := by
  ext1
  · simp [pushAll]
  · simp [pushAll, endsFrom_append]

/-- Storing one more byte string is appending it. -/
theorem ofList_concat (segments : List Bytes) (segment : Bytes) :
    ofList (segments ++ [segment]) = (ofList segments).push segment := by
  ext1
  · simp [ofList, push]
  · simp [ofList, push, endsFrom_append, endsFrom]

/-- What is stored back to back is read back. -/
@[simp] theorem toList_ofList (segments : List Bytes) : (ofList segments).toList = segments := by
  have key : ∀ start, FlatBytes.segments segments.flatten start (endsFrom start segments) = segments := by
    induction segments with
    | nil => intro start; rfl
    | cons segment rest ih => intro start; simp [FlatBytes.segments, endsFrom, ih]
  exact key 0

theorem ofParts_eq_ok_iff {bytes : Bytes} {ends : List Nat} {f : FlatBytes} :
    ofParts bytes ends = .ok f ↔ f.bytes = bytes ∧ f.ends = ends := by
  constructor
  · intro h
    unfold ofParts at h
    split at h
    · cases h
    · cases h; exact ⟨rfl, rfl⟩
  · rintro ⟨rfl, rfl⟩
    have hok : checkEnds f.ends f.bytes.length = .ok () := checkEndsFrom_eq_ok_iff.mpr f.ends_within
    unfold ofParts
    split
    · next e he => rw [hok] at he; cases he
    · rfl

end FlatBytes

end LogCodec
