import LogCodec.FlatBytes.Operation
import Mathlib.Data.List.Induction

/-!
# `LogCodec.Proofs.Segments`: appending to stored byte strings

A byte string that is appended starts where the last one ends, and not where the buffer ends.  The two places differ
only if the buffer came with bytes that belong to no string; these go to the string that is appended, in front of its
own.  Every operation but taking parts leaves no such bytes, so that only the operation directly before counts.

## Contents
- **One by one.** `getElem?_toList`: `get?` and `toList` cut the same strings.
- **Appending.** `unused`, and `toList_push`, with `toList_push_eq_iff`: when exactly the given string is appended.
- **Operations.** `Operation.tight_iff` and `tight_run_iff`; `toList_push_run`, which brings all of this together, and
  `push_takes_in_unused`, an appended string that has one byte too many.
-/

namespace LogCodec

theorem EndsWithin.le_getLastD {length previous : Nat} {ends : List Nat} (h : EndsWithin length previous ends) :
    previous ≤ ends.getLastD previous := by
  induction ends generalizing previous with
  | nil => exact Nat.le_refl previous
  | cons stop rest ih =>
    rw [List.getLastD_cons]
    exact Nat.le_trans h.1 (ih h.2.2)

theorem EndsWithin.getLastD_le {length previous : Nat} {ends : List Nat} (h : EndsWithin length previous ends)
    (hprevious : previous ≤ length) : ends.getLastD previous ≤ length := by
  induction ends generalizing previous with
  | nil => exact hprevious
  | cons stop rest ih =>
    rw [List.getLastD_cons]
    exact ih h.2.2 h.2.1

namespace FlatBytes

/-! ## One by one -/

/-- The strings of a buffer, by their index. -/
theorem getElem?_segments (bytes : Bytes) {start : Nat} {ends : List Nat} (h : EndsWithin bytes.length start ends)
    (index : Nat) :
    (segments (bytes.drop start) start ends)[index]? =
      ends[index]?.map fun stop => (Span.mk ((start :: ends).getD index 0) stop).slice bytes := by
  induction ends generalizing start index with
  | nil => rfl
  | cons stop rest ih =>
    obtain ⟨hstart, -, hrest⟩ := h
    have hdrop : (bytes.drop start).drop (stop - start) = bytes.drop stop := by
      rw [List.drop_drop, Nat.add_sub_cancel' hstart]
    rw [segments, hdrop]
    cases index with
    | zero => rfl
    | succ index => exact ih hrest index

/-- **One of the byte strings is the one at its index among all.** -/
theorem getElem?_toList (f : FlatBytes) (index : Nat) : f.toList[index]? = f.get? index := by
  have hstart : f.startOf index = (0 :: f.ends).getD index 0 := by
    cases index with
    | zero => rfl
    | succ index => rfl
  rw [toList, get?, hstart]
  exact getElem?_segments f.bytes f.ends_within index

/-! ## Appending -/

/-- The bytes that stand behind the last end offset and belong to no string. -/
def unused (f : FlatBytes) : Bytes := f.bytes.drop (f.ends.getLastD 0)

/-- One more string of a buffer goes from the end of the last one to the end of the buffer. -/
theorem segments_concat {rest more : Bytes} {start : Nat} {ends : List Nat}
    (h : EndsWithin (start + rest.length) start ends) :
    segments (rest ++ more) start (ends ++ [start + rest.length + more.length]) =
      segments rest start ends ++ [rest.drop (ends.getLastD start - start) ++ more] := by
  induction ends generalizing rest start with
  | nil =>
    have hall : (rest ++ more).length = start + rest.length + more.length - start := by
      rw [List.length_append]
      omega
    show [(rest ++ more).take _] = [rest.drop (start - start) ++ more]
    rw [← hall, List.take_length, Nat.sub_self]
    rfl
  | cons stop ends ih =>
    obtain ⟨hstart, hstop, hends⟩ := h
    have hlast := hends.le_getLastD
    have hfront : stop - start ≤ rest.length := by omega
    -- What is cut off in front shortens the buffer and moves its start by as much.
    have hlength : start + rest.length = stop + (rest.drop (stop - start)).length := by
      rw [List.length_drop]
      omega
    have hbehind : stop - start + (ends.getLastD stop - stop) = ends.getLastD stop - start := by omega
    rw [List.cons_append, segments, segments, List.take_append_of_le_length hfront,
      List.drop_append_of_le_length hfront, List.getLastD_cons, List.cons_append, hlength]
    rw [hlength] at hends
    rw [ih hends, List.drop_drop, hbehind]

/-- **A string that is appended takes in the bytes behind the last end offset.** -/
theorem toList_push (f : FlatBytes) (segment : Bytes) :
    (f.push segment).toList = f.toList ++ [f.unused ++ segment] := by
  have hends : EndsWithin (0 + f.bytes.length) 0 f.ends := by
    rw [Nat.zero_add]
    exact f.ends_within
  have hconcat := @segments_concat f.bytes segment 0 f.ends hends
  rw [Nat.zero_add, Nat.sub_zero, ← List.length_append] at hconcat
  exact hconcat

/-- The strings that were there before stay as they are. -/
theorem get?_push_of_lt {f : FlatBytes} {index : Nat} (h : index < f.size) (segment : Bytes) :
    (f.push segment).get? index = f.get? index := by
  have hlength : index < f.toList.length := by
    rw [length_toList]
    exact h
  rw [← getElem?_toList, ← getElem?_toList, toList_push, List.getElem?_append_left hlength]

/-- No bytes are taken in exactly if the last end offset is the end of the buffer. -/
theorem unused_eq_nil_iff {f : FlatBytes} : f.unused = [] ↔ f.Tight := by
  have hle : f.ends.getLastD 0 ≤ f.bytes.length := f.ends_within.getLastD_le (Nat.zero_le _)
  unfold unused Tight
  rw [List.drop_eq_nil_iff]
  constructor
  · intro h
    exact Nat.le_antisymm hle h
  · intro h
    exact Nat.le_of_eq h.symm

/-- **The string that is given is the one that is appended exactly if no bytes stand behind the last end offset.** -/
theorem toList_push_eq_iff {f : FlatBytes} {segment : Bytes} :
    (f.push segment).toList = f.toList ++ [segment] ↔ f.Tight := by
  rw [toList_push, ← unused_eq_nil_iff]
  constructor
  · intro h
    have hsegment : f.unused ++ segment = segment := List.singleton_inj.mp (List.append_cancel_left h)
    exact List.append_left_eq_self.mp hsegment
  · intro h
    rw [h]
    rfl

theorem tight_ofList (segments : List Bytes) : (ofList segments).Tight := by
  cases segments using List.reverseRecOn with
  | nil => rfl
  | append_singleton front segment =>
    rw [ofList_concat]
    exact tight_push (ofList front) segment

/-! ## Operations -/

/-- An operation takes no bytes that belong to no string. -/
def Operation.BringsTight : Operation → Prop
  | .parts bytes ends => (ends.map UInt32.toNat).getLastD 0 = bytes.length
  | _ => True

section
variable {operation : Operation} {operations : List Operation} {f g : FlatBytes}

/-- **Whether bytes stand behind the last end offset is up to the last operation alone.** -/
theorem Operation.tight_iff (h : operation.apply f = some g) : g.Tight ↔ operation.BringsTight := by
  cases operation with
  | clear =>
    obtain rfl := Option.some.inj h
    exact iff_of_true tight_empty trivial
  | push segment =>
    rw [apply] at h
    split at h
    · obtain rfl := Option.some.inj h
      exact iff_of_true (f.tight_push segment) trivial
    · cases h
  | collect segments =>
    rw [apply] at h
    split at h
    · obtain rfl := Option.some.inj h
      exact iff_of_true (tight_ofList segments) trivial
    · cases h
  | parts bytes ends =>
    cases hparts : ofParts bytes (ends.map UInt32.toNat) with
    | error e =>
      rw [apply, hparts] at h
      cases h
    | ok made =>
      rw [apply, hparts] at h
      obtain rfl := Option.some.inj h
      obtain ⟨hbytes, hends⟩ := ofParts_eq_ok_iff.mp hparts
      unfold Tight BringsTight
      rw [hbytes, hends]

/-- After operations, it is up to the last of them. -/
theorem tight_run_iff (h : run operations .empty = some f) :
    f.Tight ↔ ∀ operation ∈ operations.getLast?, operation.BringsTight := by
  cases operations using List.reverseRecOn with
  | nil =>
    obtain rfl := Option.some.inj h
    exact iff_of_true tight_empty fun operation hmem => by cases hmem
  | append_singleton front last =>
    rw [run, List.foldlM_append] at h
    obtain ⟨held, -, hlast⟩ := Option.bind_eq_some_iff.mp h
    rw [List.foldlM_cons] at hlast
    obtain ⟨made, happly, hnil⟩ := Option.bind_eq_some_iff.mp hlast
    obtain rfl := Option.some.inj hnil
    rw [Operation.tight_iff happly, List.getLast?_concat]
    constructor
    · intro hlast operation hmem
      obtain rfl := Option.some.inj hmem
      exact hlast
    · intro hall
      exact hall last rfl

/-- **What appending does to byte strings that a caller has.**  The strings that were there stay as they are, and one is
appended.  It is the one that is given exactly if the operation before brought no bytes that belong to no string; else
it has these bytes in front. -/
theorem toList_push_run (hrun : run operations .empty = some f) {segment : Bytes}
    (hfits : (f.bytes ++ segment).length < 0x100000000) :
    ∃ grown, (Operation.push segment).apply f = some grown ∧
      grown.toList = f.toList ++ [f.unused ++ segment] ∧ grown.size = f.size + 1 ∧
      (∀ index < f.size, grown.get? index = f.get? index) ∧
      (grown.toList = f.toList ++ [segment] ↔ ∀ operation ∈ operations.getLast?, operation.BringsTight) := by
  refine ⟨f.push segment, if_pos hfits, f.toList_push segment, f.size_push segment, ?_, ?_⟩
  · intro index hindex
    exact get?_push_of_lt hindex segment
  · rw [toList_push_eq_iff]
    exact tight_run_iff hrun

/-- Appending to byte strings that came with a byte too many, once another string was appended: the byte went to that
one. -/
theorem toList_push_run_behind_push :
    ∃ f grown, run [.parts [0x61, 0x62] [1], .push [0x63]] .empty = some f ∧
      (Operation.push [0x64]).apply f = some grown ∧ f.toList = [[0x61], [0x62, 0x63]] ∧
      grown.toList = f.toList ++ [[0x64]] := by
  have hrun : run [.parts [0x61, 0x62] [1], .push [0x63]] .empty =
      some (FlatBytes.push ⟨[0x61, 0x62], [1], by decide⟩ [0x63]) := by rfl
  obtain ⟨grown, hgrown, -, -, -, hexact⟩ := @toList_push_run _ _ hrun [0x64] (by decide)
  refine ⟨_, grown, hrun, hgrown, rfl, hexact.mpr ?_⟩
  intro operation hlast
  obtain rfl := Option.some.inj hlast
  trivial

/-- Behind the parts with the buffer `ab` and a string that ends behind the `a`, what is appended for `c` is `bc`. -/
theorem push_takes_in_unused :
    ∃ f, run [.parts [0x61, 0x62] [1]] .empty = some f ∧ (f.bytes ++ [0x63]).length < 0x100000000 ∧
      f.toList = [[0x61]] ∧ (f.push [0x63]).toList = [[0x61], [0x62, 0x63]] ∧
      (f.push [0x63]).toList ≠ f.toList ++ [[0x63]] := by
  have hrun : run [.parts [0x61, 0x62] [1]] .empty = some ⟨[0x61, 0x62], [1], by decide⟩ := by rfl
  exact ⟨_, hrun, by decide, by decide, by decide, by decide⟩

end

end FlatBytes

end LogCodec
