import LogCodec.FlatBytes.InPlace
import LogCodec.Proofs.Segments
import LogCodec.Proofs.SerializedPatterns

/-!
# `LogCodec.Proofs.SegmentReading`: the check of end offsets, and three loops that rely on it

End offsets are looked at one after the other, each next to the one before it.  What the check finds can be told without
its loop: whether all of them are in order and within the buffer, and if not, which one is the first that is not.  Three
loops cut a buffer at offsets that passed, each with the start of a string from the offset before.  None of their cuts
is out of range, and they are the same cuts.

## Contents
- **The check.** `endBefore` and `FirstBreak`; `checkEnds_eq_ok_iff` and `checkEnds_eq_error_iff`.
- **By index.** `FlatBytes.getChecked_eq`.
- **One after the other.** `FlatBytes.readerAt`; `next?_readerAt`, one step, and `take_readerAt`, a number of steps.
- **Three loops.** `checkEnds_decides`, the result.
-/

namespace LogCodec

/-! ## The check -/

/-- The end offset before an index; before the first one it is the start of the buffer. -/
def endBefore (ends : List Nat) : (index : Nat) → Nat
  | 0 => 0
  | before + 1 => ends.getD before 0

/-- The first end offset that is less than the one before it or lies behind the end of the buffer. -/
structure FirstBreak (ends : List Nat) (length index stop : Nat) : Prop where
  here : ends[index]? = some stop
  breaks : stop < endBefore ends index ∨ length < stop
  before : ∀ (i other : Nat), i < index → ends[i]? = some other → endBefore ends i ≤ other ∧ other ≤ length

/-- What is wrong with an end offset that breaks the order or the bound. -/
def OffsetError.ofBreak (ends : List Nat) (length index stop : Nat) : OffsetError :=
  if stop < endBefore ends index then .decreases index stop (endBefore ends index)
  else .beyondEnd index stop length

/-- In order and within the buffer is what each end offset is next to the one before it. -/
theorem endsWithin_iff {length previous : Nat} {ends : List Nat} :
    EndsWithin length previous ends ↔ (previous :: ends).Pairwise (· ≤ ·) ∧ ∀ stop ∈ ends, stop ≤ length := by
  induction ends generalizing previous with
  | nil => simp [EndsWithin]
  | cons stop ends ih =>
    rw [EndsWithin, ih]
    constructor
    · rintro ⟨hstart, hstop, hordered, hends⟩
      refine ⟨List.pairwise_cons.mpr ⟨?_, hordered⟩, List.forall_mem_cons.mpr ⟨hstop, hends⟩⟩
      -- What is behind the first one is at least the first one.
      intro other hother
      rcases List.mem_cons.mp hother with rfl | hbehind
      · exact hstart
      · exact Nat.le_trans hstart ((List.pairwise_cons.mp hordered).1 other hbehind)
    · rintro ⟨hordered, hends⟩
      obtain ⟨hprevious, hordered⟩ := List.pairwise_cons.mp hordered
      obtain ⟨hstop, hends⟩ := List.forall_mem_cons.mp hends
      exact ⟨hprevious stop List.mem_cons_self, hstop, hordered, hends⟩

/-- **The check passes exactly the end offsets that never decrease and never exceed the length.** -/
theorem checkEnds_eq_ok_iff {ends : List Nat} {length : Nat} :
    checkEnds ends length = .ok () ↔ ends.Pairwise (· ≤ ·) ∧ ∀ stop ∈ ends, stop ≤ length := by
  rw [checkEnds, checkEndsFrom_eq_ok_iff, endsWithin_iff, List.pairwise_cons]
  constructor
  · rintro ⟨⟨-, hordered⟩, hends⟩
    exact ⟨hordered, hends⟩
  · rintro ⟨hordered, hends⟩
    exact ⟨⟨fun stop _ => Nat.zero_le stop, hordered⟩, hends⟩

/-- From behind any end offsets that are all right, the check finds the first break of the whole list. -/
theorem checkEndsFrom_eq_error {front back : List Nat} {length : Nat} {e : OffsetError}
    (hfront : ∀ (i other : Nat), i < front.length → (front ++ back)[i]? = some other →
      endBefore (front ++ back) i ≤ other ∧ other ≤ length)
    (h : checkEndsFrom length front.length (endBefore (front ++ back) front.length) back = .error e) :
    ∃ index stop, FirstBreak (front ++ back) length index stop ∧ e = .ofBreak (front ++ back) length index stop := by
  induction back generalizing front with
  | nil => cases h
  | cons stop back ih =>
    have hhere : (front ++ stop :: back)[front.length]? = some stop := by simp
    rw [checkEndsFrom] at h
    split at h
    · next hless =>
      refine ⟨front.length, stop, ⟨hhere, .inl hless, hfront⟩, ?_⟩
      rw [OffsetError.ofBreak, if_pos hless]
      exact (Except.error.inj h).symm
    · next hnotless =>
      split at h
      · next hbeyond =>
        refine ⟨front.length, stop, ⟨hhere, .inr hbeyond, hfront⟩, ?_⟩
        rw [OffsetError.ofBreak, if_neg hnotless]
        exact (Except.error.inj h).symm
      · next hwithin =>
        -- This offset joins those in front.
        have hmove : front ++ stop :: back = (front ++ [stop]) ++ back := by
          rw [List.append_assoc, List.singleton_append]
        have hprevious : stop = endBefore ((front ++ [stop]) ++ back) (front ++ [stop]).length := by
          simp [endBefore]
        rw [hmove]
        apply ih
        · rw [← hmove]
          intro i other hi hother
          rw [List.length_append, List.length_singleton] at hi
          rcases Nat.lt_succ_iff_lt_or_eq.mp hi with hbefore | rfl
          · exact hfront i other hbefore hother
          · obtain rfl := Option.some.inj (hhere.symm.trans hother)
            exact ⟨Nat.le_of_not_lt hnotless, Nat.le_of_not_lt hwithin⟩
        · rw [← hprevious, List.length_append, List.length_singleton]
          exact h

/-- There is only one first break. -/
theorem FirstBreak.unique {ends : List Nat} {length index stop other otherStop : Nat}
    (h : FirstBreak ends length index stop) (h' : FirstBreak ends length other otherStop) :
    index = other ∧ stop = otherStop := by
  have hindex : index = other := by
    rcases Nat.lt_trichotomy index other with hlt | heq | hgt
    · have := h'.before index stop hlt h.here
      have := h.breaks
      omega
    · exact heq
    · have := h.before other otherStop hgt h'.here
      have := h'.breaks
      omega
  subst hindex
  exact ⟨rfl, Option.some.inj (h.here.symm.trans h'.here)⟩

theorem endBefore_eq {ends : List Nat} {before : Nat} (h : before < ends.length) :
    ends[before]? = some (endBefore ends (before + 1)) := by
  rw [endBefore, List.getD_eq_getElem?_getD, List.getElem?_eq_getElem h, Option.getD_some]

theorem endBefore_le {ends : List Nat} {index stop : Nat} (hordered : ends.Pairwise (· ≤ ·))
    (hstop : ends[index]? = some stop) : endBefore ends index ≤ stop := by
  obtain ⟨hindex, rfl⟩ := List.getElem?_eq_some_iff.mp hstop
  cases index with
  | zero => exact Nat.zero_le _
  | succ before =>
    have hlt : before < ends.length := Nat.lt_of_succ_lt hindex
    obtain ⟨_, heq⟩ := List.getElem?_eq_some_iff.mp (endBefore_eq hlt)
    rw [← heq]
    exact List.pairwise_iff_getElem.mp hordered before (before + 1) hlt hindex (Nat.lt_succ_self before)

/-- An end offset that breaks the order or the bound does not pass. -/
theorem FirstBreak.checkEnds_ne_ok {ends : List Nat} {length index stop : Nat}
    (h : FirstBreak ends length index stop) : checkEnds ends length ≠ .ok () := by
  intro hok
  obtain ⟨hordered, hends⟩ := checkEnds_eq_ok_iff.mp hok
  have hle : stop ≤ length := hends stop (List.mem_of_getElem? h.here)
  have hbefore : endBefore ends index ≤ stop := endBefore_le hordered h.here
  have hbreaks := h.breaks
  omega

/-- **An error of the check is that of the first end offset that breaks the order or the bound.** -/
theorem checkEnds_eq_error_iff {ends : List Nat} {length : Nat} {e : OffsetError} :
    checkEnds ends length = .error e ↔
      ∃ index stop, FirstBreak ends length index stop ∧ e = .ofBreak ends length index stop := by
  have hfound : ∀ e, checkEnds ends length = .error e →
      ∃ index stop, FirstBreak ends length index stop ∧ e = .ofBreak ends length index stop := by
    intro e h
    exact @checkEndsFrom_eq_error [] ends length e (fun i _ hi => absurd hi (Nat.not_lt_zero i)) h
  refine ⟨hfound e, ?_⟩
  rintro ⟨index, stop, hbreak, rfl⟩
  cases hcheck : checkEnds ends length with
  | ok _ => exact absurd hcheck hbreak.checkEnds_ne_ok
  | error found =>
    obtain ⟨other, otherStop, hother, rfl⟩ := hfound found hcheck
    obtain ⟨rfl, rfl⟩ := hbreak.unique hother
    rfl

/-! ## By index -/

namespace FlatBytes

variable (f : FlatBytes)

theorem startOf_eq (index : Nat) : f.startOf index = endBefore f.ends index := by
  cases index <;> rfl

/-- The offsets of a string that is stored select a part of the buffer. -/
theorem fits_of_getElem? {f : FlatBytes} {index stop : Nat} (h : f.ends[index]? = some stop) :
    (Span.mk (endBefore f.ends index) stop).Fits f.bytes.length := by
  obtain ⟨hordered, hends⟩ := endsWithin_iff.mp f.ends_within
  exact ⟨endBefore_le (List.pairwise_cons.mp hordered).2 h, hends stop (List.mem_of_getElem? h)⟩

/-- Where the strings are cut. -/
theorem getElem?_toList_eq (index : Nat) :
    f.toList[index]? = f.ends[index]?.map fun stop => (Span.mk (endBefore f.ends index) stop).slice f.bytes := by
  rw [getElem?_toList, get?, startOf_eq]

/-- **To take a string by its index never cuts out of range**, and gives the one that stands there in order. -/
theorem getChecked_eq (index : Nat) : f.getChecked index = some f.toList[index]? := by
  rw [getElem?_toList_eq, getChecked]
  cases hstop : f.ends[index]? with
  | none => rfl
  | some stop =>
    have hcut := Span.slice?_of_fits (fits_of_getElem? hstop)
    cases index with
    | zero =>
      rw [endBefore] at hcut
      simp [hcut, endBefore]
    | succ before =>
      obtain ⟨hindex, -⟩ := List.getElem?_eq_some_iff.mp hstop
      simp [endBefore_eq (Nat.lt_of_succ_lt hindex), hcut]

/-! ## One after the other -/

/-- The reader that has read a number of strings. -/
def readerAt (count : Nat) : SegmentReader := ⟨f.bytes, f.ends.drop count, endBefore f.ends count⟩

theorem sizeHint_readerAt (count : Nat) : (f.readerAt count).sizeHint = (f.size - count, some (f.size - count)) := by
  rw [SegmentReader.sizeHint, readerAt, List.length_drop, size]

/-- **Each step takes the next string and cuts within the buffer.** -/
theorem next?_readerAt (count : Nat) :
    (f.readerAt count).next? = some (f.toList[count]?.map fun segment => (segment, f.readerAt (count + 1))) := by
  rw [getElem?_toList_eq, SegmentReader.next?]
  cases hstop : f.ends[count]? with
  | none =>
    have hnil : f.ends.drop count = [] := List.drop_eq_nil_of_le (List.getElem?_eq_none_iff.mp hstop)
    simp [readerAt, hnil]
  | some stop =>
    obtain ⟨hcount, rfl⟩ := List.getElem?_eq_some_iff.mp hstop
    have hcut := Span.slice?_of_fits (fits_of_getElem? hstop)
    have hend : endBefore f.ends (count + 1) = f.ends[count] := Option.some.inj ((endBefore_eq hcount).symm.trans hstop)
    have hdrop : f.ends.drop count = f.ends[count] :: f.ends.drop (count + 1) := List.drop_eq_getElem_cons hcount
    simp only [readerAt, hdrop, hcut, hend, Option.bind_eq_bind, Option.bind_some, Option.map_some]
    rfl

/-- **A number of steps takes as many strings**, or all that are left. -/
theorem take_readerAt (count : Nat) {start : Nat} (hstart : start ≤ f.size) :
    (f.readerAt start).take count =
      some ((f.toList.drop start).take count, f.readerAt (min (start + count) f.size)) := by
  induction count generalizing start with
  | zero => rw [SegmentReader.take, List.take_zero, Nat.add_zero, Nat.min_eq_left hstart]
  | succ count ih =>
    rw [SegmentReader.take, next?_readerAt]
    cases hnext : f.toList[start]? with
    | none =>
      have hle : f.size ≤ start := by
        rw [← length_toList]
        exact List.getElem?_eq_none_iff.mp hnext
      have hnil : f.toList.drop start = [] := List.drop_eq_nil_of_le (List.getElem?_eq_none_iff.mp hnext)
      obtain rfl := Nat.le_antisymm hstart hle
      simp [hnil]
    | some segment =>
      obtain ⟨hlt, rfl⟩ := List.getElem?_eq_some_iff.mp hnext
      have hdrop : f.toList.drop start = f.toList[start] :: f.toList.drop (start + 1) := List.drop_eq_getElem_cons hlt
      have hsum : start + 1 + count = start + (count + 1) := by omega
      rw [length_toList] at hlt
      simp only [ih hlt, hdrop, hsum, Option.map_some, Option.bind_eq_bind, Option.bind_some, List.take_succ_cons]
      rfl

/-- **However often a reader is asked**, it gives the strings in order, and tells how many are left. -/
theorem take_reader (count : Nat) :
    ∃ rest, f.reader.take count = some (f.toList.take count, rest) ∧
      rest.sizeHint = (f.size - count, some (f.size - count)) ∧ (rest.next? = some none ↔ f.size ≤ count) := by
  have htake := f.take_readerAt count (Nat.zero_le f.size)
  rw [Nat.zero_add] at htake
  refine ⟨f.readerAt (min count f.size), htake, ?_, ?_⟩
  · have hleft : f.size - min count f.size = f.size - count := by omega
    rw [sizeHint_readerAt, hleft]
  · rw [next?_readerAt, Option.some.injEq, Option.map_eq_none_iff, List.getElem?_eq_none_iff, length_toList]
    omega

end FlatBytes

/-! ## Three loops -/

/-- **The check of end offsets is exact, and whoever relies on it cuts the same strings.**  It passes if no offset is
less than the one before it or more than the length, and else reports the first one that is, as out of order if it is
less and as out of bounds if not.  Once offsets passed, there are stored byte strings for them, and three loops have a
result, which means that they cut within the buffer.  By its index a string is found exactly if the index is less than
their number; a reader gives them in order and tells before each how many are left; and the loop over placeholder bytes
cuts them one for each byte, up to the first byte that stands for no kind of variable.  So a matcher is made of the very
strings that are stored. -/
theorem checkEnds_decides (ends : List UInt32) :
    (∀ length,
      (checkEnds (ends.map UInt32.toNat) length = .ok () ↔
        (ends.map UInt32.toNat).Pairwise (· ≤ ·) ∧ ∀ stop ∈ ends.map UInt32.toNat, stop ≤ length) ∧
      ∀ e, checkEnds (ends.map UInt32.toNat) length = .error e ↔
        ∃ index stop, FirstBreak (ends.map UInt32.toNat) length index stop ∧
          e = .ofBreak (ends.map UInt32.toNat) length index stop) ∧
    ∀ bytes : Bytes, checkEnds (ends.map UInt32.toNat) bytes.length = .ok () →
      ∃ f, FlatBytes.ofParts bytes (ends.map UInt32.toNat) = .ok f ∧ f.size = ends.length ∧
        (∀ index, f.toList[index]? = (ends.map UInt32.toNat)[index]?.map fun stop =>
          (Span.mk (endBefore (ends.map UInt32.toNat) index) stop).slice bytes) ∧
        (∀ index, f.getChecked index = some f.toList[index]? ∧
          (f.getChecked index = some none ↔ ends.length ≤ index)) ∧
        (∀ count, ∃ rest, f.reader.take count = some (f.toList.take count, rest) ∧
          rest.sizeHint = (ends.length - count, some (ends.length - count)) ∧
          (rest.next? = some none ↔ ends.length ≤ count)) ∧
        (∀ placeholders : Bytes, placeholders.length ≤ ends.length →
          Matcher.cutFrom bytes 0 (placeholders.zip ends) =
            some ((placeholders.mapM Matcher.placeholder).map (·.zip f.toList))) ∧
        ∀ (refusal : Bytes → Option String) (width : Width) (placeholders : Bytes),
          placeholders.length = ends.length →
          Matcher.buildSerialized refusal width placeholders bytes ends = some (do
            let kinds ← (placeholders.mapM Matcher.placeholder).mapError .parts
            Matcher.build refusal width (kinds.zip f.toList)) := by
  refine ⟨fun length => ⟨checkEnds_eq_ok_iff, fun e => checkEnds_eq_error_iff⟩, ?_⟩
  intro bytes hcheck
  have hwithin : EndsWithin bytes.length 0 (ends.map UInt32.toNat) := checkEndsFrom_eq_ok_iff.mp hcheck
  have hparts := FlatBytes.ofParts_of_ok hcheck
  generalize hf : FlatBytes.mk bytes (ends.map UInt32.toNat) hwithin = f at hparts
  have hsize : f.size = ends.length := by
    rw [← hf]
    exact List.length_map _
  refine ⟨f, hparts, hsize, ?_, ?_, ?_, ?_, ?_⟩
  · intro index
    rw [← hf]
    exact FlatBytes.getElem?_toList_eq _ index
  · intro index
    refine ⟨f.getChecked_eq index, ?_⟩
    rw [f.getChecked_eq, Option.some.injEq, List.getElem?_eq_none_iff, FlatBytes.length_toList, hsize]
  · rw [← hsize]
    exact f.take_reader
  · intro placeholders hlength
    rw [← hf]
    exact Matcher.cutFrom_eq hwithin hlength
  · intro refusal width placeholders hlength
    rw [Matcher.buildSerialized_eq, if_neg (not_not.mpr hlength), hparts]
    rfl

/-- A repeated offset and a byte that belongs to no string: the empty string between is cut as well. -/
theorem checkEnds_decides_repeated :
    checkEnds [1, 1, 2] 3 = .ok () ∧
      ∃ f, FlatBytes.ofParts [0x61, 0x62, 0x63] [1, 1, 2] = .ok f ∧ f.getChecked 1 = some (some []) ∧
        f.getChecked 3 = some none := by
  obtain ⟨-, hread⟩ := checkEnds_decides [1, 1, 2]
  obtain ⟨f, hparts, -, hcuts, hget, -⟩ := hread [0x61, 0x62, 0x63] (by decide)
  refine ⟨by decide, f, hparts, ?_, ?_⟩
  · rw [(hget 1).1, hcuts 1]
    rfl
  · exact (hget 3).2.mpr (by decide)

end LogCodec
