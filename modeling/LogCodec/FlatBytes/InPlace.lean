import LogCodec.Bytes.Slices
import LogCodec.FlatBytes

/-!
# `LogCodec.FlatBytes.InPlace`: stored byte strings, cut out of their buffer with every cut checked

A stored byte string is a slice of the buffer from the end of the string before it to its own.  To take one by its index
looks up both offsets; to take them one after the other keeps the end of the last one.  A slice that is reversed or goes
beyond the buffer stops the program, and so does an offset before the index that is not there; in both cases there is no
result here.

## Contents
- `FlatBytes.getChecked`: one of the strings by its index, or none behind the last one.
- `SegmentReader`, with `next?`, which takes one string, and `sizeHint`, which tells how many are left.
- `SegmentReader.take`: the strings that a reader gives when it is asked a number of times.
-/

namespace LogCodec

/-- One of the byte strings, if the index is that of one. -/
def FlatBytes.getChecked (f : FlatBytes) (index : Nat) : Option (Option Bytes) :=
  match f.ends[index]? with
  | none => some none
  | some stop => do
    let start ← match index with
      | 0 => some 0
      | before + 1 => f.ends[before]?
    let segment ← (Span.mk start stop).slice? f.bytes
    return some segment

/-- A buffer of which a part is read. -/
structure SegmentReader where
  bytes : Bytes
  /-- The end offsets of the strings that are not read. -/
  ends : List Nat
  /-- The end of the last string that is read. -/
  start : Nat
deriving DecidableEq, Repr

/-- A reader that has read nothing. -/
def FlatBytes.reader (f : FlatBytes) : SegmentReader := ⟨f.bytes, f.ends, 0⟩

namespace SegmentReader

/-- Takes the next string, if one is left. -/
def next? (r : SegmentReader) : Option (Option (Bytes × SegmentReader)) :=
  match r.ends with
  | [] => some none
  | stop :: ends => do
    let segment ← (Span.mk r.start stop).slice? r.bytes
    return some (segment, ⟨r.bytes, ends, stop⟩)

/-- How many strings are left, from below and from above. -/
def sizeHint (r : SegmentReader) : Nat × Option Nat := (r.ends.length, some r.ends.length)

/-- Asks for the next string a number of times, or until none is left. -/
def take : Nat → SegmentReader → Option (List Bytes × SegmentReader)
  | 0, r => some ([], r)
  | count + 1, r => do
    match ← r.next? with
    | none => return ([], r)
    | some (segment, rest) =>
      let (later, last) ← take count rest
      return (segment :: later, last)

end SegmentReader

end LogCodec
