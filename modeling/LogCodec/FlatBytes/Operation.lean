import LogCodec.FlatBytes

/-!
# `LogCodec.FlatBytes.Operation`: what a caller does with stored byte strings

A caller starts without byte strings.  From then on it appends, starts over, or takes byte strings that are collected or
that are put together from parts in place of those it has.  An operation that fails leaves nothing to go on with: end
offsets have to fit four bytes, and parts have to fit together.

## Contents
- `FlatBytes.Operation` and `Operation.apply`: a single operation.
- `FlatBytes.run`: one operation after the other.
-/

namespace LogCodec.FlatBytes

/-- An operation on stored byte strings. -/
inductive Operation where
  /-- Starts over. -/
  | clear
  /-- Appends a byte string. -/
  | push (segment : Bytes)
  /-- Takes byte strings that are collected one by one. -/
  | collect (segments : List Bytes)
  /-- Takes byte strings from a buffer and end offsets. -/
  | parts (bytes : Bytes) (ends : List UInt32)
deriving DecidableEq

/-- The byte strings after an operation on byte strings, if the operation succeeds. -/
def Operation.apply : Operation → FlatBytes → Option FlatBytes
  | clear, _ => some empty
  | push segment, f => if (f.bytes ++ segment).length < 0x100000000 then some (f.push segment) else none
  | collect segments, _ => if segments.flatten.length < 0x100000000 then some (ofList segments) else none
  | parts bytes ends, _ => (ofParts bytes (ends.map UInt32.toNat)).toOption

/-- The byte strings after operations on byte strings, if all of them succeed. -/
def run (operations : List Operation) (f : FlatBytes) : Option FlatBytes :=
  operations.foldlM (fun f operation => operation.apply f) f

end LogCodec.FlatBytes
