import LogCodec.View

/-!
# `LogCodec.View.Table`: views made one after the other

A table starts with the view of one whole byte string, the common one.  Each new view is a part of that byte string,
a part of an earlier view, or a byte string of its own; a part is shared with the common byte string if what it was
cut from is.
-/

namespace LogCodec

/-- A view in a table. -/
structure ViewEntry where
  view : View
  /-- The view looks into the common byte string. -/
  shared : Bool
  /-- The bytes that the view shows, which are looked up once. -/
  bytes : Bytes
  bytes_eq : bytes = view.bytes
deriving DecidableEq, Repr

/-- The entry for a view. -/
def ViewEntry.ofView (shared : Bool) (view : View) : ViewEntry := ⟨view, shared, view.bytes, rfl⟩

/-- The views made so far, in order. -/
structure ViewTable where
  common : Bytes
  entries : List ViewEntry
deriving DecidableEq, Repr

/-- How the next view is made. -/
inductive ViewStep where
  /-- A part of the common byte string. -/
  | cut (range : Span)
  /-- A part of an earlier view. -/
  | narrow (index : Nat) (range : Span)
  /-- A byte string of its own. -/
  | own (bytes : Bytes)
deriving DecidableEq, Repr

namespace ViewTable

/-- The table with the view of a whole byte string. -/
def ofBytes (common : Bytes) : ViewTable := ⟨common, [.ofView true (.whole common)]⟩

/-- Makes a view.  There is none if the step names a view that does not exist. -/
def make? (table : ViewTable) : ViewStep → Option (Except Misuse ViewEntry)
  | .cut range => some ((View.cut table.common range).map (.ofView true))
  | .narrow index range =>
    table.entries[index]?.map fun entry => (entry.view.narrow range).map (.ofView entry.shared)
  | .own bytes => some (.ok (.ofView false (.whole bytes)))

/-- Adds a view to the table. -/
def push (table : ViewTable) (entry : ViewEntry) : ViewTable :=
  { table with entries := table.entries ++ [entry] }

/-- The positions of the views in the table that show the same bytes as the given one. -/
def indicesOf (table : ViewTable) (entry : ViewEntry) : List Nat :=
  (table.entries.zipIdx.filter fun other => other.1.bytes = entry.bytes).map Prod.snd

/-- The number of different byte strings that the views show. -/
def distinct (table : ViewTable) : Nat := (table.entries.map ViewEntry.bytes).eraseDups.length

end ViewTable

end LogCodec
