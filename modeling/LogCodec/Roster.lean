/-!
# `LogCodec.Roster`: members that a key tells apart

A roster keeps members in the order in which they are added, and leaves out those whose key it has.  A key is a list.
To tell whether a key is there takes time for its length and not for the number of members, because the keys are
indexed by a trie.

## Contents
- `Trie`, a set of lists, with `contains`, `insert` and `contains_insert`, which says that to insert a list adds this
  list and no other.
- `Roster`, with `add` and `addAll`; `keys_add` and `mem_keys_addAll` say which keys there are then.
- `distinctBy`: the members of a list that differ by their keys.
-/

namespace LogCodec

/-- A set of lists.  Lists with the same first element share it; what they go on with lies below it. -/
inductive Trie (α : Type) where
  /-- No list. -/
  | empty
  /-- The empty list, and the lists beside it. -/
  | nil (beside : Trie α)
  /-- The lists with a first element, which go on with the lists below it, and the lists beside them. -/
  | cons (head : α) (below beside : Trie α)
deriving Repr

namespace Trie

variable {α : Type} [DecidableEq α]

/-- The list is in the set. -/
def contains : Trie α → List α → Bool
  | empty, _ => false
  | nil _, [] => true
  | nil beside, a :: key => beside.contains (a :: key)
  | cons _ _ beside, [] => beside.contains []
  | cons head below beside, a :: key => if a = head then below.contains key else beside.contains (a :: key)

/-- The set of one list. -/
def single : List α → Trie α
  | [] => nil empty
  | a :: key => cons a (single key) empty

/-- Adds a list to the set. -/
def insert : Trie α → List α → Trie α
  | empty, key => single key
  | nil beside, [] => nil beside
  | nil beside, a :: key => nil (beside.insert (a :: key))
  | cons head below beside, [] => cons head below (beside.insert [])
  | cons head below beside, a :: key =>
    if a = head then cons head (below.insert key) beside else cons head below (beside.insert (a :: key))

theorem contains_single {key other : List α} : (single key).contains other = true ↔ other = key := by
  induction key generalizing other with
  | nil => cases other <;> simp [single, contains]
  | cons a key ih =>
    cases other with
    | nil => simp [single, contains]
    | cons b other => by_cases h : b = a <;> simp [single, contains, h, ih]

/-- To insert a list adds this list and no other. -/
theorem contains_insert {t : Trie α} {key other : List α} :
    (t.insert key).contains other = true ↔ other = key ∨ t.contains other = true := by
  induction t generalizing key other with
  | empty => simp [insert, contains, contains_single]
  | nil beside ih => cases key <;> cases other <;> simp [insert, contains, ih]
  | cons head below beside ihBelow ihBeside =>
    cases key with
    | nil =>
      cases other with
      | nil => simp [insert, contains, ihBeside]
      | cons b other => by_cases hb : b = head <;> simp [insert, contains, hb, ihBeside]
    | cons a key =>
      by_cases ha : a = head
      · cases other with
        | nil => simp [insert, contains, ha]
        | cons b other => by_cases hb : b = head <;> simp [insert, contains, ha, hb, ihBelow]
      · cases other with
        | nil => simp [insert, contains, ha, ihBeside]
        | cons b other =>
          by_cases hb : b = head
          · simp [insert, contains, ha, hb, Ne.symm ha]
          · simp [insert, contains, ha, hb, ihBeside]

end Trie

/-- Members that a key tells apart, in the order in which they were added. -/
structure Roster {α β : Type} [DecidableEq α] (key : β → List α) where
  /-- The members, the latest one first. -/
  members : List β
  size : Nat
  /-- The keys of the members. -/
  index : Trie α
  length_eq : members.length = size
  contains_iff : ∀ k, index.contains k = true ↔ k ∈ members.map key
  nodup : (members.map key).Nodup

namespace Roster

variable {α β : Type} [DecidableEq α] {key : β → List α}

/-- No members. -/
def empty : Roster key where
  members := []
  size := 0
  index := .empty
  length_eq := rfl
  contains_iff _ := by simp [Trie.contains]
  nodup := List.Pairwise.nil

/-- Adds a member unless there is one with its key. -/
def add (r : Roster key) (b : β) : Roster key :=
  if h : r.index.contains (key b) = true then r
  else
    have hkey : key b ∉ r.members.map key := fun hmem => h ((r.contains_iff (key b)).mpr hmem)
    { members := b :: r.members
      size := r.size + 1
      index := r.index.insert (key b)
      length_eq := by simp [r.length_eq]
      contains_iff := fun k => by rw [Trie.contains_insert, r.contains_iff, List.map_cons, List.mem_cons]
      nodup := List.nodup_cons.mpr ⟨hkey, r.nodup⟩ }

/-- Adds members one after the other. -/
def addAll (r : Roster key) (bs : List β) : Roster key := bs.foldl add r

/-- The members in the order in which they were added. -/
def toList (r : Roster key) : List β := r.members.reverse

/-- The keys after an addition are those before it and the new one. -/
theorem keys_add (r : Roster key) (b : β) : (r.add b).members.map key = (r.members.map key).insert (key b) := by
  rw [add, List.insert]
  split
  · next h => simp [(r.contains_iff (key b)).mp h]
  · next h =>
    have hkey : key b ∉ r.members.map key := fun hmem => h ((r.contains_iff (key b)).mpr hmem)
    simp [hkey]

/-- The keys after some additions are those before them and the new ones. -/
theorem mem_keys_addAll {r : Roster key} {bs : List β} {k : List α} :
    k ∈ (r.addAll bs).members.map key ↔ k ∈ r.members.map key ∨ k ∈ bs.map key := by
  induction bs generalizing r with
  | nil => simp [addAll]
  | cons first rest ih =>
    have h := @ih (r.add first)
    rw [keys_add, List.mem_insert_iff] at h
    rw [addAll, List.foldl_cons, ← addAll, h, List.map_cons, List.mem_cons]
    constructor
    · rintro ((h | h) | h)
      · exact .inr (.inl h)
      · exact .inl h
      · exact .inr (.inr h)
    · rintro (h | h | h)
      · exact .inl (.inr h)
      · exact .inl (.inl h)
      · exact .inr h

end Roster

/-- The members of a list, the first one of those that have the same key. -/
def distinctBy {α β : Type} [DecidableEq α] (key : β → List α) (bs : List β) : List β :=
  ((Roster.empty : Roster key).addAll bs).toList

end LogCodec
