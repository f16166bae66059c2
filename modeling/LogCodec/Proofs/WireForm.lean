import LogCodec.Proofs.Completeness
import LogCodec.Proofs.ExactQuery
import LogCodec.Proofs.TokenSearch

/-!
# `LogCodec.Proofs.WireForm`: a search in the bytes of encoded messages

A search does not lay subqueries along atoms.  It has the bytes of the logtype, the packed numbers and the dictionary
values, and looks at each of them alone.  A subquery whose items cover the atoms finds the message in this way too, with
one reservation: in a logtype `?` is one byte, and a byte of static text that takes an escape is two.

## Contents
- `Subquery.MatchesWire`: what a search asks of an encoded message.
- **One subquery.** `matchesWire_of_covers`, with a lemma for each of the conditions.
- **All subqueries.** `EncodedMessage.marks`, the bytes for which a `?` may stand, and `exists_matchesWire`.
-/

namespace LogCodec

/-- A dictionary value satisfies a condition on a dictionary variable. -/
def VariableQuery.Admits : VariableQuery Bytes → Bytes → Prop
  | .value text, found => found = text
  | .pattern _ spelled, found => Wildcard.isMatch spelled found = true
  | .number .., _ => False

/-- An encoded message meets what a search asks for a subquery: its logtype matches the pattern, some of its packed
numbers in order match the patterns for numbers, the exact numbers are among its numbers in order, and so are dictionary
values that satisfy the conditions on dictionary variables. -/
structure Subquery.MatchesWire (s : Subquery) (width : Width) (e : EncodedMessage) : Prop where
  logtype : Wildcard.isMatch s.logtypeQuery e.logtype = true
  packed : (Matcher.ofSubquery width s).accepts e.logtype e.numbers = .ok true
  numbers : s.numbers.Sublist e.numbers
  dictionary : ∃ found, found.Sublist e.dictionary.toList ∧
    List.Forall₂ VariableQuery.Admits (s.conditions.filter fun q => q.placeholder = .dictionary) found

/-! ## One subquery -/

/-- The pattern for numbers that a matcher makes of an item. -/
def Item.numberPattern? : Item → Option NumberPattern
  | .variable (.pattern (.number kind) text) => some (kind, Pattern.ofBytes text.bytes)
  | _ => none

/-- The packed number that an item gives. -/
def Item.number? : Item → Option Int64
  | .variable (.number _ word) => some word
  | _ => none

/-- The condition on dictionary variables that a search takes from an item. -/
def Item.valueCondition? : Item → Option (VariableQuery Bytes)
  | .variable (.value text) => some (.value text.bytes)
  | .variable (.pattern .dictionary text) => some (.pattern .dictionary text.bytes)
  | _ => none

section

variable {width : Width} {free : UInt8 → Prop} {s : Subquery} {as : List Atom}

/-- The pattern for the logtype matches the written atoms. -/
theorem Item.matches_symbols_of_covers {items : List Item}
    (h : Covers (extent width fun b => needsEscape b = false) items as) :
    Pattern.Matches (items.flatMap symbols) (as.flatMap Atom.wire) := by
  rw [Pattern.matches_iff_covers]
  refine h.flatMap (fun item _ hpart bytes => ?_) (fun item _ accepts hmember a _ ha => ?_)
  · obtain rfl := eq_star_of_part hpart
    exact covers_part rfl bytes
  · cases item with
    | star => cases hmember
    | any =>
      cases hmember
      obtain ⟨b, rfl, hb⟩ := ha
      refine ⟨b, [], ?_, trivial, rfl⟩
      rw [Atom.wire, Logtype.writeByte, hb]
      rfl
    | literal b =>
      cases hmember
      rw [ha]
      exact Pattern.matches_iff_covers.mp (Pattern.matches_literals_iff.mpr rfl)
    | «variable» query =>
      cases hmember
      have hcell := VariableQuery.Meets.cell_eq ha
      rw [placeholder_map] at hcell
      have hwire : a.wire = [query.placeholder.toByte] := by
        cases a with
        | byte b => cases hcell
        | value text =>
          rw [← Cell.variable.inj hcell]
          rfl
        | number kind word =>
          rw [← Cell.variable.inj hcell]
          rfl
      rw [hwire]
      exact ⟨_, [], rfl, rfl, rfl⟩

/-- The patterns for numbers find numbers of the message, in order. -/
theorem Subquery.exists_packed_of_covers (h : Covers (Item.extent width free) s.items as) :
    ∃ found, found.Sublist (as.filterMap Atom.packed?) ∧
      List.Forall₂ (NumberPattern.Finds width) (Matcher.ofSubquery width s).patterns found := by
  have hpatterns : (Matcher.ofSubquery width s).patterns = s.items.filterMap Item.numberPattern? := by
    simp only [Matcher.ofSubquery, numberPatterns, variableQueries, List.filterMap_filterMap, List.map_filterMap]
    refine congrArg (List.filterMap · s.items) (funext fun item => ?_)
    rcases item with _ | _ | _ | (_ | _ | ⟨_ | _, _⟩) <;> rfl
  rw [hpatterns]
  refine h.select (fun item hpart => ?_) (fun item accepts a x hmember ha hx => ?_)
  · obtain rfl := Item.eq_star_of_part hpart
    rfl
  · rcases item with _ | _ | _ | (_ | _ | ⟨kind | _, text⟩) <;> cases hx
    cases hmember
    obtain ⟨hcell, spelled, htext, hmatch⟩ := ha
    cases a with
    | byte b => cases hcell
    | value value => cases hcell
    | number other word =>
      cases hcell
      exact ⟨(kind, word), rfl, rfl, spelled, htext, hmatch⟩

/-- The numbers that are asked for are among those of the message, in order. -/
theorem Subquery.numbers_sublist_of_covers (h : Covers (Item.extent width free) s.items as) :
    s.numbers.Sublist ((as.filterMap Atom.packed?).map Prod.snd) := by
  have hnumbers : s.numbers = s.items.filterMap Item.number? := by
    simp only [numbers, variableQueries, List.filterMap_filterMap]
    refine congrArg (List.filterMap · s.items) (funext fun item => ?_)
    rcases item with _ | _ | _ | (_ | _ | _) <;> rfl
  obtain ⟨found, hfound, hall⟩ : ∃ found, found.Sublist (as.filterMap fun a => (a.packed?).map Prod.snd) ∧
      List.Forall₂ (· = ·) s.numbers found := by
    rw [hnumbers]
    refine h.select (fun item hpart => ?_) (fun item accepts a x hmember ha hx => ?_)
    · obtain rfl := Item.eq_star_of_part hpart
      rfl
    · rcases item with _ | _ | _ | (_ | ⟨kind, word⟩ | _) <;> cases hx
      cases hmember
      obtain rfl : a = .number kind x := ha
      exact ⟨x, rfl, rfl⟩
  rw [List.forall₂_eq_eq_eq] at hall
  rw [hall, List.map_filterMap]
  exact hfound

/-- Dictionary values of the message satisfy the conditions on dictionary variables, in order. -/
theorem Subquery.exists_values_of_covers (h : Covers (Item.extent width free) s.items as) :
    ∃ found, found.Sublist (as.filterMap Atom.value?) ∧
      List.Forall₂ VariableQuery.Admits (s.conditions.filter fun q => q.placeholder = .dictionary) found := by
  have hconditions : s.conditions.filter (fun q => q.placeholder = .dictionary) =
      s.items.filterMap Item.valueCondition? := by
    simp only [conditions, variableQueries, ← List.filterMap_eq_filter, List.map_filterMap, List.filterMap_filterMap]
    refine congrArg (List.filterMap · s.items) (funext fun item => ?_)
    rcases item with _ | _ | _ | (_ | _ | ⟨_ | _, _⟩) <;> rfl
  rw [hconditions]
  refine h.select (fun item hpart => ?_) (fun item accepts a x hmember ha hx => ?_)
  · obtain rfl := Item.eq_star_of_part hpart
    rfl
  · rcases item with _ | _ | _ | (text | _ | ⟨_ | _, text⟩) <;> cases hx
    · cases hmember
      obtain rfl : a = .value text.bytes := ha
      exact ⟨text.bytes, rfl, rfl⟩
    · cases hmember
      obtain ⟨hcell, value, htext, hmatch⟩ := ha
      cases a with
      | byte b => cases hcell
      | number kind word => cases hcell
      | value found =>
        cases htext
        exact ⟨value, rfl, hmatch⟩

/-- **Items that cover the atoms find the message**, if no `?` stands for a byte that takes an escape. -/
theorem Subquery.matchesWire_of_covers {text : Bytes}
    (h : Covers (Item.extent width fun b => needsEscape b = false) s.items as)
    (htext : Atom.textOf width as = .ok text) : s.MatchesWire width (.ofAtoms as) where
  logtype := by
    rw [Wildcard.isMatch_iff, logtypeQuery, Pattern.ofBytes_spell]
    exact Item.matches_symbols_of_covers h
  packed := by
    obtain ⟨found, hfound, hall⟩ := exists_packed_of_covers h
    obtain ⟨accepted, haccepted, hiff⟩ := @Matcher.exists_accepts_ofAtoms (Matcher.ofSubquery width s) as text htext
    rw [haccepted, hiff.mpr ⟨found, hfound, hall⟩]
  numbers := numbers_sublist_of_covers h
  dictionary := by
    have hvalues : (EncodedMessage.ofAtoms as).dictionary.toList = as.filterMap Atom.value? := FlatBytes.toList_ofList _
    rw [hvalues]
    exact exists_values_of_covers h

end

/-! ## All subqueries -/

/-- The bytes that an atom stands for.  A `?` may stand for a byte of static text that is written as it is, and for any
byte of a variable. -/
def Atom.marks (width : Width) : Atom → List Mark
  | byte b => [⟨b, !needsEscape b⟩]
  | a => (a.bytes width).map (Mark.mk · true)

/-- The bytes of the text of a message, marked. -/
def EncodedMessage.marks (width : Width) (e : EncodedMessage) : List Mark := e.atoms.flatMap (Atom.marks width)

theorem Atom.map_byte_marks (width : Width) (a : Atom) : (a.marks width).map Mark.byte = a.bytes width := by
  cases a with
  | byte b => rfl
  | value text => exact Mark.map_byte_free text
  | number kind word => exact Mark.map_byte_free _

theorem Field.members_map {α β : Type} (f : α → β) (field : Field α) : (field.map f).members = field.members.map f := by
  cases field <;> rfl

theorem Field.bytes_atom (width : Width) (field : Field UInt8) : (field.atom width).bytes width = field.members := by
  cases field with
  | byte b => rfl
  | token run =>
    rw [atom, Atom.bytes, Atom.text_ofToken]
    rfl

/-- Fields over the marks of atoms have a free byte of static text only where the byte is written as it is. -/
theorem Field.needsEscape_of_free {width : Width} {fields : List (Field Mark)}
    (h : fields.flatMap members = ((fields.map (map Mark.byte)).map (atom width)).flatMap (Atom.marks width)) :
    ∀ m, .byte m ∈ fields → m.free = true → needsEscape m.byte = false := by
  induction fields with
  | nil => exact fun m hm => absurd hm List.not_mem_nil
  | cons f fields ih =>
    rw [List.map_cons, List.map_cons, List.flatMap_cons, List.flatMap_cons] at h
    -- A field has as many members as its atom has marks, so the marks are cut in the same places.
    have hlength : f.members.length = (Atom.marks width ((f.map Mark.byte).atom width)).length := by
      rw [← List.length_map Mark.byte, ← members_map, ← bytes_atom width, ← Atom.map_byte_marks, List.length_map]
    obtain ⟨hfirst, hrest⟩ := List.append_inj h hlength
    intro m hm hfree
    rcases List.mem_cons.mp hm with rfl | hm
    · have hmark : m = ⟨m.byte, !needsEscape m.byte⟩ := (List.cons.inj hfirst).1
      rw [hmark] at hfree
      exact (Bool.not_eq_true' _).mp hfree
    · exact ih hrest m hm hfree

/-- The marked bytes of a message are its text. -/
theorem EncodedMessage.map_byte_marks {width : Width} {e : EncodedMessage} {text : Bytes}
    (h : Atom.textOf width e.atoms = .ok text) : (e.marks width).map Mark.byte = text := by
  rw [(Atom.text_eq_of_textOf h).1, marks, List.map_flatMap]
  exact List.flatMap_congr fun a _ => a.map_byte_marks width

/-- Where no byte of static text takes an escape, a `?` may stand for every byte. -/
theorem EncodedMessage.marks_of_unescaped {width : Width} {e : EncodedMessage} {text : Bytes}
    (h : ∀ b, .byte b ∈ e.atoms → needsEscape b = false) (htext : Atom.textOf width e.atoms = .ok text) :
    e.marks width = text.map (Mark.mk · true) := by
  rw [(Atom.text_eq_of_textOf htext).1, marks, List.map_flatMap]
  refine List.flatMap_congr fun a ha => ?_
  cases a with
  | byte b =>
    rw [Atom.marks, h b ha]
    rfl
  | value text => rfl
  | number kind word => rfl

namespace Query

section

variable {schema : Schema} {width : Width} {limit : Nat} {query text : Bytes} {d : Decomposition} {e : EncodedMessage}

/-- **What matches the query a search finds**, as long as no `?` has to stand for a byte of static text that takes an
escape in the logtype. -/
theorem exists_matchesWire (hsound : schema.Sound) (hd : decompose schema width limit query = .ok d)
    (he : EncodedMessage.encode width schema.locator text = .ok e)
    (hcovers : Covers Pattern.markExtent (Pattern.ofQuery query) (e.marks width)) :
    ∃ s ∈ d.subqueries, s.MatchesWire width e := by
  obtain ⟨hatoms, htext⟩ := EncodedMessage.atoms_of_encode hsound.isLocal he
  have hfields : ((schema.fields Mark.byte (e.marks width)).map (Field.map Mark.byte)).map (Field.atom width) =
      e.atoms := by
    rw [Schema.map_fields_byte, EncodedMessage.map_byte_marks htext, hatoms]
  obtain ⟨s, hs, hitems⟩ := exists_subquery hsound hd hcovers
  have hfree : ∀ m, .byte m ∈ schema.fields Mark.byte (e.marks width) → m.free = true → needsEscape m.byte = false := by
    refine @Field.needsEscape_of_free width _ ?_
    rw [hfields, Schema.fields, Schema.members_fieldsFrom]
    rfl
  have hmatches := Subquery.matchesWire_of_covers (hfields ▸ Item.covers_atoms hfree hitems) htext
  rw [EncodedMessage.ofAtoms_atoms hsound.isLocal he] at hmatches
  exact ⟨s, hs, hmatches⟩

/-- A query in which no escape byte dangles covers what its normal form covers. -/
theorem covers_ofQuery {marks : List Mark} (hquery : Pattern.dropDangling query = query) :
    Covers Pattern.markExtent (Pattern.ofQuery query) marks ↔
      Covers Pattern.markExtent (Pattern.ofBytes query) marks := by
  rw [Pattern.ofQuery, hquery]
  exact Pattern.coverAlike_collapse rfl _ marks

end

end Query

end LogCodec
