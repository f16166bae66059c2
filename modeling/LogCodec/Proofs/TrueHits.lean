import LogCodec.Proofs.Fields
import LogCodec.Proofs.Soundness

/-!
# `LogCodec.Proofs.TrueHits`: when a message that is found has a text that matches

A search looks at the bytes of a logtype and at the variables, but not at which variable stands at which place.  Where
no byte of static text takes an escape, each byte of a logtype is one atom, and so the pattern is laid along the atoms;
still a wildcard of the pattern may take in a placeholder, and a condition may be met by a variable from another place.
Neither can happen if every variable has a condition of its own.  Neither matters if every variable is one byte long and
variables of one kind do not differ.

## Contents
- `EncodedMessage.variables`, and `Subquery.Finds`: what a search asks of a logtype and of variables.
- **Logtypes.** `Item.shownExtent`, what a logtype shows of the atom that an item stands for, and
  `covers_of_matches_symbols`.
- **Variables.** `covers_of_all`, where all variables are asked for, and `covers_of_alike`, where any of them will do.
- **Hits.** `isMatch_of_covers`, and from it `isMatch_of_finds_all` and `isMatch_of_finds_alike`.
-/

namespace LogCodec

/-- The atom is a variable. -/
def Atom.isVariable : Atom → Bool
  | byte _ => false
  | _ => true

/-- The variables of a message, in order. -/
def EncodedMessage.variables (e : EncodedMessage) : List Atom := e.atoms.filter Atom.isVariable

/-- The subquery finds an encoded message: the logtype matches the pattern, and some of the variables meet the
conditions, in order. -/
structure Subquery.Finds (s : Subquery) (width : Width) (e : EncodedMessage) : Prop where
  logtype : Wildcard.isMatch s.logtypeQuery e.logtype = true
  conditions : ∃ found, found.Sublist e.variables ∧ List.Forall₂ (VariableQuery.Meets width) s.conditions found

/-- No byte of static text takes an escape. -/
def Unescaped (as : List Atom) : Prop := ∀ b, .byte b ∈ as → needsEscape b = false

/-! ## Logtypes -/

namespace Atom

/-- The byte that a logtype has for an atom, behind the escape if there is one. -/
def wireByte : Atom → UInt8
  | byte b => b
  | value _ => Placeholder.dictionary.toByte
  | number kind _ => (Placeholder.number kind).toByte

/-- What a logtype has for an atom that is no byte is a placeholder. -/
theorem cell_eq_or_eq_byte (a : Atom) :
    (∃ p : Placeholder, a.cell = .variable p ∧ a.wireByte = p.toByte ∧ a.isVariable = true) ∨ a = .byte a.wireByte := by
  cases a with
  | byte b => exact .inr rfl
  | value text => exact .inl ⟨_, rfl, rfl, rfl⟩
  | number kind word => exact .inl ⟨_, rfl, rfl, rfl⟩

theorem isVariable_of_cell {a : Atom} {p : Placeholder} (h : a.cell = .variable p) : a.isVariable = true := by
  cases a with
  | byte b => cases h
  | value text => rfl
  | number kind word => rfl

theorem wire_of_isVariable {a : Atom} (h : a.isVariable = true) : a.wire = [a.wireByte] := by
  cases a with
  | byte b => cases h
  | value text => rfl
  | number kind word => rfl

/-- How an atom is written is all that a logtype shows of it. -/
theorem wire_eq_of_cell_eq {a other : Atom} (h : a.cell = other.cell) : a.wire = other.wire := by
  cases a <;> cases other <;> cases h <;> rfl

theorem eq_byte_of_not_isVariable {a : Atom} (h : ¬ a.isVariable = true) : ∃ b, a = .byte b := by
  rcases a.cell_eq_or_eq_byte with ⟨p, -, -, hvariable⟩ | hbyte
  · exact absurd hvariable h
  · exact ⟨_, hbyte⟩

theorem length_wire_pos (a : Atom) : 0 < a.wire.length := by
  by_cases hvariable : a.isVariable = true
  · rw [wire_of_isVariable hvariable]
    exact Nat.one_pos
  · obtain ⟨b, rfl⟩ := eq_byte_of_not_isVariable hvariable
    exact Logtype.length_writeByte_pos b

theorem isVariable_ofToken (width : Width) (token : Bytes) : (ofToken width token).isVariable = true := by
  unfold ofToken
  split
  · rfl
  · rfl

/-- Where nothing is escaped, a logtype has one byte for every atom. -/
theorem flatMap_wire {as : List Atom} (h : Unescaped as) : as.flatMap wire = as.map wireByte := by
  induction as with
  | nil => rfl
  | cons a as ih =>
    have hrest : Unescaped as := fun b hb => h b (List.mem_cons_of_mem a hb)
    rw [List.flatMap_cons, List.map_cons, ih hrest]
    cases a with
    | byte b =>
      have hb := h b List.mem_cons_self
      rw [wire, Logtype.writeByte, hb]
      rfl
    | value text => rfl
    | number kind word => rfl

end Atom

namespace Item

/-- What an item stands for in a message as far as the logtype shows. -/
def shownExtent : Item → Extent Atom
  | .star => .part
  | .any => .member fun _ => True
  | .literal b => .member (· = .byte b)
  | .variable query => .member fun a => a.cell = .variable query.placeholder

/-- **A pattern that matches a logtype without escapes is laid along the atoms.** -/
theorem covers_of_matches_symbols {items : List Item} {as : List Atom} (hunescaped : Unescaped as)
    (h : Pattern.Matches (items.flatMap symbols) (as.map Atom.wireByte)) : Covers shownExtent items as := by
  induction items generalizing as with
  | nil => exact List.map_eq_nil_iff.mp h
  | cons item items ih =>
    have hlater : ∀ {front back}, as = front ++ back → Unescaped back := by
      rintro front back rfl b hb
      exact hunescaped b (List.mem_append_right front hb)
    rw [List.flatMap_cons] at h
    cases item with
    | star =>
      obtain ⟨taken, rest, hbytes, hrest⟩ := h
      obtain ⟨front, back, rfl, -, rfl⟩ := List.map_eq_append_iff.mp hbytes
      exact ⟨front, back, rfl, ih (hlater rfl) hrest⟩
    | any =>
      obtain ⟨b, rest, hbytes, hrest⟩ := h
      obtain ⟨a, back, rfl, -, rfl⟩ := List.map_eq_cons_iff.mp hbytes
      exact ⟨a, back, rfl, trivial, ih (@hlater [a] back rfl) hrest⟩
    | literal b =>
      rw [symbols, Logtype.writeByte] at h
      by_cases hb : needsEscape b = true
      · -- An escape byte would be a byte of static text that takes an escape, or a placeholder.
        rw [if_pos hb] at h
        obtain ⟨rest, hbytes, -⟩ := h
        obtain ⟨a, back, rfl, ha, -⟩ := List.map_eq_cons_iff.mp hbytes
        rcases a.cell_eq_or_eq_byte with ⟨p, -, hp, -⟩ | hbyte
        · rw [hp] at ha
          rcases p with (_ | _) | _ <;> cases ha
        · rw [ha] at hbyte
          cases hunescaped escapeByte (hbyte ▸ List.mem_cons_self)
      · rw [if_neg hb] at h
        obtain ⟨rest, hbytes, hrest⟩ := h
        obtain ⟨a, back, rfl, ha, rfl⟩ := List.map_eq_cons_iff.mp hbytes
        rcases a.cell_eq_or_eq_byte with ⟨p, -, hp, -⟩ | hbyte
        · rw [← ha, hp, Logtype.needsEscape_toByte] at hb
          exact absurd rfl hb
        · rw [ha] at hbyte
          exact ⟨a, back, rfl, hbyte, ih (@hlater [a] back rfl) hrest⟩
    | «variable» query =>
      obtain ⟨rest, hbytes, hrest⟩ := h
      obtain ⟨a, back, rfl, ha, rfl⟩ := List.map_eq_cons_iff.mp hbytes
      refine ⟨a, back, rfl, ?_, ih (@hlater [a] back rfl) hrest⟩
      rcases a.cell_eq_or_eq_byte with ⟨p, hcell, hp, -⟩ | hbyte
      · rw [hcell, Placeholder.toByte_injective (hp.symm.trans ha)]
      · rw [ha] at hbyte
        have hb := hunescaped query.placeholder.toByte (hbyte ▸ List.mem_cons_self)
        rw [Logtype.needsEscape_toByte] at hb
        cases hb

/-! ## Variables -/

section
variable {width : Width} {items : List Item} {as : List Atom}

/-- There is a variable for every condition. -/
theorem length_conditions_le (h : Covers shownExtent items as) :
    (conditions items).length ≤ (as.filter Atom.isVariable).length := by
  induction items generalizing as with
  | nil => exact Nat.zero_le _
  | cons item items ih =>
    cases item with
    | star =>
      obtain ⟨taken, rest, rfl, hrest⟩ := h
      rw [List.filter_append, List.length_append]
      exact Nat.le_add_left_of_le (ih hrest)
    | any =>
      obtain ⟨a, rest, rfl, -, hrest⟩ := h
      exact Nat.le_trans (ih hrest) ((List.sublist_cons_self a rest).filter _).length_le
    | literal b =>
      obtain ⟨a, rest, rfl, rfl, hrest⟩ := h
      show _ ≤ (rest.filter Atom.isVariable).length
      exact ih hrest
    | «variable» query =>
      obtain ⟨a, rest, rfl, hcell, hrest⟩ := h
      rw [List.filter_cons_of_pos (Atom.isVariable_of_cell hcell)]
      exact Nat.succ_le_succ (ih hrest)

/-- **If every variable meets a condition of its own, the items cover the message by its text**: no wildcard takes in a
variable. -/
theorem covers_of_all (h : Covers shownExtent items as)
    (hmeets : List.Forall₂ (VariableQuery.Meets width) (conditions items) (as.filter Atom.isVariable)) :
    Covers (textExtent width) items as := by
  induction items generalizing as with
  | nil => exact h
  | cons item items ih =>
    cases item with
    | star =>
      obtain ⟨taken, rest, rfl, hrest⟩ := h
      have hle := length_conditions_le hrest
      have hlength := hmeets.length_eq
      rw [List.filter_append] at hmeets hlength
      have hnone : taken.filter Atom.isVariable = [] := by
        rw [List.length_append] at hlength
        replace hlength : (conditions items).length = _ := hlength
        exact List.length_eq_zero_iff.mp (by omega)
      rw [hnone] at hmeets
      exact ⟨taken, rest, rfl, ih hrest hmeets⟩
    | any =>
      obtain ⟨a, rest, rfl, -, hrest⟩ := h
      have hle := length_conditions_le hrest
      have hlength := hmeets.length_eq
      by_cases ha : a.isVariable = true
      · rw [List.filter_cons_of_pos ha] at hlength
        replace hlength : (conditions items).length = (rest.filter Atom.isVariable).length + 1 := hlength
        omega
      · rw [List.filter_cons_of_neg ha] at hmeets
        obtain ⟨b, rfl⟩ := Atom.eq_byte_of_not_isVariable ha
        exact ⟨.byte b, rest, rfl, ⟨b, [], rfl, rfl⟩, ih hrest hmeets⟩
    | literal b =>
      obtain ⟨a, rest, rfl, rfl, hrest⟩ := h
      exact ⟨.byte b, rest, rfl, ⟨[], rfl, rfl⟩, ih hrest hmeets⟩
    | «variable» query =>
      obtain ⟨a, rest, rfl, hcell, hrest⟩ := h
      rw [List.filter_cons_of_pos (Atom.isVariable_of_cell hcell)] at hmeets
      cases hmeets with
      | cons hfirst hlater => exact ⟨a, rest, rfl, hfirst.matches_symbols, ih hrest hlater⟩

/-- **If all atoms are one byte long and variables of one kind are alike, the items cover the message by its text**, as
soon as each condition is met somewhere. -/
theorem covers_of_alike (h : Covers shownExtent items as) (hone : ∀ a ∈ as, (a.bytes width).length = 1)
    (halike : ∀ a ∈ as, ∀ other ∈ as, a.isVariable = true → other.cell = a.cell → other = a)
    (hmeets : ∀ query ∈ conditions items, ∃ a ∈ as, query.Meets width a) : Covers (textExtent width) items as := by
  refine h.imp (fun item _ hpart => ?_) (fun item hitem accepts hmember a ha haccepts => ?_)
  · cases item with
    | star => rfl
    | any => cases hpart
    | literal b => cases hpart
    | «variable» query => cases hpart
  · cases item with
    | star => cases hmember
    | any =>
      obtain ⟨b, hb⟩ := List.length_eq_one_iff.mp (hone a ha)
      refine ⟨a, [], rfl, ?_, rfl⟩
      show Pattern.Matches [.any] (a.bytes width)
      rw [hb]
      exact ⟨b, [], rfl, rfl⟩
    | literal b =>
      cases hmember
      rw [haccepts]
      exact ⟨.byte b, [], rfl, ⟨[], rfl, rfl⟩, rfl⟩
    | «variable» query =>
      cases hmember
      have hquery : query.map Excerpt.bytes ∈ conditions items :=
        List.mem_map_of_mem (List.mem_filterMap.mpr ⟨_, hitem, rfl⟩)
      obtain ⟨other, hother, hmeets⟩ := hmeets _ hquery
      have hcell := hmeets.cell_eq
      rw [placeholder_map, ← haccepts] at hcell
      obtain rfl := halike a ha other hother (Atom.isVariable_of_cell haccepts) hcell
      exact ⟨other, [], rfl, hmeets.matches_symbols, rfl⟩

end

end Item

/-! ## Hits -/

namespace Query

section
variable {schema : Schema} {width : Width} {limit : Nat} {query text : Bytes} {d : Decomposition} {s : Subquery}
  {e : EncodedMessage}

theorem isMatch_of_covers (hquery : Pattern.dropDangling query = query)
    (hd : decompose schema width limit query = .ok d) (hs : s ∈ d.subqueries)
    (hcovers : Covers (Item.textExtent width) s.items e.atoms) (htext : Atom.textOf width e.atoms = .ok text) :
    Wildcard.isMatch query text = true := by
  have hmatch := matches_of_covers hd hs hcovers htext
  rw [Wildcard.isMatch_normalize_iff, Pattern.ofQuery, hquery, Pattern.matches_collapse] at hmatch
  exact Wildcard.isMatch_iff.mpr hmatch

/-- What finds a message without escapes is laid along its atoms. -/
theorem covers_of_finds (hlocal : schema.IsLocal) (he : EncodedMessage.encode width schema.locator text = .ok e)
    (hunescaped : Unescaped e.atoms) (hfinds : s.Finds width e) : Covers Item.shownExtent s.items e.atoms := by
  have hmatch := hfinds.logtype
  rw [Wildcard.isMatch_iff, Subquery.logtypeQuery, Pattern.ofBytes_spell, EncodedMessage.logtype_of_encode hlocal he,
    Atom.flatMap_wire hunescaped] at hmatch
  exact Item.covers_of_matches_symbols hunescaped hmatch

variable (hlocal : schema.IsLocal) (he : EncodedMessage.encode width schema.locator text = .ok e)
  (hunescaped : Unescaped e.atoms) (hquery : Pattern.dropDangling query = query)
  (hd : decompose schema width limit query = .ok d) (hs : s ∈ d.subqueries) (hfinds : s.Finds width e)
include hlocal he hunescaped hquery hd hs hfinds

/-- **A subquery that asks for every variable finds nothing else than what matches.** -/
theorem isMatch_of_finds_all (hall : s.conditions.length = e.variables.length) :
    Wildcard.isMatch query text = true := by
  obtain ⟨found, hfound, hmeets⟩ := hfinds.conditions
  have hlength : e.variables.length ≤ found.length := by
    rw [← hmeets.length_eq, hall]
  rw [hfound.eq_of_length_le hlength] at hmeets
  have hcovers := Item.covers_of_all (covers_of_finds hlocal he hunescaped hfinds) hmeets
  exact isMatch_of_covers hquery hd hs hcovers (EncodedMessage.atoms_of_encode hlocal he).2

/-- **A message whose variables are one byte long and alike is found by nothing else than what it matches.** -/
theorem isMatch_of_finds_alike (hone : ∀ a ∈ e.variables, (a.bytes width).length = 1)
    (halike : ∀ a ∈ e.variables, ∀ other ∈ e.variables, other.cell = a.cell → other = a) :
    Wildcard.isMatch query text = true := by
  obtain ⟨found, hfound, hmeets⟩ := hfinds.conditions
  have hatoms : ∀ a ∈ e.atoms, (a.bytes width).length = 1 := by
    intro a ha
    by_cases hvariable : a.isVariable = true
    · exact hone a (List.mem_filter.mpr ⟨ha, hvariable⟩)
    · obtain ⟨b, rfl⟩ := Atom.eq_byte_of_not_isVariable hvariable
      rfl
  have hcovers : Covers (Item.textExtent width) s.items e.atoms := by
    refine Item.covers_of_alike (covers_of_finds hlocal he hunescaped hfinds) hatoms ?_ ?_
    · intro a ha other hother hvariable hcell
      have hboth : other.isVariable = true := by
        rcases a.cell_eq_or_eq_byte with ⟨p, hp, -⟩ | hbyte
        · exact Atom.isVariable_of_cell (hcell.trans hp)
        · rw [hbyte] at hvariable
          cases hvariable
      exact halike a (List.mem_filter.mpr ⟨ha, hvariable⟩) other (List.mem_filter.mpr ⟨hother, hboth⟩) hcell
    · intro condition hcondition
      obtain ⟨a, ha, hmeets⟩ := exists_partner hmeets hcondition
      exact ⟨a, (List.mem_filter.mp (hfound.subset ha)).1, hmeets⟩
  exact isMatch_of_covers hquery hd hs hcovers (EncodedMessage.atoms_of_encode hlocal he).2

end

end Query

end LogCodec
