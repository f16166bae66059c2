import LogCodec.Proofs.Atom
import LogCodec.Proofs.Coverage
import LogCodec.Query.Subquery

/-!
# `LogCodec.Proofs.Alignment`: a subquery laid along an encoded message

A subquery aligns with a message when the atoms of the message can be cut along the pattern for the logtype: a byte of
static text, written with its escape, takes a byte, a placeholder takes the next variable, which has to meet the next
condition, and the wildcards take static text or anything.  The pattern is written from the items of the subquery, so
the subquery aligns exactly if its items cover the atoms.

## Contents
- `VariableQuery.Meets`: a variable satisfies a condition.
- `Aligned`, by the spelled pattern, and `Subquery.AlignsWith`.
- `Item.extent`, what an item stands for, and `alignsWith_iff_covers`.
- **Text.** `Item.pattern`, the symbols that an item asks of the text, and `matches_pattern_of_covers`: a message whose
  atoms are covered by their texts has such a text.
-/

namespace LogCodec

namespace Atom

/-- The text that an atom stands for, if it has one. -/
def bytes (width : Width) (a : Atom) : Bytes := (a.text width).toOption.getD []

/-- Where atoms have a text together, each of them has one. -/
theorem text_eq_of_textOf {width : Width} {as : List Atom} {text : Bytes} (h : textOf width as = .ok text) :
    text = as.flatMap (bytes width) ∧ ∀ a ∈ as, a.text width = .ok (a.bytes width) := by
  induction as generalizing text with
  | nil => cases h; exact ⟨rfl, fun a ha => absurd ha List.not_mem_nil⟩
  | cons a as ih =>
    rw [textOf] at h
    cases ha : a.text width with
    | error e => rw [ha] at h; cases h
    | ok front =>
      cases has : textOf width as with
      | error e => rw [ha, has] at h; cases h
      | ok back =>
        rw [ha, has] at h
        cases h
        obtain ⟨rfl, hall⟩ := ih has
        have hbytes : a.bytes width = front := by rw [bytes, ha]; rfl
        refine ⟨by rw [List.flatMap_cons, hbytes], fun b hb => ?_⟩
        rcases List.mem_cons.mp hb with rfl | hb
        · rw [hbytes, ha]
        · exact hall b hb

end Atom

namespace VariableQuery

/-- A variable satisfies a condition: it is the dictionary value or the packed number that is asked for, or it is of the
right kind and its text matches the pattern. -/
def Meets (width : Width) : VariableQuery Bytes → Atom → Prop
  | .value text, a => a = .value text
  | .number kind word, a => a = .number kind word
  | .pattern kind spelled, a =>
    a.cell = .variable kind ∧ ∃ text, a.text width = .ok text ∧ Wildcard.isMatch spelled text = true

/-- A variable that satisfies a condition is of the kind that the condition is for. -/
theorem Meets.cell_eq {width : Width} {query : VariableQuery Bytes} {a : Atom} (h : Meets width query a) :
    a.cell = .variable query.placeholder := by
  cases query with
  | value text => rw [Meets] at h; rw [h]; rfl
  | number kind word => rw [Meets] at h; rw [h]; rfl
  | pattern kind text => exact h.1

end VariableQuery

/-! ## Alignment -/

/-- The atoms of a message are cut along a pattern for logtypes.  An escape byte and the next literal stand for one
byte of static text, another placeholder byte for a variable, which satisfies the next condition. -/
inductive Aligned (width : Width) : Pattern → List (VariableQuery Bytes) → List Atom → Prop where
  | nil : Aligned width [] [] []
  | star {p : Pattern} {queries : List (VariableQuery Bytes)} {rest : List Atom} (taken : List Atom)
      (h : Aligned width p queries rest) : Aligned width (.star :: p) queries (taken ++ rest)
  | any {p : Pattern} {queries : List (VariableQuery Bytes)} {rest : List Atom} (b : UInt8)
      (h : Aligned width p queries rest) : Aligned width (.any :: p) queries (.byte b :: rest)
  | escaped {p : Pattern} {queries : List (VariableQuery Bytes)} {rest : List Atom} {b : UInt8}
      (h : Aligned width p queries rest) :
      Aligned width (.literal escapeByte :: .literal b :: p) queries (.byte b :: rest)
  | byte {p : Pattern} {queries : List (VariableQuery Bytes)} {rest : List Atom} {b : UInt8}
      (hb : needsEscape b = false) (h : Aligned width p queries rest) :
      Aligned width (.literal b :: p) queries (.byte b :: rest)
  | variable {p : Pattern} {query : VariableQuery Bytes} {queries : List (VariableQuery Bytes)} {a : Atom}
      {rest : List Atom} {kind : Placeholder} (hkind : a.cell = .variable kind) (hmeets : query.Meets width a)
      (h : Aligned width p queries rest) :
      Aligned width (.literal kind.toByte :: p) (query :: queries) (a :: rest)

/-- The message with the given atoms can be cut along the pattern for its logtype, and each variable under a
placeholder satisfies the condition for it. -/
def Subquery.AlignsWith (s : Subquery) (width : Width) (as : List Atom) : Prop :=
  Aligned width (Pattern.ofBytes s.logtypeQuery) s.conditions as

namespace Item

/-- What an item stands for in a message; `free` says for which bytes of static text a wildcard for one byte may
stand. -/
def extent (width : Width) (free : UInt8 → Prop) : Item → Extent Atom
  | .star => .part
  | .any => .member fun a => ∃ b, a = .byte b ∧ free b
  | .literal b => .member (· = .byte b)
  | .variable query => .member ((query.map Excerpt.bytes).Meets width)

/-- Only a star stands for any part of a message. -/
theorem eq_star_of_part {width : Width} {free : UInt8 → Prop} {item : Item} (h : extent width free item = .part) :
    item = .star := by
  cases item with
  | star => rfl
  | any => cases h
  | literal b => cases h
  | «variable» query => cases h

theorem placeholder_map (query : VariableQuery Excerpt) :
    (query.map Excerpt.bytes).placeholder = query.placeholder := by
  cases query <;> rfl

/-- The conditions of a list of items. -/
def conditions (items : List Item) : List (VariableQuery Bytes) :=
  (items.filterMap condition?).map (·.map Excerpt.bytes)

section

variable {width : Width} {item : Item} {items : List Item} {p : Pattern} {queries : List (VariableQuery Bytes)}
  {as : List Atom}

/-! Each item is read back from its symbols in one way. -/

theorem aligned_star_iff :
    Aligned width (.star :: p) queries as ↔ ∃ taken rest, as = taken ++ rest ∧ Aligned width p queries rest := by
  constructor
  · rintro (_ | ⟨taken, h⟩)
    exact ⟨taken, _, rfl, h⟩
  · rintro ⟨taken, rest, rfl, h⟩
    exact .star taken h

theorem aligned_any_iff :
    Aligned width (.any :: p) queries as ↔ ∃ b rest, as = .byte b :: rest ∧ Aligned width p queries rest := by
  constructor
  · rintro (_ | _ | ⟨b, h⟩)
    exact ⟨b, _, rfl, h⟩
  · rintro ⟨b, rest, rfl, h⟩
    exact .any b h

/-- A literal is an escape byte with the next literal, a byte that needs no escape, or a placeholder. -/
theorem aligned_literal_cases {b : UInt8} (h : Aligned width (.literal b :: p) queries as) :
    (∃ c more rest, b = escapeByte ∧ p = .literal c :: more ∧ as = .byte c :: rest ∧
      Aligned width more queries rest) ∨
    (∃ rest, needsEscape b = false ∧ as = .byte b :: rest ∧ Aligned width p queries rest) ∨
    (∃ kind query later a rest, b = Placeholder.toByte kind ∧ queries = query :: later ∧ as = a :: rest ∧
      query.Meets width a ∧ Aligned width p later rest) := by
  generalize hq : Symbol.literal b :: p = q at h
  cases h with
  | nil => cases hq
  | star taken h => cases hq
  | any c h => cases hq
  | escaped h =>
    cases hq
    exact .inl ⟨_, _, _, rfl, rfl, rfl, h⟩
  | byte hb h =>
    cases hq
    exact .inr (.inl ⟨_, hb, rfl, h⟩)
  | «variable» hkind hmeets h =>
    cases hq
    exact .inr (.inr ⟨_, _, _, _, _, rfl, rfl, rfl, hmeets, h⟩)

theorem aligned_byte_iff {b : UInt8} :
    Aligned width ((Logtype.writeByte b).map .literal ++ p) queries as ↔
      ∃ rest, as = .byte b :: rest ∧ Aligned width p queries rest := by
  unfold Logtype.writeByte
  cases hb : needsEscape b with
  | true =>
    show Aligned width (.literal escapeByte :: .literal b :: p) queries as ↔ _
    constructor
    · intro h
      rcases aligned_literal_cases h with
        ⟨c, more, rest, -, hp, rfl, hrest⟩ | ⟨rest, hescape, -⟩ | ⟨kind, _, _, _, _, hkind, -⟩
      · cases hp
        exact ⟨rest, rfl, hrest⟩
      · cases hescape
      · rcases kind with (_ | _) | _ <;> cases hkind
    · rintro ⟨rest, rfl, h⟩
      exact .escaped h
  | false =>
    show Aligned width (.literal b :: p) queries as ↔ _
    constructor
    · intro h
      rcases aligned_literal_cases h with ⟨c, more, rest, rfl, -⟩ | ⟨rest, -, rfl, hrest⟩ | ⟨kind, _, _, _, _, rfl, -⟩
      · cases hb
      · exact ⟨rest, rfl, hrest⟩
      · rw [Logtype.needsEscape_toByte] at hb
        cases hb
    · rintro ⟨rest, rfl, h⟩
      exact .byte hb h

theorem aligned_variable_iff {query : VariableQuery Bytes} :
    Aligned width (.literal query.placeholder.toByte :: p) (query :: queries) as ↔
      ∃ a rest, as = a :: rest ∧ query.Meets width a ∧ Aligned width p queries rest := by
  constructor
  · intro h
    rcases aligned_literal_cases h with
      ⟨_, _, _, hescape, -⟩ | ⟨_, hescape, -⟩ | ⟨_, _, _, a, rest, -, hq, rfl, hmeets, hrest⟩
    · rcases hkind : query.placeholder with (_ | _) | _ <;> rw [hkind] at hescape <;> cases hescape
    · rw [Logtype.needsEscape_toByte] at hescape
      cases hescape
    · cases hq
      exact ⟨a, rest, rfl, hmeets, hrest⟩
  · rintro ⟨a, rest, rfl, hmeets, h⟩
    exact .variable hmeets.cell_eq hmeets h

/-- The pattern that items are written as aligns with a message exactly if the items cover its atoms. -/
theorem aligned_symbols_iff :
    Aligned width (items.flatMap symbols) (conditions items) as ↔ Covers (extent width fun _ => True) items as := by
  -- The symbols of an item are read back as this item and no other, so the items are peeled off one by one.
  induction items generalizing as with
  | nil =>
    constructor
    · rintro ⟨⟩
      rfl
    · rintro rfl
      exact .nil
  | cons item items ih =>
    rw [List.flatMap_cons]
    cases item with
    | star =>
      show Aligned width (.star :: items.flatMap symbols) (conditions items) as ↔
        ∃ taken rest, as = taken ++ rest ∧ Covers (extent width _) items rest
      rw [aligned_star_iff]
      simp only [ih]
    | any =>
      show Aligned width (.any :: items.flatMap symbols) (conditions items) as ↔
        ∃ a rest, as = a :: rest ∧ (∃ b, a = .byte b ∧ True) ∧ Covers (extent width _) items rest
      rw [aligned_any_iff]
      simp only [ih]
      constructor
      · rintro ⟨b, rest, rfl, h⟩
        exact ⟨_, rest, rfl, ⟨b, rfl, trivial⟩, h⟩
      · rintro ⟨_, rest, rfl, ⟨b, rfl, -⟩, h⟩
        exact ⟨b, rest, rfl, h⟩
    | literal b =>
      show Aligned width ((Logtype.writeByte b).map .literal ++ items.flatMap symbols) (conditions items) as ↔
        ∃ a rest, as = a :: rest ∧ a = .byte b ∧ Covers (extent width _) items rest
      rw [aligned_byte_iff]
      simp only [ih]
      constructor
      · rintro ⟨rest, rfl, h⟩
        exact ⟨_, rest, rfl, rfl, h⟩
      · rintro ⟨_, rest, rfl, rfl, h⟩
        exact ⟨rest, rfl, h⟩
    | «variable» query =>
      show Aligned width (.literal query.placeholder.toByte :: items.flatMap symbols)
          (query.map Excerpt.bytes :: conditions items) as ↔
        ∃ a rest, as = a :: rest ∧ (query.map Excerpt.bytes).Meets width a ∧ Covers (extent width _) items rest
      rw [← placeholder_map, aligned_variable_iff]
      simp only [ih]

end

end Item

/-- **A subquery aligns with a message exactly if its items cover the atoms.** -/
theorem Subquery.alignsWith_iff {s : Subquery} {width : Width} {as : List Atom} :
    s.AlignsWith width as ↔ Covers (Item.extent width fun _ => True) s.items as := by
  rw [AlignsWith, logtypeQuery, Pattern.ofBytes_spell]
  exact Item.aligned_symbols_iff

/-! ## Text -/

/-- The symbols that a condition asks of the text of a variable. -/
def VariableQuery.symbols (width : Width) : VariableQuery Bytes → Pattern
  | .value text => text.map .literal
  | .number kind word => (Atom.bytes width (.number kind word)).map .literal
  | .pattern _ spelled => Pattern.ofBytes spelled

/-- The text of a variable that satisfies a condition matches what the condition asks. -/
theorem VariableQuery.Meets.matches_symbols {width : Width} {query : VariableQuery Bytes} {a : Atom}
    (h : query.Meets width a) : Pattern.Matches (query.symbols width) (a.bytes width) := by
  cases query with
  | value text =>
    rw [Meets] at h
    rw [h]
    exact Pattern.matches_literals_iff.mpr rfl
  | number kind word =>
    rw [Meets] at h
    rw [h]
    exact Pattern.matches_literals_iff.mpr rfl
  | pattern kind spelled =>
    obtain ⟨-, text, htext, hmatch⟩ := h
    rw [Atom.bytes, htext]
    exact Wildcard.isMatch_iff.mp hmatch

namespace Item

/-- The symbols that an item asks of the text of a message. -/
def pattern (width : Width) : Item → Pattern
  | .star => [.star]
  | .any => [.any]
  | .literal b => [.literal b]
  | .variable query => (query.map Excerpt.bytes).symbols width

/-- What an item stands for in a message when only the text of the message counts. -/
def textExtent (width : Width) : Item → Extent Atom
  | .star => .part
  | item => .member fun a => Pattern.Matches (item.pattern width) (a.bytes width)

/-- **The text of a message matches what the items ask that cover its atoms by their texts.** -/
theorem matches_pattern_of_covers {width : Width} {items : List Item} {as : List Atom} {text : Bytes}
    (h : Covers (textExtent width) items as) (htext : Atom.textOf width as = .ok text) :
    Pattern.Matches (items.flatMap (pattern width)) text := by
  obtain ⟨rfl, -⟩ := Atom.text_eq_of_textOf htext
  rw [Pattern.matches_iff_covers]
  refine h.flatMap (fun item _ hpart bs => ?_) (fun item _ accepts hmember a _ ha => ?_)
  · cases item with
    | star => exact covers_part rfl bs
    | any => cases hpart
    | literal b => cases hpart
    | «variable» query => cases hpart
  · cases item with
    | star => cases hmember
    | any =>
      cases hmember
      exact Pattern.matches_iff_covers.mp ha
    | literal b =>
      cases hmember
      exact Pattern.matches_iff_covers.mp ha
    | «variable» query =>
      cases hmember
      exact Pattern.matches_iff_covers.mp ha

/-- Items that cover atoms cover them by their texts. -/
theorem covers_textExtent {width : Width} {free : UInt8 → Prop} {items : List Item} {as : List Atom}
    (h : Covers (extent width free) items as) : Covers (textExtent width) items as := by
  refine h.imp (fun item _ hpart => ?_) (fun item _ accepts hmember a _ ha => ?_)
  · obtain rfl := eq_star_of_part hpart
    rfl
  · cases item with
    | star => cases hmember
    | any =>
      cases hmember
      obtain ⟨b, rfl, -⟩ := ha
      exact ⟨.byte b, [], rfl, ⟨b, [], rfl, rfl⟩, rfl⟩
    | literal b =>
      cases hmember
      rw [ha]
      exact ⟨.byte b, [], rfl, ⟨[], rfl, rfl⟩, rfl⟩
    | «variable» query =>
      cases hmember
      exact ⟨a, [], rfl, ha.matches_symbols, rfl⟩

end Item

end LogCodec
