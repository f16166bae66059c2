import LogCodec.Proofs.Escapes
import LogCodec.Proofs.StaticReading

/-!
# `LogCodec.Proofs.Probes`: queries that spell the two ends of a text

A probe spells the front and the end of a text and has a `?` for each byte between them.  If the text can be cut there,
the probe has a subquery that shows the two ends as they are encoded and has the same wildcards between them: as far as
a logtype goes, it asks for so many bytes and not for what they are.

## Contents
- `Pattern.probe`, with `matches_probe_iff`.
- **Cutting.** `Schema.atoms` and `Schema.IsClosed`; `exists_delimiter_of_mem` and `atoms_append_token`.
- **Subqueries.** `setApart_probe`, `fields_probe`, and from them `exists_shown_probe`.
-/

namespace LogCodec

namespace Pattern

/-- The ends of a text, with wildcards for bytes between them. -/
def probe (front : Bytes) (count : Nat) (back : Bytes) : Pattern :=
  front.map .literal ++ (List.replicate count .any ++ back.map .literal)

theorem matches_replicate_any_append_iff {count : Nat} {p : Pattern} {text : Bytes} :
    Matches (List.replicate count .any ++ p) text ↔
      ∃ taken rest, text = taken ++ rest ∧ taken.length = count ∧ Matches p rest := by
  induction count generalizing text with
  | zero =>
    constructor
    · intro h
      exact ⟨[], text, rfl, rfl, h⟩
    · rintro ⟨taken, rest, rfl, hlength, h⟩
      rw [List.length_eq_zero_iff.mp hlength]
      exact h
  | succ count ih =>
    rw [List.replicate_succ, List.cons_append]
    constructor
    · rintro ⟨b, later, rfl, hlater⟩
      obtain ⟨taken, rest, rfl, rfl, h⟩ := ih.mp hlater
      exact ⟨b :: taken, rest, rfl, rfl, h⟩
    · rintro ⟨taken, rest, rfl, hlength, h⟩
      obtain ⟨b, taken, rfl⟩ := List.exists_cons_of_length_eq_add_one hlength
      exact ⟨b, taken ++ rest, rfl, ih.mpr ⟨taken, rest, rfl, Nat.succ.inj hlength, h⟩⟩

/-- A probe matches the texts with these ends and so many bytes between them. -/
theorem matches_probe_iff {front back text : Bytes} {count : Nat} :
    Matches (probe front count back) text ↔ ∃ taken, text = front ++ (taken ++ back) ∧ taken.length = count := by
  rw [probe, matches_literals_append_iff]
  constructor
  · rintro ⟨rest, rfl, h⟩
    obtain ⟨taken, last, rfl, hlength, hback⟩ := matches_replicate_any_append_iff.mp h
    rw [matches_literals_iff.mp hback]
    exact ⟨taken, rfl, hlength⟩
  · rintro ⟨taken, rfl, hlength⟩
    refine ⟨taken ++ back, rfl, ?_⟩
    exact matches_replicate_any_append_iff.mpr ⟨taken, back, rfl, hlength, matches_literals_iff.mpr rfl⟩

theorem starFree_probe (front : Bytes) (count : Nat) (back : Bytes) : StarFree (probe front count back) := by
  intro hmem
  rcases List.mem_append.mp hmem with hfront | hmem
  · obtain ⟨b, -, hb⟩ := List.mem_map.mp hfront
    cases hb
  · rcases List.mem_append.mp hmem with hany | hback
    · cases List.eq_of_mem_replicate hany
    · obtain ⟨b, -, hb⟩ := List.mem_map.mp hback
      cases hb

end Pattern

/-! ## Cutting -/

namespace Schema

/-- The atoms of a text. -/
def atoms (schema : Schema) (width : Width) (text : Bytes) : List Atom :=
  (schema.fields id text).map (Field.atom width)

@[simp] theorem atoms_nil (schema : Schema) (width : Width) : schema.atoms width [] = [] := rfl

/-- A text that no token at its end can go on. -/
def IsClosed (schema : Schema) (text : Bytes) : Prop := ∀ b, text.getLast? = some b → schema.isDelimiter b = true

section

variable {schema : Schema}

theorem isClosed_nil (schema : Schema) : schema.IsClosed [] := by
  intro b hb
  cases hb

theorem endsToken_nil (schema : Schema) : schema.EndsToken [] := by
  intro b hb
  cases hb

/-- If there is a variable in a text at whose start no token goes on, a delimiter is before it. -/
theorem exists_delimiter_of_mem {text token : Bytes} (hends : schema.EndsToken text)
    (hmem : .token token ∈ schema.fields id text) :
    ∃ d, schema.isDelimiter d = true ∧ ∃ later, schema.fields id text = .byte d :: later ∧ .token token ∈ later := by
  cases text with
  | nil => cases hmem
  | cons d text =>
    have hd : schema.isDelimiter (id d) = true := hends d rfl
    have hfields : schema.fields id (d :: text) = .byte d :: schema.fieldsFrom id (some d) [] text :=
      fieldsFrom_delimiter hd text
    rw [hfields] at hmem
    rcases List.mem_cons.mp hmem with hfirst | hlater
    · cases hfirst
    · exact ⟨d, hd, _, hfields, hlater⟩

/-- The atoms of a text with one more variable behind it, and a delimiter. -/
theorem atoms_append_token {front token : Bytes} {d : UInt8} (width : Width) (hclosed : schema.IsClosed front)
    (hmembers : ∀ b ∈ token, schema.isDelimiter b = false) (hne : token ≠ [])
    (hvariable : Query.isVariableAfter schema front.getLast? token = true) (hd : schema.isDelimiter d = true) :
    schema.atoms width (front ++ (token ++ [d])) = schema.atoms width front ++ [.ofToken width token, .byte d] := by
  have hclosed : ∀ b, front.getLast? = some b → schema.isDelimiter (id b) = true := hclosed
  have hmembers : ∀ b ∈ token, schema.isDelimiter (id b) = false := hmembers
  have hd : schema.isDelimiter (id d) = true := hd
  rw [atoms, fields, fieldsFrom_append_of_closed hclosed, Option.map_id, Option.or_none,
    fieldsFrom_append_delimiter hd, fieldsFrom_of_members hmembers, List.nil_append,
    runFields_of_variable hne (by rwa [List.map_id]), List.map_append]
  rfl

end

end Schema

namespace Query

/-! ## Subqueries -/

section

variable {front back : Bytes} {count : Nat}

/-- Symbols that are all wildcards, or all literals, stand apart from nothing. -/
theorem setApart_of_forall {schema : Schema} {p : Pattern} (wild : Bool) (h : ∀ s ∈ p, s.isWildcard = wild) :
    SetApart schema p := by
  apply List.Pairwise.isChain
  apply List.pairwise_of_forall_mem_list
  intro s hs t ht _ _
  rw [h s hs, h t ht]

theorem setApart_literals (schema : Schema) (text : Bytes) : SetApart schema (text.map .literal) := by
  apply setApart_of_forall false
  intro s hs
  obtain ⟨b, -, rfl⟩ := List.mem_map.mp hs
  rfl

/-- The wildcards of a probe stand apart if delimiters are around them. -/
theorem setApart_probe {schema : Schema} (hfront : schema.IsClosed front) (hback : schema.EndsToken back) :
    SetApart schema (Pattern.probe front count back) := by
  have hwild : SetApart schema (List.replicate count .any) := by
    apply setApart_of_forall true
    intro s hs
    rw [List.eq_of_mem_replicate hs]
    rfl
  have hnot : ∀ b, schema.isDelimiter b = true → ¬ inToken schema (.literal b) = true := by
    intro b hb
    rw [inToken, hb]
    exact Bool.false_ne_true
  apply List.isChain_append.mpr
  refine ⟨setApart_literals schema front, List.isChain_append.mpr ⟨hwild, setApart_literals schema back, ?_⟩, ?_⟩
  · intro s _ t ht _ hmember
    rw [List.head?_map] at ht
    obtain ⟨b, hb, rfl⟩ := Option.map_eq_some_iff.mp ht
    exact absurd hmember (hnot b (hback b hb))
  · intro s hs t _ hmember _
    rw [List.getLast?_map] at hs
    obtain ⟨b, hb, rfl⟩ := Option.map_eq_some_iff.mp hs
    exact absurd hmember (hnot b (hfront b hb))

/-- A probe has the fields of the ends, and static text between them. -/
theorem fields_probe (hfront : Schema.standard.IsClosed front) (hback : Schema.standard.EndsToken back) :
    Schema.standard.fields Symbol.standIn (Pattern.probe front count back) =
      (Schema.standard.fields id front).map (Field.map .literal) ++
        ((List.replicate count .any).map .byte ++ (Schema.standard.fields id back).map (Field.map .literal)) := by
  have hliterals : ∀ text : Bytes, (Schema.standard.fields id text).map (Field.map .literal) =
      Schema.standard.fields Symbol.standIn (text.map .literal) := by
    intro text
    exact Schema.map_fieldsFrom Symbol.standIn .literal (fun _ => rfl) text
  have hclosed : ∀ d, (front.map Symbol.literal).getLast? = some d →
      Schema.standard.isDelimiter d.standIn = true := by
    intro d hd
    rw [List.getLast?_map] at hd
    obtain ⟨b, hb, rfl⟩ := Option.map_eq_some_iff.mp hd
    exact hfront b hb
  have hends : ∀ d, (back.map Symbol.literal).head? = some d → Schema.standard.isDelimiter d.standIn = true := by
    intro d hd
    rw [List.head?_map] at hd
    obtain ⟨b, hb, rfl⟩ := Option.map_eq_some_iff.mp hd
    exact hback b hb
  have hmembers : ∀ s ∈ List.replicate count Symbol.any, Schema.standard.isDelimiter s.standIn = false := by
    intro s hs
    rw [List.eq_of_mem_replicate hs]
    rfl
  have hstatic : ∀ before, isVariableAfter .standard before ((List.replicate count Symbol.any).map Symbol.standIn) =
      false := by
    intro before
    apply Schema.standard_static
    intro b hb
    rw [List.map_replicate] at hb
    rw [List.eq_of_mem_replicate hb]
    exact ⟨rfl, rfl, rfl⟩
  rw [hliterals, hliterals, Schema.fields, Pattern.probe, Schema.fieldsFrom_append_of_closed hclosed,
    Schema.fieldsFrom_append_of_ends hends none, Schema.fieldsFrom_of_members hmembers, List.nil_append,
    Schema.runFields_of_static (hstatic _)]
  rfl

/-- What stands for wildcards is wildcards. -/
theorem eq_replicate_of_depicts {width : Width} {items : List Item}
    (h : List.Forall₂ (Item.Depicts width) items ((List.replicate count .any).map .byte)) :
    items = List.replicate count .any := by
  induction count generalizing items with
  | zero =>
    cases h
    rfl
  | succ count ih =>
    rw [List.replicate_succ, List.map_cons] at h
    cases h with
    | cons hfirst hlater =>
      cases hfirst
      rw [ih hlater]
      rfl

/-- An item that stands for a field without wildcards shows the atom of the field. -/
theorem shows_of_depicts {width : Width} {item : Item} {field : Field UInt8}
    (h : item.Depicts width (field.map .literal)) : item.Shows (field.atom width) := by
  cases field with
  | byte b =>
    cases h
    exact .byte b
  | token run =>
    cases h with
    | value value hvalue =>
      rw [Pattern.map_standIn_literals] at hvalue
      rw [Field.atom, ← hvalue]
      exact shows_exactQuery width value

/-- **A probe has a subquery that shows the ends and has the wildcards between them.** -/
theorem exists_shown_probe (width : Width) (hfront : Schema.standard.IsClosed front)
    (hback : Schema.standard.EndsToken back) (hcount : 0 < count) :
    ∃ limit d, decompose .standard width limit (Pattern.probe front count back).spell = .ok d ∧
      ∃ s ∈ d.subqueries, ∃ first last, s.items = first ++ (List.replicate count .any ++ last) ∧
        List.Forall₂ Item.Shows first (Schema.standard.atoms width front) ∧
        List.Forall₂ Item.Shows last (Schema.standard.atoms width back) := by
  have hquery := Pattern.ofQuery_spell (Pattern.starFree_probe front count back)
  have hne : Pattern.ofQuery (Pattern.probe front count back).spell ≠ [] := by
    rw [hquery]
    intro hnil
    have hlength := congrArg List.length hnil
    rw [Pattern.probe, List.length_append, List.length_append, List.length_replicate, List.length_nil] at hlength
    omega
  obtain ⟨limit, d, hd⟩ := exists_limit Schema.standard width hne
  obtain ⟨-, rfl, hreads⟩ := decompose_eq_ok hd
  rw [hquery] at hreads
  have hparted := parted_partsFrom Schema.standard 0 none (Pattern.probe front count back)
  obtain ⟨choice, hchoice, hdepicts⟩ :=
    @exists_static_choice d.width limit none _ _ hparted (setApart_probe hfront hback) d.parts hreads
  refine ⟨limit, d, hd, _, (mem_subqueries hreads).mpr ⟨choice, hchoice, rfl⟩, ?_⟩
  rw [items_subqueryOf hparted hreads hchoice (Pattern.starFree_probe front count back)]
  rw [← Schema.fields, fields_probe hfront hback] at hdepicts
  -- The items are cut where the fields are.
  generalize spread d.width d.parts choice = items at hdepicts
  have hfirst := List.forall₂_take_append _ _ _ hdepicts
  have hrest := List.forall₂_drop_append _ _ _ hdepicts
  have hbetween := eq_replicate_of_depicts (List.forall₂_take_append _ _ _ hrest)
  have hlast := List.forall₂_drop_append _ _ _ hrest
  have hshows : ∀ {items : List Item} {fields : List (Field UInt8)},
      List.Forall₂ (Item.Depicts d.width) items (fields.map (Field.map .literal)) →
        List.Forall₂ Item.Shows items (fields.map (Field.atom d.width)) := by
    intro items fields h
    rw [List.forall₂_map_right_iff] at h ⊢
    exact h.imp fun _ _ => shows_of_depicts
  refine ⟨_, _, ?_, hshows hfirst, hshows hlast⟩
  rw [← hbetween, List.take_append_drop, List.take_append_drop]

end

end Query

end LogCodec
