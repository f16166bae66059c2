import LogCodec.Proofs.Completeness
import LogCodec.Proofs.ExactQuery
import Mathlib.Data.List.Chain

/-!
# `LogCodec.Proofs.StaticReading`: a reading in which wildcards are static text

Where the wildcards of a query stand apart from the literals of tokens, a token of the query has literals only or
wildcards only.  One reading of the query takes every token of wildcards for static text, and every other token for what
it is in a message.  So a subquery is known that has a wildcard wherever the query has one: it is what the query would
be encoded as if the wildcards were static text.

## Contents
- `Symbol.standIn`: the query as a text, with a byte that no rule takes notice of in place of a wildcard.
- `Pattern.SetApart`, and `SetApart.exact_or_wild`, which says what tokens are then like.
- `Item.Depicts`, for one field of the query, and `exists_static_choice`, the reading.
-/

namespace LogCodec

/-- The byte for a symbol in the text that stands for a query: `_` for a wildcard. -/
def Symbol.standIn : Symbol → UInt8
  | literal b => b
  | _ => 0x5F

/-- The text that stands for a query in which there are only literals. -/
theorem Pattern.map_standIn_literals (text : Bytes) : (text.map Symbol.literal).map Symbol.standIn = text := by
  rw [List.map_map]
  exact List.map_id text

/-- An item stands for a field of a query: a symbol of static text, or a token without wildcards. -/
inductive Item.Depicts (width : Width) : Item → Field Symbol → Prop where
  | static (s : Symbol) : Depicts width (.ofSymbol s) (.byte s)
  | value {run : Pattern} (value : Excerpt) (hvalue : value.bytes = run.map Symbol.standIn) :
      Depicts width (.variable (Query.exactQuery width value)) (.token run)

namespace Query

/-! ## Wildcards that stand apart -/

/-- Of two neighbours within a token, both are wildcards or neither is. -/
def Alike (schema : Schema) (s t : Symbol) : Prop :=
  inToken schema s = true → inToken schema t = true → s.isWildcard = t.isWildcard

/-- The wildcards of a query stand apart from the literals of tokens. -/
def SetApart (schema : Schema) (symbols : Pattern) : Prop := symbols.IsChain (Alike schema)

/-- A token of such a query has no wildcards, or has nothing else. -/
theorem SetApart.exact_or_wild {schema : Schema} {run : Pattern} (h : SetApart schema run)
    (hmembers : ∀ s ∈ run, inToken schema s = true) :
    run.isExact = true ∨ ∀ s ∈ run, s.isWildcard = true := by
  induction run with
  | nil => exact .inl rfl
  | cons s run ih =>
    cases run with
    | nil =>
      cases s with
      | literal b => exact .inl rfl
      | star => exact .inr (List.forall_mem_singleton.mpr rfl)
      | any => exact .inr (List.forall_mem_singleton.mpr rfl)
    | cons t run =>
      obtain ⟨halike, hrest⟩ := List.isChain_cons_cons.mp h
      obtain ⟨hs, hmembers⟩ := List.forall_mem_cons.mp hmembers
      have hst := halike hs (hmembers t List.mem_cons_self)
      rcases ih hrest hmembers with hexact | hwild
      · left
        rw [Pattern.isExact, List.all_cons, hst]
        rw [Pattern.isExact, List.all_cons] at hexact
        rw [List.all_cons, hexact, Bool.and_true]
        exact (Bool.and_eq_true_iff.mp hexact).1
      · right
        exact List.forall_mem_cons.mpr ⟨hst.trans (hwild t List.mem_cons_self), hwild⟩

/-! ## Tokens -/

section
variable {width : Width} {precededBy : Option UInt8} {p : ReadPart}

/-- All of a token as static text depicts its symbols. -/
theorem depicts_static (width : Width) (p : ReadPart) :
    List.Forall₂ (Item.Depicts width) (p.items width (.static ⟨0, p.piece.symbols.length⟩))
      (p.piece.symbols.map .byte) := by
  show List.Forall₂ _ ((Span.slice ⟨0, p.piece.symbols.length⟩ p.piece.symbols).map Item.ofSymbol) _
  rw [Span.slice_all]
  induction p.piece.symbols with
  | nil => exact .nil
  | cons s symbols ih => exact .cons (.static s) ih

/-- A token without wildcards is read as what it is in a message. -/
theorem exists_splits_of_exact (hexact : p.piece.symbols.isExact = true) (hne : p.piece.symbols ≠ []) :
    ∃ segments, p.piece.Splits .standard precededBy segments ∧
      List.Forall₂ (Item.Depicts width) (segments.flatMap (p.items width))
        (Schema.standard.runFields Symbol.standIn precededBy p.piece.symbols) := by
  have hsymbols : p.piece.symbols = p.piece.symbols.literals.map .literal := (Pattern.map_literals hexact).symm
  generalize p.piece.symbols.literals = run at hsymbols
  have hrun : run ≠ [] := by
    rintro rfl
    exact hne hsymbols
  refine ⟨[segmentAfter .standard precededBy run], ⟨[], List.nil_sublist _, ?_⟩, ?_⟩
  · rw [← List.forall₂_map_right_iff (f := Cut.alternatives Schema.standard p.piece)
      (R := fun segment choices => segment ∈ choices), alternatives_literals hsymbols hrun]
    exact .cons (List.mem_singleton_self _) .nil
  · have hbytes : p.piece.symbols.map Symbol.standIn = run := by
      rw [hsymbols, Pattern.map_standIn_literals]
    have hlength : run.length = p.piece.symbols.length := by
      rw [hsymbols, List.length_map]
    rw [List.flatMap_singleton, segmentAfter]
    by_cases hvariable : isVariableAfter .standard precededBy run = true
    · rw [if_pos hvariable, Schema.runFields_of_variable hne (by rwa [hbytes])]
      refine .cons (.value _ ?_) .nil
      have hslice := slice_literals hsymbols
      rw [bytes_value (by rw [hslice]; exact isExact_literals run), hslice, literals_map_literal, hbytes]
    · rw [if_neg hvariable, Schema.runFields_of_static (by rwa [hbytes, ← Bool.not_eq_true]), hlength]
      exact depicts_static width p

/-- A token of wildcards alone is read as static text. -/
theorem exists_splits_of_wild (hwild : ∀ s ∈ p.piece.symbols, s.isWildcard = true) (hne : p.piece.symbols ≠ []) :
    ∃ segments, p.piece.Splits .standard precededBy segments ∧
      List.Forall₂ (Item.Depicts width) (segments.flatMap (p.items width))
        (Schema.standard.runFields Symbol.standIn precededBy p.piece.symbols) := by
  have hliteral : ∀ s ∈ p.piece.symbols, s.literal? = none := fun s hs => Option.isNone_iff_eq_none.mp (hwild s hs)
  refine ⟨[.static ⟨0, p.piece.symbols.length⟩], ⟨[], List.nil_sublist _, ?_⟩, ?_⟩
  · rw [cuts, cutsFrom, cutBetween, if_pos (List.length_pos_iff.mpr hne)]
    refine .cons ?_ .nil
    have hslice : p.piece.slice ⟨0, p.piece.symbols.length⟩ = p.piece.symbols := Span.slice_all _
    have hexact : ¬ p.piece.symbols.isExact = true := by
      intro hexact
      obtain ⟨s, hs⟩ := List.exists_mem_of_ne_nil _ hne
      have hs' := List.all_eq_true.mp hexact s hs
      rw [hwild s hs] at hs'
      cases hs'
    have hliterals : p.piece.symbols.literals = [] := List.filterMap_eq_nil_iff.mpr hliteral
    have hleading : p.piece.symbols.leading = [] :=
      List.filterMap_eq_nil_iff.mpr fun s hs => hliteral s ((List.takeWhile_sublist _).subset hs)
    simp only [Cut.alternatives, hslice]
    rw [if_neg hexact]
    apply static_mem_wildcardAlternatives
    rw [hliterals, hleading]
    simp [Schema.standard, Schema.isStandardDefinite]
  · have hstatic : isVariableAfter .standard precededBy (p.piece.symbols.map Symbol.standIn) = false := by
      apply Schema.standard_static
      intro b hb
      obtain ⟨s, hs, rfl⟩ := List.mem_map.mp hb
      cases s with
      | star => exact ⟨rfl, rfl, rfl⟩
      | any => exact ⟨rfl, rfl, rfl⟩
      | literal c => cases hliteral _ hs
    rw [List.flatMap_singleton, Schema.runFields_of_static hstatic]
    exact depicts_static width p

end

/-! ## Queries -/

/-- **There is a reading in which wildcards are static text**, if the wildcards of the query stand apart. -/
theorem exists_static_choice {width : Width} {limit : Nat} {precededBy : Option UInt8} {symbols : Pattern}
    {parts : List Part} (hparted : Parted .standard precededBy symbols parts) (happart : SetApart .standard symbols)
    {ps : List ReadPart} (hreads : List.Forall₂ (ReadPart.Reads .standard limit) parts ps) :
    ∃ choice, List.Forall₂ (Part.Splits .standard) parts choice ∧
      List.Forall₂ (Item.Depicts width) (spread width ps choice)
        (Schema.standard.fieldsFrom Symbol.standIn precededBy [] symbols) := by
  induction hparted generalizing ps with
  | nil =>
    cases hreads
    exact ⟨[], .nil, .nil⟩
  | @token precededBy piece rest parts hne hmembers hrest _ ih =>
    cases hreads with
    | @cons _ p _ ps hread hreads =>
      obtain rfl : p.piece = piece := hread.1
      obtain ⟨choice, hchoice, hlater⟩ := ih happart.right_of_append hreads
      have hends : ∀ d, rest.head? = some d → Schema.standard.isDelimiter d.standIn = true := by
        intro d hd
        obtain ⟨b, rfl, hb⟩ := eq_literal_of_not_inToken (hrest d hd)
        exact hb
      have hrun : ∀ s ∈ p.piece.symbols, Schema.standard.isDelimiter s.standIn = false := by
        intro s hs
        cases s with
        | star => rfl
        | any => rfl
        | literal b => exact (Bool.not_eq_true' _).mp (hmembers _ hs)
      obtain ⟨segments, hsplits, hdepicts⟩ : ∃ segments, p.piece.Splits .standard precededBy segments ∧
          List.Forall₂ (Item.Depicts width) (segments.flatMap (p.items width))
            (Schema.standard.runFields Symbol.standIn precededBy p.piece.symbols) := by
        rcases SetApart.exact_or_wild happart.left_of_append hmembers with hexact | hwild
        · exact exists_splits_of_exact hexact hne
        · exact exists_splits_of_wild hwild hne
      refine ⟨segments :: choice, .cons hsplits hchoice, ?_⟩
      rw [Schema.fieldsFrom_append_of_ends hends (p.piece.symbols.getLast?.bind Symbol.literal?),
        Schema.fieldsFrom_of_members hrun, List.nil_append]
      exact List.rel_append hdepicts hlater
  | @gap precededBy piece rest parts hne hmembers _ _ ih =>
    cases hreads with
    | @cons _ p _ ps hread hreads =>
      obtain rfl : p.piece = piece := hread.1
      obtain ⟨choice, hchoice, hlater⟩ := ih happart.right_of_append hreads
      have hdelimiters : ∀ s ∈ p.piece.symbols, Schema.standard.isDelimiter s.standIn = true := by
        intro s hs
        obtain ⟨b, rfl, hb⟩ := eq_literal_of_not_inToken (hmembers s hs)
        exact hb
      have hlast : (p.piece.symbols.getLast?.map Symbol.standIn).or precededBy =
          p.piece.symbols.getLast?.bind Symbol.literal? := by
        have hmem := List.getLast_mem hne
        rw [List.getLast?_eq_some_getLast hne]
        generalize p.piece.symbols.getLast hne = s at hmem
        obtain ⟨b, rfl, -⟩ := eq_literal_of_not_inToken (hmembers s hmem)
        rfl
      refine ⟨[.static ⟨0, p.piece.symbols.length⟩] :: choice, .cons rfl hchoice, ?_⟩
      rw [Schema.fieldsFrom_delimiters hdelimiters, hlast, spread, List.flatMap_singleton]
      exact List.rel_append (depicts_static width p) hlater

end Query

end LogCodec
