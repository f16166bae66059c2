import LogCodec.Proofs.Splitting

/-!
# `LogCodec.Proofs.Completeness`: a query is found where it matches

The gaps of a query are delimiters of the text, so the text is cut at them into the parts that the tokens of the query
match.  Each token fits its part, and the segments chosen for all of them make a subquery that covers the message.
Together with soundness this is exact: a message has a text that matches the query if and only if some subquery aligns
with it.

## Contents
- `exists_choice`, for the parts of a query, and `exists_subquery`, for the query.
- `exists_alignsWith`, and `isMatch_normalize_iff_exists_alignsWith`, the result.
-/

namespace LogCodec

theorem Schema.map_fields_byte (schema : Schema) (marks : List Mark) :
    (schema.fields Mark.byte marks).map (Field.map Mark.byte) = schema.fields id (marks.map Mark.byte) :=
  map_fieldsFrom id Mark.byte (fun _ => rfl) marks

/-- A cover of the fields of a marked text is one of its atoms, if every byte of static text that a `?` may stand for
is free among the atoms. -/
theorem Item.covers_atoms {width : Width} {free : UInt8 → Prop} {items : List Item} {fields : List (Field Mark)}
    (hfree : ∀ m, .byte m ∈ fields → m.free = true → free m.byte) (h : Covers (fieldExtent width) items fields) :
    Covers (extent width free) items ((fields.map (Field.map Mark.byte)).map (Field.atom width)) := by
  have hsingle : items.flatMap (fun item => [item]) = items := List.flatMap_singleton' items
  rw [← hsingle, List.map_map, List.map_eq_flatMap]
  refine h.flatMap (fun item _ hpart as => ?_) (fun item _ accepts hmember f hf haccepts => ?_)
  · cases item with
    | star => exact covers_part rfl as
    | any => cases hpart
    | literal b => cases hpart
    | «variable» query => cases hpart
  · cases item with
    | star => cases hmember
    | any =>
      cases hmember
      obtain ⟨m, rfl, hm⟩ := haccepts
      exact ⟨.byte m.byte, [], rfl, ⟨m.byte, rfl, hfree m hf hm⟩, rfl⟩
    | literal b =>
      cases hmember
      obtain ⟨m, rfl, rfl⟩ := haccepts
      exact ⟨.byte m.byte, [], rfl, rfl, rfl⟩
    | «variable» query =>
      cases hmember
      obtain ⟨run, rfl, hmeets⟩ := haccepts
      exact ⟨.ofToken width (run.map Mark.byte), [], rfl, hmeets, rfl⟩

namespace Query

section

variable {schema : Schema} {width : Width} {limit : Nat} {query : Bytes} {d : Decomposition} {marks : List Mark}

/-- A symbol of a gap is a delimiter. -/
theorem eq_literal_of_not_inToken {s : Symbol} (h : inToken schema s = false) :
    ∃ b, s = .literal b ∧ schema.isDelimiter b = true := by
  cases s with
  | star => cases h
  | any => cases h
  | literal b => exact ⟨b, rfl, (Bool.not_eq_false' _).mp h⟩

/-- The marks that a gap matches are delimiters, and the last of them is the byte before what follows. -/
theorem delimiters_of_gap {symbols : Pattern} (hne : symbols ≠ [])
    (hmembers : ∀ s ∈ symbols, inToken schema s = false) (hcovers : Covers Pattern.markExtent symbols marks) :
    (∀ m ∈ marks, schema.isDelimiter m.byte = true) ∧
      ∀ before, (marks.getLast?.map Mark.byte).or before = symbols.getLast?.bind Symbol.literal? := by
  have hexact : symbols.isExact = true := by
    refine List.all_eq_true.mpr fun s hs => ?_
    obtain ⟨b, rfl, -⟩ := eq_literal_of_not_inToken (hmembers s hs)
    rfl
  have hbytes := bytes_of_isExact hexact hcovers
  have hsymbols := Pattern.map_literals hexact
  constructor
  · intro m hm
    have hmem : Symbol.literal m.byte ∈ symbols := by
      rw [← hsymbols, ← hbytes]
      exact List.mem_map_of_mem (List.mem_map_of_mem hm)
    obtain ⟨b, hb, hdelimiter⟩ := eq_literal_of_not_inToken (hmembers _ hmem)
    cases hb
    exact hdelimiter
  · intro before
    have hliterals : symbols.literals ≠ [] := by
      intro hnil
      rw [← hsymbols, hnil] at hne
      exact hne rfl
    rw [← List.getLast?_map, hbytes, ← hsymbols, List.getLast?_map, Pattern.map_literals hexact,
      List.getLast?_eq_some_getLast hliterals]
    rfl

/-- What follows a token starts with a delimiter, if with anything. -/
theorem isDelimiter_of_head {symbols : Pattern} (hrest : ∀ s, symbols.head? = some s → inToken schema s = false)
    (hcovers : Covers Pattern.markExtent symbols marks) :
    ∀ m, marks.head? = some m → schema.isDelimiter m.byte = true := by
  intro m hm
  cases symbols with
  | nil =>
    rw [covers_nil] at hcovers
    rw [hcovers] at hm
    cases hm
  | cons s symbols =>
    obtain ⟨b, rfl, hdelimiter⟩ := eq_literal_of_not_inToken (hrest s rfl)
    obtain ⟨first, rest, rfl, rfl, -⟩ := hcovers
    cases hm
    exact hdelimiter

/-- **The parts of a query fit every text that the query matches.** -/
theorem exists_choice (hsound : schema.Sound) {precededBy : Option UInt8} {symbols : Pattern} {parts : List Part}
    (hparted : Parted schema precededBy symbols parts) {ps : List ReadPart}
    (hreads : List.Forall₂ (ReadPart.Reads schema limit) parts ps) (hcovers : Covers Pattern.markExtent symbols marks) :
    ∃ choice, List.Forall₂ (Part.Splits schema) parts choice ∧
      Covers (Item.fieldExtent width) (spread width ps choice) (schema.fieldsFrom Mark.byte precededBy [] marks) := by
  -- The context of a part is the byte before it, which is known from the part before if that is a gap.
  induction hparted generalizing ps marks with
  | nil =>
    cases hreads
    rw [covers_nil] at hcovers
    rw [hcovers]
    exact ⟨[], .nil, rfl⟩
  | @token precededBy piece rest parts hne hmembers hrest _ ih =>
    obtain ⟨front, back, rfl, hfront, hback⟩ := covers_append.mp hcovers
    cases hreads with
    | @cons _ p _ ps hread hreads =>
      obtain ⟨choice, hchoice, hlater⟩ := ih hreads hback
      have hpiece : p.piece = piece := hread.1
      subst hpiece
      obtain ⟨segments, hsegments, hfields⟩ :
          ∃ segments, p.piece.Splits schema precededBy segments ∧
            Covers (Item.fieldExtent width) (segments.flatMap (p.items width)) _ :=
        exists_splits hsound hmembers hfront
      refine ⟨segments :: choice, .cons hsegments hchoice, ?_⟩
      rw [Schema.fieldsFrom_append_of_ends (isDelimiter_of_head hrest hback)]
      exact hfields.append hlater
  | @gap precededBy piece rest parts hne hmembers hrest _ ih =>
    obtain ⟨front, back, rfl, hfront, hback⟩ := covers_append.mp hcovers
    cases hreads with
    | @cons _ p _ ps hread hreads =>
      obtain ⟨choice, hchoice, hlater⟩ := ih hreads hback
      have hpiece : p.piece = piece := hread.1
      subst hpiece
      obtain ⟨hdelimiters, hlast⟩ := delimiters_of_gap hne hmembers hfront
      refine ⟨[.static ⟨0, p.piece.symbols.length⟩] :: choice, .cons rfl hchoice, ?_⟩
      rw [Schema.fieldsFrom_delimiters hdelimiters, hlast, spread, List.flatMap_singleton]
      refine Covers.append ?_ hlater
      show Covers _ ((Span.slice ⟨0, p.piece.symbols.length⟩ p.piece.symbols).map Item.ofSymbol) _
      rw [Span.slice_all, covers_map]
      exact Item.covers_static hfront

/-- A query that matches a marked text has a subquery that covers its fields. -/
theorem exists_subquery (hsound : schema.Sound) (hd : decompose schema width limit query = .ok d)
    (hcovers : Covers Pattern.markExtent (Pattern.ofQuery query) marks) :
    ∃ s ∈ d.subqueries, Covers (Item.fieldExtent width) s.items (schema.fields Mark.byte marks) := by
  obtain ⟨-, rfl, hreads⟩ := decompose_eq_ok hd
  have hparted := parted_partsFrom schema 0 none (Pattern.ofQuery query)
  obtain ⟨choice, hchoice, hfields⟩ := exists_choice hsound hparted hreads hcovers
  refine ⟨_, (mem_subqueries hreads).mpr ⟨choice, hchoice, rfl⟩, ?_⟩
  exact (coverAlike_subqueryOf rfl hreads hparted.symbols_ne_nil hchoice _).mpr hfields

end

/-- **What matches the query a subquery finds.** -/
theorem exists_alignsWith {schema : Schema} (hsound : schema.Sound) {width : Width} {limit : Nat} {query text : Bytes}
    {d : Decomposition} (hd : decompose schema width limit query = .ok d)
    (hmatch : Wildcard.isMatch (Wildcard.normalize query) text = true) :
    ∃ s ∈ d.subqueries, s.AlignsWith width ((schema.fields id text).map (Field.atom width)) := by
  have hcovers := Pattern.covers_of_matches (Wildcard.isMatch_normalize_iff.mp hmatch)
  obtain ⟨s, hs, hfields⟩ := exists_subquery hsound hd hcovers
  refine ⟨s, hs, Subquery.alignsWith_iff.mpr ?_⟩
  have hatoms : Covers (Item.extent width fun _ => True) s.items _ := Item.covers_atoms (fun _ _ _ => trivial) hfields
  rwa [Schema.map_fields_byte, Mark.map_byte_free] at hatoms

/-- **Decomposition is exact.**  The normal form of a query matches a message if and only if some subquery of the query
aligns with the encoded message. -/
theorem isMatch_normalize_iff_exists_alignsWith {width : Width} {limit : Nat} {query text : Bytes} {d : Decomposition}
    {e : EncodedMessage} (hd : decompose .standard width limit query = .ok d)
    (he : EncodedMessage.encode width Schema.standard.locator text = .ok e) :
    Wildcard.isMatch (Wildcard.normalize query) text = true ↔ ∃ s ∈ d.subqueries, s.AlignsWith width e.atoms := by
  obtain ⟨hatoms, htext⟩ := EncodedMessage.atoms_of_encode Schema.standard_isLocal he
  constructor
  · intro hmatch
    rw [hatoms]
    exact exists_alignsWith Schema.standard_sound hd hmatch
  · rintro ⟨s, hs, halign⟩
    exact matches_of_alignsWith hd hs halign htext

/-- The query `a?1` and the text `a 1`, where the wildcard stands for the delimiter. -/
theorem isMatch_normalize_iff_exists_alignsWith_delimiter :
    ∃ d, decompose .standard .eight 100 [0x61, 0x3F, 0x31] = .ok d ∧
      ∃ e, EncodedMessage.encode .eight Schema.standard.locator [0x61, 0x20, 0x31] = .ok e ∧
        ∃ s ∈ d.subqueries, s.AlignsWith .eight e.atoms := by
  have hok : (decompose .standard .eight 100 [0x61, 0x3F, 0x31]).isOk = true := by decide +kernel
  have he : EncodedMessage.encode .eight Schema.standard.locator [0x61, 0x20, 0x31] =
      .ok (.ofAtoms [.byte 0x61, .byte 0x20, .number .integer 1]) := by
    rw [EncodedMessage.encode_eq Schema.standard_isLocal, if_neg (by decide)]
    decide
  cases hd : decompose .standard .eight 100 [0x61, 0x3F, 0x31] with
  | error failure =>
    rw [hd] at hok
    cases hok
  | ok d => exact ⟨d, rfl, _, he, (isMatch_normalize_iff_exists_alignsWith hd he).mp (by decide)⟩

end Query

end LogCodec
