import LogCodec.Proofs.Fields
import LogCodec.Proofs.Soundness

/-!
# `LogCodec.Proofs.ExactQuery`: a query without wildcards is encoded like a message

A query that quotes a text has one subquery, and this subquery shows the encoded text: it has a literal for every byte
of static text, and for every variable a condition that no other variable meets.  Queries are cut into parts and
messages are walked through with a cursor, but where there are no wildcards both single out the same variables, because
a part of a query knows the byte before it.

## Contents
- `Item.Shows`, for one atom, and what a subquery is like whose items show the atoms of a message.
- **Parts.** `shows_spread`: the segments of a text without wildcards show its fields.
- **One reading.** `readings_eq_singleton`, and `decompose_quote`, the result.
-/

namespace LogCodec

/-! ## Items that show atoms -/

/-- The item stands for the atom and for no other. -/
inductive Item.Shows : Item → Atom → Prop where
  | byte (b : UInt8) : Shows (.literal b) (.byte b)
  | value (text : Excerpt) : Shows (.variable (.value text)) (.value text.bytes)
  | number (kind : NumberKind) (word : Int64) : Shows (.variable (.number kind word)) (.number kind word)

section

variable {items : List Item} {as : List Atom}

/-- The pattern for the logtype is the logtype. -/
theorem Item.symbols_of_shows (h : List.Forall₂ Item.Shows items as) :
    items.flatMap Item.symbols = (as.flatMap Atom.wire).map .literal := by
  induction h with
  | nil => rfl
  | cons hshows _ ih =>
    rw [List.flatMap_cons, List.flatMap_cons, List.map_append, ih]
    cases hshows <;> rfl

namespace Subquery

variable {s : Subquery}

theorem hasWildcards_of_shows (h : List.Forall₂ Item.Shows s.items as) : s.hasWildcards = false := by
  obtain ⟨items⟩ := s
  replace h : List.Forall₂ Item.Shows items as := h
  show items.any Item.isWildcard = false
  induction h with
  | nil => rfl
  | cons hshows _ ih =>
    rw [List.any_cons, ih]
    cases hshows <;> rfl

/-- Every variable has a condition of its own, and no condition is a pattern. -/
theorem variableQueries_of_shows (h : List.Forall₂ Item.Shows s.items as) :
    s.patterns = [] ∧ s.values.map Excerpt.bytes = as.filterMap Atom.value? ∧
      s.numbers = (as.filterMap Atom.packed?).map Prod.snd := by
  obtain ⟨items⟩ := s
  replace h : List.Forall₂ Item.Shows items as := h
  induction h with
  | nil => exact ⟨rfl, rfl, rfl⟩
  | @cons item a items as hshows _ ih =>
    obtain ⟨hpatterns, hvalues, hnumbers⟩ := ih
    cases hshows with
    | byte b => exact ⟨hpatterns, hvalues, hnumbers⟩
    | value text => exact ⟨hpatterns, congrArg (text.bytes :: ·) hvalues, hnumbers⟩
    | number kind word => exact ⟨hpatterns, hvalues, congrArg (word :: ·) hnumbers⟩

end Subquery

end

namespace Query

/-- The condition for a value shows the variable that the value is encoded as. -/
theorem shows_exactQuery (width : Width) (value : Excerpt) :
    (Item.variable (exactQuery width value)).Shows (.ofToken width value.bytes) := by
  unfold exactQuery Atom.ofToken
  cases width.pack value.bytes with
  | none => exact .value value
  | some packed => exact .number packed.1 packed.2

/-! ## Parts -/

theorem isExact_literals (text : Bytes) : Pattern.isExact (text.map .literal) = true := by
  rw [Pattern.isExact, List.all_map]
  exact List.all_eq_true.mpr fun _ _ => rfl

theorem literals_map_literal (text : Bytes) : Pattern.literals (text.map .literal) = text := by
  rw [Pattern.literals, List.filterMap_map]
  exact List.filterMap_some

/-- Without wildcards there is nothing to split. -/
theorem splitPointsFrom_literals (index : Nat) (text : Bytes) : splitPointsFrom index (text.map .literal) = [] := by
  induction text generalizing index with
  | nil => rfl
  | cons b text ih => exact ih (index + 1)

section

variable {schema : Schema} {width : Width} {limit : Nat} {precededBy : Option UInt8} {run text : Bytes} {piece : Piece}

/-- What a token without wildcards is read as: a variable if the schema says so, and otherwise static text. -/
def segmentAfter (schema : Schema) (precededBy : Option UInt8) (run : Bytes) : Segment :=
  if isVariableAfter schema precededBy run then .exact ⟨0, run.length⟩ else .static ⟨0, run.length⟩

/-- A piece without wildcards behind a known byte has one alternative. -/
theorem alternatives_known (hslice : piece.slice ⟨0, run.length⟩ = run.map .literal) :
    (Cut.piece ⟨0, run.length⟩ (.known precededBy)).alternatives schema piece =
      [segmentAfter schema precededBy run] := by
  simp only [Cut.alternatives, hslice]
  rw [if_pos (isExact_literals run), literals_map_literal, exactAlternatives, segmentAfter]
  split <;> rfl

theorem slice_literals (hsymbols : piece.symbols = run.map .literal) :
    piece.slice ⟨0, run.length⟩ = run.map .literal := by
  rw [Piece.slice, hsymbols, ← List.length_map Symbol.literal, Span.slice_all]

/-- A token without wildcards is cut in one way. -/
theorem alternatives_literals (hsymbols : piece.symbols = run.map .literal) (hne : run ≠ []) :
    (cuts piece.symbols.length precededBy []).map (Cut.alternatives schema piece) =
      [[segmentAfter schema precededBy run]] := by
  have hlength : piece.symbols.length = run.length := by rw [hsymbols, List.length_map]
  rw [cuts, cutsFrom, cutBetween, hlength, if_pos (List.length_pos_iff.mpr hne), List.map_singleton,
    alternatives_known (slice_literals hsymbols)]

theorem splits_literals (hsymbols : piece.symbols = run.map .literal) (hne : run ≠ []) {segments : List Segment}
    (h : piece.Splits schema precededBy segments) : segments = [segmentAfter schema precededBy run] := by
  obtain ⟨selected, hselected, hall⟩ := h
  rw [hsymbols, splitPoints, splitPointsFrom_literals, List.sublist_nil] at hselected
  subst hselected
  rw [← List.forall₂_map_right_iff (f := Cut.alternatives schema piece) (R := fun segment choices => segment ∈ choices),
    alternatives_literals hsymbols hne] at hall
  cases hall with
  | cons hsegment hrest =>
    cases hrest
    rw [List.mem_singleton.mp hsegment]

/-- Static text without wildcards shows its bytes. -/
theorem shows_literals (width : Width) (text : Bytes) :
    List.Forall₂ Item.Shows ((text.map Symbol.literal).map Item.ofSymbol)
      ((text.map Field.byte).map (Field.atom width)) := by
  induction text with
  | nil => exact .nil
  | cons b text ih => exact .cons (.byte b) ih

/-- A piece without wildcards shows what it is encoded as. -/
theorem shows_segmentAfter {p : ReadPart} (hslice : p.piece.slice ⟨0, run.length⟩ = run.map .literal) (hne : run ≠ []) :
    List.Forall₂ Item.Shows (p.items width (segmentAfter schema precededBy run))
      ((schema.runFields id precededBy run).map (Field.atom width)) := by
  have hempty : run.isEmpty = false := List.isEmpty_eq_false_iff.mpr hne
  rw [segmentAfter, Schema.runFields, hempty, List.map_id]
  split
  · have hshows := shows_exactQuery width (p.piece.value p.filled p.appended ⟨0, run.length⟩)
    rw [bytes_value (by rw [hslice]; exact isExact_literals run), hslice, literals_map_literal] at hshows
    exact .cons hshows .nil
  · have hstatic := shows_literals width run
    rw [← hslice] at hstatic
    exact hstatic

/-- A token without wildcards shows its fields, whatever it is split into. -/
theorem shows_token {p : ReadPart} (hsymbols : p.piece.symbols = run.map .literal) (hne : p.piece.symbols ≠ [])
    {segments : List Segment} (hsplits : p.piece.Splits schema precededBy segments) :
    List.Forall₂ Item.Shows (segments.flatMap (p.items width))
      ((schema.runFields id precededBy run).map (Field.atom width)) := by
  have hrun : run ≠ [] := by
    rintro rfl
    exact hne hsymbols
  rw [splits_literals hsymbols hrun hsplits, List.flatMap_singleton]
  exact shows_segmentAfter (slice_literals hsymbols) hrun

/-- A gap shows its bytes. -/
theorem shows_gap {p : ReadPart} (hsymbols : p.piece.symbols = run.map .literal) {segments : List Segment}
    (hsplits : (Part.gap p.piece).Splits schema segments) :
    List.Forall₂ Item.Shows (segments.flatMap (p.items width)) ((run.map Field.byte).map (Field.atom width)) := by
  rw [Part.Splits] at hsplits
  rw [hsplits, List.flatMap_singleton]
  show List.Forall₂ _ ((Span.slice ⟨0, p.piece.symbols.length⟩ p.piece.symbols).map Item.ofSymbol) _
  rw [Span.slice_all, hsymbols]
  exact shows_literals width run

/-- The bytes of a token without wildcards go on with a run. -/
theorem not_isDelimiter_of_inToken (h : ∀ s ∈ run.map Symbol.literal, inToken schema s = true) :
    ∀ b ∈ run, schema.isDelimiter b = false := fun b hb =>
  (Bool.not_eq_true' _).mp (h (.literal b) (List.mem_map_of_mem hb))

/-- The fields of a text behind the bytes of a gap. -/
theorem fieldsFrom_gap {symbols : Pattern} (hsymbols : symbols = run.map .literal) (hne : symbols ≠ [])
    (hmembers : ∀ s ∈ symbols, inToken schema s = false) (later : Bytes) :
    schema.fieldsFrom id precededBy [] (run ++ later) =
      run.map .byte ++ schema.fieldsFrom id (symbols.getLast?.bind Symbol.literal?) [] later := by
  subst hsymbols
  have hrun : run ≠ [] := by
    rintro rfl
    exact hne rfl
  have hdelimiters : ∀ b ∈ run, schema.isDelimiter (id b) = true := fun b hb =>
    (Bool.not_eq_false' _).mp (hmembers (.literal b) (List.mem_map_of_mem hb))
  have hlast : (run.getLast?.map id).or precededBy = (run.map Symbol.literal).getLast?.bind Symbol.literal? := by
    rw [List.getLast?_map, List.getLast?_eq_some_getLast hrun]
    rfl
  rw [Schema.fieldsFrom_delimiters hdelimiters, hlast]

/-- The fields of a text behind the bytes of a token. -/
theorem fieldsFrom_token (hmembers : ∀ s ∈ run.map Symbol.literal, inToken schema s = true) {later : Bytes}
    (hends : ∀ b, later.head? = some b → schema.isDelimiter b = true) (other : Option UInt8) :
    schema.fieldsFrom id precededBy [] (run ++ later) =
      schema.runFields id precededBy run ++ schema.fieldsFrom id other [] later := by
  have hmember : ∀ b ∈ run, schema.isDelimiter (id b) = false := not_isDelimiter_of_inToken hmembers
  have hdelimiter : ∀ b, later.head? = some b → schema.isDelimiter (id b) = true := hends
  rw [Schema.fieldsFrom_append_of_ends hdelimiter other, Schema.fieldsFrom_of_members hmember, List.nil_append]

/-- **A text without wildcards shows its fields**, whatever segments are chosen for its parts. -/
theorem shows_spread {symbols : Pattern} {parts : List Part} (hparted : Parted schema precededBy symbols parts)
    (hsymbols : symbols = text.map .literal) {ps : List ReadPart}
    (hreads : List.Forall₂ (ReadPart.Reads schema limit) parts ps) {choice : List (List Segment)}
    (hchoice : List.Forall₂ (Part.Splits schema) parts choice) :
    List.Forall₂ Item.Shows (spread width ps choice)
      ((schema.fieldsFrom id precededBy [] text).map (Field.atom width)) := by
  -- The byte before a part is the last one of the part before it, in the query as in the text.
  induction hparted generalizing text ps choice with
  | nil =>
    cases hreads
    rw [List.map_eq_nil_iff.mp hsymbols.symm]
    exact .nil
  | @token precededBy piece rest parts hne hmembers hrest _ ih =>
    obtain ⟨run, later, rfl, hrun, hlater⟩ := List.map_eq_append_iff.mp hsymbols.symm
    cases hreads with
    | @cons _ p _ ps hread hreads =>
      cases hchoice with
      | cons hsplits hchoice =>
        obtain rfl : p.piece = piece := hread.1
        have hends : ∀ d, later.head? = some d → schema.isDelimiter d = true := by
          intro d hd
          have hhead := hrest (.literal d) (by rw [← hlater, List.head?_map, hd]; rfl)
          exact (Bool.not_eq_false' _).mp hhead
        rw [fieldsFrom_token (hrun ▸ hmembers) hends (p.piece.symbols.getLast?.bind Symbol.literal?), List.map_append]
        exact List.rel_append (shows_token hrun.symm hne hsplits) (ih hlater.symm hreads hchoice)
  | @gap precededBy piece rest parts hne hmembers hrest _ ih =>
    obtain ⟨run, later, rfl, hrun, hlater⟩ := List.map_eq_append_iff.mp hsymbols.symm
    cases hreads with
    | @cons _ p _ ps hread hreads =>
      cases hchoice with
      | cons hsplits hchoice =>
        obtain rfl : p.piece = piece := hread.1
        rw [fieldsFrom_gap hrun.symm hne hmembers, List.map_append]
        exact List.rel_append (shows_gap hrun.symm hsplits) (ih hlater.symm hreads hchoice)

/-! ## One reading -/

theorem joined_singleton (segment : Segment) : joined [segment] = [segment] := by cases segment <;> rfl

/-- A token without wildcards has one reading. -/
theorem readings_literals (hsymbols : piece.symbols = run.map .literal) (hne : run ≠ []) (hlimit : 1 ≤ limit) :
    piece.readings schema limit precededBy = some [[segmentAfter schema precededBy run]] := by
  have hpoints : splitPoints piece.symbols = [] := by rw [hsymbols, splitPoints, splitPointsFrom_literals]
  have hreadings : piece.readingsAt schema limit precededBy [] = some [[segmentAfter schema precededBy run]] := by
    have hwithin : productsWithin limit 1 ([[segmentAfter schema precededBy run]].map List.length) = true := by
      simpa [productsWithin] using hlimit
    rw [Piece.readingsAt, alternatives_literals hsymbols hne]
    simp only [hwithin, if_true]
    exact congrArg (fun reading => some [reading]) (joined_singleton _)
  have hadded : ∀ reading, (Roster.empty.addAll [reading] : Roster (id : Reading → List Segment)).size = 1 ∧
      (Roster.empty.addAll [reading] : Roster (id : Reading → List Segment)).toList = [reading] :=
    fun _ => ⟨rfl, rfl⟩
  have hroom : ¬ limit < 1 := Nat.not_lt_of_le hlimit
  have hpow : Nat.pow 2 0 = 1 := rfl
  rw [Piece.readings, hpoints]
  simp only [selections, List.length_nil, List.foldlM_cons, List.foldlM_nil, hreadings, hpow, if_neg hroom,
    Option.bind_eq_bind, Option.bind_some, (hadded _).1, Option.pure_def, (hadded _).2]

/-- A part without wildcards has one reading. -/
theorem exists_reading {part : Part} (hexact : part.piece.symbols.isExact = true) (hne : part.piece.symbols ≠ [])
    (hlimit : 1 ≤ limit) : ∃ reading, part.readings schema limit = some [reading] := by
  cases part with
  | gap piece => exact ⟨_, rfl⟩
  | token piece precededBy =>
    have hsymbols := Pattern.map_literals hexact
    have hliterals : piece.symbols.literals ≠ [] := by
      intro hnil
      refine hne ?_
      rw [← hsymbols]
      show (piece.symbols.literals).map Symbol.literal = []
      rw [hnil]
      rfl
    exact ⟨_, readings_literals hsymbols.symm hliterals hlimit⟩

/-- Parts that have one reading each have one combination of readings. -/
theorem exists_readParts {parts : List Part}
    (h : ∀ part ∈ parts, ∃ reading, part.readings schema limit = some [reading]) (filled : Nat) :
    ∃ ps, readParts schema limit filled parts = some ps ∧ combinationCount (ps.map ReadPart.readings) = 1 := by
  induction parts generalizing filled with
  | nil => exact ⟨[], rfl, rfl⟩
  | cons part parts ih =>
    obtain ⟨⟨reading, hreading⟩, hlater⟩ := List.forall_mem_cons.mp h
    obtain ⟨ps, hps, hcount⟩ := ih hlater (filled + (part.piece.values (part.appended schema)).length)
    refine ⟨⟨part.piece, [reading], filled, part.appended schema⟩ :: ps, ?_, ?_⟩
    · rw [readParts, hreading]
      simp only [Option.bind_eq_bind, Option.bind_some, hps]
      rfl
    · show 1 * combinationCount (ps.map ReadPart.readings) = 1
      rw [hcount]

/-- A query without wildcards has one subquery. -/
theorem exists_decompose {query : Bytes} (hquery : Pattern.ofQuery query = text.map .literal) (hne : text ≠ [])
    (hlimit : 1 ≤ limit) : ∃ d s, decompose schema width limit query = .ok d ∧ d.subqueries = [s] := by
  have hparted := parted_partsFrom schema 0 none (Pattern.ofQuery query)
  have hreading : ∀ part ∈ parts schema (Pattern.ofQuery query),
      ∃ reading, part.readings schema limit = some [reading] := by
    intro part hpart
    refine exists_reading (List.all_eq_true.mpr fun s hs => ?_) (hparted.symbols_ne_nil part hpart) hlimit
    have hmem : s ∈ text.map Symbol.literal := by
      rw [← hquery, ← hparted.symbols_eq]
      exact List.mem_flatMap.mpr ⟨part, hpart, hs⟩
    exact List.all_eq_true.mp (isExact_literals text) s hmem
  obtain ⟨ps, hps, hcount⟩ := exists_readParts hreading (Pattern.ofQuery query).spell.length
  have hnil : Pattern.ofQuery query ≠ [] := by
    rw [hquery]
    exact fun h => hne (List.map_eq_nil_iff.mp h)
  -- One reading for each part is one combination, and there is room for that.
  have hroom : ¬ limit < Decomposition.count ⟨width, ps⟩ := by
    show ¬ limit < combinationCount (ps.map ReadPart.readings)
    rw [hcount]
    exact Nat.not_lt_of_le hlimit
  have hlength : (Decomposition.subqueries ⟨width, ps⟩).length = 1 := by
    rw [Decomposition.length_subqueries]
    exact hcount
  obtain ⟨s, hs⟩ := List.length_eq_one_iff.mp hlength
  refine ⟨⟨width, ps⟩, s, ?_, hs⟩
  rw [decompose]
  simp only [if_neg hnil, hps, if_neg hroom]

end

end Query

/-! ## Quoting -/

namespace Pattern

theorem dropDangling_spell_append (s : Symbol) (rest : Bytes) :
    dropDangling (s.spell ++ rest) = s.spell ++ dropDangling rest := by
  rcases s.spell_cases with ⟨b, hb, -, hspell⟩ | ⟨b, -, -, hspell⟩
  · rw [hspell, List.singleton_append, dropDangling_cons_of_ne_escape hb, List.singleton_append]
  · rw [hspell, List.cons_append, List.singleton_append, dropDangling_pair, List.cons_append, List.singleton_append]

/-- What is spelled ends in no escape byte that escapes nothing. -/
theorem dropDangling_spell (p : Pattern) : dropDangling p.spell = p.spell := by
  induction p with
  | nil => rfl
  | cons s p ih => rw [spell_cons, dropDangling_spell_append, ih]

/-- Without stars there is nothing to collapse. -/
theorem collapse_of_starFree {p : Pattern} (h : StarFree p) : collapse p = p := by
  induction p with
  | nil => rfl
  | cons s p ih =>
    rw [collapse, ih fun hmem => h (List.mem_cons_of_mem _ hmem)]
    rintro q rfl
    exact fun _ => h List.mem_cons_self

/-- A pattern without stars is read back from its spelling as a query. -/
theorem ofQuery_spell {p : Pattern} (h : StarFree p) : ofQuery p.spell = p := by
  rw [ofQuery, dropDangling_spell, ofBytes_spell, collapse_of_starFree h]

end Pattern

/-- The query that quotes a text: an escape byte stands before every byte that would not stand for itself. -/
def Wildcard.quote (text : Bytes) : Bytes :=
  text.flatMap fun b => if Symbol.isReserved b then [escapeByte, b] else [b]

theorem Wildcard.ofQuery_quote (text : Bytes) : Pattern.ofQuery (quote text) = text.map .literal := by
  have hspell : quote text = Pattern.spell (text.map .literal) := by
    rw [Pattern.spell, List.flatMap_map]
    rfl
  rw [hspell]
  exact Pattern.ofQuery_spell (by simp [Pattern.StarFree])

namespace Query

/-- The subqueries of a quoted text show the encoded text. -/
theorem shows_of_mem_subqueries {schema : Schema} {width : Width} {limit : Nat} {text : Bytes} {d : Decomposition}
    {s : Subquery} (hd : decompose schema width limit (Wildcard.quote text) = .ok d) (hs : s ∈ d.subqueries) :
    List.Forall₂ Item.Shows s.items ((schema.fields id text).map (Field.atom width)) := by
  obtain ⟨-, rfl, hreads⟩ := decompose_eq_ok hd
  obtain ⟨choice, hchoice, rfl⟩ := (mem_subqueries hreads).mp hs
  have hparted := parted_partsFrom schema 0 none (Pattern.ofQuery (Wildcard.quote text))
  have hshows : List.Forall₂ Item.Shows (spread d.width d.parts choice) _ :=
    shows_spread hparted (Wildcard.ofQuery_quote text) hreads hchoice
  have hstar : (Pattern.ofQuery (Wildcard.quote text)).StarFree := by
    rw [Wildcard.ofQuery_quote]
    simp [Pattern.StarFree]
  rw [items_subqueryOf hparted hreads hchoice hstar]
  exact hshows

/-- **A quoted text is decomposed as it is encoded.**  It has one subquery, without wildcards, whose pattern matches the
logtype of the encoded text and nothing else, and which asks for the variables of the encoded text; so the text can be
decoded from what the subquery says. -/
theorem decompose_quote (width : Width) {limit : Nat} {text : Bytes} (hlimit : 1 ≤ limit) (hne : text ≠ []) :
    ∃ d s, decompose .standard width limit (Wildcard.quote text) = .ok d ∧ d.subqueries = [s] ∧
      s.hasWildcards = false ∧ s.patterns = [] ∧
      (text.length ≤ maxMessageLength → ∃ e, EncodedMessage.encode width Schema.standard.locator text = .ok e ∧
        (∀ logtype, Wildcard.isMatch s.logtypeQuery logtype = true ↔ logtype = e.logtype) ∧
        s.values.map Excerpt.bytes = e.dictionary.toList ∧ s.numbers = e.numbers ∧
        (EncodedMessage.mk e.logtype (.ofList (s.values.map Excerpt.bytes)) s.numbers).decode width = .ok text) := by
  obtain ⟨d, s, hd, hs⟩ :=
    @exists_decompose .standard width limit text _ (Wildcard.ofQuery_quote text) hne hlimit
  have hshows := shows_of_mem_subqueries hd (hs ▸ List.mem_singleton_self s)
  obtain ⟨hpatterns, hvalues, hnumbers⟩ := Subquery.variableQueries_of_shows hshows
  refine ⟨d, s, hd, hs, Subquery.hasWildcards_of_shows hshows, hpatterns, fun hlength => ?_⟩
  refine ⟨.ofAtoms ((Schema.standard.fields id text).map (Field.atom width)), ?_, fun logtype => ?_, ?_, hnumbers, ?_⟩
  · rw [EncodedMessage.encode_eq Schema.standard_isLocal, if_neg (Nat.not_lt_of_le hlength)]
  · rw [Wildcard.isMatch_iff, Subquery.logtypeQuery, Pattern.ofBytes_spell, Subquery.logtypePattern,
      Item.symbols_of_shows hshows, Pattern.matches_literals_iff]
    rfl
  · rw [hvalues]
    exact (FlatBytes.toList_ofList _).symm
  · rw [hvalues, hnumbers]
    show (EncodedMessage.ofAtoms _).decode width = .ok text
    rw [EncodedMessage.decode_ofAtoms, Field.textOf_atoms, Schema.fields, Schema.members_fieldsFrom]
    rfl

/-- A text with a byte that a query would read as a wildcard. -/
theorem decompose_quote_a_star_1 :
    ∃ d s, decompose .standard .eight 1 (Wildcard.quote [0x61, 0x2A, 0x31]) = .ok d ∧ d.subqueries = [s] ∧
      s.hasWildcards = false := by
  obtain ⟨d, s, hd, hs, hwildcards, -⟩ := @decompose_quote .eight 1 [0x61, 0x2A, 0x31] (by decide) (by decide)
  exact ⟨d, s, hd, hs, hwildcards⟩

end Query

end LogCodec
