import LogCodec.Proofs.LaidParts
import LogCodec.Proofs.LogtypeQuery
import LogCodec.Proofs.Odometer

/-!
# `LogCodec.Proofs.BuiltSubqueries`: subqueries that are built by ranges

A subquery is built along the tokens of a query from left to right, and what is built shows the items of the parts that
lie to the left.  Parts that are always static are no tokens: their text is written with what lies between the tokens.

## Contents
- `Draft.Shows`, kept by text (`Draft.Shows.text`), by a segment and by a reading.
- `tokens_shows`: what is built along the tokens of a query.
- `combinations_heldTokens`: leaving out what is always static leaves out no combination.
- `decomposeInPlace_eq`, the result: the subqueries are those of the parts, and nothing goes wrong.
-/

namespace LogCodec.Query

/-! ## Drafts -/

/-- A condition with its byte strings as views of a buffer. -/
def viewed (buffer : Bytes) (query : VariableQuery Excerpt) : VariableQuery View := query.map fun e => ⟨buffer, e.span⟩

/-- Static text puts no condition on a variable. -/
theorem filterMap_condition_ofSymbol (symbols : Pattern) :
    (symbols.map Item.ofSymbol).filterMap Item.condition? = [] := by
  rw [List.filterMap_map, List.filterMap_eq_nil_iff]
  intro s _
  cases s <;> rfl

/-- What is built shows some items. -/
structure Draft.Shows (buffer : Bytes) (draft : Draft) (items : List Item) : Prop where
  writer : draft.writer.Shows items
  vars_eq : draft.vars = (items.filterMap Item.condition?).map (viewed buffer)

namespace Draft.Shows

variable {buffer query : Bytes} {draft : Draft} {items : List Item}

theorem empty (buffer : Bytes) : Draft.empty.Shows buffer [] := ⟨LogtypeWriter.shows_empty, rfl⟩

/-- What lies between two places of the query is added as static text. -/
theorem text (h : draft.Shows buffer items) {start : Nat} {symbols : Pattern}
    (hspelled : StandsAt query start symbols.spell) :
    ∃ next, draft.text query ⟨start, start + symbols.spell.length⟩ = .ok next ∧
      next.Shows buffer (items ++ symbols.map Item.ofSymbol) := by
  have hwriter := h.writer.text symbols.spell
  rw [Pattern.ofBytes_spell] at hwriter
  refine ⟨⟨draft.writer.text symbols.spell, draft.vars⟩, ?_, hwriter, ?_⟩
  · rw [Draft.text, hspelled.partOf_eq]
    rfl
  · rw [List.filterMap_append, filterMap_condition_ofSymbol, List.append_nil]
    exact h.vars_eq

/-- A star is added if there is one. -/
theorem starIf (h : draft.Shows buffer items) (isStar : Bool) :
    Draft.Shows buffer ⟨if isStar then draft.writer.star else draft.writer, draft.vars⟩
      (items ++ if isStar then [.star] else []) := by
  cases isStar with
  | true =>
    refine ⟨h.writer.star, ?_⟩
    rw [List.filterMap_append, h.vars_eq]
    exact congrArg (List.map _) (List.append_nil _).symm
  | false =>
    rw [if_neg Bool.false_ne_true, if_neg Bool.false_ne_true, List.append_nil]
    exact h

/-- A variable is added with its place. -/
theorem condition (h : draft.Shows buffer items) (query : VariableQuery Excerpt) :
    Draft.Shows buffer ⟨draft.writer.place query.placeholder, draft.vars ++ [viewed buffer query]⟩
      (items ++ [.variable query]) := by
  refine ⟨h.writer.item (.variable query), ?_⟩
  rw [List.filterMap_append, h.vars_eq]
  simp [Item.condition?]

end Draft.Shows

theorem viewOf_eq {buffer : Bytes} {range : Span} (h : range.Fits buffer.length) :
    viewOf buffer range = .ok ⟨buffer, range⟩ := by
  rw [viewOf, View.cut, if_pos h]
  rfl

section
variable {width : Width} {p : ReadPart} {query buffer : Bytes} {draft : Draft} {items : List Item}

/-- A value without wildcards is added as the number that it packs to, or as a view of its bytes. -/
theorem segment_exact (hlies : p.LiesIn query buffer) (hinitial : query <+: buffer) {span : Span}
    (hshows : p.piece.Shows p.appended (.exact span)) (h : draft.Shows buffer items) :
    ∃ next, draft.segment buffer query (p.piece.ranged width p.filled p.appended (.exact span)) = .ok next ∧
      next.Shows buffer (items ++ p.items width (.exact span)) := by
  have hbytes := @bytes_value span p.piece p.filled p.appended (hshows.exact_of_value span rfl)
  have hvariable := h.condition (exactQuery width (p.piece.value p.filled p.appended span))
  refine ⟨_, ?_, hvariable⟩
  show draft.segment buffer query (.exact _ (width.pack (p.piece.slice span).literals)) = _
  rw [exactQuery, hbytes]
  cases width.pack (p.piece.slice span).literals with
  | some word => rfl
  | none =>
    show (viewOf buffer _ >>= _) = _
    rw [viewOf_eq (hlies.isFrom_value hinitial hshows).1]
    rfl

theorem viewed_pattern {span : Span} {kind : Placeholder} (hspan : p.piece.Has span) :
    viewed buffer (.pattern kind (p.piece.spelled span)) = .pattern kind ⟨buffer, p.piece.range span⟩ := by
  rw [← span_spelled hspan]
  rfl

/-- A pattern is added as a view, with the stars at its ends. -/
theorem segment_wildcard (hlies : p.LiesIn query buffer) (hinitial : query <+: buffer) {span : Span} {kind : Placeholder}
    (hspan : p.piece.Has span) (h : draft.Shows buffer items) :
    ∃ next, draft.segment buffer query (p.piece.ranged width p.filled p.appended (.wildcard span kind)) = .ok next ∧
      next.Shows buffer (items ++ p.items width (.wildcard span kind)) := by
  have hfits : (p.piece.range span).Fits buffer.length := by
    rw [← span_spelled hspan]
    exact (hlies.isFrom_spelled hinitial hspan).1
  have hnext := ((h.starIf (p.piece.slice span).startsWithStar).condition
    (.pattern kind (p.piece.spelled span))).starIf (p.piece.slice span).endsWithStar
  rw [List.append_assoc, List.append_assoc, List.singleton_append, viewed_pattern hspan] at hnext
  refine ⟨_, ?_, hnext⟩
  show (viewOf buffer (p.piece.range span) >>= _) = _
  rw [viewOf_eq hfits]
  rfl

/-- **A segment is added by its ranges.** -/
theorem segment_shows (hlies : p.LiesIn query buffer) (hinitial : query <+: buffer) {segment : Segment}
    (hshows : p.piece.Shows p.appended segment) (h : draft.Shows buffer items) :
    ∃ next, draft.segment buffer query (p.piece.ranged width p.filled p.appended segment) = .ok next ∧
      next.Shows buffer (items ++ p.items width segment) := by
  cases segment with
  | static span =>
    obtain ⟨next, hnext, hitems⟩ := h.text (hlies.standsAt_spelled hshows.has)
    refine ⟨next, ?_, hitems⟩
    rw [← hnext]
    exact congrArg (draft.text query) (p.piece.range_eq (Nat.le_of_lt hshows.has.1))
  | exact span => exact segment_exact hlies hinitial hshows h
  | wildcard span kind => exact segment_wildcard hlies hinitial hshows.has h

/-- A reading is added segment by segment. -/
theorem reading_shows (hlies : p.LiesIn query buffer) (hinitial : query <+: buffer) {reading : Reading}
    (hshows : ∀ segment ∈ reading, p.piece.Shows p.appended segment) (h : draft.Shows buffer items) :
    ∃ next, (reading.map (p.piece.ranged width p.filled p.appended)).foldlM (Draft.segment buffer query) draft = .ok next ∧
      next.Shows buffer (items ++ reading.flatMap (p.items width)) := by
  induction reading generalizing draft items with
  | nil =>
    refine ⟨draft, rfl, ?_⟩
    rw [List.flatMap_nil, List.append_nil]
    exact h
  | cons segment reading ih =>
    obtain ⟨hsegment, hlater⟩ := List.forall_mem_cons.mp hshows
    obtain ⟨first, hfirst, hfirstShows⟩ := @segment_shows width p query buffer draft items hlies hinitial segment hsegment h
    obtain ⟨next, hnext, hnextShows⟩ := ih hlater hfirstShows
    refine ⟨next, ?_, ?_⟩
    · rw [List.map_cons, List.foldlM_cons, hfirst]
      exact hnext
    · rw [List.flatMap_cons, ← List.append_assoc]
      exact hnextShows

end

/-! ## Tokens -/

/-- The tokens among some parts, each with a reading by its ranges. -/
def heldReadings (width : Width) (chosen : List (ReadPart × Reading)) : List (QueryToken × List RangeSegment) :=
  (chosen.filter fun (p, _) => !isAlwaysStatic (p.token width).choices).map fun (p, reading) =>
    (p.token width, reading.map (p.piece.ranged width p.filled p.appended))

/-- The items of some parts, each with a reading. -/
def chosenItems (width : Width) (chosen : List (ReadPart × Reading)) : List Item :=
  chosen.flatMap fun (p, reading) => reading.flatMap (p.items width)

theorem chosenItems_nil (width : Width) : chosenItems width [] = [] := rfl

theorem chosenItems_cons (width : Width) (p : ReadPart) (reading : Reading) (chosen : List (ReadPart × Reading)) :
    chosenItems width ((p, reading) :: chosen) = reading.flatMap (p.items width) ++ chosenItems width chosen := rfl

/-- The reading of a token that an index stands for. -/
def Picks (pick : QueryToken × Nat) (held : QueryToken × List RangeSegment) : Prop :=
  pick.1 = held.1 ∧ pick.1.choices[pick.2]? = some held.2

/-- The reading is one of those of the part. -/
def IsChoice (choice : ReadPart × Reading) (p : ReadPart) : Prop := choice.1 = p ∧ choice.2 ∈ p.readings

theorem heldReadings_static {width : Width} {p : ReadPart} {reading : Reading} {chosen : List (ReadPart × Reading)}
    (h : isAlwaysStatic (p.token width).choices = true) :
    heldReadings width ((p, reading) :: chosen) = heldReadings width chosen := by
  rw [heldReadings, List.filter_cons_of_neg (by simp [h])]
  rfl

theorem heldReadings_held {width : Width} {p : ReadPart} {reading : Reading} {chosen : List (ReadPart × Reading)}
    (h : ¬ isAlwaysStatic (p.token width).choices = true) :
    heldReadings width ((p, reading) :: chosen) =
      (p.token width, reading.map (p.piece.ranged width p.filled p.appended)) :: heldReadings width chosen := by
  rw [heldReadings, List.filter_cons_of_pos (by simp [h])]
  rfl

section
variable {width : Width} {query buffer : Bytes} {draft : Draft} {items : List Item} {start position : Nat}
  {pending rest : Pattern} {ps : List ReadPart} {chosen : List (ReadPart × Reading)}
  {picked : List (QueryToken × Nat)}

/-- **What is built along the tokens of a query shows all its parts.**  What lies before the next part and has not been
added is pending. -/
theorem tokens_shows (hinitial : query <+: buffer) (hlaid : Laid query buffer start rest ps)
    (hchosen : List.Forall₂ IsChoice chosen ps) (hpicked : List.Forall₂ Picks picked (heldReadings width chosen))
    (hpending : StandsAt query position pending.spell) (hstart : start = position + pending.spell.length)
    (hend : start + rest.spell.length = query.length) (h : draft.Shows buffer items) :
    ∃ next, draft.tokens buffer query position picked = .ok next ∧
      next.Shows buffer (items ++ pending.map Item.ofSymbol ++ chosenItems width chosen) := by
  induction hlaid generalizing chosen picked position pending draft items with
  | nil =>
    cases hchosen
    cases hpicked
    rw [Pattern.spell_nil, List.length_nil, Nat.add_zero, hstart] at hend
    rw [chosenItems_nil, List.append_nil, Draft.tokens, ← hend]
    exact h.text hpending
  | @cons p rest ps hread hlies _ ih =>
    cases hchosen with
    | @cons choice _ chosen _ hchoice hchosen =>
      obtain ⟨q, reading⟩ := choice
      obtain ⟨rfl, hreading⟩ : q = p ∧ reading ∈ p.readings := hchoice
      have hstop : q.piece.stop + rest.spell.length = query.length := by
        rw [← hend, Pattern.spell_append, List.length_append, Piece.stop, Nat.add_assoc]
      rw [chosenItems_cons]
      by_cases hstatic : isAlwaysStatic (q.token width).choices = true
      · rw [heldReadings_static hstatic] at hpicked
        rw [hread.readings_of_alwaysStatic hstatic, List.mem_singleton] at hreading
        have hspelled := hlies.spelled
        rw [hstart] at hspelled
        have hmore := hpending.append hspelled
        rw [← Pattern.spell_append] at hmore
        have hplace : q.piece.stop = position + (pending ++ q.piece.symbols).spell.length := by
          rw [Pattern.spell_append, List.length_append, Piece.stop, hstart, Nat.add_assoc]
        obtain ⟨next, hnext, hnextShows⟩ := ih hchosen hpicked hmore hplace hstop h
        refine ⟨next, hnext, ?_⟩
        have hitems : reading.flatMap (q.items width) = q.piece.symbols.map Item.ofSymbol := by
          rw [hreading, List.flatMap_singleton, ReadPart.items, Piece.slice, Span.slice_all]
        rw [hitems]
        rw [List.map_append] at hnextShows
        simpa only [List.append_assoc] using hnextShows
      · rw [heldReadings_held hstatic] at hpicked
        cases hpicked with
        | @cons pick _ picked _ hpick hpicked =>
          obtain ⟨token, index⟩ := pick
          obtain ⟨rfl, hindex⟩ := hpick
          obtain ⟨before, hbefore, hbeforeShows⟩ := h.text hpending
          rw [← hstart] at hbefore
          obtain ⟨behind, hbehind, hbehindShows⟩ :=
            @reading_shows width q query buffer before _ hlies hinitial reading (hread.shows reading hreading) hbeforeShows
          have hnone : StandsAt query q.piece.stop (Pattern.spell []) := by
            have hspelled := hlies.spelled
            rw [← List.append_nil q.piece.symbols.spell] at hspelled
            exact hspelled.right
          obtain ⟨next, hnext, hnextShows⟩ := ih hchosen hpicked hnone rfl hstop hbehindShows
          refine ⟨next, ?_, ?_⟩
          · rw [Draft.tokens]
            show (draft.text query ⟨position, q.piece.start⟩ >>= _) = _
            rw [hbefore]
            show (itemAt (q.token width).choices index >>= _) = _
            rw [itemAt_eq_ok hindex]
            show (List.foldlM (Draft.segment buffer query) before _ >>= _) = _
            rw [hbehind]
            exact hnext
          · rw [List.map_nil, List.append_nil] at hnextShows
            rw [← List.append_assoc]
            exact hnextShows

end

/-! ## Combinations -/

/-- The indices stand for the readings, which are choices for the parts. -/
def StandFor (width : Width) (ps : List ReadPart) (indices : List Nat) (readings : List Reading) : Prop :=
  List.Forall₂ Picks ((heldTokens width ps).zip indices) (heldReadings width (ps.zip readings)) ∧
    List.Forall₂ IsChoice (ps.zip readings) ps

/-- The indices of a list stand for its members. -/
theorem forall₂_range {α : Type} (xs : List α) : List.Forall₂ (fun i x => xs[i]? = some x) (List.range xs.length) xs := by
  rw [List.forall₂_iff_get]
  refine ⟨List.length_range, ?_⟩
  intro i hi hxs
  simp

/-- **Leaving out what is always static leaves out no combination**: the choices of indices for the tokens stand for
those of readings for all parts, in order. -/
theorem combinations_heldTokens (width : Width) {ps : List ReadPart} (hread : ∀ p ∈ ps, p.IsRead) :
    List.Forall₂ (StandFor width ps)
      (combinations ((heldTokens width ps).map fun token => List.range token.choices.length))
      (combinations (ps.map ReadPart.readings)) := by
  induction ps with
  | nil => exact .cons ⟨.nil, .nil⟩ .nil
  | cons p ps ih =>
    obtain ⟨hp, hlater⟩ := List.forall_mem_cons.mp hread
    rw [heldTokens_cons, List.map_cons, combinations]
    by_cases hstatic : isAlwaysStatic (p.token width).choices = true
    · have hreadings := hp.readings_of_alwaysStatic hstatic
      have hone : ∀ (reading : Reading) (l : List (List Reading)),
          (l.flatMap fun chosen => [reading].map (· :: chosen)) = l.map (reading :: ·) := fun _ _ =>
        List.map_eq_flatMap.symm
      rw [if_pos hstatic, hreadings, hone, List.forall₂_map_right_iff]
      refine (ih hlater).imp ?_
      rintro indices readings ⟨hpicks, hchoices⟩
      refine ⟨?_, .cons ⟨rfl, by rw [hreadings]; exact List.mem_cons_self⟩ hchoices⟩
      rw [heldTokens_cons, if_pos hstatic, List.zip_cons_cons, heldReadings_static hstatic]
      exact hpicks
    · rw [if_neg hstatic, List.map_cons, combinations]
      refine List.rel_flatMap (ih hlater) ?_
      rintro indices readings ⟨hpicks, hchoices⟩
      have hlength : (p.token width).choices.length = p.readings.length := List.length_map _
      rw [hlength]
      refine List.rel_map ?_ (forall₂_range p.readings)
      intro index reading hindex
      refine ⟨?_, .cons ⟨rfl, List.mem_of_getElem? hindex⟩ hchoices⟩
      rw [heldTokens_cons, if_neg hstatic, List.zip_cons_cons, List.zip_cons_cons, heldReadings_held hstatic]
      refine .cons ⟨rfl, ?_⟩ hpicks
      show (p.readings.map _)[index]? = _
      rw [List.getElem?_map, hindex]
      rfl

/-! ## Counting -/

theorem combinationCount_cons {α : Type} (choices : List α) (rest : List (List α)) :
    combinationCount (choices :: rest) = choices.length * combinationCount rest := rfl

theorem combinationCount_pos {α : Type} {choices : List (List α)} (h : ∀ choice ∈ choices, 0 < choice.length) :
    0 < combinationCount choices := by
  induction choices with
  | nil => exact Nat.zero_lt_one
  | cons first rest ih =>
    obtain ⟨hfirst, hrest⟩ := List.forall_mem_cons.mp h
    exact Nat.mul_pos hfirst (ih hrest)

/-- Words are multiplied as long as the product is one. -/
theorem foldlM_mulWord {tokens : List QueryToken} (hcounts : ∀ token ∈ tokens, 0 < token.choices.length) {total : Nat}
    (htotal : total < UInt64.size) :
    tokens.foldlM (fun total token => mulWord total token.choices.length) total =
      if total * combinationCount (tokens.map QueryToken.choices) < UInt64.size then
        some (total * combinationCount (tokens.map QueryToken.choices))
      else none := by
  induction tokens generalizing total with
  | nil =>
    rw [List.foldlM_nil, List.map_nil, combinationCount, List.foldr_nil, Nat.mul_one, if_pos htotal]
    rfl
  | cons token tokens ih =>
    obtain ⟨htoken, hlater⟩ := List.forall_mem_cons.mp hcounts
    rw [List.foldlM_cons, mulWord, List.map_cons, combinationCount_cons, ← Nat.mul_assoc]
    by_cases hword : total * token.choices.length < UInt64.size
    · rw [if_pos hword]
      exact ih hlater hword
    · have hpos : 0 < combinationCount (tokens.map QueryToken.choices) :=
        combinationCount_pos (List.forall_mem_map.mpr hlater)
      have hmore := Nat.le_mul_of_pos_right (total * token.choices.length) hpos
      rw [if_neg hword, if_neg (by omega)]
      rfl

/-- A combination of readings is a choice for the parts. -/
theorem isChoice_of_mem_combinations {ps : List ReadPart} {readings : List Reading}
    (h : readings ∈ combinations (ps.map ReadPart.readings)) : List.Forall₂ IsChoice (ps.zip readings) ps := by
  replace h := List.forall₂_map_right_iff.mp (mem_combinations.mp h)
  induction h with
  | nil => exact .nil
  | cons hreading _ ih => exact .cons ⟨rfl, hreading⟩ ih

/-- What is always static does not count. -/
theorem combinationCount_heldTokens (width : Width) {ps : List ReadPart} (hread : ∀ p ∈ ps, p.IsRead) :
    combinationCount ((heldTokens width ps).map QueryToken.choices) = combinationCount (ps.map ReadPart.readings) := by
  induction ps with
  | nil => rfl
  | cons p ps ih =>
    obtain ⟨hp, hlater⟩ := List.forall_mem_cons.mp hread
    rw [heldTokens_cons, List.map_cons, combinationCount_cons, ← ih hlater]
    by_cases hstatic : isAlwaysStatic (p.token width).choices = true
    · rw [if_pos hstatic, hp.readings_of_alwaysStatic hstatic, List.length_singleton, Nat.one_mul]
    · rw [if_neg hstatic, List.map_cons, combinationCount_cons]
      congr 1
      exact List.length_map _

/-- Every token has a reading. -/
theorem length_choices_pos {width : Width} {ps : List ReadPart} (hread : ∀ p ∈ ps, p.IsRead) :
    ∀ token ∈ heldTokens width ps, 0 < token.choices.length := by
  intro token htoken
  obtain ⟨p, hp, rfl⟩ := List.mem_map.mp (List.mem_filter.mp htoken).1
  show 0 < (p.readings.map _).length
  rw [List.length_map]
  exact List.length_pos_iff.mpr (hread p hp).readings_ne_nil

/-! ## Queries -/

/-- A subquery with its byte strings as views of a buffer. -/
def BuiltSubquery.ofSubquery (buffer : Bytes) (s : Subquery) : BuiltSubquery :=
  ⟨s.logtypeQuery, s.hasWildcards, s.variableQueries.map (viewed buffer)⟩

/-- To replace runs of stars changes no condition. -/
theorem filterMap_condition_collapse (items : List Item) :
    (Item.collapse items).filterMap Item.condition? = items.filterMap Item.condition? := by
  fun_induction Item.collapse items with
  | case1 items ih => exact ih
  | case2 item items _ ih => rw [List.filterMap_cons, List.filterMap_cons, ih]
  | case3 => rfl

section
variable {width : Width} {symbols : Pattern} {buffer : Bytes} {ps : List ReadPart}

/-- **The subquery that is built for a choice of indices** is that of the readings which they stand for. -/
theorem build_eq (hinitial : symbols.spell <+: buffer) (hlaid : Laid symbols.spell buffer 0 symbols ps)
    {indices : List Nat} {readings : List Reading} (h : StandFor width ps indices readings) :
    build buffer symbols.spell (heldTokens width ps) indices =
      .ok (.ofSubquery buffer ((Decomposition.mk width ps).subqueryOf readings)) := by
  obtain ⟨hpicks, hchoices⟩ := h
  have hnone : StandsAt symbols.spell 0 (Pattern.spell []) := ⟨[], symbols.spell, rfl, rfl⟩
  obtain ⟨next, hnext, hshows⟩ := tokens_shows hinitial hlaid hchoices hpicks hnone rfl (Nat.zero_add _)
    (Draft.Shows.empty buffer)
  replace hshows : next.Shows buffer (chosenItems width (ps.zip readings)) := hshows
  rw [build, hnext]
  show Except.ok (BuiltSubquery.mk next.writer.bytes next.writer.hasWildcards next.vars) = _
  rw [hshows.writer.bytes_eq, hshows.writer.hasWildcards_eq, hshows.vars_eq, ← filterMap_condition_collapse]
  rfl

/-- What is made of related choices, one after the other. -/
theorem mapM_eq_ok {α β : Type} {make : α → Except Stop β} {as : List α} {bs : List β}
    (h : List.Forall₂ (fun a b => make a = .ok b) as bs) : as.mapM make = .ok bs := by
  induction h with
  | nil => rfl
  | cons hfirst _ ih =>
    rw [List.mapM_cons, hfirst, ih]
    rfl

/-- **All subqueries are built**, in order. -/
theorem buildAll_heldTokens (hinitial : symbols.spell <+: buffer) (hlaid : Laid symbols.spell buffer 0 symbols ps) :
    buildAll (build buffer symbols.spell (heldTokens width ps)) ((heldTokens width ps).map (·.choices.length))
        ((heldTokens width ps).map fun _ => 0) =
      .ok ((Decomposition.mk width ps).subqueries.map (.ofSubquery buffer)) := by
  have hcounts := @length_choices_pos width ps hlaid.isRead
  have hzeros := choicesFrom_zeros (List.forall_mem_map.mpr hcounts)
  rw [List.map_map, List.map_map] at hzeros
  rw [buildAll_eq]
  show (choicesFrom _ ((heldTokens width ps).map ((fun _ => 0) ∘ fun token => token.choices.length))).mapM _ = _
  rw [hzeros]
  refine mapM_eq_ok ?_
  rw [Decomposition.subqueries, List.map_map, List.forall₂_map_right_iff]
  exact (combinations_heldTokens width hlaid.isRead).imp fun _ _ => build_eq hinitial hlaid

end

/-- The subqueries are built if there are not too many, and all of them then. -/
theorem buildWithin_heldTokens {symbols : Pattern} {store : Store} {ps : List ReadPart} (width : Width)
    (limit : UInt64) (hinitial : symbols.spell <+: store.buffer) (hlaid : Laid symbols.spell store.buffer 0 symbols ps) :
    buildWithin limit symbols.spell.length (heldTokens width ps) store =
      if limit.toNat < (Decomposition.mk width ps).count then tooMany limit
      else .ok ((Decomposition.mk width ps).subqueries.map (.ofSubquery store.buffer)) := by
  have hlimit := limit.toNat_lt
  have hcount : combinationCount ((heldTokens width ps).map QueryToken.choices) = (Decomposition.mk width ps).count :=
    combinationCount_heldTokens width hlaid.isRead
  have htext : partOf store.buffer ⟨0, symbols.spell.length⟩ = .ok symbols.spell := by
    have hstands : StandsAt symbols.spell 0 symbols.spell := ⟨[], [], (List.append_nil _).symm, rfl⟩
    have hpart := (hstands.of_initial hinitial).partOf_eq
    rwa [Nat.zero_add] at hpart
  rw [buildWithin, foldlM_mulWord (length_choices_pos hlaid.isRead) (by decide), Nat.one_mul, hcount, htext]
  by_cases hword : (Decomposition.mk width ps).count < UInt64.size
  · rw [if_pos hword]
    show (if _ then _ else buildAll _ _ _) = _
    rw [buildAll_heldTokens hinitial hlaid]
  · rw [if_neg hword, if_pos]
    exact Nat.lt_of_lt_of_le hlimit (Nat.le_of_not_lt hword)

/-- **To take a query apart by ranges gives the subqueries of its parts**, with the byte strings as views of one buffer.
Nothing goes wrong on the way: no index and no range misses its list, and no view leaves the buffer. -/
theorem decomposeInPlace_eq (schema : Schema) (width : Width) (limit : UInt64) (query : Bytes) :
    decomposeInPlace schema width limit query =
      ((decompose schema width limit.toNat query).mapError .refused).map fun d =>
        d.subqueries.map (.ofSubquery (buffer schema (Pattern.ofQuery query))) := by
  rw [decomposeInPlace_of_tokenize, tokenize_eq, normalizeFrom_eq_spell]
  unfold decompose
  generalize Pattern.ofQuery query = symbols
  by_cases hempty : symbols = []
  · rw [hempty]
    rfl
  · have hspell : symbols.spell ≠ [] := by
      intro hspell
      have hsymbols := Pattern.ofBytes_spell symbols
      rw [hspell] at hsymbols
      exact hempty hsymbols.symm
    have hbuffer : (Store.fillParts schema ⟨symbols.spell, []⟩ (parts schema symbols)).buffer = buffer schema symbols :=
      Store.buffer_fillParts _ _
    rw [if_neg hspell]
    simp only [if_neg hempty]
    cases hps : readParts schema limit.toNat symbols.spell.length (parts schema symbols) with
    | none => rfl
    | some ps =>
      have hlaid := laid_parts hps
      rw [← hbuffer] at hlaid ⊢
      refine (buildWithin_heldTokens width limit (hbuffer ▸ List.prefix_append _ _) hlaid).trans ?_
      simp only
      by_cases hmore : limit.toNat < (Decomposition.mk width ps).count
      · rw [if_pos hmore, if_pos hmore]
        rfl
      · rw [if_neg hmore, if_neg hmore]
        rfl

end LogCodec.Query
