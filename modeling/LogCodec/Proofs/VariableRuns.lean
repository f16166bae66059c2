import LogCodec.Proofs.RoundTrip
import LogCodec.Proofs.TokenSearch

/-!
# `LogCodec.Proofs.VariableRuns`: the variables of a text are its runs

A schema is asked for the next variable again and again, each time from the end of the one before.  It never goes back,
and it starts in the middle of the text, so it could cut a run in two or pass one over.  It does neither, because it
only ever starts at an edge: at the start of the text, or where a run has just ended.  From an edge the next token is
the next maximal run of the text, and it ends at an edge again.

Nothing is assumed of the schema: whether a run is a variable may depend on all of the text around it.

## Contents
- `Span.IsRun`: maximal runs of bytes that are no delimiters, and `Span.IsRun.eq_or_apart` for two of them.
- **Tokens.** `AtEdge`; from an edge, `nextToken_isRun` and `stop_le_start_of_isRun` for the next token.
- **Variables.** `IsVariableRun`, `firstVariable_isVariableRun`, and `exists_variableRuns`, which goes on to the end.
- **Encoding.** `chunksFrom_eq_ofSpans`; `encode_variableRuns`, the result.
-/

namespace LogCodec

/-! ## Runs -/

/-- At the position there is a byte that is no delimiter. -/
def Schema.MemberAt (schema : Schema) (text : Bytes) (i : Nat) : Prop :=
  ∃ b, text[i]? = some b ∧ schema.isDelimiter b = false

/-- The span is a run of bytes that are no delimiters, and no longer run has it as a part. -/
structure Span.IsRun (schema : Schema) (text : Bytes) (s : Span) : Prop where
  start_lt_stop : s.start < s.stop
  members : ∀ i, s.start ≤ i → i < s.stop → schema.MemberAt text i
  starts : ∀ i, i + 1 = s.start → ¬ schema.MemberAt text i
  stops : ¬ schema.MemberAt text s.stop

section
variable {schema : Schema} {text : Bytes} {s t : Span}

theorem Schema.MemberAt.lt_length {i : Nat} (h : schema.MemberAt text i) : i < text.length := by
  obtain ⟨b, hb, -⟩ := h
  exact (List.getElem?_eq_some_iff.mp hb).1

theorem Span.IsRun.stop_le_length (h : s.IsRun schema text) : s.stop ≤ text.length := by
  have hlt := h.start_lt_stop
  have hlast := (h.members (s.stop - 1) (by omega) (by omega)).lt_length
  omega

/-- A run that starts within another, or where it ends, is the same run. -/
theorem Span.IsRun.eq_of_start_le (hs : s.IsRun schema text) (ht : t.IsRun schema text) (hle : s.start ≤ t.start)
    (hstop : t.start ≤ s.stop) : s = t := by
  have hslt := hs.start_lt_stop
  have htlt := ht.start_lt_stop
  have hne : t.start ≠ s.stop := by
    intro heq
    exact hs.stops (heq ▸ ht.members t.start (Nat.le_refl _) htlt)
  have hstart : s.start = t.start := by
    by_contra hne'
    -- The byte before the second run would be one of the first.
    exact ht.starts (t.start - 1) (by omega) (hs.members (t.start - 1) (by omega) (by omega))
  have hends : s.stop = t.stop := by
    rcases Nat.lt_trichotomy s.stop t.stop with hlt | heq | hlt
    · exact absurd (ht.members s.stop (by omega) hlt) hs.stops
    · exact heq
    · exact absurd (hs.members t.stop (by omega) hlt) ht.stops
  cases s
  cases t
  simp only at hstart hends
  rw [hstart, hends]

/-- Two runs of a text are the same or have a delimiter between them. -/
theorem Span.IsRun.eq_or_apart (hs : s.IsRun schema text) (ht : t.IsRun schema text) :
    s = t ∨ s.stop < t.start ∨ t.stop < s.start := by
  rcases Nat.le_total s.start t.start with hle | hle
  · rcases Nat.lt_or_ge s.stop t.start with hlt | hge
    · exact .inr (.inl hlt)
    · exact .inl (hs.eq_of_start_le ht hle hge)
  · rcases Nat.lt_or_ge t.stop s.start with hlt | hge
    · exact .inr (.inr hlt)
    · exact .inl (ht.eq_of_start_le hs hle hge).symm

end

/-! ## Tokens -/

namespace Schema

/-- No run goes on from before the cursor to behind it. -/
def AtEdge (schema : Schema) (c : Cursor) : Prop :=
  ∀ i, i + 1 = c.position → schema.MemberAt c.text i → ¬ schema.MemberAt c.text c.position

section
variable {schema : Schema} {c : Cursor} {token : Token}

theorem atEdge_ofText (schema : Schema) (text : Bytes) : schema.AtEdge (.ofText text) := by
  intro i hi
  simp [Cursor.ofText] at hi

/-- The bytes behind a cursor are those of the text from its position on. -/
theorem getElem?_text (c : Cursor) (i : Nat) : c.text[c.position + i]? = c.rest[i]? := by
  have hlength : c.before.reverse.length = c.position := by rw [List.length_reverse, c.position_eq]
  rw [Cursor.text, ← hlength, List.getElem?_append_right (Nat.le_add_right _ _), Nat.add_sub_cancel_left]

/-- A position behind a cursor, by how many bytes lie between. -/
theorem memberAt_rest_iff (c : Cursor) (i : Nat) :
    schema.MemberAt c.text (c.position + i) ↔ ∃ b, c.rest[i]? = some b ∧ schema.isDelimiter b = false := by
  unfold MemberAt
  rw [getElem?_text]

/-- A token is where its span says. -/
theorem ofSpan_span (token : Token) : Token.ofSpan token.start.text token.span = token := by
  obtain ⟨start, length⟩ := token
  have hlength : (Token.span ⟨start, length⟩).length = length := by simp [Token.span, Span.length]
  rw [Token.ofSpan, hlength]
  simp only [Token.span]
  rw [← start.eq_inText]

/-- What lies behind a cursor up to the end of the next token, position by position. -/
theorem nextToken_positions (h : schema.nextToken c = some token) :
    token.start.text = c.text ∧ c.position ≤ token.span.start ∧ token.span.start < token.span.stop ∧
      token.stop.text = c.text ∧ token.stop.position = token.span.stop ∧
      (∀ i, c.position ≤ i → i < token.span.start → ¬ schema.MemberAt c.text i) ∧
      (∀ i, token.span.start ≤ i → i < token.span.stop → schema.MemberAt c.text i) ∧
      ¬ schema.MemberAt c.text token.span.stop := by
  obtain ⟨delimiters, hrest, hstart, hdelimiters, hbytes, hne, hends⟩ := nextToken_eq_some h
  have hbounds := nextToken_bounds h
  have hlength : token.bytes.length = token.length := by
    rw [Token.bytes, List.length_take]
    omega
  have hposition : token.start.position = c.position + delimiters.length := by
    rw [hstart, Cursor.position_advance, hrest, List.length_append]
    omega
  have hspan : token.span.start = c.position + delimiters.length ∧
      token.span.stop = c.position + (delimiters.length + token.bytes.length) := by
    refine ⟨hposition, ?_⟩
    show token.start.position + token.length = _
    omega
  have htext : token.start.text = c.text := by rw [hstart, Cursor.text_advance]
  refine ⟨htext, by omega, ?_, ?_, ?_, ?_, ?_, ?_⟩
  · rw [hspan.1, hspan.2]
    have hpositive := List.length_pos_iff.mpr hne
    omega
  · rw [Token.stop, Cursor.text_advance, htext]
  · rw [Token.stop, Cursor.position_advance, hposition]
    simp only [hspan.2, hlength]
    omega
  · intro i hi hlt
    obtain ⟨j, rfl⟩ := Nat.exists_eq_add_of_le hi
    rw [memberAt_rest_iff, hrest]
    rintro ⟨b, hb, hmember⟩
    rw [List.getElem?_append_left (by omega)] at hb
    rw [hdelimiters b (List.mem_of_getElem? hb)] at hmember
    cases hmember
  · intro i hi hlt
    obtain ⟨j, rfl⟩ := Nat.exists_eq_add_of_le hi
    have hj : j < token.bytes.length := by omega
    rw [hspan.1, Nat.add_assoc, memberAt_rest_iff, hrest, List.getElem?_append_right (Nat.le_add_right _ _),
      Nat.add_sub_cancel_left, List.getElem?_append_left hj, List.getElem?_eq_getElem hj]
    exact ⟨_, rfl, hbytes _ (List.getElem_mem hj)⟩
  · rw [hspan.2, memberAt_rest_iff, hrest, ← List.append_assoc, ← List.length_append,
      List.getElem?_append_right (Nat.le_refl _), Nat.sub_self, ← List.head?_eq_getElem?]
    rintro ⟨b, hb, hmember⟩
    rw [hends b hb] at hmember
    cases hmember

/-- From an edge the next token is a run. -/
theorem nextToken_isRun (hedge : schema.AtEdge c) (h : schema.nextToken c = some token) :
    token.span.IsRun schema c.text := by
  obtain ⟨-, hle, hlt, -, -, hgap, hmembers, hstop⟩ := nextToken_positions h
  refine ⟨hlt, hmembers, ?_, hstop⟩
  intro i hi hmember
  rcases Nat.lt_or_ge i c.position with hbefore | hbehind
  · -- Then the token starts at the cursor, and the byte before it is the byte before the cursor.
    have hposition : c.position = token.span.start := by omega
    refine hedge i (by omega) hmember ?_
    rw [hposition]
    exact hmembers token.span.start (Nat.le_refl _) hlt
  · exact hgap i hbehind (by omega) hmember

/-- No run starts between a cursor and the next token, or within the token. -/
theorem stop_le_start_of_isRun (hedge : schema.AtEdge c) (h : schema.nextToken c = some token) {s : Span}
    (hs : s.IsRun schema c.text) (hle : c.position ≤ s.start) : s = token.span ∨ token.span.stop ≤ s.start := by
  obtain ⟨-, -, -, -, -, hgap, -, -⟩ := nextToken_positions h
  rcases hs.eq_or_apart (nextToken_isRun hedge h) with heq | hlt | hlt
  · exact .inl heq
  · have hstart := hs.start_lt_stop
    exact absurd (hs.members s.start (Nat.le_refl _) hstart) (hgap s.start hle (by omega))
  · exact .inr (Nat.le_of_lt hlt)

/-- Behind a token there is an edge. -/
theorem atEdge_stop (h : schema.nextToken c = some token) : schema.AtEdge token.stop := by
  obtain ⟨-, -, -, htext, hposition, -, -, hstop⟩ := nextToken_positions h
  intro i _ _
  rw [htext, hposition]
  exact hstop

/-- Without a next token there is no run behind a cursor. -/
theorem not_isRun_of_nextToken_eq_none (h : schema.nextToken c = none) {s : Span} (hle : c.position ≤ s.start) :
    ¬ s.IsRun schema c.text := by
  intro hs
  have hmember := hs.members s.start (Nat.le_refl _) hs.start_lt_stop
  obtain ⟨i, hi⟩ := Nat.exists_eq_add_of_le hle
  rw [hi, memberAt_rest_iff] at hmember
  obtain ⟨b, hb, hdelimiter⟩ := hmember
  rw [nextToken_eq_none h b (List.mem_of_getElem? hb)] at hdelimiter
  cases hdelimiter

/-! ## Variables -/

/-- The span is a run of the text, and the schema says that it is a variable. -/
def IsVariableRun (schema : Schema) (text : Bytes) (s : Span) : Prop :=
  s.IsRun schema text ∧ schema.isVariable (.ofSpan text s) = true

/-- Without a variable there is no run behind an edge that is one. -/
theorem not_isVariableRun_of_firstVariable_eq_none (hedge : schema.AtEdge c) (h : schema.firstVariable c = none)
    {s : Span} (hle : c.position ≤ s.start) : ¬ schema.IsVariableRun c.text s := by
  fun_induction firstVariable schema c with
  | case1 c hnone =>
    intro hs
    exact not_isRun_of_nextToken_eq_none hnone hle hs.1
  | case2 => cases h
  | case3 c token htoken hstatic ih =>
    intro hs
    obtain ⟨htext, -, -, hstop, hposition, -⟩ := nextToken_positions htoken
    rcases stop_le_start_of_isRun hedge htoken hs.1 hle with rfl | hlater
    · have hvariable := hs.2
      rw [← htext, ofSpan_span] at hvariable
      exact hstatic hvariable
    · rw [← hposition] at hlater
      rw [← hstop] at hs
      exact ih (atEdge_stop htoken) h hlater hs

/-- **From an edge the first variable is the first run that is one**, and behind it there is an edge. -/
theorem firstVariable_isVariableRun (hedge : schema.AtEdge c) (h : schema.firstVariable c = some token) :
    schema.IsVariableRun c.text token.span ∧ c.position ≤ token.span.start ∧ token.stop.text = c.text ∧
      token.stop.position = token.span.stop ∧ schema.AtEdge token.stop ∧
      ∀ s, schema.IsVariableRun c.text s → c.position ≤ s.start → s = token.span ∨ token.span.stop ≤ s.start := by
  fun_induction firstVariable schema c with
  | case1 => cases h
  | case2 c found hfound hvariable =>
    cases h
    obtain ⟨htext, hle, -, hstop, hposition, -⟩ := nextToken_positions hfound
    refine ⟨⟨nextToken_isRun hedge hfound, ?_⟩, hle, hstop, hposition, atEdge_stop hfound, ?_⟩
    · rw [← htext, ofSpan_span]
      exact hvariable
    · intro s hs hbehind
      exact stop_le_start_of_isRun hedge hfound hs.1 hbehind
  | case3 c found hfound hstatic ih =>
    obtain ⟨htext, hle, hlt, hstop, hposition, -⟩ := nextToken_positions hfound
    obtain ⟨hrun, hnext, htokenStop, htokenPosition, htokenEdge, hfirst⟩ := ih (atEdge_stop hfound) h
    rw [hstop] at hrun htokenStop hfirst
    rw [hposition] at hnext hfirst
    refine ⟨hrun, by omega, htokenStop, htokenPosition, htokenEdge, ?_⟩
    intro s hs hbehind
    rcases stop_le_start_of_isRun hedge hfound hs.1 hbehind with rfl | hlater
    · have hvariable := hs.2
      rw [← htext, ofSpan_span] at hvariable
      exact absurd hvariable hstatic
    · exact hfirst s hs hlater

/-- **Asking for the next variable until there is none gives the runs that are variables**, each of them once and in
order. -/
theorem exists_variableRuns (hedge : schema.AtEdge c) (named : Nat) :
    ∃ spans, LocatorRun schema.locator c.text named c.position spans none ∧
      spans.Pairwise (fun s t => s.stop < t.start) ∧
      ∀ s, s ∈ spans ↔ schema.IsVariableRun c.text s ∧ c.position ≤ s.start := by
  fun_induction variablesFrom schema c generalizing named with
  | case1 c hnone =>
    refine ⟨[], .done ?_, .nil, ?_⟩
    · rw [locator, ← c.eq_inText, hnone]
      rfl
    · intro s
      constructor
      · intro hs
        cases hs
      · rintro ⟨hs, hle⟩
        exact absurd hs (not_isVariableRun_of_firstVariable_eq_none hedge hnone hle)
  | case2 c token htoken ih =>
    obtain ⟨hrun, hle, htext, hposition, hstopEdge, hfirst⟩ := firstVariable_isVariableRun hedge htoken
    obtain ⟨spans, hspans, hordered, hmem⟩ := ih hstopEdge (named + 1)
    rw [htext, hposition] at hspans hmem
    have hlater : ∀ s ∈ spans, token.span.stop < s.start := by
      intro s hs
      obtain ⟨hvariable, hstart⟩ := (hmem s).mp hs
      refine Nat.lt_of_le_of_ne hstart ?_
      intro heq
      exact hrun.1.stops (heq ▸ hvariable.1.members s.start (Nat.le_refl _) hvariable.1.start_lt_stop)
    refine ⟨token.span :: spans, .next ?_ ⟨hle, hrun.1.start_lt_stop, hrun.1.stop_le_length⟩ hspans,
      .cons hlater hordered, ?_⟩
    · rw [locator, ← c.eq_inText, htoken]
      rfl
    · intro s
      rw [List.mem_cons, hmem]
      constructor
      · rintro (rfl | ⟨hs, hstart⟩)
        · exact ⟨hrun, hle⟩
        · have hlt := hrun.1.start_lt_stop
          exact ⟨hs, by omega⟩
      · rintro ⟨hs, hstart⟩
        exact (hfirst s hs hstart).imp_right fun hbehind => ⟨hs, hbehind⟩

end

end Schema

/-! ## Encoding -/

/-- Cuts a text from a position on at spans that stand in order. -/
def Chunk.ofSpans (text : Bytes) (position : Nat) : List Span → List Chunk
  | [] => [.text (text.drop position)]
  | span :: rest =>
    .text ((Span.mk position span.start).slice text) :: .token (span.slice text) :: ofSpans text span.stop rest

/-- The kind of variable that a token is encoded as. -/
def Width.kindOf (width : Width) (token : Bytes) : Placeholder :=
  match width.pack token with
  | some (kind, _) => .number kind
  | none => .dictionary

/-- What a text shows from a position on, with the variables at spans that stand in order: a place for each of them, and
all else as static text. -/
def Element.ofSpans (width : Width) (text : Bytes) (position : Nat) : List Span → List Element
  | [] => [.text (text.drop position)]
  | span :: rest =>
    .text ((Span.mk position span.start).slice text) :: .variable (width.kindOf (span.slice text)) ::
      ofSpans width text span.stop rest

theorem Cursor.rest_eq_drop (c : Cursor) : c.rest = c.text.drop c.position := by
  have hlength : c.before.reverse.length = c.position := by rw [List.length_reverse, c.position_eq]
  rw [Cursor.text, ← hlength, List.drop_left]

/-- A text is cut at the spans that a locator names. -/
theorem chunksFrom_eq_ofSpans (locate : Locator) (named : Nat) (c : Cursor) :
    ∀ spans, LocatorRun locate c.text named c.position spans none →
      chunksFrom locate named c = .ok (Chunk.ofSpans c.text c.position spans) := by
  fun_induction chunksFrom locate named c with
  | case1 named c hanswer =>
    intro spans h
    rw [c.eq_inText] at hanswer
    cases h with
    | done => rw [Chunk.ofSpans, c.rest_eq_drop]
    | next hother => simp [hanswer] at hother
  | case2 named c span hanswer token hgood ih =>
    intro spans h
    rw [c.eq_inText] at hanswer
    cases h with
    | done hother => simp [hanswer] at hother
    | @next _ _ other later _ hother hfollows hrest =>
      obtain rfl := Option.some.inj (hanswer.symm.trans hother)
      have htext : token.stop.text = c.text := by rw [Token.stop, Cursor.text_advance, Cursor.text_advance]
      have hposition : token.stop.position = span.stop := position_stop hfollows
      have hgap : c.rest.take (span.start - c.position) = (Span.mk c.position span.start).slice c.text := by
        rw [c.rest_eq_drop]
        rfl
      have hbytes : token.bytes = span.slice c.text := by
        simp only [token, Token.bytes, Cursor.rest_advance, c.rest_eq_drop, List.drop_drop, Span.slice]
        rw [Nat.add_sub_cancel' hfollows.1]
      rw [htext, hposition] at ih
      rw [ih later hrest, hgap, hbytes]
      rfl
  | case3 named c span hanswer token hbad =>
    intro spans h
    rw [c.eq_inText] at hanswer
    cases h with
    | done hother => simp [hanswer] at hother
    | next hother hfollows =>
      obtain rfl := Option.some.inj (hanswer.symm.trans hother)
      exact absurd (follows_iff.mp hfollows) hbad

namespace EncodedMessage

section
variable (width : Width) (text : Bytes) (position : Nat) (spans : List Span)

theorem map_element_ofSpans :
    (Chunk.ofSpans text position spans).map (Chunk.element width) = Element.ofSpans width text position spans := by
  induction spans generalizing position with
  | nil => simp [Chunk.ofSpans, Element.ofSpans, Chunk.element]
  | cons span spans ih =>
    simp only [Chunk.ofSpans, Element.ofSpans, List.map_cons, ih, Chunk.element, Width.kindOf]
    cases width.pack (span.slice text) <;> simp

theorem filterMap_dictionary?_ofSpans :
    (Chunk.ofSpans text position spans).filterMap (Chunk.dictionary? width) =
      (spans.map (·.slice text)).filter fun token => (width.pack token).isNone := by
  induction spans generalizing position with
  | nil => simp [Chunk.ofSpans, Chunk.dictionary?]
  | cons span spans ih =>
    simp only [Chunk.ofSpans, List.filterMap_cons, Chunk.dictionary?, ih, List.map_cons, List.filter_cons]
    cases width.pack (span.slice text) <;> simp

theorem filterMap_packed?_ofSpans :
    (Chunk.ofSpans text position spans).filterMap (Chunk.packed? width) =
      (spans.map (·.slice text)).filterMap width.pack := by
  induction spans generalizing position with
  | nil => simp [Chunk.ofSpans, Chunk.packed?]
  | cons span spans ih =>
    simp only [Chunk.ofSpans, List.filterMap_cons, Chunk.packed?, ih, List.map_cons]

end

/-- **The variables of an encoded text are the runs that the schema says are variables.**  The schema is asked for the
next variable from the start of the text on and then from the end of each one.  This comes to an end, and what it names
are exactly the maximal runs of bytes without a delimiter that are variables, in order.  The encoded text has a place
for each of them, of the kind that the token is packed as, or else for a dictionary value; the values of the two groups
are those of the tokens, in order; and every byte outside of these runs is static text. -/
theorem encode_variableRuns (schema : Schema) (width : Width) (text : Bytes) :
    ∃ spans, LocatorRun schema.locator text 0 0 spans none ∧
      spans.Pairwise (fun s t => s.stop < t.start) ∧
      (∀ s, s ∈ spans ↔ s.IsRun schema text ∧ schema.isVariable (.ofSpan text s) = true) ∧
      encode width schema.locator text =
        if maxMessageLength < text.length then .error (.tooLong text.length)
        else .ok {
          logtype := Logtype.write (Element.ofSpans width text 0 spans)
          dictionary := .ofList ((spans.map (·.slice text)).filter fun token => (width.pack token).isNone)
          numbers := ((spans.map (·.slice text)).filterMap width.pack).map Prod.snd } := by
  obtain ⟨spans, hrun, hordered, hmem⟩ := Schema.exists_variableRuns (schema.atEdge_ofText text) 0
  rw [Cursor.text_ofText] at hrun hmem
  have hposition : (Cursor.ofText text).position = 0 := by simp [Cursor.ofText]
  refine ⟨spans, hrun, hordered, ?_, ?_⟩
  · intro s
    rw [hmem, hposition]
    simp [Schema.IsVariableRun]
  · have hchunks : chunks schema.locator text = .ok (Chunk.ofSpans text 0 spans) := by
      have hcut := chunksFrom_eq_ofSpans schema.locator 0 (.ofText text) spans
      rw [Cursor.text_ofText] at hcut
      exact hcut hrun
    rw [encode, hchunks]
    split
    · rfl
    · show Except.ok (ofChunks width (Chunk.ofSpans text 0 spans)) = _
      rw [ofChunks_parts, map_element_ofSpans, filterMap_dictionary?_ofSpans, filterMap_packed?_ofSpans]

/-- In `ab=12 x` the runs are `ab`, which could be a hexadecimal number, `12` and `x`, which is no variable. -/
example : Schema.standard.locator 0 (.inText [0x61, 0x62, 0x3D, 0x31, 0x32, 0x20, 0x78] 0) = some ⟨0, 2⟩ ∧
    Schema.standard.locator 1 (.inText [0x61, 0x62, 0x3D, 0x31, 0x32, 0x20, 0x78] 2) = some ⟨3, 5⟩ ∧
    Schema.standard.locator 2 (.inText [0x61, 0x62, 0x3D, 0x31, 0x32, 0x20, 0x78] 5) = none := by decide +kernel

end EncodedMessage

end LogCodec
