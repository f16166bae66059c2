import LogCodec.Proofs.RangedChoices
import LogCodec.Proofs.Subqueries

/-!
# `LogCodec.Proofs.RangedTokens`: the tokens of a query by their ranges

Tokens are found by going through the units with an index, and the parts of a query by cutting the list of its symbols.
Both come to the same: the index stands behind the symbols that have been cut off.  The buffer goes along, and a token
finds nothing in it but the query and the values of the tokens before, which start further to the left.

## Contents
- `runEnd_append` and `byteBefore_append`: the index behind some symbols; `tokensFrom_gap` and `tokensFrom_run`, for one
  part.
- `Store.fillParts`, the store behind some parts; `buffer_fillParts`.
- `ReadPart.token`: a part by its ranges; `heldTokens`, and `tokensOf`, for some parts.
- `tokensFrom_units`: the tokens are the parts that are not always static.
- `tokenize`, the tokens of a query, with `tokenize_eq`; `buildWithin` and `decomposeInPlace_of_tokenize`.
-/

namespace LogCodec.Query

/-! ## The index -/

section
variable {schema : Schema} {units : List PlacedSymbol} {front members rest : Pattern} {s : Symbol}

/-- The unit behind some symbols. -/
theorem symbol_unit (hunits : units.map PlacedSymbol.symbol = front ++ s :: rest) :
    ∃ h : front.length < units.length, units[front.length].symbol = s := by
  have hunit : (units.map PlacedSymbol.symbol)[front.length]? = some s := by
    rw [hunits]
    simp
  rw [List.getElem?_map, Option.map_eq_some_iff] at hunit
  obtain ⟨unit, hunit, hs⟩ := hunit
  obtain ⟨h, heq⟩ := List.getElem?_eq_some_iff.mp hunit
  exact ⟨h, by rw [heq, hs]⟩

/-- A run of members of tokens ends where the next symbol is none. -/
theorem runEnd_append (hunits : units.map PlacedSymbol.symbol = front ++ (members ++ rest))
    (hmembers : ∀ s ∈ members, inToken schema s = true)
    (hrest : ∀ s, rest.head? = some s → inToken schema s = false) :
    runEnd schema units front.length = front.length + members.length := by
  induction members generalizing front with
  | nil =>
    rw [runEnd]
    cases rest with
    | nil =>
      have hlength := congrArg List.length hunits
      simp only [List.length_map, List.append_nil] at hlength
      rw [dif_neg (by omega)]
      rfl
    | cons s rest =>
      obtain ⟨h, hs⟩ := symbol_unit hunits
      rw [dif_pos h, hs, hrest s rfl]
      rfl
  | cons s members ih =>
    obtain ⟨hs, hlater⟩ := List.forall_mem_cons.mp hmembers
    obtain ⟨h, hunit⟩ := symbol_unit hunits
    have hbehind : units.map PlacedSymbol.symbol = (front ++ [s]) ++ (members ++ rest) := by
      rw [hunits]
      simp
    have hnext := ih hbehind hlater
    rw [List.length_append, List.length_singleton] at hnext
    rw [runEnd, dif_pos h, hunit, hs, if_pos rfl, hnext, List.length_cons]
    omega

/-- Delimiters are passed by. -/
theorem tokensFrom_gap (width : Width) (limit : UInt64) (store : Store)
    (hunits : units.map PlacedSymbol.symbol = front ++ (members ++ rest))
    (hmembers : ∀ s ∈ members, inToken schema s = false) :
    tokensFrom schema width limit units front.length store =
      tokensFrom schema width limit units (front ++ members).length store := by
  induction members generalizing front with
  | nil => rw [List.append_nil]
  | cons s members ih =>
    obtain ⟨hs, hlater⟩ := List.forall_mem_cons.mp hmembers
    obtain ⟨h, hunit⟩ := symbol_unit hunits
    have hbehind : units.map PlacedSymbol.symbol = (front ++ [s]) ++ (members ++ rest) := by
      rw [hunits]
      simp
    have hnext := ih hbehind hlater
    rw [List.length_append, List.length_singleton] at hnext
    rw [tokensFrom, dif_pos h, dif_neg (by rw [hunit, hs]; exact Bool.false_ne_true), hnext, List.append_assoc]
    rfl

/-- The byte before a unit is the last literal before it. -/
theorem byteBefore_append (hunits : units.map PlacedSymbol.symbol = front ++ rest) :
    byteBefore units front.length = .ok (front.getLast?.bind Symbol.literal?) := by
  cases front using List.reverseRecOn with
  | nil => rfl
  | append_singleton front s =>
    rw [List.append_assoc] at hunits
    obtain ⟨h, hunit⟩ := symbol_unit hunits
    rw [List.length_append, List.length_singleton, byteBefore, itemAt_eq_ok (List.getElem?_eq_getElem h),
      List.getLast?_concat]
    show Except.ok (units[front.length].symbol.literal?) = _
    rw [hunit]
    rfl

/-- The units of a part stand in the middle of those of the query. -/
theorem partOf_units (front members rest : Pattern) :
    partOf (Piece.units ⟨0, front ++ (members ++ rest)⟩) ⟨front.length, front.length + members.length⟩ =
      .ok (Piece.units ⟨front.spell.length, members⟩) := by
  have hstands : StandsAt (Piece.units ⟨0, front ++ (members ++ rest)⟩) front.length
      (Piece.units ⟨front.spell.length, members⟩) := by
    refine ⟨Piece.units ⟨0, front⟩, Piece.units ⟨front.spell.length + members.spell.length, rest⟩, ?_,
      Piece.length_units _⟩
    rw [Piece.units_append, Nat.zero_add, Piece.units_append]
  have hpart := hstands.partOf_eq
  rwa [Piece.length_units] at hpart

/-- A run of members of tokens is a token. -/
theorem tokensFrom_run (width : Width) (limit : UInt64) (store : Store) {p : Piece} (hstart : p.start = front.spell.length)
    (hne : p.symbols ≠ []) (hmembers : ∀ s ∈ p.symbols, inToken schema s = true)
    (hrest : ∀ s, rest.head? = some s → inToken schema s = false) :
    tokensFrom schema width limit (Piece.units ⟨0, front ++ (p.symbols ++ rest)⟩) front.length store =
      (store.choices schema width limit p.units (front.getLast?.bind Symbol.literal?)).bind fun (choices, store) =>
        (tokensFrom schema width limit (Piece.units ⟨0, front ++ (p.symbols ++ rest)⟩) (front ++ p.symbols).length
          store).map fun (later, store) =>
            (if isAlwaysStatic choices then later else ⟨⟨p.start, p.stop⟩, choices⟩ :: later, store) := by
  have hunits := Piece.map_symbol_units ⟨0, front ++ (p.symbols ++ rest)⟩
  have hrun := runEnd_append hunits hmembers hrest
  have hends := p.ends_units hne
  have hpart : partOf (Piece.units ⟨0, front ++ (p.symbols ++ rest)⟩) ⟨front.length, front.length + p.symbols.length⟩ =
      .ok p.units := by
    rw [partOf_units, ← hstart]
  obtain ⟨h, hmember⟩ : ∃ h : front.length < (Piece.units ⟨0, front ++ (p.symbols ++ rest)⟩).length,
      inToken schema (Piece.units ⟨0, front ++ (p.symbols ++ rest)⟩)[front.length].symbol = true := by
    obtain ⟨s, more, hs⟩ := List.exists_cons_of_ne_nil hne
    have hfirst : (Piece.units ⟨0, front ++ (p.symbols ++ rest)⟩).map PlacedSymbol.symbol =
        front ++ s :: (more ++ rest) := by
      rw [hunits, hs]
      rfl
    obtain ⟨h, hunit⟩ := symbol_unit hfirst
    exact ⟨h, by rw [hunit]; exact hmembers s (by rw [hs]; exact List.mem_cons_self)⟩
  rw [tokensFrom, dif_pos h, dif_pos hmember, hrun, hpart, byteBefore_append hunits, List.length_append]
  show (itemAt p.units 0 >>= fun first => itemAt p.units (p.units.length - 1) >>= fun last =>
    store.choices schema width limit p.units _ >>= _) = _
  rw [itemAt_eq_ok hends.1, itemAt_eq_ok hends.2]
  cases store.choices schema width limit p.units (front.getLast?.bind Symbol.literal?) with
  | error stop => rfl
  | ok found =>
    obtain ⟨choices, store⟩ := found
    show (tokensFrom schema width limit _ _ store >>= _) = Except.map _ (tokensFrom schema width limit _ _ store)
    cases tokensFrom schema width limit (Piece.units ⟨0, front ++ (p.symbols ++ rest)⟩)
      (front.length + p.symbols.length) store with
    | error stop => rfl
    | ok found =>
      obtain ⟨later, store⟩ := found
      show (if isAlwaysStatic choices then .ok (later, store)
        else .ok (⟨⟨p.place 0, p.place p.symbols.length⟩, choices⟩ :: later, store) : Except Stop _) = Except.ok _
      rw [p.place_length, p.place_zero]
      split <;> rfl

end

/-! ## The store behind some parts -/

namespace Store

variable {schema : Schema}

/-- The store behind the values of some parts. -/
def fillParts (schema : Schema) (store : Store) (parts : List Part) : Store :=
  parts.foldl (fun store part => store.fill part.piece (part.appended schema)) store

theorem buffer_fillParts (store : Store) (parts : List Part) :
    (store.fillParts schema parts).buffer =
      store.buffer ++ parts.flatMap fun part => part.piece.values (part.appended schema) := by
  induction parts generalizing store with
  | nil => exact (List.append_nil _).symm
  | cons part parts ih =>
    have hrest := ih (store.fill part.piece (part.appended schema))
    rw [List.flatMap_cons, ← List.append_assoc]
    exact hrest

/-- What is appended for a token are values of its parts. -/
theorem has_appended {p : Piece} {precededBy : Option UInt8} :
    ∀ s ∈ Part.appended schema (.token p precededBy), p.Has s := by
  rw [← met_eq_appended]
  refine Piece.has_met (by simp) ?_
  intro cut hcut
  obtain ⟨selected, hselected, hmem⟩ := List.mem_flatMap.mp hcut
  have htiles := tiles_cuts (mem_selections.mp hselected) precededBy
  exact has_of_tiles htiles _ (List.mem_map_of_mem hmem)

/-- Behind the values of a piece nothing is known of what lies to the right of the piece. -/
theorem start_lt_of_fill {store : Store} {p : Piece} {seen : List Span} (hbefore : store.IsBefore p)
    (hseen : ∀ s ∈ seen, p.Has s) : ∀ entry ∈ (store.fill p seen).values, entry.1.start < p.stop := by
  intro entry hentry
  rcases List.mem_append.mp hentry with hentry | hentry
  · have hstart := hbefore entry hentry
    have hle : p.start ≤ p.stop := Nat.le_add_right _ _
    omega
  · obtain ⟨span, hspan, rfl⟩ := List.mem_map.mp hentry
    obtain ⟨hne, hstop⟩ := hseen span hspan
    have hlt := p.place_lt_place hne (Nat.lt_of_lt_of_le hne hstop)
    have hle := p.place_le_place hstop
    rw [p.place_length] at hle
    exact Nat.lt_of_lt_of_le hlt hle

end Store

/-! ## Tokens -/

/-- A part of a query by its ranges. -/
def ReadPart.token (width : Width) (p : ReadPart) : QueryToken :=
  ⟨⟨p.piece.start, p.piece.stop⟩, p.readings.map (List.map (p.piece.ranged width p.filled p.appended))⟩

/-- The parts of a query that hold a variable in some reading, by their ranges. -/
def heldTokens (width : Width) (ps : List ReadPart) : List QueryToken :=
  (ps.map (ReadPart.token width)).filter fun token => !isAlwaysStatic token.choices

/-- The parts of a query are read one after the other. -/
theorem readParts_cons (schema : Schema) (limit filled : Nat) (part : Part) (rest : List Part) :
    readParts schema limit filled (part :: rest) =
      (part.readings schema limit).bind fun readings =>
        (readParts schema limit (filled + (part.piece.values (part.appended schema)).length) rest).map
          (⟨part.piece, readings, filled, part.appended schema⟩ :: ·) := by
  rw [readParts]
  cases part.readings schema limit with
  | none => rfl
  | some readings =>
    simp only [Option.bind_eq_bind, Option.bind_some]
    cases readParts schema limit (filled + (part.piece.values (part.appended schema)).length) rest <;> rfl

theorem heldTokens_cons (width : Width) (p : ReadPart) (ps : List ReadPart) :
    heldTokens width (p :: ps) =
      if isAlwaysStatic (p.token width).choices then heldTokens width ps
      else p.token width :: heldTokens width ps := by
  unfold heldTokens
  rw [List.map_cons, List.filter_cons]
  cases isAlwaysStatic (p.token width).choices <;> rfl

/-- The tokens of some parts, and the store behind them. -/
def tokensOf (schema : Schema) (width : Width) (limit : UInt64) (store : Store) (parts : List Part) :
    Except Stop (List QueryToken × Store) :=
  (orTooMany limit (readParts schema limit.toNat store.buffer.length parts)).map fun ps =>
    (heldTokens width ps, store.fillParts schema parts)

section
variable {schema : Schema} {width : Width} {limit : UInt64} {store : Store} {parts : List Part}

theorem tokensOf_cons (part : Part) :
    tokensOf schema width limit store (part :: parts) =
      (orTooMany limit (part.readings schema limit.toNat)).bind fun readings =>
        let token := ReadPart.token width ⟨part.piece, readings, store.buffer.length, part.appended schema⟩
        (tokensOf schema width limit (store.fill part.piece (part.appended schema)) parts).map fun (later, store) =>
          (if isAlwaysStatic token.choices then later else token :: later, store) := by
  have hfilled : (store.fill part.piece (part.appended schema)).buffer.length =
      store.buffer.length + (part.piece.values (part.appended schema)).length := List.length_append
  unfold tokensOf
  rw [readParts_cons, hfilled]
  cases part.readings schema limit.toNat with
  | none => rfl
  | some readings =>
    rw [Option.bind_some]
    cases readParts schema limit.toNat (store.buffer.length + (part.piece.values (part.appended schema)).length) parts with
    | none => rfl
    | some ps =>
      show Except.ok (heldTokens width (_ :: ps), _) = Except.ok _
      rw [heldTokens_cons]
      rfl

/-- A gap is always static text. -/
theorem tokensOf_gap (piece : Piece) :
    tokensOf schema width limit store (.gap piece :: parts) = tokensOf schema width limit store parts := by
  rw [tokensOf_cons]
  show (tokensOf schema width limit (store.fill piece []) parts).map (fun (later, store) => (later, store)) = _
  rw [Store.fill_nil]
  cases tokensOf schema width limit store parts <;> rfl

/-- **Going through the units of a query finds its parts**, all but those that are always static. -/
theorem tokensFrom_units {start : Nat} {precededBy : Option UInt8} {front rest : Pattern}
    (hstart : start = front.spell.length) (hprecededBy : precededBy = front.getLast?.bind Symbol.literal?)
    (hbefore : ∀ entry ∈ store.values, entry.1.start < start)
    (hfilled : (front ++ rest).spell.length ≤ store.buffer.length) :
    tokensFrom schema width limit (Piece.units ⟨0, front ++ rest⟩) front.length store =
      tokensOf schema width limit store (partsFrom schema start precededBy rest) := by
  induction hlength : rest.length using Nat.strong_induction_on generalizing start precededBy front rest store with
  | h length ih =>
    by_cases hne : rest = []
    · rw [hne, partsFrom, tokensFrom, dif_neg (by simp [Piece.length_units])]
      rfl
    · obtain ⟨member, members, later, rfl, hmembers, hsame, hhead, hparts⟩ :=
        exists_first_part schema start precededBy hne
      let piece : Piece := ⟨start, members⟩
      have hunits : (Piece.units ⟨0, front ++ (members ++ later)⟩).map PlacedSymbol.symbol =
          front ++ (members ++ later) := Piece.map_symbol_units _
      have hshorter : later.length < length := by
        have hpos := List.length_pos_iff.mpr hmembers
        rw [List.length_append] at hlength
        omega
      have hstop : piece.stop = (Pattern.spell (front ++ members)).length := by
        rw [Pattern.spell_append, List.length_append, ← hstart]
        rfl
      have hlast : members.getLast?.bind Symbol.literal? = (front ++ members).getLast?.bind Symbol.literal? := by
        rw [List.getLast?_append_of_ne_nil _ hmembers]
      have hfits : (front ++ members ++ later).spell.length ≤ store.buffer.length := by
        rwa [List.append_assoc]
      rw [hparts]
      cases member with
      | false =>
        have hlater := ih later.length hshorter hstop hlast
          (fun entry hentry => Nat.lt_of_lt_of_le (hbefore entry hentry) (Nat.le_add_right _ _)) hfits rfl
        rw [List.append_assoc] at hlater
        rw [tokensFrom_gap width limit store hunits hsame, hlater]
        exact (tokensOf_gap piece).symm
      | true =>
        have hpieceFits : piece.stop ≤ store.buffer.length := by
          rw [Pattern.spell_append, List.length_append, ← hstop] at hfits
          omega
        have hseen := @Store.has_appended schema piece precededBy
        have hbehind : ∀ entry ∈ (store.fill piece (Part.appended schema (.token piece precededBy))).values,
            entry.1.start < piece.stop := Store.start_lt_of_fill hbefore hseen
        have hlater := ih later.length hshorter hstop hlast hbehind
          (Nat.le_trans hfits (by simp [Store.fill])) rfl
        rw [List.append_assoc] at hlater
        have hrun := @tokensFrom_run schema front later width limit store piece hstart hmembers hsame hhead
        have hchoices := @Store.choices_fill store piece schema width limit precededBy hbefore hpieceFits
        rw [← hprecededBy, hchoices] at hrun
        rw [hrun, if_pos rfl, tokensOf_cons]
        show _ = (orTooMany limit (piece.readings schema limit.toNat precededBy)).bind _
        cases piece.readings schema limit.toNat precededBy with
        | none => rfl
        | some readings =>
          show Except.map _ (tokensFrom schema width limit _ _ _) = _
          rw [hlater]
          rfl

end

/-! ## Queries -/

/-- The tokens of a query, and the buffer behind them. -/
def tokenize (schema : Schema) (width : Width) (limit : UInt64) (query : Bytes) :
    Except Stop (List QueryToken × Store) := do
  let normal := Wildcard.normalizeFrom false query
  let units ← unitsFrom normal 0
  tokensFrom schema width limit units 0 ⟨normal, []⟩

/-- The subqueries that are built of the tokens of a query, if there are not too many; `length` is the number of bytes of
the query, with which the buffer starts. -/
def buildWithin (limit : UInt64) (length : Nat) (tokens : List QueryToken) (store : Store) :
    Except Stop (List BuiltSubquery) :=
  match tokens.foldlM (fun total token => mulWord total token.choices.length) 1 with
  | none => tooMany limit
  | some total =>
    if limit.toNat < total then tooMany limit
    else do
      let text ← partOf store.buffer ⟨0, length⟩
      buildAll (build store.buffer text tokens) (tokens.map (·.choices.length)) (tokens.map fun _ => 0)

/-- To take a query apart is to find its tokens and then to build what there is of them. -/
theorem decomposeInPlace_of_tokenize (schema : Schema) (width : Width) (limit : UInt64) (query : Bytes) :
    decomposeInPlace schema width limit query =
      (if Wildcard.normalizeFrom false query = [] then .error (.refused .empty)
      else do
        let (tokens, store) ← tokenize schema width limit query
        buildWithin limit (Wildcard.normalizeFrom false query).length tokens store) := by
  simp only [decomposeInPlace, tokenize, bind_assoc]
  rfl

theorem normalizeFrom_eq_spell (query : Bytes) : Wildcard.normalizeFrom false query = (Pattern.ofQuery query).spell :=
  (Wildcard.normalizeFrom_eq query).1

/-- **The tokens of a query are its parts**, all but those that are always static. -/
theorem tokenize_eq (schema : Schema) (width : Width) (limit : UInt64) (query : Bytes) :
    tokenize schema width limit query =
      (orTooMany limit (readParts schema limit.toNat (Pattern.ofQuery query).spell.length
        (parts schema (Pattern.ofQuery query)))).map fun ps =>
          (heldTokens width ps,
            Store.fillParts schema ⟨(Pattern.ofQuery query).spell, []⟩ (parts schema (Pattern.ofQuery query))) := by
  rw [tokenize, normalizeFrom_eq_spell, unitsFrom_eq]
  exact @tokensFrom_units schema width limit ⟨(Pattern.ofQuery query).spell, []⟩ 0 none [] (Pattern.ofQuery query) rfl
    rfl (by simp) (Nat.le_refl _)

end LogCodec.Query
