import LogCodec.Proofs.Limits
import LogCodec.Proofs.WireForm

/-!
# `LogCodec.Proofs.Escapes`: what a search in logtypes misses

A byte of static text that takes an escape is two bytes of a logtype, and a `?` is one.  So the query that spells a
message and has a `?` for such a byte matches the message and does not find it: the literals around the `?` leave no
other way to lay the pattern along the logtype, whatever the token with the `?` is read as.  Messages in whose static
text no byte takes an escape are found by every query that they match.

## Contents
- **Literals.** Patterns with literals at the front and at the end.
- **The token with the wildcard.** `symbols_of_splits`: what it asks of the logtype.
- **Missed messages.** `not_matches_wire`, and `exists_matchesWire_iff`, the condition for a search to find whatever
  matches.
-/

namespace LogCodec

/-! ## Literals -/

namespace Pattern

variable {bytes text : Bytes} {p : Pattern}

theorem matches_literals_append_iff :
    Matches (bytes.map .literal ++ p) text ↔ ∃ rest, text = bytes ++ rest ∧ Matches p rest := by
  induction bytes generalizing text with
  | nil => simp
  | cons b bytes ih =>
    show (∃ rest, text = b :: rest ∧ Matches (bytes.map .literal ++ p) rest) ↔ _
    simp only [ih]
    constructor
    · rintro ⟨_, rfl, rest, rfl, h⟩
      exact ⟨rest, rfl, h⟩
    · rintro ⟨rest, rfl, h⟩
      exact ⟨bytes ++ rest, rfl, rest, rfl, h⟩

/-- Literals at the end of a pattern stand at the end of what it matches. -/
theorem matches_of_append_literals (h : Matches (p ++ bytes.map .literal) (text ++ bytes)) : Matches p text := by
  rw [matches_iff_covers, covers_append] at h
  obtain ⟨front, back, htext, hfront, hback⟩ := h
  rw [← matches_iff_covers] at hfront hback
  rw [matches_literals_iff] at hback
  rw [hback] at htext
  rwa [List.append_cancel_right htext]

/-- One wildcard for a byte between literals. -/
theorem matches_any_iff {back : Bytes} :
    Matches (bytes.map .literal ++ .any :: back.map .literal) text ↔ ∃ b, text = bytes ++ b :: back := by
  rw [matches_literals_append_iff]
  constructor
  · rintro ⟨_, rfl, b, rest, rfl, h⟩
    rw [matches_literals_iff.mp h]
    exact ⟨b, rfl⟩
  · rintro ⟨b, rfl⟩
    exact ⟨b :: back, rfl, b, back, rfl, matches_literals_iff.mpr rfl⟩

end Pattern

namespace Logtype

theorem length_le_writeText (text : Bytes) : text.length ≤ (writeText text).length := by
  induction text with
  | nil => exact Nat.le_refl 0
  | cons b text ih =>
    have := length_writeByte_pos b
    rw [writeText, List.flatMap_cons, List.length_append, List.length_cons, ← writeText]
    omega

theorem writeText_ne_nil {text : Bytes} (hne : text ≠ []) : writeText text ≠ [] := by
  intro h
  have hlength := length_le_writeText text
  rw [h] at hlength
  exact hne (List.length_eq_zero_iff.mp (Nat.le_zero.mp hlength))

/-- Static text is not written with a placeholder at its start. -/
theorem writeText_ne_placeholder (text : Bytes) (kind : Placeholder) (rest : Bytes) :
    writeText text ≠ kind.toByte :: rest := by
  intro h
  cases text with
  | nil => cases h
  | cons b text =>
    rw [writeText, List.flatMap_cons, writeByte] at h
    split at h
    · have hbyte : escapeByte = kind.toByte := (List.cons.inj h).1
      rcases kind with (_ | _) | _ <;> cases hbyte
    · next hb =>
      refine hb ?_
      rw [(List.cons.inj h).1]
      exact needsEscape_toByte kind

end Logtype

section

variable {items more : List Item} {as rest : List Atom}

/-- Items that show atoms at the front leave the rest to be matched. -/
theorem Item.matches_symbols_append (h : List.Forall₂ Item.Shows items as)
    (hmatches : Pattern.Matches ((items ++ more).flatMap symbols) ((as ++ rest).flatMap Atom.wire)) :
    Pattern.Matches (more.flatMap symbols) (rest.flatMap Atom.wire) := by
  rw [List.flatMap_append, List.flatMap_append, symbols_of_shows h, Pattern.matches_literals_append_iff] at hmatches
  obtain ⟨behind, hbehind, hmore⟩ := hmatches
  rwa [List.append_cancel_left hbehind]

/-- Items that show atoms at the end leave the front to be matched. -/
theorem Item.matches_append_symbols (h : List.Forall₂ Item.Shows items as)
    (hmatches : Pattern.Matches ((more ++ items).flatMap symbols) ((rest ++ as).flatMap Atom.wire)) :
    Pattern.Matches (more.flatMap symbols) (rest.flatMap Atom.wire) := by
  rw [List.flatMap_append, List.flatMap_append, symbols_of_shows h] at hmatches
  exact Pattern.matches_of_append_literals hmatches

end

namespace Query

/-! ## The token with the wildcard -/

section

variable {schema : Schema} {width : Width} {precededBy : Option UInt8} {left right run : Bytes} {p : ReadPart}
  {segments : List Segment} {span : Span}

theorem splitPoints_any (left right : Bytes) :
    splitPoints (left.map .literal ++ .any :: right.map .literal) = [.any left.length] := by
  have hfrom : ∀ index, splitPointsFrom index (left.map .literal ++ .any :: right.map .literal) =
      [.any (index + left.length)] := by
    induction left with
    | nil =>
      intro index
      show .any index :: splitPointsFrom (index + 1) (right.map .literal) = [.any (index + 0)]
      rw [splitPointsFrom_literals]
      rfl
    | cons b left ih =>
      intro index
      show splitPointsFrom (index + 1) (left.map .literal ++ .any :: right.map .literal) = _
      rw [ih, List.length_cons, Nat.add_right_comm, Nat.add_assoc index]
  rw [splitPoints, hfrom, Nat.zero_add]

/-- Static text asks for its bytes as they are written. -/
theorem symbols_literals (run : Bytes) :
    ((run.map Symbol.literal).map Item.ofSymbol).flatMap Item.symbols = (Logtype.writeText run).map .literal := by
  rw [Logtype.writeText, List.map_flatMap, List.flatMap_map, List.flatMap_map]
  rfl

theorem symbols_static (hslice : p.piece.slice span = run.map .literal) :
    (p.items width (.static span)).flatMap Item.symbols = (Logtype.writeText run).map .literal := by
  rw [← symbols_literals, ← hslice]
  rfl

/-- The segments for a piece without wildcards behind a known byte ask for its fields as they are written. -/
theorem symbols_of_known (hslice : p.piece.slice ⟨0, run.length⟩ = run.map .literal)
    (h : List.Forall₂ (fun segment cut => segment ∈ Cut.alternatives schema p.piece cut) segments
      (cutBetween 0 run.length (.known precededBy))) :
    (segments.flatMap (p.items width)).flatMap Item.symbols =
      (((schema.runFields id precededBy run).map (Field.atom width)).flatMap Atom.wire).map .literal := by
  unfold cutBetween at h
  split at h
  · next hpos =>
    cases h with
    | @cons segment _ segments _ hsegment h =>
      cases h
      have hsegment : segment = segmentAfter schema precededBy run := by
        rw [alternatives_known hslice, List.mem_singleton] at hsegment
        exact hsegment
      rw [hsegment, List.flatMap_singleton]
      exact Item.symbols_of_shows (shows_segmentAfter hslice (List.length_pos_iff.mp hpos))
  · next hnil =>
    cases h
    rw [List.length_eq_zero_iff.mp (Nat.eq_zero_of_not_pos hnil)]
    rfl

/-- The segments for a piece without wildcards behind a split ask for its bytes as they are written, or for a
placeholder. -/
theorem symbols_of_split (hslice : p.piece.slice span = run.map .literal)
    (h : List.Forall₂ (fun segment cut => segment ∈ Cut.alternatives schema p.piece cut) segments
      (cutBetween span.start span.stop .split)) (hnil : span.stop ≤ span.start ↔ run = []) :
    (segments.flatMap (p.items width)).flatMap Item.symbols = (Logtype.writeText run).map .literal ∨
      run ≠ [] ∧ ∃ kind : Placeholder, (segments.flatMap (p.items width)).flatMap Item.symbols =
        [kind.toByte].map .literal := by
  unfold cutBetween at h
  split at h
  · next hlt =>
    cases h with
    | @cons segment _ segments _ hsegment h =>
      cases h
      have hne : run ≠ [] := fun h => Nat.not_le_of_lt hlt (hnil.mpr h)
      rw [List.flatMap_singleton]
      simp only [Cut.alternatives, hslice, isExact_literals, if_true] at hsegment
      rcases mem_exactAlternatives hsegment with rfl | rfl
      · exact .inl (symbols_static hslice)
      · exact .inr ⟨hne, _, rfl⟩
  · next hge =>
    cases h
    rw [hnil.mp (Nat.le_of_not_lt hge)]
    exact .inl rfl

section

variable (hsymbols : p.piece.symbols = left.map .literal ++ .any :: right.map .literal)

include hsymbols

theorem length_symbols : p.piece.symbols.length = left.length + 1 + right.length := by
  rw [hsymbols, List.length_append, List.length_cons, List.length_map, List.length_map]
  omega

theorem slice_right : p.piece.slice ⟨left.length + 1, p.piece.symbols.length⟩ = right.map .literal := by
  have hfront : (left.map Symbol.literal ++ [Symbol.any]).length = left.length + 1 := by simp
  have hcut : p.piece.symbols = (left.map .literal ++ [.any]) ++ right.map .literal := by simp [hsymbols]
  rw [Piece.slice, Span.slice, Span.length, length_symbols hsymbols, Nat.add_sub_cancel_left, hcut,
    List.drop_left' hfront, List.take_of_length_le (Nat.le_of_eq (List.length_map _))]

/-- In one piece, a token with one `?` asks for its bytes with any byte of the logtype for the wildcard, or for a
placeholder. -/
theorem symbols_of_whole
    (hall : List.Forall₂ (fun segment cut => segment ∈ Cut.alternatives schema p.piece cut) segments
      (cuts p.piece.symbols.length precededBy [])) :
    (∃ kind : Placeholder, (segments.flatMap (p.items width)).flatMap Item.symbols = [kind.toByte].map .literal) ∨
      (segments.flatMap (p.items width)).flatMap Item.symbols =
        (Logtype.writeText left).map .literal ++ .any :: (Logtype.writeText right).map .literal := by
  have hslice : p.piece.slice ⟨0, p.piece.symbols.length⟩ = p.piece.symbols := Span.slice_all _
  have hexact : p.piece.symbols.isExact = false := by
    rw [hsymbols, Pattern.isExact, List.all_append]
    exact Bool.and_false _
  have hpos : 0 < p.piece.symbols.length := by
    rw [length_symbols hsymbols]
    omega
  rw [cuts, cutsFrom, cutBetween, if_pos hpos] at hall
  cases hall with
  | @cons segment _ segments _ hsegment hall =>
    cases hall
    rw [List.flatMap_singleton]
    simp only [Cut.alternatives, hslice, hexact] at hsegment
    rcases mem_wildcardAlternatives hsegment with rfl | ⟨kind, rfl⟩
    · right
      show ((p.piece.slice ⟨0, p.piece.symbols.length⟩).map Item.ofSymbol).flatMap Item.symbols = _
      rw [hslice, hsymbols, List.map_append, List.flatMap_append, symbols_literals, List.map_cons, List.flatMap_cons,
        symbols_literals]
      rfl
    · left
      have hstar : p.piece.symbols.StarFree := by simp [Pattern.StarFree, hsymbols]
      refine ⟨kind, ?_⟩
      rw [ReadPart.items, hslice, startsWithStar_of_starFree hstar, endsWithStar_of_starFree hstar]
      rfl

/-- Cut at its `?`, a token asks for the fields in front of the wildcard as they are written, for any byte of the
logtype, and for what the bytes behind it may be. -/
theorem symbols_of_cut
    (hall : List.Forall₂ (fun segment cut => segment ∈ Cut.alternatives schema p.piece cut) segments
      (cuts p.piece.symbols.length precededBy [.any left.length])) :
    ∃ back, (segments.flatMap (p.items width)).flatMap Item.symbols =
        (((schema.runFields id precededBy left).map (Field.atom width)).flatMap Atom.wire).map .literal ++
          .any :: back.map .literal ∧
      (back = Logtype.writeText right ∨ right ≠ [] ∧ ∃ kind : Placeholder, back = [kind.toByte]) := by
  have hleft : p.piece.slice ⟨0, left.length⟩ = left.map .literal := by
    simp [Piece.slice, Span.slice, Span.length, hsymbols]
  have hany : p.piece.slice ⟨left.length, left.length + 1⟩ = [.any] := Span.slice_singleton (by simp [hsymbols])
  have hnil : p.piece.symbols.length ≤ left.length + 1 ↔ right = [] := by
    rw [← List.length_eq_zero_iff, length_symbols hsymbols]
    omega
  -- The segments for the piece in front of the wildcard, and those for the wildcard and what is behind it.
  obtain ⟨front, rest, rfl, hfront, hrest⟩ : ∃ front rest, segments = front ++ rest ∧
      List.Forall₂ (fun segment cut => segment ∈ Cut.alternatives schema p.piece cut) front
        (cutBetween 0 left.length (.known precededBy)) ∧
      List.Forall₂ (fun segment cut => segment ∈ Cut.alternatives schema p.piece cut) rest
        (.delimiter left.length :: cutBetween (left.length + 1) p.piece.symbols.length .split) :=
    ⟨_, _, (List.take_append_drop _ _).symm, List.forall₂_take_append _ _ _ hall, List.forall₂_drop_append _ _ _ hall⟩
  cases hrest with
  | @cons segment _ back _ hsegment hback =>
    have hdelimiter : (p.items width segment).flatMap Item.symbols = [.any] := by
      rw [List.mem_singleton.mp hsegment]
      show ((p.piece.slice ⟨left.length, left.length + 1⟩).map Item.ofSymbol).flatMap Item.symbols = _
      rw [hany]
      rfl
    have hbehind := @symbols_of_split schema width right p back _ (slice_right hsymbols) hback hnil
    rw [List.flatMap_append, List.flatMap_append, List.flatMap_cons, List.flatMap_append, hdelimiter,
      symbols_of_known hleft hfront]
    rcases hbehind with hbehind | ⟨hne, kind, hbehind⟩
    · exact ⟨_, by rw [hbehind]; rfl, .inl rfl⟩
    · exact ⟨_, by rw [hbehind]; rfl, .inr ⟨hne, kind, rfl⟩⟩

/-- The symbols that a token with one `?` asks of the logtype.  Where it is a variable in one piece this is a
placeholder.  Otherwise the `?` stands for one byte of the logtype; what is on either side of it is static text, or a
variable, and the bytes in front of the `?` are a variable only if they are one in a message. -/
theorem symbols_of_splits (hsplits : p.piece.Splits schema precededBy segments) :
    (∃ kind : Placeholder, (segments.flatMap (p.items width)).flatMap Item.symbols = [kind.toByte].map .literal) ∨
      ∃ front back, (segments.flatMap (p.items width)).flatMap Item.symbols =
          front.map .literal ++ .any :: back.map .literal ∧
        (front = Logtype.writeText left ∨
          front = ((schema.runFields id precededBy left).map (Field.atom width)).flatMap Atom.wire) ∧
        (back = Logtype.writeText right ∨ right ≠ [] ∧ ∃ kind : Placeholder, back = [kind.toByte]) := by
  obtain ⟨selected, hselected, hall⟩ := hsplits
  rw [hsymbols, splitPoints_any, List.sublist_singleton] at hselected
  rcases hselected with rfl | rfl
  · rcases symbols_of_whole hsymbols hall with h | h
    · exact .inl h
    · exact .inr ⟨_, _, h, .inl rfl, .inl rfl⟩
  · obtain ⟨back, h, hback⟩ := symbols_of_cut hsymbols hall
    exact .inr ⟨_, back, h, .inr rfl, hback⟩

end

/-- Static text is written like a text, and a variable as a placeholder. -/
theorem wire_runFields (schema : Schema) (width : Width) (precededBy : Option UInt8) (run : Bytes) :
    ((schema.runFields id precededBy run).map (Field.atom width)).flatMap Atom.wire = Logtype.writeText run ∨
      run ≠ [] ∧ ∃ kind : Placeholder,
        ((schema.runFields id precededBy run).map (Field.atom width)).flatMap Atom.wire = [kind.toByte] := by
  unfold Schema.runFields
  split
  · next hrun =>
    rw [List.isEmpty_iff.mp hrun]
    exact .inl rfl
  · next hrun =>
    split
    · refine .inr ⟨fun hnil => hrun (List.isEmpty_iff.mpr hnil), ?_⟩
      show ∃ kind : Placeholder, (Atom.ofToken width run).wire ++ [] = [kind.toByte]
      unfold Atom.ofToken
      split
      · exact ⟨.number _, rfl⟩
      · exact ⟨.dictionary, rfl⟩
    · rw [List.flatMap_map, List.flatMap_map]
      exact .inl rfl

/-- A run is not written longer than the text, and not as nothing unless it is empty. -/
theorem length_wire_runFields (schema : Schema) (width : Width) (precededBy : Option UInt8) (run : Bytes) :
    (((schema.runFields id precededBy run).map (Field.atom width)).flatMap Atom.wire).length ≤
      (Logtype.writeText run).length := by
  rcases wire_runFields schema width precededBy run with h | ⟨hne, kind, h⟩
  · rw [h]
  · rw [h]
    exact Nat.le_trans (List.length_pos_iff.mpr hne) (Logtype.length_le_writeText run)

/-- A token with a `?` for a byte of static text that takes an escape does not fit what is written for the run with
that byte: the wildcard is too short. -/
theorem not_matches_member {b : UInt8} (hb : needsEscape b = true)
    (hsymbols : p.piece.symbols = left.map .literal ++ .any :: right.map .literal)
    (hsplits : p.piece.Splits schema precededBy segments) :
    ¬ Pattern.Matches ((segments.flatMap (p.items width)).flatMap Item.symbols)
      (Logtype.writeText (left ++ b :: right)) := by
  have hlength : (Logtype.writeText (left ++ b :: right)).length =
      (Logtype.writeText left).length + (2 + (Logtype.writeText right).length) := by
    simp only [Logtype.writeText, List.flatMap_append, List.flatMap_cons, List.length_append, Logtype.writeByte, hb,
      if_true, List.length_cons, List.length_nil]
  intro hmatches
  -- However the token is read, its symbols are fewer than the bytes: the escaped byte is two bytes.
  rcases symbols_of_splits hsymbols hsplits with ⟨kind, h⟩ | ⟨front, back, h, hfront, hback⟩
  · rw [h, Pattern.matches_literals_iff] at hmatches
    rw [hmatches, List.length_singleton] at hlength
    omega
  · rw [h, Pattern.matches_any_iff] at hmatches
    obtain ⟨c, htext⟩ := hmatches
    rw [htext, List.length_append, List.length_cons] at hlength
    have hfrontLength : front.length ≤ (Logtype.writeText left).length := by
      rcases hfront with rfl | rfl
      · exact Nat.le_refl _
      · exact length_wire_runFields ..
    have hbackLength : back.length ≤ (Logtype.writeText right).length := by
      rcases hback with rfl | ⟨hne, kind, rfl⟩
      · exact Nat.le_refl _
      · exact Nat.le_trans (List.length_pos_iff.mpr hne) (Logtype.length_le_writeText right)
    omega

/-- A token with a `?` for a delimiter that takes an escape does not fit what is written for the runs on either side and
the delimiter: behind the escape byte there would have to be another way to write what follows. -/
theorem not_matches_delimiter (kind : Placeholder)
    (hsymbols : p.piece.symbols = left.map .literal ++ .any :: right.map .literal)
    (hsplits : p.piece.Splits schema precededBy segments) :
    ¬ Pattern.Matches ((segments.flatMap (p.items width)).flatMap Item.symbols)
      (((schema.runFields id precededBy left ++ .byte kind.toByte :: schema.runFields id (some kind.toByte) right).map
        (Field.atom width)).flatMap Atom.wire) := by
  have hdelimiter : Logtype.writeByte kind.toByte = [escapeByte, kind.toByte] := by
    rw [Logtype.writeByte, Logtype.needsEscape_toByte]
    rfl
  have hwire : ((schema.runFields id precededBy left ++
      .byte kind.toByte :: schema.runFields id (some kind.toByte) right).map (Field.atom width)).flatMap Atom.wire =
        ((schema.runFields id precededBy left).map (Field.atom width)).flatMap Atom.wire ++ escapeByte :: kind.toByte ::
          ((schema.runFields id (some kind.toByte) right).map (Field.atom width)).flatMap Atom.wire := by
    rw [List.map_append, List.flatMap_append, List.map_cons, List.flatMap_cons, Field.atom, Atom.wire, hdelimiter]
    rfl
  rw [hwire]
  intro hmatches
  rcases symbols_of_splits hsymbols hsplits with ⟨other, h⟩ | ⟨front, back, h, hfront, hback⟩
  · rw [h, Pattern.matches_literals_iff] at hmatches
    have hlength := congrArg List.length hmatches
    simp only [List.length_append, List.length_cons, List.length_nil] at hlength
    omega
  · rw [h, Pattern.matches_any_iff] at hmatches
    obtain ⟨c, htext⟩ := hmatches
    -- What is in front of the wildcard is written as in the message.
    have hsame : front = ((schema.runFields id precededBy left).map (Field.atom width)).flatMap Atom.wire := by
      rcases hfront with rfl | rfl
      · rcases wire_runFields schema width precededBy left with hleft | ⟨hne, other, hleft⟩
        · exact hleft.symm
        · rw [hleft] at htext
          cases hwritten : Logtype.writeText left with
          | nil => exact absurd hwritten (Logtype.writeText_ne_nil hne)
          | cons first rest =>
            rw [hwritten, List.cons_append, List.cons_append, List.cons.injEq] at htext
            rw [← htext.1] at hwritten
            exact absurd hwritten (Logtype.writeText_ne_placeholder left other rest)
      · rfl
    rw [hsame] at htext
    -- The wildcard stands for the escape byte, so what is behind it starts with the placeholder byte.
    have hbehind := (List.cons.inj (List.append_cancel_left htext)).2
    rcases hback with rfl | ⟨hne, other, rfl⟩
    · exact Logtype.writeText_ne_placeholder right kind _ hbehind.symm
    · have hnil := (List.cons.inj hbehind).2
      rcases wire_runFields schema width (some kind.toByte) right with hright | ⟨-, _, hright⟩
      · rw [hright] at hnil
        exact Logtype.writeText_ne_nil hne hnil
      · rw [hright] at hnil
        cases hnil

end

/-! ## Missed messages -/

/-- A static byte behind the fields of a run is found among the fields behind them. -/
theorem exists_static_of_append {front back fields later : List (Field UInt8)} {b : UInt8} {run text : Bytes}
    (h : fields ++ later = front ++ .byte b :: back) (hrun : fields.flatMap Field.members = run)
    (hfront : front.flatMap Field.members = run ++ text) :
    ∃ front', later = front' ++ .byte b :: back ∧ front'.flatMap Field.members = text := by
  rcases List.append_eq_append_iff.mp h with ⟨more, rfl, hlater⟩ | ⟨more, rfl, hmore⟩
  · refine ⟨more, hlater, ?_⟩
    rw [List.flatMap_append, hrun] at hfront
    exact List.append_cancel_left hfront
  · rw [List.flatMap_append, hfront] at hrun
    cases more with
    | nil =>
      refine ⟨[], hmore.symm, ?_⟩
      rw [List.flatMap_nil, List.append_nil] at hrun
      exact (List.append_right_eq_self.mp hrun).symm
    | cons f more =>
      -- The byte lies behind the run and not in it.
      obtain rfl : f = .byte b := (List.cons.inj hmore).1.symm
      have hlength := congrArg List.length hrun
      simp only [List.flatMap_cons, Field.members, List.length_append, List.length_cons, List.length_nil] at hlength
      omega

/-- A part of a text with one `?` lies in front of the wildcard, or holds it. -/
theorem exists_cut {piece rest : Pattern} {front back : Bytes}
    (h : piece ++ rest = front.map .literal ++ .any :: back.map .literal) :
    (∃ run later, front = run ++ later ∧ piece = run.map .literal ∧
        rest = later.map .literal ++ .any :: back.map .literal) ∨
      ∃ right later, back = right ++ later ∧ piece = front.map .literal ++ .any :: right.map .literal ∧
        rest = later.map .literal := by
  rcases List.append_eq_append_iff.mp h with ⟨more, hfront, hrest⟩ | ⟨more, hpiece, hmore⟩
  · obtain ⟨run, later, rfl, hrun, hlater⟩ := List.map_eq_append_iff.mp hfront
    exact .inl ⟨run, later, rfl, hrun.symm, by rw [hrest, hlater]⟩
  · cases more with
    | nil =>
      rw [List.append_nil] at hpiece
      exact .inl ⟨front, [], (List.append_nil front).symm, hpiece, hmore.symm⟩
    | cons s more =>
      obtain ⟨rfl, hback⟩ := List.cons.inj hmore
      obtain ⟨right, later, rfl, hright, hlater⟩ := List.map_eq_append_iff.mp hback
      exact .inr ⟨right, later, rfl, by rw [hpiece, hright], hlater.symm⟩

section

variable {schema : Schema} {width : Width} {limit : Nat} {precededBy : Option UInt8} {front back : Bytes} {b : UInt8}

/-- The token with a `?` for a byte of static text that takes an escape does not fit what is written for the bytes that
it spells. -/
theorem not_matches_token (hescape : schema.isDelimiter escapeByte = false) (hb : needsEscape b = true) {p : ReadPart}
    {left right later : Bytes} {segments : List Segment} (hmembers : ∀ s ∈ p.piece.symbols, inToken schema s = true)
    (hsymbols : p.piece.symbols = left.map .literal ++ .any :: right.map .literal)
    (hsplits : p.piece.Splits schema precededBy segments)
    (hends : ∀ d, later.head? = some d → schema.isDelimiter (id d) = true) {other : Option UInt8} {items : List Item}
    (hshows : List.Forall₂ Item.Shows items ((schema.fieldsFrom id other [] later).map (Field.atom width)))
    {before behind : List (Field UInt8)}
    (hstatic : schema.fieldsFrom id precededBy [] (left ++ b :: (right ++ later)) = before ++ .byte b :: behind)
    (hbefore : before.flatMap Field.members = left) :
    ¬ Pattern.Matches ((segments.flatMap (p.items width) ++ items).flatMap Item.symbols)
      (((schema.fieldsFrom id precededBy [] (left ++ b :: (right ++ later))).map (Field.atom width)).flatMap
        Atom.wire) := by
  rw [hsymbols] at hmembers
  have hleft : ∀ c ∈ left, schema.isDelimiter (id c) = false :=
    not_isDelimiter_of_inToken fun s hs => hmembers s (List.mem_append_left _ hs)
  have hright : ∀ c ∈ right, schema.isDelimiter (id c) = false :=
    not_isDelimiter_of_inToken fun s hs => hmembers s (List.mem_append_right _ (List.mem_cons_of_mem _ hs))
  by_cases hdelimiter : schema.isDelimiter (id b) = true
  · obtain ⟨kind, rfl⟩ : ∃ kind : Placeholder, b = kind.toByte := by
      rw [needsEscape, isPlaceholder, Bool.or_eq_true, decide_eq_true_iff, Option.isSome_iff_exists] at hb
      rcases hb with rfl | ⟨kind, hkind⟩
      · rw [id, hescape] at hdelimiter
        cases hdelimiter
      · exact ⟨kind, (Placeholder.toByte_of_ofByte? hkind).symm⟩
    rw [Schema.fieldsFrom_append_delimiter hdelimiter, Schema.fieldsFrom_of_members hleft,
      Schema.fieldsFrom_append_of_ends hends other, Schema.fieldsFrom_of_members hright, ← List.cons_append,
      ← List.append_assoc, List.map_append]
    exact fun hmatches => not_matches_delimiter kind hsymbols hsplits (Item.matches_append_symbols hshows hmatches)
  · have hrun : ∀ c ∈ left ++ b :: right, schema.isDelimiter (id c) = false := by
      intro c hc
      rcases List.mem_append.mp hc with hc | hc
      · exact hleft c hc
      · rcases List.mem_cons.mp hc with rfl | hc
        · exact Bool.not_eq_true _ ▸ hdelimiter
        · exact hright c hc
    have hcut : left ++ b :: (right ++ later) = (left ++ b :: right) ++ later := by simp
    rw [hcut, Schema.fieldsFrom_append_of_ends hends other, Schema.fieldsFrom_of_members hrun,
      List.nil_append] at hstatic ⊢
    -- The run holds a byte of static text, so it is no variable.
    have hvariable : isVariableAfter schema precededBy ((left ++ b :: right).map id) = false := by
      by_contra hvariable
      rw [Bool.not_eq_false] at hvariable
      rw [Schema.runFields_of_variable (by simp) hvariable] at hstatic
      cases before with
      | nil => cases hstatic
      | cons f before =>
        obtain rfl : f = .token (left ++ b :: right) := (List.cons.inj hstatic).1.symm
        have hlength := congrArg List.length hbefore
        simp only [List.flatMap_cons, Field.members, List.length_append, List.length_cons] at hlength
        omega
    rw [Schema.runFields_of_static hvariable, List.map_append]
    intro hmatches
    have htoken := Item.matches_append_symbols hshows hmatches
    rw [List.flatMap_map, List.flatMap_map] at htoken
    exact not_matches_member hb hsymbols hsplits htoken

/-- **A `?` for a byte of static text that takes an escape does not fit the logtype**, if the rest of the query spells
the rest of the text. -/
theorem not_matches_wire (hescape : schema.isDelimiter escapeByte = false) (hb : needsEscape b = true)
    {symbols : Pattern} {parts : List Part} (hparted : Parted schema precededBy symbols parts)
    (hsymbols : symbols = front.map .literal ++ .any :: back.map .literal) {ps : List ReadPart}
    (hreads : List.Forall₂ (ReadPart.Reads schema limit) parts ps) {choice : List (List Segment)}
    (hchoice : List.Forall₂ (Part.Splits schema) parts choice) {before behind : List (Field UInt8)}
    (hstatic : schema.fieldsFrom id precededBy [] (front ++ b :: back) = before ++ .byte b :: behind)
    (hbefore : before.flatMap Field.members = front) :
    ¬ Pattern.Matches ((spread width ps choice).flatMap Item.symbols)
      (((schema.fieldsFrom id precededBy [] (front ++ b :: back)).map (Field.atom width)).flatMap Atom.wire) := by
  -- Parts in front of the wildcard show their fields and are cut off; the token with the wildcard decides.
  induction hparted generalizing front ps choice before with
  | nil => exact absurd hsymbols.symm (List.append_ne_nil_of_right_ne_nil _ (List.cons_ne_nil _ _))
  | @token precededBy piece rest parts hne hmembers hrest hparted ih =>
    cases hreads with
    | @cons _ p _ ps hread hreads =>
      cases hchoice with
      | @cons _ segments _ choice hsplits hchoice =>
        obtain rfl : p.piece = piece := hread.1
        rcases exists_cut hsymbols with ⟨run, later, rfl, hrun, hlater⟩ | ⟨right, later, rfl, hpiece, hlater⟩
        · have hends : ∀ d, (later ++ b :: back).head? = some d → schema.isDelimiter d = true := by
            intro d hd
            cases later with
            | nil => exact absurd (hrest .any (by rw [hlater]; rfl)) Bool.noConfusion
            | cons c later =>
              cases hd
              exact (Bool.not_eq_false' _).mp (hrest (.literal d) (by rw [hlater]; rfl))
          rw [List.append_assoc,
            fieldsFrom_token (hrun ▸ hmembers) hends (p.piece.symbols.getLast?.bind Symbol.literal?)] at hstatic ⊢
          obtain ⟨before', hlaterStatic, hlaterBefore⟩ :=
            exists_static_of_append hstatic Schema.members_runFields hbefore
          rw [List.map_append]
          exact fun hmatches => ih hlater hreads hchoice hlaterStatic hlaterBefore
            (Item.matches_symbols_append (shows_token hrun hne hsplits) hmatches)
        · have hends : ∀ d, later.head? = some d → schema.isDelimiter (id d) = true := by
            intro d hd
            exact (Bool.not_eq_false' _).mp (hrest (.literal d) (by rw [hlater, List.head?_map, hd]; rfl))
          exact not_matches_token hescape hb hmembers hpiece hsplits hends
            (shows_spread hparted hlater hreads hchoice) hstatic hbefore
  | @gap precededBy piece rest parts hne hmembers hrest _ ih =>
    cases hreads with
    | @cons _ p _ ps hread hreads =>
      cases hchoice with
      | cons hsplits hchoice =>
        obtain rfl : p.piece = piece := hread.1
        rcases exists_cut hsymbols with ⟨run, later, rfl, hrun, hlater⟩ | ⟨right, later, rfl, hpiece, -⟩
        · rw [List.append_assoc, fieldsFrom_gap hrun hne hmembers] at hstatic ⊢
          have hbytes : (run.map Field.byte).flatMap Field.members = run := by
            rw [List.flatMap_map]
            exact List.flatMap_singleton' run
          obtain ⟨before', hlaterStatic, hlaterBefore⟩ := exists_static_of_append hstatic hbytes hbefore
          rw [List.map_append]
          exact fun hmatches => ih hlater hreads hchoice hlaterStatic hlaterBefore
            (Item.matches_symbols_append (shows_gap hrun hsplits) hmatches)
        · have hany := hmembers .any (by rw [hpiece]; exact List.mem_append_right _ List.mem_cons_self)
          cases hany

/-- **A message with an escaped byte of static text is missed**: some query matches its text, and none of the patterns
for logtypes that the query has matches its logtype. -/
theorem exists_missed (hlocal : schema.IsLocal) (hescape : schema.isDelimiter escapeByte = false) {text : Bytes}
    {e : EncodedMessage} (he : EncodedMessage.encode width schema.locator text = .ok e) (hatom : Atom.byte b ∈ e.atoms)
    (hb : needsEscape b = true) :
    ∃ query, Pattern.dropDangling query = query ∧ Pattern.ofQuery query ≠ [] ∧ Wildcard.isMatch query text = true ∧
      ∀ limit d, decompose schema width limit query = .ok d →
        ∀ s ∈ d.subqueries, Wildcard.isMatch s.logtypeQuery e.logtype ≠ true := by
  obtain ⟨hatoms, -⟩ := EncodedMessage.atoms_of_encode hlocal he
  have hlogtype := EncodedMessage.logtype_of_encode hlocal he
  have hfield : .byte b ∈ schema.fields id text := by
    rw [hatoms] at hatom
    obtain ⟨f, hf, hatom⟩ := List.mem_map.mp hatom
    cases f with
    | byte c => cases hatom; exact hf
    | token run =>
      rw [Field.atom, Atom.ofToken] at hatom
      split at hatom <;> cases hatom
  -- The query spells the text, with the wildcard in the place of the byte.
  obtain ⟨before, behind, hfields⟩ := List.append_of_mem hfield
  have htext : text = before.flatMap Field.members ++ b :: behind.flatMap Field.members := by
    have hmembers := congrArg (List.flatMap Field.members) hfields
    rw [Schema.fields, Schema.members_fieldsFrom, List.flatMap_append, List.flatMap_cons] at hmembers
    exact hmembers
  have hstarFree : ∀ front back : Bytes, Pattern.StarFree (front.map .literal ++ .any :: back.map .literal) := by
    simp [Pattern.StarFree]
  generalize hfront : before.flatMap Field.members = front at htext
  generalize behind.flatMap Field.members = back at htext
  subst htext
  refine ⟨Pattern.spell (front.map .literal ++ .any :: back.map .literal), Pattern.dropDangling_spell _, ?_, ?_, ?_⟩
  · rw [Pattern.ofQuery_spell (hstarFree front back)]
    exact List.append_ne_nil_of_right_ne_nil _ (List.cons_ne_nil _ _)
  · rw [Wildcard.isMatch_iff, Pattern.ofBytes_spell, Pattern.matches_any_iff]
    exact ⟨b, rfl⟩
  · intro limit d hd s hs hmatch
    obtain ⟨-, rfl, hreads⟩ := decompose_eq_ok hd
    obtain ⟨choice, hchoice, rfl⟩ := (mem_subqueries hreads).mp hs
    have hquery := Pattern.ofQuery_spell (hstarFree front back)
    have hparted := parted_partsFrom schema 0 none (Pattern.ofQuery
      (Pattern.spell (front.map .literal ++ .any :: back.map .literal)))
    have hstar := hstarFree front back
    rw [← hquery] at hstar
    rw [Wildcard.isMatch_iff, Subquery.logtypeQuery, Pattern.ofBytes_spell, Subquery.logtypePattern,
      items_subqueryOf hparted hreads hchoice hstar, hlogtype, hatoms] at hmatch
    exact not_matches_wire hescape hb hparted hquery hreads hchoice hfields hfront hmatch

end

/-- **A search finds what matches as far as escapes allow.**  Whatever the message, it is found by every query that it
matches with no `?` for a byte of static text that takes an escape; and it is found by every query that it matches if
and only if it has no such byte. -/
theorem finds_iff_unescaped {width : Width} {text : Bytes} {e : EncodedMessage}
    (he : EncodedMessage.encode width Schema.standard.locator text = .ok e) :
    (∀ limit query d, Pattern.dropDangling query = query → decompose .standard width limit query = .ok d →
        Covers Pattern.markExtent (Pattern.ofBytes query) (e.marks width) → ∃ s ∈ d.subqueries, s.MatchesWire width e) ∧
      ((∀ limit query d, Pattern.dropDangling query = query → decompose .standard width limit query = .ok d →
          Wildcard.isMatch query text = true → ∃ s ∈ d.subqueries, s.MatchesWire width e) ↔
        ∀ b, Atom.byte b ∈ e.atoms → needsEscape b = false) := by
  have hfound : ∀ limit query d, Pattern.dropDangling query = query → decompose .standard width limit query = .ok d →
      Covers Pattern.markExtent (Pattern.ofBytes query) (e.marks width) → ∃ s ∈ d.subqueries, s.MatchesWire width e :=
    fun limit query d hquery hd hcovers =>
      exists_matchesWire Schema.standard_sound hd he ((covers_ofQuery hquery).mpr hcovers)
  refine ⟨hfound, fun hall b hatom => ?_, fun hunescaped limit query d hquery hd hmatch => ?_⟩
  · by_contra hb
    rw [Bool.not_eq_false] at hb
    obtain ⟨query, hquery, hne, hmatch, hmissed⟩ := exists_missed Schema.standard_isLocal rfl he hatom hb
    obtain ⟨limit, d, hd⟩ := exists_limit Schema.standard width hne
    obtain ⟨s, hs, hfinds⟩ := hall limit query d hquery hd hmatch
    exact hmissed limit d hd s hs hfinds.logtype
  · have htext := (EncodedMessage.atoms_of_encode Schema.standard_isLocal he).2
    refine hfound limit query d hquery hd ?_
    rw [EncodedMessage.marks_of_unescaped hunescaped htext]
    exact Pattern.covers_of_matches (Wildcard.isMatch_iff.mp hmatch)

/-- The text `a 1` has no byte that takes an escape, so that it is found by every query that it matches. -/
theorem finds_iff_unescaped_space :
    ∃ e, EncodedMessage.encode .eight Schema.standard.locator [0x61, 0x20, 0x31] = .ok e ∧
      ∀ limit query d, Pattern.dropDangling query = query → decompose .standard .eight limit query = .ok d →
        Wildcard.isMatch query [0x61, 0x20, 0x31] = true → ∃ s ∈ d.subqueries, s.MatchesWire .eight e := by
  have he : EncodedMessage.encode .eight Schema.standard.locator [0x61, 0x20, 0x31] =
      .ok (.ofAtoms [.byte 0x61, .byte 0x20, .number .integer 1]) := by
    rw [EncodedMessage.encode_eq Schema.standard_isLocal, if_neg (by decide)]
    decide
  refine ⟨_, he, (finds_iff_unescaped he).2.mpr fun b hb => ?_⟩
  rw [EncodedMessage.atoms_ofAtoms] at hb
  rcases hb with _ | ⟨_, _ | ⟨_, _ | ⟨_, _ | _⟩⟩⟩ <;> rfl

/-- The query `a?b` does not find the text that has a placeholder byte between the letters. -/
theorem misses_escaped_byte :
    Wildcard.isMatch [0x61, 0x3F, 0x62] [0x61, 0x11, 0x62] = true ∧
      Pattern.dropDangling [0x61, 0x3F, 0x62] = [0x61, 0x3F, 0x62] ∧
      ∃ d, decompose .standard .eight 4096 [0x61, 0x3F, 0x62] = .ok d ∧
        ∃ e, EncodedMessage.encode .eight Schema.standard.locator [0x61, 0x11, 0x62] = .ok e ∧
          ∀ s ∈ d.subqueries, ¬ s.MatchesWire .eight e := by
  have hall : (match decompose .standard .eight 4096 [0x61, 0x3F, 0x62] with
      | .ok d => d.subqueries.all fun s => !Wildcard.isMatch s.logtypeQuery [0x61, 0x5C, 0x11, 0x62]
      | .error _ => false) = true := by decide +kernel
  have he : EncodedMessage.encode .eight Schema.standard.locator [0x61, 0x11, 0x62] =
      .ok (.ofAtoms [.byte 0x61, .byte 0x11, .byte 0x62]) := by
    rw [EncodedMessage.encode_eq Schema.standard_isLocal, if_neg (by decide)]
    decide
  refine ⟨by decide, by decide, ?_⟩
  cases hd : decompose .standard .eight 4096 [0x61, 0x3F, 0x62] with
  | error failure =>
    rw [hd] at hall
    cases hall
  | ok d =>
    rw [hd] at hall
    refine ⟨d, rfl, _, he, fun s hs hfinds => ?_⟩
    have hmissed := List.all_eq_true.mp hall s hs
    have hlogtype : Wildcard.isMatch s.logtypeQuery [0x61, 0x5C, 0x11, 0x62] = true := hfinds.logtype
    rw [hlogtype] at hmissed
    cases hmissed

end Query

end LogCodec
