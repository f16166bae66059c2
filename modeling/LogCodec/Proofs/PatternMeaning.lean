import LogCodec.Bytes.EscapePairs
import LogCodec.Proofs.Coverage
import LogCodec.Wildcard.Expression
import LogCodec.Wildcard.Placed

/-!
# `LogCodec.Proofs.PatternMeaning`: both readers of a pattern give it the same meaning

A pattern is read twice in different ways: as symbols with their places, when a query is taken apart, and as a regular
expression, when texts are matched.  The first takes an escape and what it escapes in one step and looks one byte
ahead; the second gathers literal bytes until a wildcard comes.  What ties them together is the meaning of a list of
symbols: a text matches if it can be cut into pieces, one for each symbol.

## Contents
- **Pieces.** `Symbol.Takes`, `MadeOf`, and `matches_iff_pieces`.
- **Escapes.** `placedFrom_append` and `ofBytes_append`: a pattern that does not end in an escape is read alike
  whatever comes behind it.
- **Expressions.** What each kind of expression takes, `takes_partsOfPattern`, which carries the run of literal bytes
  along, and `foundAtStart_ofPattern_iff`.
- `foundAtStart_iff_madeOf`, which brings this together.
-/

namespace LogCodec

open Bytes (EndsInEscape)

/-! ## Pieces -/

/-- The symbol can stand for the piece: a star for any byte string, `any` for any one byte, a literal for its byte. -/
def Symbol.Takes : Symbol → Bytes → Prop
  | star, _ => True
  | any, piece => piece.length = 1
  | literal b, piece => piece = [b]

/-- The text is made of one piece for each symbol, in order. -/
def MadeOf (symbols : List PlacedSymbol) (text : Bytes) : Prop :=
  ∃ pieces : List Bytes, text = pieces.flatten ∧ List.Forall₂ (fun s piece => s.symbol.Takes piece) symbols pieces

namespace Pattern

/-- The symbol at the front of a pattern matches a piece at the front of the text. -/
theorem matches_cons_iff {s : Symbol} {p : Pattern} {text : Bytes} :
    Matches (s :: p) text ↔ ∃ piece rest, text = piece ++ rest ∧ s.Takes piece ∧ Matches p rest := by
  cases s with
  | star => simp [Matches, Symbol.Takes]
  | any =>
    constructor
    · rintro ⟨b, rest, rfl, h⟩
      exact ⟨[b], rest, rfl, rfl, h⟩
    · rintro ⟨piece, rest, rfl, hpiece, h⟩
      obtain ⟨b, rfl⟩ := List.length_eq_one_iff.mp hpiece
      exact ⟨b, rest, rfl, h⟩
  | literal b => simp [Matches, Symbol.Takes]

/-- A pattern matches the texts that can be cut into pieces for its symbols. -/
theorem matches_iff_pieces {p : Pattern} {text : Bytes} :
    Matches p text ↔ ∃ pieces : List Bytes, text = pieces.flatten ∧ List.Forall₂ Symbol.Takes p pieces := by
  induction p generalizing text with
  | nil =>
    constructor
    · intro h
      exact ⟨[], h, .nil⟩
    · rintro ⟨pieces, rfl, hpieces⟩
      cases hpieces
      rfl
  | cons s p ih =>
    rw [matches_cons_iff]
    constructor
    · rintro ⟨piece, rest, rfl, hpiece, hrest⟩
      obtain ⟨pieces, rfl, hpieces⟩ := ih.mp hrest
      exact ⟨piece :: pieces, rfl, .cons hpiece hpieces⟩
    · rintro ⟨pieces, rfl, hpieces⟩
      cases hpieces with
      | @cons _ piece _ pieces hpiece hpieces =>
        exact ⟨piece, pieces.flatten, rfl, hpiece, ih.mpr ⟨pieces, rfl, hpieces⟩⟩

theorem matches_iff_madeOf {pattern text : Bytes} : Matches (ofBytes pattern) text ↔ MadeOf (placed pattern) text := by
  rw [matches_iff_pieces, ← map_symbol_placedFrom 0 pattern]
  simp only [List.forall₂_map_left_iff]
  rfl

/-- A pattern that is put together from two matches what is put together from what they match. -/
theorem matches_append_cut_iff {p q : Pattern} {text : Bytes} :
    Matches (p ++ q) text ↔ ∃ front back, text = front ++ back ∧ Matches p front ∧ Matches q back := by
  simp only [matches_iff_covers, covers_append]

/-! ## Escapes -/

section
variable {front : Bytes} (hfront : ¬ EndsInEscape front) (back : Bytes)
include hfront

theorem placedFrom_append (position : Nat) :
    placedFrom position (front ++ back) = placedFrom position front ++ placedFrom (position + front.length) back := by
  induction front using Bytes.escape_induction generalizing position with
  | nil => rfl
  | lone => exact absurd Bytes.endsInEscape_lone hfront
  | pair b rest ih =>
    rw [Bytes.endsInEscape_pair_iff] at hfront
    have hlength : position + 2 + rest.length = position + (escapeByte :: b :: rest).length := by
      simp only [List.length_cons]
      omega
    rw [List.cons_append, List.cons_append, placedFrom_escape, placedFrom_escape, ih hfront, hlength, List.cons_append]
  | single b rest hb ih =>
    rw [Bytes.endsInEscape_single_iff hb] at hfront
    have hlength : position + 1 + rest.length = position + (b :: rest).length := by
      simp only [List.length_cons]
      omega
    rw [List.cons_append, placedFrom_of_ne_escape _ hb, placedFrom_of_ne_escape _ hb, ih hfront, hlength,
      List.cons_append]

theorem ofBytes_append : ofBytes (front ++ back) = ofBytes front ++ ofBytes back := by
  rw [← map_symbol_placedFrom 0 (front ++ back), placedFrom_append hfront, List.map_append, map_symbol_placedFrom,
    map_symbol_placedFrom]

end

end Pattern

/-! ## Expressions -/

namespace Expression

section
variable {e f : Expression} {taken behind : Bytes}

theorem takes_text_iff {bytes : Bytes} : (Expression.text bytes).Takes taken behind ↔ taken = bytes := by
  constructor
  · intro h
    cases h
    rfl
  · rintro rfl
    exact .text taken behind

theorem takes_oneByte_iff : Expression.oneByte.Takes taken behind ↔ taken.length = 1 := by
  constructor
  · intro h
    cases h
    rfl
  · intro h
    obtain ⟨b, rfl⟩ := List.length_eq_one_iff.mp h
    exact .oneByte b behind

theorem takes_textEnd_iff : Expression.textEnd.Takes taken behind ↔ taken = [] ∧ behind = [] := by
  constructor
  · intro h
    cases h
    exact ⟨rfl, rfl⟩
  · rintro ⟨rfl, rfl⟩
    exact .textEnd

theorem takes_both_iff : (Expression.both e f).Takes taken behind ↔
    ∃ first later, taken = first ++ later ∧ e.Takes first (later ++ behind) ∧ f.Takes later behind := by
  constructor
  · intro h
    cases h with
    | @both _ _ first later _ hfirst hlater => exact ⟨first, later, rfl, hfirst, hlater⟩
  · rintro ⟨first, later, rfl, hfirst, hlater⟩
    exact .both hfirst hlater

/-- Any one byte any number of times is any byte string. -/
theorem takes_repeated_oneByte (taken behind : Bytes) : (Expression.repeated .oneByte).Takes taken behind := by
  induction taken with
  | nil => exact .never .oneByte behind
  | cons b taken ih => exact .again (.oneByte b _) ih

theorem takes_sequence_ofRun_append {run : Bytes} {parts : List Expression} :
    (sequence (ofRun run ++ parts)).Takes taken behind ↔
      ∃ later, taken = run ++ later ∧ (sequence parts).Takes later behind := by
  unfold ofRun
  by_cases hrun : run = []
  · simp [hrun]
  · rw [if_neg hrun, List.singleton_append, sequence, takes_both_iff]
    simp only [takes_text_iff]
    constructor
    · rintro ⟨first, later, rfl, rfl, h⟩
      exact ⟨later, rfl, h⟩
    · rintro ⟨later, rfl, h⟩
      exact ⟨run, later, rfl, rfl, h⟩

/-- A run at the end of a pattern takes what is left of the text. -/
theorem takes_run_textEnd_iff {run : Bytes} :
    (sequence (ofRun run ++ [.textEnd])).Takes taken behind ↔ behind = [] ∧ taken = run := by
  rw [takes_sequence_ofRun_append]
  simp only [sequence, takes_both_iff, takes_textEnd_iff, takes_text_iff]
  constructor
  · rintro ⟨_, rfl, _, _, rfl, ⟨rfl, hbehind⟩, rfl⟩
    exact ⟨hbehind, List.append_nil run⟩
  · rintro ⟨hbehind, rfl⟩
    exact ⟨[], (List.append_nil taken).symm, [], [], rfl, ⟨rfl, hbehind⟩, rfl⟩

end

/-- A wildcard ends the run, so that what comes behind it is taken with an empty one. -/
theorem takes_wildcard_iff {s : Symbol} {part : Expression} {run rest taken behind : Bytes}
    (hpart : ∀ {first later : Bytes}, part.Takes first later ↔ s.Takes first)
    (hrest : ∀ {taken : Bytes}, (sequence (partsOfPattern [] rest)).Takes taken behind ↔
      behind = [] ∧ ∃ later, taken = [] ++ later ∧ Pattern.Matches (Pattern.ofBytes rest) later) :
    (sequence (ofRun run ++ part :: partsOfPattern [] rest)).Takes taken behind ↔
      behind = [] ∧ ∃ later, taken = run ++ later ∧ Pattern.Matches (s :: Pattern.ofBytes rest) later := by
  rw [takes_sequence_ofRun_append]
  simp only [sequence, takes_both_iff, hpart, hrest, List.nil_append, exists_eq_left', Pattern.matches_cons_iff]
  constructor
  · rintro ⟨later, rfl, first, tail, rfl, hfirst, hbehind, htail⟩
    exact ⟨hbehind, _, rfl, first, tail, rfl, hfirst, htail⟩
  · rintro ⟨hbehind, later, rfl, first, tail, rfl, hfirst, htail⟩
    exact ⟨_, rfl, first, tail, rfl, hfirst, hbehind, htail⟩

/-- A literal byte joins the run. -/
theorem exists_matches_literal_iff {run taken : Bytes} {b : UInt8} {p : Pattern} :
    (∃ later, taken = run ++ [b] ++ later ∧ Pattern.Matches p later) ↔
      ∃ later, taken = run ++ later ∧ Pattern.Matches (.literal b :: p) later := by
  constructor
  · rintro ⟨later, rfl, h⟩
    exact ⟨b :: later, by rw [List.append_assoc, List.singleton_append], later, rfl, h⟩
  · rintro ⟨_, rfl, later, rfl, h⟩
    exact ⟨later, by rw [List.append_assoc, List.singleton_append], h⟩

/-- **The rest of a pattern takes all of the rest of a text**, first the literal bytes since the last wildcard and
then what its symbols match. -/
theorem takes_partsOfPattern (run pattern : Bytes) {taken behind : Bytes} :
    (sequence (partsOfPattern run pattern)).Takes taken behind ↔
      behind = [] ∧ ∃ later, taken = run ++ later ∧ Pattern.Matches (Pattern.ofBytes pattern) later := by
  fun_induction partsOfPattern run pattern generalizing taken with
  | case1 run => simp [takes_run_textEnd_iff, Pattern.ofBytes, Pattern.Matches]
  | case2 run rest ih =>
    rw [Pattern.ofBytes_cons_of_ne_escape (by decide)]
    exact takes_wildcard_iff (fun {first later} => iff_of_true (takes_repeated_oneByte first later) trivial) ih
  | case3 run rest _ ih =>
    rw [Pattern.ofBytes_cons_of_ne_escape (by decide)]
    exact takes_wildcard_iff takes_oneByte_iff ih
  | case4 run =>
    -- An escape at the very end has nothing to escape and is a literal byte.
    have hlone : Pattern.ofBytes [escapeByte] = [.literal escapeByte] := rfl
    rw [hlone, ← exists_matches_literal_iff]
    simp [takes_run_textEnd_iff, Pattern.Matches]
  | case5 run _ _ c rest ih => rw [ih, Pattern.ofBytes_escape, exists_matches_literal_iff]
  | case6 run b rest hstar hany hescape ih =>
    have hb : Symbol.ofByte b = .literal b := by simp [Symbol.ofByte, hstar, hany]
    rw [ih, Pattern.ofBytes_cons_of_ne_escape hescape, hb, exists_matches_literal_iff]

/-- The expression for a pattern is found at the start of the texts that the pattern matches. -/
theorem foundAtStart_ofPattern_iff {pattern text : Bytes} :
    (ofPattern pattern).FoundAtStart text ↔ Pattern.Matches (Pattern.ofBytes pattern) text := by
  unfold FoundAtStart ofPattern
  simp only [takes_partsOfPattern, List.nil_append, exists_eq_left']
  constructor
  · rintro ⟨taken, behind, rfl, rfl, h⟩
    rwa [List.append_nil]
  · intro h
    exact ⟨text, [], (List.append_nil text).symm, rfl, h⟩

end Expression

namespace Wildcard

/-- **Both readers of a pattern give it the meaning of its symbols.**  The expression for a pattern is found in a text
exactly if the text is made of one piece for each placed symbol, and this is what matching decides.  For both readers
an escape makes the byte behind it stand for itself, whatever byte that is, and an escape byte that is left over at the
end stands for itself. -/
theorem foundAtStart_iff_madeOf (pattern text : Bytes) :
    ((Expression.ofPattern pattern).FoundAtStart text ↔ MadeOf (Pattern.placed pattern) text) ∧
    (isMatch pattern text = true ↔ MadeOf (Pattern.placed pattern) text) ∧
    (¬ EndsInEscape pattern → ∀ (b : UInt8) (rest : Bytes),
      Pattern.placed (pattern ++ escapeByte :: b :: rest) =
        Pattern.placed pattern ++
          ⟨.literal b, ⟨pattern.length, pattern.length + 2⟩⟩ :: Pattern.placedFrom (pattern.length + 2) rest ∧
      ((Expression.ofPattern (pattern ++ escapeByte :: b :: rest)).FoundAtStart text ↔
        ∃ front back, text = front ++ b :: back ∧ (Expression.ofPattern pattern).FoundAtStart front ∧
          (Expression.ofPattern rest).FoundAtStart back)) ∧
    (¬ EndsInEscape pattern →
      Pattern.placed (pattern ++ [escapeByte]) =
        Pattern.placed pattern ++ [⟨.literal escapeByte, ⟨pattern.length, pattern.length + 1⟩⟩] ∧
      ((Expression.ofPattern (pattern ++ [escapeByte])).FoundAtStart text ↔
        ∃ front, text = front ++ [escapeByte] ∧ (Expression.ofPattern pattern).FoundAtStart front)) := by
  simp only [Expression.foundAtStart_ofPattern_iff]
  refine ⟨Pattern.matches_iff_madeOf, ?decided, ?escaped, ?lone⟩
  case decided => rw [isMatch_iff, Pattern.matches_iff_madeOf]
  case escaped =>
    intro hpattern b rest
    constructor
    · rw [Pattern.placed, Pattern.placedFrom_append hpattern, Pattern.placedFrom_escape, Nat.zero_add]
      rfl
    · rw [Pattern.ofBytes_append hpattern, Pattern.ofBytes_escape, Pattern.matches_append_cut_iff]
      constructor
      · rintro ⟨front, _, rfl, hfront, back, rfl, hback⟩
        exact ⟨front, back, rfl, hfront, hback⟩
      · rintro ⟨front, back, rfl, hfront, hback⟩
        exact ⟨front, b :: back, rfl, hfront, back, rfl, hback⟩
  case lone =>
    intro hpattern
    constructor
    · rw [Pattern.placed, Pattern.placedFrom_append hpattern, Nat.zero_add]
      rfl
    · rw [Pattern.ofBytes_append hpattern, Pattern.matches_append_cut_iff]
      constructor
      · rintro ⟨front, _, rfl, hfront, _, rfl, rfl⟩
        exact ⟨front, rfl, hfront⟩
      · rintro ⟨front, rfl, hfront⟩
        exact ⟨front, [escapeByte], rfl, hfront, [], rfl, rfl⟩

end Wildcard

end LogCodec
