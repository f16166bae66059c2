import LogCodec.Proofs.Alignment
import LogCodec.Proofs.Outlines
import LogCodec.Proofs.Soundness

/-!
# `LogCodec.Proofs.Alternatives`: one alternative of a piece fits every message

A piece of a token matches a run of a message, perhaps with more of the message under the stars at its ends.  The run is
static text or a variable, and one of the alternatives of the piece is right for it.

The bytes of the text are marked: a `?` may stand for the bytes that are free.  In this way the same argument serves for
matching a text, where every byte is free, and for matching the bytes of a logtype, where those that are escaped are
not.

## Contents
- `Mark`, and what symbols and items stand for in a marked text and in its fields.
- `Context.Allows`: what the context of a piece knows of the byte before it.
- `exists_alternative`, for a piece, and its cases.
- `encoded_mem_alternatives`, for a piece and a token of a message.
-/

namespace LogCodec

/-- A byte of a text, and whether a `?` may stand for it. -/
structure Mark where
  byte : UInt8
  free : Bool
deriving DecidableEq

theorem Mark.map_byte_free (bytes : Bytes) : (bytes.map (Mark.mk · true)).map Mark.byte = bytes := by
  rw [List.map_map]
  exact List.map_id bytes

namespace Pattern

/-- What a symbol stands for in a marked text. -/
def markExtent : Symbol → Extent Mark
  | .star => .part
  | .any => .member fun m => m.free = true
  | .literal b => .member fun m => m.byte = b

/-- Symbols that cover a marked text match its bytes. -/
theorem matches_of_marks {p : Pattern} {marks : List Mark} (h : Covers markExtent p marks) :
    Matches p (marks.map Mark.byte) := by
  induction p generalizing marks with
  | nil => rw [covers_nil] at h; rw [h]; rfl
  | cons s p ih =>
    cases s with
    | star =>
      obtain ⟨taken, rest, rfl, hrest⟩ := h
      exact ⟨taken.map Mark.byte, rest.map Mark.byte, List.map_append, ih hrest⟩
    | any =>
      obtain ⟨m, rest, rfl, -, hrest⟩ := h
      exact ⟨m.byte, rest.map Mark.byte, rfl, ih hrest⟩
    | literal b =>
      obtain ⟨m, rest, rfl, rfl, hrest⟩ := h
      exact ⟨rest.map Mark.byte, rfl, ih hrest⟩

/-- Symbols that match a text cover it when every byte is free. -/
theorem covers_of_matches {p : Pattern} {text : Bytes} (h : Matches p text) :
    Covers markExtent p (text.map (Mark.mk · true)) := by
  induction p generalizing text with
  | nil => rw [Matches] at h; rw [h]; rfl
  | cons s p ih =>
    cases s with
    | star =>
      obtain ⟨taken, rest, rfl, hrest⟩ := h
      exact ⟨taken.map (Mark.mk · true), rest.map (Mark.mk · true), List.map_append, ih hrest⟩
    | any =>
      obtain ⟨b, rest, rfl, hrest⟩ := h
      exact ⟨⟨b, true⟩, rest.map (Mark.mk · true), rfl, rfl, ih hrest⟩
    | literal b =>
      obtain ⟨rest, rfl, hrest⟩ := h
      exact ⟨⟨b, true⟩, rest.map (Mark.mk · true), rfl, rfl, ih hrest⟩

/-- Stars at the ends take in more. -/
theorem covers_extend {α : Type} {extent : Symbol → Extent α} (hstar : extent .star = .part) {p : Pattern}
    {left mid right : List α} (hleft : left ≠ [] → p.startsWithStar = true)
    (hright : right ≠ [] → p.endsWithStar = true) (h : Covers extent p mid) :
    Covers extent p (left ++ (mid ++ right)) := by
  have hmid : Covers extent p (mid ++ right) := by
    by_cases hnil : right = []
    · rwa [hnil, List.append_nil]
    · have hends := hright hnil
      rw [endsWithStar, beq_iff_eq, List.getLast?_eq_some_iff] at hends
      obtain ⟨q, rfl⟩ := hends
      exact h.extend_right hstar right
  by_cases hnil : left = []
  · rwa [hnil, List.nil_append]
  · have hstarts := hleft hnil
    rw [startsWithStar, beq_iff_eq, List.head?_eq_some_iff] at hstarts
    obtain ⟨q, rfl⟩ := hstarts
    exact hmid.extend_left hstar left

theorem starFree_of_isExact {p : Pattern} (h : p.isExact = true) : StarFree p := fun hmem =>
  Bool.noConfusion (List.all_eq_true.mp h .star hmem)

end Pattern

namespace Item

/-- What an item stands for among the fields of a marked text. -/
def fieldExtent (width : Width) : Item → Extent (Field Mark)
  | .star => .part
  | .any => .member fun f => ∃ m, f = .byte m ∧ m.free = true
  | .literal b => .member fun f => ∃ m, f = .byte m ∧ m.byte = b
  | .variable query => .member fun f =>
    ∃ run, f = .token run ∧ (query.map Excerpt.bytes).Meets width (.ofToken width (run.map Mark.byte))

/-- Read as static text, symbols that cover a marked text cover its bytes as fields. -/
theorem covers_static {width : Width} {p : Pattern} {marks : List Mark} (h : Covers Pattern.markExtent p marks) :
    Covers (fun s => fieldExtent width (.ofSymbol s)) p (marks.map Field.byte) := by
  induction p generalizing marks with
  | nil => rw [covers_nil] at h; rw [h]; rfl
  | cons s p ih =>
    cases s with
    | star =>
      obtain ⟨taken, rest, rfl, hrest⟩ := h
      exact ⟨taken.map Field.byte, rest.map Field.byte, List.map_append, ih hrest⟩
    | any =>
      obtain ⟨m, rest, rfl, hfree, hrest⟩ := h
      exact ⟨.byte m, rest.map Field.byte, rfl, ⟨m, rfl, hfree⟩, ih hrest⟩
    | literal b =>
      obtain ⟨m, rest, rfl, hbyte, hrest⟩ := h
      exact ⟨.byte m, rest.map Field.byte, rfl, ⟨m, rfl, hbyte⟩, ih hrest⟩

end Item

namespace Query

/-- The byte before a piece is the known one, unless a star comes first; behind a split it is a delimiter. -/
def Context.Allows (schema : Schema) (symbols : Pattern) (before : Option UInt8) : Context → Prop
  | .known precededBy => symbols.startsWithStar = false → before = precededBy
  | .split => ∃ d, schema.isDelimiter d = true ∧ before = some d

section

variable {schema : Schema} {width : Width} {p : ReadPart} {span : Span} {context : Context} {before : Option UInt8}
  {run : List Mark} {left right : List (Field Mark)}

/-- Static text covers the bytes of a run, and what the stars at its ends take in. -/
theorem covers_static_segment (hcovers : Covers Pattern.markExtent (p.piece.slice span) run)
    (hleft : left ≠ [] → (p.piece.slice span).startsWithStar = true)
    (hright : right ≠ [] → (p.piece.slice span).endsWithStar = true) :
    Covers (Item.fieldExtent width) (p.items width (.static span)) (left ++ (run.map .byte ++ right)) := by
  show Covers _ ((p.piece.slice span).map Item.ofSymbol) _
  rw [covers_map]
  exact Pattern.covers_extend rfl hleft hright (Item.covers_static hcovers)

/-- A token satisfies the condition for its own bytes. -/
theorem meets_exactQuery (width : Width) (value : Excerpt) :
    ((exactQuery width value).map Excerpt.bytes).Meets width (.ofToken width value.bytes) := by
  unfold exactQuery Atom.ofToken
  cases width.pack value.bytes <;> rfl

/-- The bytes of a run that a piece without wildcards matches are its literals. -/
theorem bytes_of_isExact {symbols : Pattern} (hexact : symbols.isExact = true)
    (hcovers : Covers Pattern.markExtent symbols run) : run.map Mark.byte = symbols.literals := by
  have hmatches := Pattern.matches_of_marks hcovers
  rw [← Pattern.map_literals hexact] at hmatches
  exact Pattern.matches_literals_iff.mp hmatches

/-- The value of a piece without wildcards covers the token that it spells. -/
theorem covers_exact_segment (hexact : (p.piece.slice span).isExact = true)
    (hcovers : Covers Pattern.markExtent (p.piece.slice span) run) :
    Covers (Item.fieldExtent width) (p.items width (.exact span)) [.token run] := by
  have hmeets := meets_exactQuery width (p.piece.value p.filled p.appended span)
  rw [bytes_value hexact, ← bytes_of_isExact hexact hcovers] at hmeets
  exact ⟨.token run, [], rfl, ⟨run, rfl, hmeets⟩, rfl⟩

/-- The pattern for a variable covers a token that it matches, and what the stars at its ends take in. -/
theorem covers_wildcard_segment {kind : Placeholder}
    (hkind : (Atom.ofToken width (run.map Mark.byte)).cell = .variable kind)
    (hcovers : Covers Pattern.markExtent (p.piece.slice span) run)
    (hleft : left ≠ [] → (p.piece.slice span).startsWithStar = true)
    (hright : right ≠ [] → (p.piece.slice span).endsWithStar = true) :
    Covers (Item.fieldExtent width) (p.items width (.wildcard span kind)) (left ++ ([.token run] ++ right)) := by
  have hstars : ∀ (c : Bool) (more : List (Field Mark)), (more ≠ [] → c = true) →
      Covers (Item.fieldExtent width) (if c then [.star] else []) more := by
    intro c more h
    cases c with
    | true => exact covers_part rfl more
    | false =>
      have hnil : more = [] := Decidable.byContradiction fun hne => Bool.false_ne_true (h hne)
      exact covers_nil.mpr hnil
  have hmatch : Wildcard.isMatch (p.piece.spelled span).bytes (run.map Mark.byte) = true := by
    rw [Wildcard.isMatch_iff]
    have hspelled : Pattern.ofBytes (p.piece.spelled span).bytes = p.piece.slice span := Pattern.ofBytes_spell _
    rw [hspelled]
    exact Pattern.matches_of_marks hcovers
  have hmeets : VariableQuery.Meets width (.pattern kind (p.piece.spelled span).bytes)
      (.ofToken width (run.map Mark.byte)) := ⟨hkind, _, Atom.text_ofToken width _, hmatch⟩
  refine (hstars _ left hleft).append ?_
  exact ⟨.token run, right, rfl, ⟨run, rfl, hmeets⟩, hstars _ right hright⟩

theorem mem_delimiters {d : UInt8} : d ∈ schema.delimiters ↔ schema.isDelimiter d = true := by
  rw [Schema.delimiters, List.mem_filter, List.mem_map]
  constructor
  · exact And.right
  · intro h
    exact ⟨⟨d.toNat, List.mem_range.mpr d.toNat_lt, UInt8.ofNat_toNat⟩, h⟩

/-- What a piece without wildcards is, by the rules, behind the byte before it is one of its alternatives. -/
theorem mem_exactAlternatives_of_allows {symbols : Pattern} (hstart : symbols.startsWithStar = false)
    (hcontext : context.Allows schema symbols before) (literal : Bytes) :
    (if isVariableAfter schema before literal then Segment.exact span else .static span) ∈
      exactAlternatives schema span literal context := by
  cases context with
  | known precededBy =>
    rw [hcontext hstart, exactAlternatives]
    split
    · exact List.mem_singleton_self _
    · exact List.mem_singleton_self _
  | split =>
    -- The byte is one of the delimiters that are gone through.
    obtain ⟨d, hd, rfl⟩ := hcontext
    have hmem := mem_delimiters.mpr hd
    cases hvariable : isVariableAfter schema (some d) literal with
    | true =>
      apply List.mem_append_right
      rw [if_pos (List.any_eq_true.mpr ⟨d, hmem, hvariable⟩)]
      exact List.mem_singleton_self _
    | false =>
      apply List.mem_append_left
      rw [if_pos (List.any_eq_true.mpr ⟨d, hmem, by rw [hvariable]; rfl⟩)]
      exact List.mem_singleton_self _

/-- A piece without wildcards is read as the rules say for the byte before it. -/
theorem exists_exactAlternative (hexact : (p.piece.slice span).isExact = true) (hne : p.piece.slice span ≠ [])
    (hcovers : Covers Pattern.markExtent (p.piece.slice span) run)
    (hcontext : context.Allows schema (p.piece.slice span) before) :
    ∃ segment ∈ exactAlternatives schema span (p.piece.slice span).literals context,
      Covers (Item.fieldExtent width) (p.items width segment) (schema.runFields Mark.byte before run) := by
  have hbytes := bytes_of_isExact hexact hcovers
  have hstart := startsWithStar_of_starFree (Pattern.starFree_of_isExact hexact)
  refine ⟨_, mem_exactAlternatives_of_allows hstart hcontext _, ?_⟩
  rw [← hbytes]
  split
  · next hvariable =>
    have hrun : run ≠ [] := by
      rintro rfl
      rw [← Pattern.map_literals hexact, ← hbytes] at hne
      exact hne rfl
    rw [Schema.runFields_of_variable hrun hvariable]
    exact covers_exact_segment hexact hcovers
  · next hvariable =>
    rw [Schema.runFields_of_static (Bool.not_eq_true _ ▸ hvariable), ← List.append_nil (run.map Field.byte),
      ← List.nil_append (run.map Field.byte ++ [])]
    exact covers_static_segment hcovers (fun h => absurd rfl h) (fun h => absurd rfl h)

/-- The empty text is matched by stars alone. -/
theorem isStars_of_matches_nil {symbols : Pattern} (h : Pattern.Matches symbols []) : symbols.isStars = true := by
  induction symbols with
  | nil => rfl
  | cons s symbols ih =>
    cases s with
    | star =>
      obtain ⟨taken, rest, hnil, hrest⟩ := h
      obtain ⟨-, rfl⟩ := List.append_eq_nil_iff.mp hnil.symm
      rw [Pattern.isStars, List.all_cons, ← Pattern.isStars, ih hrest]
      rfl
    | any =>
      obtain ⟨b, rest, hnil, -⟩ := h
      cases hnil
    | literal b =>
      obtain ⟨rest, hnil, -⟩ := h
      cases hnil

theorem static_mem_wildcardAlternatives {symbols : Pattern} {precededBy : Option UInt8}
    (hdefinite : schema.isDefinite ⟨symbols.literals, symbols.leading, precededBy⟩ ≠ true) :
    .static span ∈ wildcardAlternatives schema span symbols precededBy := by
  by_cases hstars : symbols.isStars = true
  · rw [wildcardAlternatives, if_pos hstars]
    exact List.mem_singleton_self _
  · rw [wildcardAlternatives, if_neg hstars, if_neg hdefinite, List.append_assoc, List.append_assoc]
    exact List.mem_append_left _ (List.mem_singleton_self _)

theorem wildcard_mem_wildcardAlternatives {symbols : Pattern} {precededBy : Option UInt8} {kind : Placeholder}
    (hstars : symbols.isStars ≠ true)
    (hnumber : ∀ k, kind = .number k → couldBeNumber k true false symbols = true) :
    .wildcard span kind ∈ wildcardAlternatives schema span symbols precededBy := by
  rw [wildcardAlternatives, if_neg hstars]
  rcases kind with (_ | _) | _
  · apply List.mem_append_left
    apply List.mem_append_left
    apply List.mem_append_right
    rw [if_pos (hnumber _ rfl)]
    exact List.mem_singleton_self _
  · apply List.mem_append_left
    apply List.mem_append_right
    rw [if_pos (hnumber _ rfl)]
    exact List.mem_singleton_self _
  · apply List.mem_append_right
    exact List.mem_singleton_self _

/-- The kind of variable that a token is encoded as is one that a pattern for the token could be. -/
theorem exists_kind_of_matches {symbols : Pattern} {token : Bytes} (hmatches : Pattern.Matches symbols token)
    (width : Width) :
    ∃ kind, (Atom.ofToken width token).cell = .variable kind ∧
      ∀ k, kind = .number k → couldBeNumber k true false symbols = true := by
  cases hpack : width.pack token with
  | none => exact ⟨.dictionary, by rw [Atom.ofToken, hpack]; rfl, fun k h => by cases h⟩
  | some packed =>
    refine ⟨.number packed.1, by rw [Atom.ofToken, hpack]; rfl, fun k h => ?_⟩
    cases h
    exact couldBeNumber_of_matches hmatches (couldBeNumber_of_pack hpack)

/-- A piece with wildcards is read as static text or as a variable, whichever the run is. -/
theorem exists_wildcardAlternative (hsound : schema.Sound)
    (hcovers : Covers Pattern.markExtent (p.piece.slice span) run) (hne : p.piece.slice span ≠ [])
    (hcontext : context.Allows schema (p.piece.slice span) before)
    (hleft : left ≠ [] → (p.piece.slice span).startsWithStar = true)
    (hright : right ≠ [] → (p.piece.slice span).endsWithStar = true) :
    ∃ segment ∈ wildcardAlternatives schema span (p.piece.slice span) context.precededBy,
      Covers (Item.fieldExtent width) (p.items width segment)
        (left ++ (schema.runFields Mark.byte before run ++ right)) := by
  have hmatches := Pattern.matches_of_marks hcovers
  by_cases hstars : (p.piece.slice span).isStars = true
  · -- Stars alone take in whatever the run is.
    refine ⟨.static span, ?_, ?_⟩
    · rw [wildcardAlternatives, if_pos hstars]
      exact List.mem_singleton_self _
    · show Covers _ ((p.piece.slice span).map Item.ofSymbol) _
      rw [covers_map]
      refine covers_of_parts (fun s hs => ?_) hne _
      rw [beq_iff_eq.mp (List.all_eq_true.mp hstars s hs)]
      rfl
  · by_cases hvariable : isVariableAfter schema before (run.map Mark.byte) = true
    · have hrun : run ≠ [] := by
        rintro rfl
        exact hstars (isStars_of_matches_nil hmatches)
      obtain ⟨kind, hkind, hnumber⟩ := exists_kind_of_matches hmatches width
      rw [Schema.runFields_of_variable hrun hvariable]
      exact ⟨.wildcard span kind, wildcard_mem_wildcardAlternatives hstars hnumber,
        covers_wildcard_segment hkind hcovers hleft hright⟩
    · -- If the piece were a variable in any case, so would be the run.
      have hindefinite : schema.isDefinite ⟨(p.piece.slice span).literals, (p.piece.slice span).leading,
          context.precededBy⟩ ≠ true := by
        intro hdefinite
        apply hvariable
        refine hsound.isVariable_of_isDefinite hmatches (fun hstart b hb => ?_) hdefinite
        cases context with
        | known precededBy => rw [hcontext hstart]; exact hb
        | split => cases hb
      rw [Schema.runFields_of_static (Bool.not_eq_true _ ▸ hvariable)]
      exact ⟨.static span, static_mem_wildcardAlternatives hindefinite, covers_static_segment hcovers hleft hright⟩

/-- **Some alternative of a piece is right**: it covers the fields of the run that the piece matches, and what the stars
at the ends of the piece take in. -/
theorem exists_alternative (hsound : schema.Sound) (hne : p.piece.slice span ≠ [])
    (hcovers : Covers Pattern.markExtent (p.piece.slice span) run)
    (hcontext : context.Allows schema (p.piece.slice span) before)
    (hleft : left ≠ [] → (p.piece.slice span).startsWithStar = true)
    (hright : right ≠ [] → (p.piece.slice span).endsWithStar = true) :
    ∃ segment ∈ (Cut.piece span context).alternatives schema p.piece,
      Covers (Item.fieldExtent width) (p.items width segment)
        (left ++ (schema.runFields Mark.byte before run ++ right)) := by
  simp only [Cut.alternatives]
  by_cases hexact : (p.piece.slice span).isExact = true
  · have hstarts := startsWithStar_of_starFree (Pattern.starFree_of_isExact hexact)
    have hends := endsWithStar_of_starFree (Pattern.starFree_of_isExact hexact)
    obtain rfl : left = [] := Decidable.byContradiction fun h => by rw [hleft h] at hstarts; cases hstarts
    obtain rfl : right = [] := Decidable.byContradiction fun h => by rw [hright h] at hends; cases hends
    rw [if_pos hexact, List.nil_append, List.append_nil]
    exact exists_exactAlternative hexact hne hcovers hcontext
  · rw [if_neg hexact]
    exact exists_wildcardAlternative hsound hcovers hne hcontext hleft hright

end

/-! ## Tokens of messages -/

/-- The atom for a token is of the kind that the encoder writes in the logtype. -/
theorem cell_ofToken_iff {width : Width} {token : Bytes} {kind : Placeholder} :
    (Atom.ofToken width token).cell = .variable kind ↔ (Chunk.token token).element width = .variable kind := by
  simp only [Atom.ofToken, Chunk.element]
  cases width.pack token with
  | none => simp [Atom.cell]
  | some packed => simp [Atom.cell]

/-- **No piece leaves out how a token is encoded.**  Let a piece of a query token have a wildcard and a symbol that is
no star, and let it match a token of a message.  The byte before the token is the one that the piece knows, if it knows
one, unless the piece starts with a star.  If the token is no variable in the message, static text is an alternative of
the piece; if it is one, so is a variable of the kind that the encoder makes of the token.  Therefore a piece is said to
be a variable in any case only if every such token is one, and it could be a number of each kind that one of them is
packed as. -/
theorem encoded_mem_alternatives (width : Width) {piece : Piece} {span : Span} {context : Context} {token : Token}
    (hwildcard : (piece.slice span).isExact = false) (hstars : (piece.slice span).isStars = false)
    (hmatch : Pattern.isMatch (piece.slice span) token.bytes = true)
    (hbefore : ∀ known, context = .known known → (piece.slice span).startsWithStar = false → token.before? = known) :
    (Schema.standard.isVariable token = false →
      .static span ∈ (Cut.piece span context).alternatives .standard piece) ∧
    (Schema.standard.isVariable token = true →
      ∃ kind, (Chunk.token token.bytes).element width = .variable kind ∧
        .wildcard span kind ∈ (Cut.piece span context).alternatives .standard piece) ∧
    (Schema.standard.isDefinite ⟨(piece.slice span).literals, (piece.slice span).leading, context.precededBy⟩ = true →
      Schema.standard.isVariable token = true) ∧
    (∀ kind word, width.pack token.bytes = some (kind, word) →
      couldBeNumber kind true false (piece.slice span) = true) := by
  have hmatches := (Pattern.isMatch_iff _ _).mp hmatch
  have halternatives : (Cut.piece span context).alternatives .standard piece =
      wildcardAlternatives .standard span (piece.slice span) context.precededBy := by
    simp only [Cut.alternatives, hwildcard, Bool.false_eq_true, if_false]
  have hdefinite : Schema.standard.isDefinite
      ⟨(piece.slice span).literals, (piece.slice span).leading, context.precededBy⟩ = true →
        Schema.standard.isVariable token = true := by
    intro hdefinite
    rw [Schema.standard_isVariable_eq]
    refine Schema.standard_sound.isVariable_of_isDefinite hmatches ?_ hdefinite
    intro hstart b hb
    cases context with
    | known precededBy => rw [hbefore precededBy rfl hstart]; exact hb
    | split => cases hb
  refine ⟨?static, ?«variable», hdefinite, ?number⟩
  case static =>
    intro hstatic
    rw [halternatives]
    apply static_mem_wildcardAlternatives
    intro h
    rw [hdefinite h] at hstatic
    cases hstatic
  case «variable» =>
    intro _
    obtain ⟨kind, hkind, hnumber⟩ := exists_kind_of_matches hmatches width
    rw [halternatives]
    refine ⟨kind, cell_ofToken_iff.mp hkind, ?_⟩
    exact wildcard_mem_wildcardAlternatives (by simp [hstars]) hnumber
  case number =>
    intro kind word hpack
    exact couldBeNumber_of_matches hmatches (couldBeNumber_of_pack hpack)

/-- The piece `-?5` behind `=` and the token `-15` of the message `x=-15`, which is packed. -/
theorem encoded_mem_alternatives_minus_15 :
    (⟨.between [0x78, 0x3D] [0x2D, 0x31, 0x35], 3⟩ : Token).bytes = [0x2D, 0x31, 0x35] ∧
      (⟨.between [0x78, 0x3D] [0x2D, 0x31, 0x35], 3⟩ : Token).before? = some 0x3D ∧
      Segment.wildcard ⟨0, 3⟩ (.number .integer) ∈
        (Cut.piece ⟨0, 3⟩ (.known (some 0x3D))).alternatives .standard ⟨2, [.literal 0x2D, .any, .literal 0x35]⟩ := by
  have h := @encoded_mem_alternatives .eight ⟨2, [.literal 0x2D, .any, .literal 0x35]⟩ ⟨0, 3⟩ (.known (some 0x3D))
    ⟨.between [0x78, 0x3D] [0x2D, 0x31, 0x35], 3⟩ (by decide) (by decide) (by decide)
    (by rintro _ ⟨⟩ _; decide)
  obtain ⟨kind, hkind, hmem⟩ := h.2.1 (by decide)
  have hinteger : (Chunk.token [0x2D, 0x31, 0x35]).element .eight = .variable (.number .integer) := by decide
  cases hkind.symm.trans hinteger
  exact ⟨by decide, by decide, hmem⟩

end Query

end LogCodec
