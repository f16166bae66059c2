import LogCodec.Proofs.Alignment
import LogCodec.Proofs.Fields
import LogCodec.Proofs.NumberSearch

/-!
# `LogCodec.Proofs.TokenSearch`: searching packed numbers is searching tokens

A matcher looks at the packed numbers of an encoded message and renders them.  The numbers come from the variable tokens
of the text, in order, and each is rendered as the token that it was packed from.  So the matcher answers for every
encoded text, and its answer is about the tokens of the text as they stand there.

## Contents
- **Tokens.** `variablesFrom_eq`: the tokens among the fields of a text are its variable tokens.
- **Patterns.** `NumberPattern.FindsToken`, and `foundInOrder_pack_iff`: to search packed tokens is to search tokens.
- **Messages.** `exists_accepts_ofAtoms` for atoms that have a text, and `accepts_encoded` for encoded texts.
-/

namespace LogCodec

/-! ## Tokens -/

namespace Field

/-- The run of a field that is a variable. -/
def token? {α : Type} : Field α → Option (List α)
  | byte _ => none
  | token run => some run

theorem filterMap_token?_bytes (bytes : Bytes) : (bytes.map byte).filterMap token? = [] := by
  simp [List.filterMap_eq_nil_iff, token?]

/-- The packed numbers of fields come from their tokens. -/
theorem filterMap_packed? (width : Width) (fields : List (Field UInt8)) :
    (fields.map (atom width)).filterMap Atom.packed? = (fields.filterMap token?).filterMap width.pack := by
  rw [List.filterMap_map, List.filterMap_filterMap]
  refine congrFun (congrArg List.filterMap (funext fun field => ?_)) fields
  cases field with
  | byte b => rfl
  | token run =>
    show (Atom.ofToken width run).packed? = width.pack run
    rw [Atom.ofToken]
    cases width.pack run <;> rfl

end Field

namespace Schema

/-- The tokens among the fields behind a cursor are the variable tokens there. -/
theorem variablesFrom_eq {schema : Schema} (hlocal : schema.IsLocal) (c : Cursor) :
    (schema.fieldsFrom id c.before.head? [] c.rest).filterMap Field.token? =
      (schema.variablesFrom c).map Token.bytes := by
  fun_induction variablesFrom schema c with
  | case1 c hnone =>
    rw [fieldsFrom_of_firstVariable_eq_none hlocal hnone, Field.filterMap_token?_bytes]
    rfl
  | case2 c token hsome ih =>
    obtain ⟨front, -, -, -, hfields⟩ := fieldsFrom_of_firstVariable_eq_some hlocal hsome
    rw [hfields, List.filterMap_append, Field.filterMap_token?_bytes, List.nil_append]
    exact congrArg (token.bytes :: ·) ih

end Schema

/-! ## Patterns -/

/-- A token is packed as a number of the kind that a pattern is for, and its own text matches the pattern. -/
def NumberPattern.FindsToken (width : Width) (pattern : NumberPattern) (token : Token) : Prop :=
  (∃ word, width.pack token.bytes = some (pattern.1, word)) ∧ pattern.2.isMatch token.bytes = true

/-- The tokens that are packed. -/
def packedTokens (width : Width) (tokens : List Token) : List Token :=
  tokens.filter fun token => (width.pack token.bytes).isSome

/-- A pattern finds the number that a token was packed to if it finds the token. -/
theorem NumberPattern.finds_pack_iff {width : Width} {pattern : NumberPattern} {token : Token} {number : Packed}
    (h : width.pack token.bytes = some number) : pattern.Finds width number ↔ pattern.FindsToken width token := by
  obtain ⟨kind, word⟩ := number
  have hrender := Width.render_of_pack h
  constructor
  · rintro ⟨rfl, text, htext, hmatch⟩
    cases hrender.symm.trans htext
    exact ⟨⟨word, h⟩, hmatch⟩
  · rintro ⟨⟨other, hother⟩, hmatch⟩
    obtain ⟨rfl, -⟩ := Prod.mk.inj (Option.some.inj (h.symm.trans hother))
    exact ⟨rfl, token.bytes, hrender, hmatch⟩

/-- Patterns find packed numbers one by one if they find the tokens that these were packed from. -/
theorem forall₂_finds_pack_iff {width : Width} {patterns : List NumberPattern} {tokens : List Token}
    (h : ∀ token ∈ tokens, (width.pack token.bytes).isSome = true) :
    List.Forall₂ (NumberPattern.Finds width) patterns (tokens.filterMap fun token => width.pack token.bytes) ↔
      List.Forall₂ (NumberPattern.FindsToken width) patterns tokens := by
  induction tokens generalizing patterns with
  | nil => simp
  | cons token tokens ih =>
    obtain ⟨htoken, htokens⟩ := List.forall_mem_cons.mp h
    obtain ⟨number, hnumber⟩ := Option.isSome_iff_exists.mp htoken
    rw [List.filterMap_cons_some (f := fun token : Token => width.pack token.bytes) hnumber]
    cases patterns with
    | nil => simp
    | cons pattern patterns =>
      rw [List.forall₂_cons, List.forall₂_cons, NumberPattern.finds_pack_iff hnumber, ih htokens]

/-- **Patterns find packed numbers in order if they find tokens in order**, of those that are packed. -/
theorem foundInOrder_pack_iff {width : Width} {patterns : List NumberPattern} {tokens : List Token} :
    Matcher.FoundInOrder width patterns ((tokens.map Token.bytes).filterMap width.pack) ↔
      ∃ found, found.Sublist (packedTokens width tokens) ∧
        List.Forall₂ (NumberPattern.FindsToken width) patterns found := by
  have hpacked : ∀ found : List Token, found.Sublist (packedTokens width tokens) →
      ∀ token ∈ found, (width.pack token.bytes).isSome = true := fun found hfound token htoken =>
    (List.mem_filter.mp (hfound.subset htoken)).2
  have htokens : (tokens.map Token.bytes).filterMap width.pack =
      (packedTokens width tokens).filterMap fun token => width.pack token.bytes := by
    rw [List.filterMap_map, packedTokens, List.filterMap_filter]
    refine congrFun (congrArg List.filterMap (funext fun token => ?_)) tokens
    show width.pack token.bytes = _
    cases width.pack token.bytes <;> rfl
  rw [Matcher.FoundInOrder, htokens]
  constructor
  · rintro ⟨_, hnumbers, hall⟩
    obtain ⟨found, hfound, rfl⟩ := List.sublist_filterMap_iff.mp hnumbers
    exact ⟨found, hfound, (forall₂_finds_pack_iff (hpacked found hfound)).mp hall⟩
  · rintro ⟨found, hfound, hall⟩
    exact ⟨_, hfound.filterMap _, (forall₂_finds_pack_iff (hpacked found hfound)).mpr hall⟩

/-! ## Messages -/

/-- A matcher has an answer for atoms that have a text, and the answer is right. -/
theorem Matcher.exists_accepts_ofAtoms {m : Matcher} {as : List Atom} {text : Bytes}
    (htext : Atom.textOf m.width as = .ok text) :
    ∃ accepted, m.accepts (EncodedMessage.ofAtoms as).logtype (EncodedMessage.ofAtoms as).numbers = .ok accepted ∧
      (accepted = true ↔ FoundInOrder m.width m.patterns (as.filterMap Atom.packed?)) := by
  have hpacked :
      (Logtype.typedNumbers (EncodedMessage.ofAtoms as).logtype (EncodedMessage.ofAtoms as).numbers).toExcept =
        .ok (as.filterMap Atom.packed?) := by
    rw [EncodedMessage.typedNumbers_ofAtoms]
    rfl
  have hrender : ∀ number ∈ as.filterMap Atom.packed?, ∃ text, m.width.render number.1 number.2 = .ok text := by
    intro number hnumber
    obtain ⟨a, ha, hvalue⟩ := List.mem_filterMap.mp hnumber
    have hbytes := (Atom.text_eq_of_textOf htext).2 a ha
    cases a with
    | byte b => cases hvalue
    | value value => cases hvalue
    | number kind word =>
      cases hvalue
      exact ⟨_, hbytes⟩
  obtain ⟨accepted, haccepted⟩ := exists_accepts hpacked hrender
  exact ⟨accepted, haccepted, accepts_eq_ok hpacked haccepted⟩

/-- **A search in an encoded text is a search in its tokens.**  Every matcher of the width has an answer for the
message, and it is whether tokens of the text, of those that are packed, match the patterns in order: each as a number
of the kind of its pattern, and by the text that it has in the message. -/
theorem accepts_encoded (width : Width) {text : Bytes} (hlength : text.length ≤ maxMessageLength) :
    ∃ e, EncodedMessage.encode width Schema.standard.locator text = .ok e ∧
      ∀ patterns : List NumberPattern, ∃ accepted,
        Matcher.accepts ⟨width, patterns⟩ e.logtype e.numbers = .ok accepted ∧
        (accepted = true ↔
          ∃ found, found.Sublist (packedTokens width (Schema.standard.variablesFrom (.ofText text))) ∧
            List.Forall₂ (NumberPattern.FindsToken width) patterns found) := by
  have hfields : (Schema.standard.fields id text).filterMap Field.token? =
      (Schema.standard.variablesFrom (.ofText text)).map Token.bytes :=
    Schema.variablesFrom_eq Schema.standard_isLocal (.ofText text)
  refine ⟨_, by rw [EncodedMessage.encode_eq Schema.standard_isLocal, if_neg (Nat.not_lt.mpr hlength)], ?_⟩
  intro patterns
  obtain ⟨accepted, haccepted, hiff⟩ := @Matcher.exists_accepts_ofAtoms ⟨width, patterns⟩ _ _
    (Field.textOf_atoms width (Schema.standard.fields id text))
  refine ⟨accepted, haccepted, hiff.trans ?_⟩
  rw [Field.filterMap_packed?, hfields, foundInOrder_pack_iff]

/-- In the text `a 7 b2` the token `7` is found, and `b2`, which is not packed, is not looked at. -/
theorem accepts_encoded_digit :
    ∃ e, EncodedMessage.encode .eight Schema.standard.locator [0x61, 0x20, 0x37, 0x20, 0x62, 0x32] = .ok e ∧
      Matcher.accepts ⟨.eight, [(.integer, [.star])]⟩ e.logtype e.numbers = .ok true := by
  obtain ⟨e, he, hsearch⟩ := @accepts_encoded .eight [0x61, 0x20, 0x37, 0x20, 0x62, 0x32] (by decide)
  obtain ⟨accepted, haccepted, hiff⟩ := hsearch [(.integer, [.star])]
  have htokens : packedTokens .eight (Schema.standard.variablesFrom (.ofText [0x61, 0x20, 0x37, 0x20, 0x62, 0x32])) =
      [⟨.inText [0x61, 0x20, 0x37, 0x20, 0x62, 0x32] 2, 1⟩] := by decide +kernel
  have hfinds : NumberPattern.FindsToken .eight (.integer, [.star])
      ⟨.inText [0x61, 0x20, 0x37, 0x20, 0x62, 0x32] 2, 1⟩ := ⟨⟨7, by decide +kernel⟩, by decide +kernel⟩
  rw [htokens] at hiff
  exact ⟨e, he, by rw [haccepted, hiff.mpr ⟨_, .refl _, .cons hfinds .nil⟩]⟩

end LogCodec
