import LogCodec.Cursor

/-!
# `LogCodec.Schema`: which tokens of a message are variables

A token is a maximal run of bytes that are not delimiters.  A schema says which bytes are delimiters and which tokens
are variables; it is shown a token together with the whole text around it.

## Contents
- `Schema`, with `firstVariable`, which finds the first variable token from a place on.
- `Locator`, whatever names the variable tokens of a message one after the other.
- `TokenOutline`, what is known of a query token that has wildcards in it.
- `Schema.standard`, the rules of version 2, and `Schema.ofSets`, rules given by sets of bytes.
-/

namespace LogCodec

/-- What a schema is shown of a query token with wildcards. -/
structure TokenOutline where
  /-- The literal bytes of the token, wildcards left out. -/
  literal : Bytes
  /-- The literal bytes before the first wildcard. -/
  leading : Bytes
  /-- The byte directly before the token, if it is known. -/
  precededBy : Option UInt8
deriving DecidableEq, Repr

/-- The rules that tell variables from static text. -/
structure Schema where
  isDelimiter : UInt8 → Bool
  /-- The token is a variable. -/
  isVariable : Token → Bool
  /-- A query token is a variable whatever its wildcards stand for. -/
  isDefinite : TokenOutline → Bool

/-- Names the variable tokens of a text one after the other: given how many it has named, and the place behind the
last one, the span of the next.  The spans need not make sense. -/
abbrev Locator := (named : Nat) → Cursor → Option Span

namespace Locator

/-- Names the given spans in order, whatever the text. -/
def script (spans : Array Span) : Locator := fun named _ => spans[named]?

end Locator

namespace Schema

/-- The length of the run of bytes behind a cursor that are delimiters, or that are not. -/
def runLength (schema : Schema) (delimiters : Bool) (c : Cursor) : Nat :=
  (c.rest.takeWhile fun b => schema.isDelimiter b == delimiters).length

theorem runLength_le (schema : Schema) (delimiters : Bool) (c : Cursor) :
    schema.runLength delimiters c ≤ c.rest.length :=
  (List.takeWhile_prefix fun b => schema.isDelimiter b == delimiters).length_le

/-- The first token behind a cursor.  A run that goes on before the cursor counts from the cursor. -/
def nextToken (schema : Schema) (c : Cursor) : Option Token :=
  let start := c.advance (schema.runLength true c)
  let length := schema.runLength false start
  if length = 0 then none else some ⟨start, length⟩

/-- A token starts no earlier than asked for, is not empty, and lies within the text. -/
theorem nextToken_bounds {schema : Schema} {c : Cursor} {token : Token} (h : schema.nextToken c = some token) :
    token.start.rest.length ≤ c.rest.length ∧ 0 < token.length ∧ token.length ≤ token.start.rest.length := by
  have hrun := schema.runLength_le false (c.advance (schema.runLength true c))
  simp only [nextToken] at h
  split at h
  · cases h
  · next hlength =>
    cases h
    exact ⟨by simp, Nat.pos_of_ne_zero hlength, hrun⟩

/-- The text behind a token is shorter than the text that was searched for it. -/
theorem length_rest_stop_lt {schema : Schema} {c : Cursor} {token : Token} (h : schema.nextToken c = some token) :
    token.stop.rest.length < c.rest.length := by
  have := nextToken_bounds h
  rw [Token.length_rest_stop]
  omega

/-- The first variable token behind a cursor. -/
def firstVariable (schema : Schema) (c : Cursor) : Option Token :=
  match _h : schema.nextToken c with
  | none => none
  | some token => if schema.isVariable token then some token else schema.firstVariable token.stop
termination_by c.rest.length
decreasing_by exact length_rest_stop_lt _h

/-- A variable token starts no earlier than asked for, is not empty, and lies within the text. -/
theorem firstVariable_bounds {schema : Schema} {c : Cursor} {token : Token}
    (h : schema.firstVariable c = some token) :
    token.start.rest.length ≤ c.rest.length ∧ 0 < token.length ∧ token.length ≤ token.start.rest.length := by
  fun_induction firstVariable schema c with
  | case1 => cases h
  | case2 c found hfound => cases h; exact nextToken_bounds hfound
  | case3 c found hfound _ ih =>
    have hb := nextToken_bounds hfound
    have hs := found.length_rest_stop
    have := ih h
    omega

/-- Names the variable tokens that the rules single out. -/
def locator (schema : Schema) : Locator := fun _ c => (schema.firstVariable c).map Token.span

/-- All variable tokens behind a cursor. -/
def variablesFrom (schema : Schema) (c : Cursor) : List Token :=
  match _h : schema.firstVariable c with
  | none => []
  | some token => token :: schema.variablesFrom token.stop
termination_by c.rest.length
decreasing_by
  have := firstVariable_bounds _h
  rw [Token.length_rest_stop]
  omega

/-- All delimiters. -/
def delimiters (schema : Schema) : List UInt8 :=
  ((List.range 256).map UInt8.ofNat).filter schema.isDelimiter

/-! ## Rules given by sets of bytes -/

/-- The rules by which a token is a variable if it has a marked byte or follows a given one. -/
def ofSets (delimiters marks leaders : Bytes) : Schema where
  isDelimiter b := delimiters.contains b
  isVariable token := token.bytes.any marks.contains || token.before?.any leaders.contains
  isDefinite token :=
    token.literal.any marks.contains || (token.precededBy.any leaders.contains && !token.leading.isEmpty)

/-! ## The rules of version 2 -/

/-- At least two hexadecimal digits and nothing else. -/
def isMultiDigitHex (value : Bytes) : Bool := 2 ≤ value.length && value.all Bytes.isHexDigit

/-- Every byte but letters, digits, `+`, `-`, `.`, `/`, `\` and `_` is a delimiter. -/
def isStandardDelimiter (b : UInt8) : Bool :=
  !(b == Bytes.ofChar '+' || (Bytes.ofChar '-' ≤ b && b ≤ Bytes.ofChar '9') || Bytes.isLetter b
    || b == Bytes.ofChar '\\' || b == Bytes.ofChar '_')

/-- A token is a variable if it has a digit, if it follows `=` and has a letter, or if it could be a hexadecimal number
of several digits. -/
def isStandardVariable (token : Token) : Bool :=
  token.bytes.any Bytes.isDigit
    || (token.before? == some (Bytes.ofChar '=') && token.bytes.any Bytes.isLetter)
    || isMultiDigitHex token.bytes

/-- A query token is always a variable if it has a digit, or if it follows `=` and has a letter before any wildcard. -/
def isStandardDefinite (token : TokenOutline) : Bool :=
  token.literal.any Bytes.isDigit
    || (token.precededBy == some (Bytes.ofChar '=') && token.leading.any Bytes.isLetter)

/-- The rules of version 2. -/
def standard : Schema where
  isDelimiter := isStandardDelimiter
  isVariable := isStandardVariable
  isDefinite := isStandardDefinite

end Schema

end LogCodec
