import LogCodec.Bytes.Hex

/-!
# `LogCodec.Json.Token`: the tokens of JSON text

Text is cut into tokens one character at a time; between two characters only the `Mode` is remembered.  Where the text
has no token, a `bad` one stands: a reader that comes to it stops there, so what follows does not matter.

## Contents
- `Token`, and `tokens`, which cuts a text.
- `codeUnits` and `joinSurrogates`, which resolve the escapes of a string.
- `numberToken`, which tells integers from other numbers.
-/

namespace LogCodec.Json

/-- A token of JSON text. -/
inductive Token where
  | openBrace
  | closeBrace
  | openBracket
  | closeBracket
  | colon
  | comma
  | null
  | bool (value : Bool)
  /-- An integer of at most twenty digits, other than negative zero. -/
  | integer (negative : Bool) (magnitude : Nat)
  /-- Any other number. -/
  | real
  /-- A string; there is no content when an escape stands for half of a surrogate pair. -/
  | text (content : Option String)
  | bad
deriving DecidableEq, Repr

/-! ## Strings -/

/-- What a string is made of once its escapes are read. -/
inductive CodeUnit where
  | char (c : Char)
  /-- A number given by four hexadecimal digits. -/
  | unit (n : Nat)
deriving DecidableEq, Repr

/-- The number that four hexadecimal digits stand for. -/
def hexNumber? (a b c d : Char) : Option Nat := do
  let a ← Hex.digitValue? a
  let b ← Hex.digitValue? b
  let c ← Hex.digitValue? c
  let d ← Hex.digitValue? d
  return ((a * 16 + b) * 16 + c) * 16 + d

/-- The character that a short escape stands for. -/
def shortEscape? : Char → Option Char
  | '"' => some '"'
  | '\\' => some '\\'
  | '/' => some '/'
  | 'b' => some '\x08'
  | 'f' => some '\x0c'
  | 'n' => some '\n'
  | 'r' => some '\r'
  | 't' => some '\t'
  | _ => none

/-- Reads the escapes of a string. -/
def codeUnits : List Char → Option (List CodeUnit)
  | [] => some []
  | '\\' :: 'u' :: a :: b :: c :: d :: rest => do
    let n ← hexNumber? a b c d
    return .unit n :: (← codeUnits rest)
  | '\\' :: c :: rest => do
    let c ← shortEscape? c
    return .char c :: (← codeUnits rest)
  | c :: rest => do return .char c :: (← codeUnits rest)

/-- The first half of a surrogate pair. -/
def isHighSurrogate (n : Nat) : Bool := 0xD800 ≤ n && n < 0xDC00

/-- The second half of a surrogate pair. -/
def isLowSurrogate (n : Nat) : Bool := 0xDC00 ≤ n && n < 0xE000

/-- Joins surrogate pairs; a half alone makes the string unreadable. -/
def joinSurrogates : List CodeUnit → Option (List Char)
  | [] => some []
  | .char c :: rest => do return c :: (← joinSurrogates rest)
  | [.unit n] => if isHighSurrogate n || isLowSurrogate n then none else some [Char.ofNat n]
  | .unit n :: .unit m :: rest =>
    if isHighSurrogate n then
      if isLowSurrogate m then do
        return Char.ofNat (0x10000 + (n - 0xD800) * 0x400 + (m - 0xDC00)) :: (← joinSurrogates rest)
      else none
    else if isLowSurrogate n then none
    else do return Char.ofNat n :: (← joinSurrogates (.unit m :: rest))
  | .unit n :: rest =>
    if isHighSurrogate n || isLowSurrogate n then none
    else do return Char.ofNat n :: (← joinSurrogates rest)

/-- The token of a string, from what stands between its quotes. -/
def textToken (raw : List Char) : Token :=
  match codeUnits raw with
  | none => .bad
  | some units => .text ((joinSurrogates units).map String.ofList)

/-! ## Numbers and words -/

/-- A decimal digit. -/
def isDigit (c : Char) : Bool := '0' ≤ c && c ≤ '9'

/-- A character that numbers are made of. -/
def isNumberChar (c : Char) : Bool := isDigit c || c == '+' || c == '-' || c == '.' || c == 'e' || c == 'E'

/-- A run of at least one digit and nothing else. -/
def isDigits (cs : List Char) : Bool := !cs.isEmpty && cs.all isDigit

/-- An exponent, or nothing. -/
def isExponent : List Char → Bool
  | [] => true
  | e :: '+' :: rest => (e == 'e' || e == 'E') && isDigits rest
  | e :: '-' :: rest => (e == 'e' || e == 'E') && isDigits rest
  | e :: rest => (e == 'e' || e == 'E') && isDigits rest

/-- A fraction and an exponent, each of which may be missing. -/
def isTail : List Char → Bool
  | '.' :: rest => !(rest.takeWhile isDigit).isEmpty && isExponent (rest.dropWhile isDigit)
  | rest => isExponent rest

/-- The number that decimal digits stand for. -/
def digitsValue (cs : List Char) : Nat := cs.foldl (fun value c => 10 * value + (c.toNat - 0x30)) 0

/-- The most digits that an integer of 64 bits has. -/
def maxIntegerDigits : Nat := 20

/-- The token of a run of number characters. -/
def numberToken (cs : List Char) : Token :=
  let negative := cs.head? == some '-'
  let body := if negative then cs.drop 1 else cs
  let whole := body.takeWhile isDigit
  let tail := body.dropWhile isDigit
  if whole.isEmpty || (whole.head? == some '0' && 1 < whole.length) || !isTail tail then .bad
  else if tail.isEmpty && whole.length ≤ maxIntegerDigits && !(negative && digitsValue whole == 0) then
    .integer negative (digitsValue whole)
  else .real

/-- A character that words are made of. -/
def isWordChar (c : Char) : Bool := ('a' ≤ c && c ≤ 'z') || ('A' ≤ c && c ≤ 'Z')

/-- The token of a run of letters. -/
def wordToken (cs : List Char) : Token :=
  if cs = ['n', 'u', 'l', 'l'] then .null
  else if cs = ['t', 'r', 'u', 'e'] then .bool true
  else if cs = ['f', 'a', 'l', 's', 'e'] then .bool false
  else .bad

/-! ## Cutting text into tokens -/

/-- What is remembered between two characters; runs of characters are kept latest first. -/
inductive Mode where
  | between
  | word (latest : List Char)
  | number (latest : List Char)
  | text (latest : List Char)
  /-- In a string, behind a backslash. -/
  | escape (latest : List Char)
deriving DecidableEq, Repr

/-- The tokens that a character ends, and the mode behind it, where no token is open before it. -/
def start (c : Char) : List Token × Mode :=
  if c = ' ' ∨ c = '\t' ∨ c = '\n' ∨ c = '\r' then ([], .between)
  else if c = '\x7b' then ([.openBrace], .between)
  else if c = '\x7d' then ([.closeBrace], .between)
  else if c = '[' then ([.openBracket], .between)
  else if c = ']' then ([.closeBracket], .between)
  else if c = ':' then ([.colon], .between)
  else if c = ',' then ([.comma], .between)
  else if c = '"' then ([], .text [])
  else if c = '-' ∨ isDigit c then ([], .number [c])
  else if isWordChar c then ([], .word [c])
  else ([.bad], .between)

/-- The tokens that a character ends, and the mode behind it. -/
def step (mode : Mode) (c : Char) : List Token × Mode :=
  match mode with
  | .between => start c
  | .word latest =>
    if isWordChar c then ([], .word (c :: latest))
    else (wordToken latest.reverse :: (start c).1, (start c).2)
  | .number latest =>
    if isNumberChar c then ([], .number (c :: latest))
    else (numberToken latest.reverse :: (start c).1, (start c).2)
  | .text latest =>
    if c = '"' then ([textToken latest.reverse], .between)
    else if c = '\\' then ([], .escape latest)
    else if c < ' ' then ([.bad], .between)
    else ([], .text (c :: latest))
  | .escape latest => ([], .text (c :: '\\' :: latest))

/-- The token that the end of the text ends. -/
def Mode.finish : Mode → List Token
  | .between => []
  | .word latest => [wordToken latest.reverse]
  | .number latest => [numberToken latest.reverse]
  | .text _ => [.bad]
  | .escape _ => [.bad]

/-- The tokens of a text that is read on in the given mode. -/
def tokensFrom (mode : Mode) : List Char → List Token
  | [] => mode.finish
  | c :: rest => (step mode c).1 ++ tokensFrom (step mode c).2 rest

/-- The tokens of a text. -/
def tokens (text : String) : List Token := tokensFrom .between text.toList

end LogCodec.Json
