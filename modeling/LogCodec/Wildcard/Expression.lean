import LogCodec.Wildcard.Pattern

/-!
# `LogCodec.Wildcard.Expression`: patterns as regular expressions

A pattern that is used many times is handed to a regular expression engine.  The expression is built in one pass over
the bytes of the pattern: literal bytes are gathered into runs, a run ends where a wildcard comes, and behind everything
stands the condition that the text ends there.  The engine looks for the expression at the start of a text, and only
that condition makes it take the whole text.

## Contents
- `Expression`, with `Expression.Takes`, what it takes of a text, and `FoundAtStart`, what the engine decides.
- `Expression.ofPattern`, the expression for the bytes of a pattern.
-/

namespace LogCodec

/-- A regular expression over bytes. -/
inductive Expression where
  /-- The given bytes. -/
  | text (bytes : Bytes)
  /-- Any one byte. -/
  | oneByte
  /-- Nothing, but only at the end of the text. -/
  | textEnd
  /-- The part any number of times. -/
  | repeated (part : Expression)
  /-- One expression behind the other. -/
  | both (first second : Expression)
deriving DecidableEq, Repr

namespace Expression

/-- The expression can take the first bytes of a text, with the other bytes behind them. -/
inductive Takes : Expression → (taken behind : Bytes) → Prop where
  | text (bytes behind : Bytes) : Takes (.text bytes) bytes behind
  | oneByte (b : UInt8) (behind : Bytes) : Takes .oneByte [b] behind
  | textEnd : Takes .textEnd [] []
  | never (part : Expression) (behind : Bytes) : Takes (.repeated part) [] behind
  | again {part : Expression} {first later behind : Bytes} (hfirst : Takes part first (later ++ behind))
      (hlater : Takes (.repeated part) later behind) : Takes (.repeated part) (first ++ later) behind
  | both {e f : Expression} {first later behind : Bytes} (hfirst : Takes e first (later ++ behind))
      (hlater : Takes f later behind) : Takes (.both e f) (first ++ later) behind

/-- The expression can take some first bytes of a text. -/
def FoundAtStart (e : Expression) (text : Bytes) : Prop := ∃ taken behind, text = taken ++ behind ∧ e.Takes taken behind

/-- Expressions one behind the other. -/
def sequence : List Expression → Expression
  | [] => .text []
  | e :: rest => .both e (sequence rest)

/-- A run of literal bytes, unless it is empty. -/
def ofRun (run : Bytes) : List Expression := if run = [] then [] else [.text run]

/-- The parts for the rest of a pattern, given the literal bytes since the last wildcard. -/
def partsOfPattern (run : Bytes) : Bytes → List Expression
  | [] => ofRun run ++ [.textEnd]
  | b :: rest =>
    if b = starByte then ofRun run ++ .repeated .oneByte :: partsOfPattern [] rest
    else if b = anyByte then ofRun run ++ .oneByte :: partsOfPattern [] rest
    else if b = escapeByte then
      match rest with
      | [] => ofRun (run ++ [escapeByte]) ++ [.textEnd]
      | c :: rest => partsOfPattern (run ++ [c]) rest
    else partsOfPattern (run ++ [b]) rest

/-- The expression for a pattern. -/
def ofPattern (pattern : Bytes) : Expression := sequence (partsOfPattern [] pattern)

end Expression

end LogCodec
