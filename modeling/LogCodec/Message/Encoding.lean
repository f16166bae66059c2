import LogCodec.Message
import LogCodec.Schema

/-!
# `LogCodec.Message.Encoding`: from text to encoded messages

A message is cut into chunks at the variable tokens that a locator names: static text and tokens take turns.  Each
token is packed if it spells a number that fits the width, and goes to the dictionary otherwise.  The encoded message
is then a function of the chunks alone.

## Contents
- `EncodeError`.
- `Chunk`, and `chunks`, which cuts a text and refuses places that are no tokens.
- `EncodedMessage.appendChunks`, which appends chunks in one go, and `EncodedMessage.ofChunks`.
- `EncodedMessage.encode`, and `EncodedMessage.reencode`, which encodes into a message that holds something.
-/

namespace LogCodec

/-- The longest message that can be encoded: its length fits 32 bits. -/
def maxMessageLength : Nat := 0xFFFFFFFF

/-- Why a message could not be encoded. -/
inductive EncodeError where
  /-- The message is longer than the longest one that can be encoded. -/
  | tooLong (length : Nat)
  /-- A locator named a token that is empty, reversed, out of bounds or before the end of the previous one. -/
  | badToken (token : Span) (previous length : Nat)
deriving DecidableEq, Repr

/-- The wording of an encoding error. -/
def EncodeError.message : EncodeError → String
  | .tooLong length =>
    s!"message of {length} bytes exceeds the maximum encodable length of {maxMessageLength} bytes"
  | .badToken token previous length =>
    s!"variable schema returned invalid token bounds {token.start}..{token.stop} " ++
    s!"(message length {length}, previous token end {previous})"

/-- A part of a message. -/
inductive Chunk where
  | text (bytes : Bytes)
  | token (bytes : Bytes)
deriving DecidableEq, Repr

namespace Chunk

/-- The bytes of the message that the chunk covers. -/
def bytes : Chunk → Bytes
  | text bytes => bytes
  | token bytes => bytes

/-- The packed number that a token is encoded as. -/
def packed? (width : Width) : Chunk → Option Packed
  | text _ => none
  | token bytes => width.pack bytes

/-- The dictionary value that a token is encoded as. -/
def dictionary? (width : Width) : Chunk → Option Bytes
  | text _ => none
  | token bytes => if (width.pack bytes).isSome then none else some bytes

/-- The part of the logtype for a chunk. -/
def element (width : Width) : Chunk → Element
  | text bytes => .text bytes
  | token bytes =>
    match width.pack bytes with
    | some (kind, _) => .variable (.number kind)
    | none => .variable .dictionary

end Chunk

/-- Cuts what lies behind a cursor at the tokens that a locator names.  A token has to come after the previous one, hold
at least one byte and lie within the text. -/
def chunksFrom (locate : Locator) (named : Nat) (c : Cursor) : Except EncodeError (List Chunk) :=
  match locate named c with
  | none => .ok [.text c.rest]
  | some span =>
    let token : Token := ⟨c.advance (span.start - c.position), span.length⟩
    if _h : c.position ≤ span.start ∧ 0 < span.length ∧ token.IsWhole then
      (chunksFrom locate (named + 1) token.stop).map fun rest =>
        .text (c.rest.take (span.start - c.position)) :: .token token.bytes :: rest
    else .error (.badToken span c.position (c.position + c.rest.length))
termination_by c.rest.length
decreasing_by
  obtain ⟨_, hlength, hwhole⟩ := _h
  simp only [token, Token.IsWhole, Token.bytes, List.length_take, Cursor.rest_advance, List.length_drop] at hwhole
  simp only [Token.length_rest_stop, Cursor.rest_advance, List.length_drop]
  omega

/-- Cuts a text at the tokens that a locator names. -/
def chunks (locate : Locator) (text : Bytes) : Except EncodeError (List Chunk) := chunksFrom locate 0 (.ofText text)

namespace EncodedMessage

/-- Appends the encoded form of chunks. -/
def appendChunks (m : EncodedMessage) (width : Width) (chunks : List Chunk) : EncodedMessage where
  logtype := m.logtype ++ Logtype.write (chunks.map (·.element width))
  dictionary := m.dictionary.pushAll (chunks.filterMap (·.dictionary? width))
  numbers := m.numbers ++ (chunks.filterMap (·.packed? width)).map Prod.snd

/-- The encoded form of a message that is given as chunks. -/
def ofChunks (width : Width) (chunks : List Chunk) : EncodedMessage := empty.appendChunks width chunks

theorem ofChunks_parts (width : Width) (chunks : List Chunk) :
    ofChunks width chunks =
      ⟨Logtype.write (chunks.map (·.element width)), .ofList (chunks.filterMap (·.dictionary? width)),
        (chunks.filterMap (·.packed? width)).map Prod.snd⟩ := rfl

/-- Encodes a text. -/
def encode (width : Width) (locate : Locator) (text : Bytes) : Except EncodeError EncodedMessage :=
  if maxMessageLength < text.length then .error (.tooLong text.length)
  else (chunks locate text).map (ofChunks width)

/-- Encodes a text into a message that holds something.  What it holds is removed before anything is appended, and what
has been appended is removed after an error. -/
def reencode (held : EncodedMessage) (width : Width) (locate : Locator) (text : Bytes) :
    EncodedMessage × Option EncodeError :=
  if maxMessageLength < text.length then (held.clear, some (.tooLong text.length))
  else
    match chunks locate text with
    | .ok cs => (held.clear.appendChunks width cs, none)
    | .error e => (held.clear, some e)

end EncodedMessage

end LogCodec
