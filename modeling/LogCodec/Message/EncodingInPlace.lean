import LogCodec.Bytes.Slices
import LogCodec.Message.Encoding
import LogCodec.Message.Operation
import LogCodec.Packing.Checked

/-!
# `LogCodec.Message.EncodingInPlace`: encoding a text into a message, step by step

A text is encoded from left to right into a message that may hold something, and that is cleared first.  At each token
that the locator names, the static text before it and then the token are appended, by the operations that any caller of
a message has.  A span that is no token ends this, and the message is cleared again.  A slice of the text that is
reversed or out of range stops the program, and so do a step of packing that goes wrong and a dictionary value that ends
beyond what four bytes can tell; in all of these cases there is no result here.

## Contents
- `Operation.ofToken?`: the operation that appends a token.
- `encodeFrom`, which encodes what lies behind a position, and `encodeInPlace`.
-/

namespace LogCodec.EncodedMessage

/-- The operation that appends a token: as a packed number if it spells one that fits the width, and as a dictionary
value otherwise. -/
def Operation.ofToken? (width : Width) (token : Bytes) : Option Operation :=
  match width.packChecked token with
  | .ok (kind, word) => some (.encoded (.number kind) word)
  | .error .refused => some (.dictionary token)
  | .error .fault => none

/-- Encodes what lies behind a position of a text, at the end of a message. -/
def encodeFrom (width : Width) (locate : Locator) (text : Bytes) (named position : Nat) (out : EncodedMessage) :
    Option (EncodedMessage × Option EncodeError) :=
  match locate named (.inText text position) with
  | none => do
    let run ← (Span.mk position text.length).slice? text
    let out ← (Operation.text run).apply out
    return (out, none)
  | some token =>
    if _h : token.start < position ∨ token.stop ≤ token.start ∨ text.length < token.stop then
      some (out.clear, some (.badToken token position text.length))
    else do
      let run ← (Span.mk position token.start).slice? text
      let out ← (Operation.text run).apply out
      let value ← token.slice? text
      let append ← Operation.ofToken? width value
      let out ← append.apply out
      encodeFrom width locate text (named + 1) token.stop out
termination_by text.length - position

/-- Encodes a text into a message that holds something. -/
def encodeInPlace (held : EncodedMessage) (width : Width) (locate : Locator) (text : Bytes) :
    Option (EncodedMessage × Option EncodeError) :=
  if maxMessageLength < text.length then some (held.clear, some (.tooLong text.length))
  else encodeFrom width locate text 0 0 held.clear

end LogCodec.EncodedMessage
