import LogCodec.Bytes.Hex
import LogCodec.Text.Unprintable

/-!
# `LogCodec.Text.Quoted`: text between quotes

Quoted text shows any string on one line: quotes and backslashes are escaped, line ends, tabs and the null character
have short escapes, and every other character that would not show is written as its number in hexadecimal.
-/

namespace LogCodec.Text

/-- One character of quoted text. -/
def quotedChar (c : Char) : List Char :=
  if c = '"' then ['\\', '"']
  else if c = '\\' then ['\\', '\\']
  else if c = '\n' then ['\\', 'n']
  else if c = '\r' then ['\\', 'r']
  else if c = '\t' then ['\\', 't']
  else if c.toNat = 0 then ['\\', '0']
  else if isUnprintable c then '\\' :: 'u' :: '\x7b' :: (Hex.shortestDigits c.toNat ++ ['\x7d'])
  else [c]

/-- A text between quotes. -/
def quoted (text : String) : String :=
  String.ofList ('"' :: (text.toList.flatMap quotedChar ++ ['"']))

end LogCodec.Text
