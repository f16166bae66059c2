import LogCodec.Bytes.Hex

/-!
# `LogCodec.Json.Writer`: JSON text

Text is written without blanks.  In strings only what has to be escaped is: quotes, backslashes and characters below
the space, with a short escape where there is one.
-/

namespace LogCodec.Json

/-- One character of a string. -/
def writeChar (c : Char) : List Char :=
  if c = '"' then ['\\', '"']
  else if c = '\\' then ['\\', '\\']
  else if c = '\x08' then ['\\', 'b']
  else if c = '\x0c' then ['\\', 'f']
  else if c = '\n' then ['\\', 'n']
  else if c = '\r' then ['\\', 'r']
  else if c = '\t' then ['\\', 't']
  else if c < ' ' then '\\' :: 'u' :: Hex.fixedDigits 4 c.toNat
  else [c]

/-- A string. -/
def writeText (text : String) : String :=
  String.ofList ('"' :: (text.toList.flatMap writeChar ++ ['"']))

/-- Items with commas between them. -/
def writeItems (items : List String) : String := String.intercalate "," items

/-- An array of written items. -/
def writeArray (items : List String) : String := "[" ++ writeItems items ++ "]"

/-- An object of names and written values. -/
def writeObject (fields : List (String × String)) : String :=
  "\x7b" ++ writeItems (fields.map fun field => writeText field.1 ++ ":" ++ field.2) ++ "\x7d"

/-- A byte string, as the array of its bytes. -/
def writeBytes (bytes : Bytes) : String := writeArray (bytes.map fun b => toString b.toNat)

end LogCodec.Json
