import LogCodec.Bytes.Escaped
import LogCodec.Logtype

/-!
# `LogCodec.Logtype.Dump`: logtypes as readable text

Static text is shown unescaped and then in escaped ASCII; a place for a variable is shown as the name of its kind in
angle brackets.
-/

namespace LogCodec

/-- An element as readable text. -/
def Element.dump : Element → String
  | .text bytes => Bytes.escaped bytes
  | .variable p => "<" ++ p.name ++ ">"

/-- A logtype as readable text. -/
def Logtype.dump (logtype : Bytes) : Except DecodeError String :=
  (Logtype.elements logtype).toExcept.map fun items => String.join (items.map Element.dump)

end LogCodec
