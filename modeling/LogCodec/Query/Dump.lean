import LogCodec.Bytes.Escaped
import LogCodec.Query.Subquery

/-!
# `LogCodec.Query.Dump`: subqueries as readable text

The first line shows the pattern for the logtype, with names in angle brackets for the placeholder bytes; each
condition on a variable has a line of its own.
-/

namespace LogCodec

/-- A byte of a logtype pattern as readable text. -/
def dumpPatternByte (b : UInt8) : String :=
  match Placeholder.ofByte? b with
  | some p => "<" ++ p.name ++ ">"
  | none =>
    if Bytes.isPrintable b then String.singleton (Char.ofNat b.toNat)
    else "\\x" ++ Hex.fixed 2 b.toNat

/-- A condition on a variable as readable text. -/
def VariableQuery.dump : VariableQuery Bytes → String
  | .value text => "dict \"" ++ Bytes.escaped text ++ "\""
  | .number kind packed => (Placeholder.number kind).name ++ " " ++ toString packed.toInt
  | .pattern kind text => "wildcard " ++ kind.name ++ " \"" ++ Bytes.escaped text ++ "\""

/-- A subquery as readable text. -/
def Subquery.dump (s : Subquery) : String :=
  "logtype_query: " ++ String.join (s.logtypeQuery.map dumpPatternByte) ++
    (if s.hasWildcards then " [wildcards]" else "") ++
    String.join (s.conditions.map fun condition => "\n  " ++ condition.dump)

end LogCodec
