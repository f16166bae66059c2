import LogCodec.Bytes.LittleEndian
import LogCodec.Logtype
import LogCodec.Packing
import LogCodec.Wildcard.Normal

/-!
# `LogCodec.Query.Subquery`: conditions on encoded messages

A subquery is a list of items: static text, wildcards, and places of variables with a condition on each.  Written as a
pattern for the bytes of a logtype, it says what a logtype has to look like; the conditions say what the variables have
to be, in order.

## Contents
- `Excerpt`: bytes that stand at some place of a buffer.
- `VariableQuery`: the condition on one variable, with `key`, by which conditions are told apart.
- `Item` and `Subquery`, with `Subquery.logtypeQuery` and `Subquery.variableQueries`.
- The variables of a subquery by kind of condition.
-/

namespace LogCodec

/-- Bytes that stand at some place of a buffer. -/
structure Excerpt where
  /-- The number of bytes that the buffer has before them. -/
  start : Nat
  bytes : Bytes
deriving DecidableEq, Repr

namespace Excerpt

/-- Where the bytes stand in the buffer. -/
def span (e : Excerpt) : Span := ⟨e.start, e.start + e.bytes.length⟩

/-- The bytes stand where the excerpt says. -/
def IsFrom (e : Excerpt) (buffer : Bytes) : Prop := e.span.Fits buffer.length ∧ e.span.slice buffer = e.bytes

end Excerpt

/-- The condition on one variable; `τ` is how byte strings are given. -/
inductive VariableQuery (τ : Type) where
  /-- A dictionary variable with this value. -/
  | value (text : τ)
  /-- This packed number. -/
  | number (kind : NumberKind) (value : Int64)
  /-- A variable of this kind whose text matches a pattern. -/
  | pattern (kind : Placeholder) (text : τ)
deriving DecidableEq, Repr

namespace VariableQuery

/-- The kind of variable that the condition is for. -/
def placeholder {τ : Type} : VariableQuery τ → Placeholder
  | .value _ => .dictionary
  | .number kind _ => .number kind
  | .pattern kind _ => kind

/-- The same condition, with byte strings given in another way. -/
def map {τ υ : Type} (f : τ → υ) : VariableQuery τ → VariableQuery υ
  | .value text => .value (f text)
  | .number kind packed => .number kind packed
  | .pattern kind text => .pattern kind (f text)

/-- A byte string by which the condition is told from others. -/
def key : VariableQuery Bytes → Bytes
  | value text => 0 :: text
  | number kind packed => 1 :: (Placeholder.number kind).toByte :: Bytes.littleEndian 8 packed.toUInt64.toNat
  | pattern kind text => 2 :: kind.toByte :: text

/-- Different conditions have different keys. -/
theorem key_injective {q r : VariableQuery Bytes} (h : q.key = r.key) : q = r := by
  cases q with
  | value text => cases r <;> simp_all [key]
  | number kind packed =>
    cases r with
    | number other value =>
      simp only [key, List.cons.injEq, true_and] at h
      obtain rfl := Placeholder.number.inj (Placeholder.toByte_injective h.1)
      have hbits := congrArg Bytes.ofLittleEndian h.2
      simp only [Bytes.ofLittleEndian_littleEndian] at hbits
      have hlt : ∀ word : Int64, word.toUInt64.toNat < Nat.pow 256 8 := fun word => word.toUInt64.toNat_lt
      rw [Nat.mod_eq_of_lt (hlt packed), Nat.mod_eq_of_lt (hlt value)] at hbits
      exact congrArg (number kind) (congrArg Int64.ofUInt64 (UInt64.toNat_inj.mp hbits))
    | _ => simp [key] at h
  | pattern kind text =>
    cases r with
    | pattern other value =>
      simp only [key, List.cons.injEq, true_and] at h
      rw [Placeholder.toByte_injective h.1, h.2]
    | _ => simp [key] at h

end VariableQuery

/-- A part of a subquery. -/
inductive Item where
  /-- Any static text and any variables. -/
  | star
  /-- Any one byte of static text. -/
  | any
  /-- One byte of static text. -/
  | literal (byte : UInt8)
  | variable (query : VariableQuery Excerpt)
deriving DecidableEq, Repr

namespace Item

/-- The item for a symbol of a query that is read as static text. -/
def ofSymbol : Symbol → Item
  | .star => star
  | .any => any
  | .literal b => literal b

/-- The symbols that match the item in the bytes of a logtype. -/
def symbols : Item → Pattern
  | .star => [.star]
  | .any => [.any]
  | .literal b => (Logtype.writeByte b).map .literal
  | .variable query => [.literal query.placeholder.toByte]

/-- The item is a wildcard. -/
def isWildcard : Item → Bool
  | .star => true
  | .any => true
  | _ => false

/-- The condition that the item puts on a variable. -/
def condition? : Item → Option (VariableQuery Excerpt)
  | .variable query => some query
  | _ => none

/-- Replaces every run of stars by one star. -/
def collapse : List Item → List Item
  | .star :: .star :: rest => collapse (.star :: rest)
  | item :: rest => item :: collapse rest
  | [] => []

end Item

/-- Conditions that an encoded message meets together. -/
structure Subquery where
  items : List Item
deriving DecidableEq, Repr

namespace Subquery

/-- The pattern for the bytes of the logtype. -/
def logtypePattern (s : Subquery) : Pattern := s.items.flatMap Item.symbols

/-- The spelled pattern for the bytes of the logtype. -/
def logtypeQuery (s : Subquery) : Bytes := s.logtypePattern.spell

/-- The pattern for the logtype has wildcards. -/
def hasWildcards (s : Subquery) : Bool := s.items.any Item.isWildcard

/-- The conditions on variables, in order. -/
def variableQueries (s : Subquery) : List (VariableQuery Excerpt) := s.items.filterMap Item.condition?

/-- The conditions on variables, with the byte strings alone. -/
def conditions (s : Subquery) : List (VariableQuery Bytes) := s.variableQueries.map (·.map Excerpt.bytes)

/-- The values that dictionary variables have to have. -/
def values (s : Subquery) : List Excerpt :=
  s.variableQueries.filterMap fun
    | .value text => some text
    | _ => none

/-- The packed numbers that have to occur. -/
def numbers (s : Subquery) : List Int64 :=
  s.variableQueries.filterMap fun
    | .number _ value => some value
    | _ => none

/-- The patterns for variables, with the kinds of the variables. -/
def patterns (s : Subquery) : List (Placeholder × Excerpt) :=
  s.variableQueries.filterMap fun
    | .pattern kind text => some (kind, text)
    | _ => none

/-- The patterns for dictionary variables. -/
def dictionaryPatterns (s : Subquery) : List Excerpt :=
  s.variableQueries.filterMap fun
    | .pattern .dictionary text => some text
    | _ => none

/-- The patterns for packed numbers, with the kinds of the numbers. -/
def numberPatterns (s : Subquery) : List (NumberKind × Excerpt) :=
  s.variableQueries.filterMap fun
    | .pattern (.number kind) text => some (kind, text)
    | _ => none

end Subquery

end LogCodec
