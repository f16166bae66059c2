import LogCodec.Wildcard.Pattern

/-!
# `LogCodec.Wildcard.Placed`: the symbols of a query and where they are spelled

What is said of a query in terms of its symbols has to be found again in its bytes.  So a query is also read with the
place of every symbol: one byte, or the two bytes of an escape and what it escapes.
-/

namespace LogCodec

/-- A symbol of a query and the bytes that spell it. -/
structure PlacedSymbol where
  symbol : Symbol
  span : Span
deriving DecidableEq, Repr

namespace Pattern

/-- The symbols that a byte string spells, with their places; the byte string itself stands at a position. -/
def placedFrom (position : Nat) : Bytes → List PlacedSymbol
  | [] => []
  | [b] => [⟨Symbol.ofByte b, ⟨position, position + 1⟩⟩]
  | b :: c :: rest =>
    if b = escapeByte then ⟨.literal c, ⟨position, position + 2⟩⟩ :: placedFrom (position + 2) rest
    else ⟨Symbol.ofByte b, ⟨position, position + 1⟩⟩ :: placedFrom (position + 1) (c :: rest)

/-- The symbols that a byte string spells, with their places. -/
def placed (bytes : Bytes) : List PlacedSymbol := placedFrom 0 bytes

theorem placedFrom_escape (position : Nat) (b : UInt8) (rest : Bytes) :
    placedFrom position (escapeByte :: b :: rest) =
      ⟨.literal b, ⟨position, position + 2⟩⟩ :: placedFrom (position + 2) rest := by
  simp [placedFrom]

theorem placedFrom_of_ne_escape (position : Nat) {b : UInt8} (h : b ≠ escapeByte) (rest : Bytes) :
    placedFrom position (b :: rest) =
      ⟨Symbol.ofByte b, ⟨position, position + 1⟩⟩ :: placedFrom (position + 1) rest := by
  cases rest <;> simp [placedFrom, h]

/-- The symbols are the same as without their places. -/
theorem map_symbol_placedFrom (position : Nat) (bytes : Bytes) :
    (placedFrom position bytes).map PlacedSymbol.symbol = ofBytes bytes := by
  fun_induction placedFrom position bytes with
  | case1 => rfl
  | case2 => rfl
  | case3 position c rest ih => rw [List.map_cons, ih, ofBytes_escape]
  | case4 position b c rest hb ih => rw [List.map_cons, ih, ofBytes_cons_of_ne_escape hb]

end Pattern

end LogCodec
