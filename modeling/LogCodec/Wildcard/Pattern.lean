import LogCodec.Placeholder

/-!
# `LogCodec.Wildcard.Pattern`: wildcard patterns and their spelling

In a pattern `*` stands for any byte string, `?` for any one byte, and the escape byte makes the next byte stand for
itself.  An escape byte at the very end has nothing to escape and stands for itself.

## Contents
- `Symbol` and `Pattern`: a pattern as the list of its symbols; `Symbol.spell_cases`, the two ways to spell one.
- `Pattern.ofBytes` reads a spelled pattern; `Pattern.spell` writes one with no needless escape.
- `ofBytes_spell`: what `spell` writes is read back as the same symbols.
-/

namespace LogCodec

/-- One unit of a pattern. -/
inductive Symbol where
  /-- Any byte string. -/
  | star
  /-- Any one byte. -/
  | any
  /-- The byte itself. -/
  | literal (byte : UInt8)
deriving DecidableEq, Repr

/-- A wildcard pattern. -/
abbrev Pattern := List Symbol

/-- The byte that spells a star. -/
def starByte : UInt8 := 0x2A

/-- The byte that spells any one byte. -/
def anyByte : UInt8 := 0x3F

namespace Symbol

/-- The byte that a literal stands for. -/
def literal? : Symbol → Option UInt8
  | literal b => some b
  | _ => none

/-- The symbol is a wildcard. -/
def isWildcard (s : Symbol) : Bool := s.literal?.isNone

/-- The byte has to be escaped to stand for itself. -/
def isReserved (b : UInt8) : Bool := b == starByte || b == anyByte || b == escapeByte

/-- The spelling of a symbol takes an escape. -/
def isEscaped : Symbol → Bool
  | literal b => isReserved b
  | _ => false

/-- How a symbol is written. -/
def spell : Symbol → Bytes
  | star => [starByte]
  | any => [anyByte]
  | literal b => if isReserved b then [escapeByte, b] else [b]

/-- The symbol that a byte spells when no escape comes before it. -/
def ofByte (b : UInt8) : Symbol :=
  if b = starByte then star else if b = anyByte then any else literal b

theorem spell_ofByte {b : UInt8} (hb : b ≠ escapeByte) : (ofByte b).spell = [b] := by
  unfold ofByte
  by_cases hstar : b = starByte
  · rw [if_pos hstar, hstar]
    rfl
  · by_cases hany : b = anyByte
    · rw [if_neg hstar, if_pos hany, hany]
      rfl
    · simp [hstar, hany, spell, isReserved, hb]

/-- A symbol is spelled by the byte that spells it without an escape, or by a reserved byte behind an escape. -/
theorem spell_cases (s : Symbol) :
    (∃ b, b ≠ escapeByte ∧ s = ofByte b ∧ s.spell = [b]) ∨
      ∃ b, isReserved b = true ∧ s = .literal b ∧ s.spell = [escapeByte, b] := by
  cases s with
  | star => exact .inl ⟨starByte, by decide, rfl, rfl⟩
  | any => exact .inl ⟨anyByte, by decide, rfl, rfl⟩
  | literal b =>
    by_cases hb : isReserved b = true
    · exact .inr ⟨b, hb, rfl, by simp [spell, hb]⟩
    · have hne : b ≠ starByte ∧ b ≠ anyByte ∧ b ≠ escapeByte := by
        simpa [isReserved, and_assoc] using hb
      exact .inl ⟨b, hne.2.2, by simp [ofByte, hne.1, hne.2.1], by simp [spell, hb]⟩

end Symbol

namespace Pattern

/-- The symbols that a byte string spells. -/
def ofBytes : Bytes → Pattern
  | [] => []
  | [b] => [Symbol.ofByte b]
  | b :: c :: rest =>
    if b = escapeByte then .literal c :: ofBytes rest else Symbol.ofByte b :: ofBytes (c :: rest)

/-- How a pattern is written. -/
def spell (p : Pattern) : Bytes := p.flatMap Symbol.spell

/-- The bytes that the literals of a pattern stand for, wildcards left out. -/
def literals (p : Pattern) : Bytes := p.filterMap Symbol.literal?

/-- The bytes that the literals before the first wildcard stand for. -/
def leading (p : Pattern) : Bytes := literals (p.takeWhile fun s => !s.isWildcard)

/-- The pattern has no wildcards. -/
def isExact (p : Pattern) : Bool := p.all fun s => !s.isWildcard

/-- The pattern has stars only. -/
def isStars (p : Pattern) : Bool := p.all (· == .star)

/-- The spelling of the pattern takes an escape. -/
def isEscaped (p : Pattern) : Bool := p.any Symbol.isEscaped

/-- The pattern starts with a star. -/
def startsWithStar (p : Pattern) : Bool := p.head? == some .star

/-- The pattern ends with a star. -/
def endsWithStar (p : Pattern) : Bool := p.getLast? == some .star

/-- A byte string without the escape byte that it ends in, if that byte escapes nothing. -/
def dropDangling : Bytes → Bytes
  | [] => []
  | [b] => if b = escapeByte then [] else [b]
  | b :: c :: rest =>
    if b = escapeByte then b :: c :: dropDangling rest else b :: dropDangling (c :: rest)

theorem dropDangling_pair (b : UInt8) (rest : Bytes) :
    dropDangling (escapeByte :: b :: rest) = escapeByte :: b :: dropDangling rest := by
  simp [dropDangling]

theorem dropDangling_cons_of_ne_escape {b : UInt8} (h : b ≠ escapeByte) (rest : Bytes) :
    dropDangling (b :: rest) = b :: dropDangling rest := by
  cases rest <;> simp [dropDangling, h]

@[simp] theorem spell_nil : spell [] = [] := rfl

@[simp] theorem spell_cons (s : Symbol) (p : Pattern) : spell (s :: p) = s.spell ++ spell p := rfl

theorem spell_append (p q : Pattern) : spell (p ++ q) = spell p ++ spell q := by
  simp [spell]

theorem ofBytes_cons_of_ne_escape {b : UInt8} (h : b ≠ escapeByte) (rest : Bytes) :
    ofBytes (b :: rest) = Symbol.ofByte b :: ofBytes rest := by
  cases rest <;> simp [ofBytes, h]

theorem ofBytes_escape (b : UInt8) (rest : Bytes) :
    ofBytes (escapeByte :: b :: rest) = .literal b :: ofBytes rest := by
  simp [ofBytes]

theorem ofBytes_spell_append (s : Symbol) (rest : Bytes) :
    ofBytes (s.spell ++ rest) = s :: ofBytes rest := by
  rcases s.spell_cases with ⟨b, hb, hs, hspell⟩ | ⟨b, -, hs, hspell⟩
  · rw [hspell, List.singleton_append, ofBytes_cons_of_ne_escape hb, hs]
  · rw [hspell, List.cons_append, List.singleton_append, ofBytes_escape, hs]

/-- Reading undoes writing. -/
theorem ofBytes_spell (p : Pattern) : ofBytes (spell p) = p := by
  induction p with
  | nil => rfl
  | cons s p ih => rw [spell_cons, ofBytes_spell_append, ih]

end Pattern

end LogCodec
