import LogCodec.Placeholder

/-!
# `LogCodec.Bytes.EscapePairs`: which escape bytes escape something

In a pattern and in a logtype alike an escape byte makes a pair with the byte behind it, so that an escape byte may
itself be escaped.  Pairs are formed from the left, but whether a byte is escaped can be told from the bytes directly
before it: it is escaped if an odd number of escape bytes stands there.

## Contents
- `trailingEscapes`, and `EndsInEscape`: the last escape byte has nothing to escape.
- `EscapesOnly`: escapes stand before some bytes only.
- `escape_induction`, along the pairs, and what a pair or a single byte in front changes.
-/

namespace LogCodec.Bytes

/-- How many escape bytes a byte string ends in. -/
def trailingEscapes (bytes : Bytes) : Nat := (bytes.reverse.takeWhile (· == escapeByte)).length

/-- The byte string ends in an escape byte that is not escaped itself. -/
def EndsInEscape (bytes : Bytes) : Prop := bytes.trailingEscapes % 2 = 1

instance : DecidablePred EndsInEscape := fun _ => inferInstanceAs (Decidable (_ = _))

/-- Every byte behind an escape byte that is not escaped itself is an allowed one. -/
def EscapesOnly (allowed : UInt8 → Bool) (bytes : Bytes) : Prop :=
  ∀ front b back, bytes = front ++ escapeByte :: b :: back → ¬ EndsInEscape front → allowed b = true

/-- A byte string is made of pairs and of bytes that are no escape byte, with an escape byte behind them at most. -/
theorem escape_induction {motive : Bytes → Prop} (nil : motive []) (lone : motive [escapeByte])
    (pair : ∀ (b : UInt8) (rest : Bytes), motive rest → motive (escapeByte :: b :: rest))
    (single : ∀ (b : UInt8) (rest : Bytes), b ≠ escapeByte → motive rest → motive (b :: rest)) :
    ∀ bytes : Bytes, motive bytes
  | [] => nil
  | [b] => by
    by_cases hb : b = escapeByte
    · rw [hb]
      exact lone
    · exact single b [] hb nil
  | b :: c :: rest => by
    by_cases hb : b = escapeByte
    · rw [hb]
      exact pair c rest (escape_induction nil lone pair single rest)
    · exact single b (c :: rest) hb (escape_induction nil lone pair single (c :: rest))

/-! ## The end of a byte string -/

theorem trailingEscapes_le_length (bytes : Bytes) : bytes.trailingEscapes ≤ bytes.length := by
  have hle := (List.takeWhile_prefix (l := bytes.reverse) (· == escapeByte)).length_le
  rwa [List.length_reverse] at hle

/-- A byte in front counts if it is an escape byte and all behind it count. -/
theorem trailingEscapes_cons (b : UInt8) (rest : Bytes) :
    trailingEscapes (b :: rest) =
      if b = escapeByte ∧ rest.trailingEscapes = rest.length then rest.length + 1 else rest.trailingEscapes := by
  unfold trailingEscapes
  rw [List.reverse_cons, List.takeWhile_append, List.length_reverse]
  by_cases hall : (rest.reverse.takeWhile (· == escapeByte)).length = rest.length
  · by_cases hb : b = escapeByte
    · simp [hall, hb]
    · simp [hall, hb]
  · simp [hall]

theorem not_endsInEscape_nil : ¬ EndsInEscape [] := by decide

theorem endsInEscape_lone : EndsInEscape [escapeByte] := by decide

theorem endsInEscape_pair_iff (b : UInt8) (rest : Bytes) :
    EndsInEscape (escapeByte :: b :: rest) ↔ EndsInEscape rest := by
  have hle := trailingEscapes_le_length rest
  unfold EndsInEscape
  rw [trailingEscapes_cons, trailingEscapes_cons, List.length_cons]
  by_cases hb : b = escapeByte
  · by_cases hall : rest.trailingEscapes = rest.length
    · simp only [hb, hall, and_self, if_true]
      omega
    · simp only [hb, hall, and_false, if_false, true_and]
      rw [if_neg (by omega)]
  · simp only [hb, false_and, if_false, true_and]
    rw [if_neg (by omega)]

theorem endsInEscape_single_iff {b : UInt8} (hb : b ≠ escapeByte) (rest : Bytes) :
    EndsInEscape (b :: rest) ↔ EndsInEscape rest := by
  unfold EndsInEscape
  rw [trailingEscapes_cons, if_neg fun h => hb h.1]

/-! ## Places that are not escaped -/

/-- A place that is not escaped, in a byte string that starts with a pair, is its start or stands behind the pair. -/
theorem place_in_pair {b c : UInt8} {rest front back : Bytes} (h : escapeByte :: b :: rest = front ++ c :: back)
    (hfront : ¬ EndsInEscape front) :
    (front = [] ∧ c = escapeByte ∧ back = b :: rest) ∨
      ∃ front', front = escapeByte :: b :: front' ∧ rest = front' ++ c :: back ∧ ¬ EndsInEscape front' := by
  match front, h, hfront with
  | [], h, _ =>
    rw [List.nil_append, List.cons.injEq] at h
    exact .inl ⟨rfl, h.1.symm, h.2.symm⟩
  | [d], h, hfront =>
    rw [List.singleton_append, List.cons.injEq] at h
    rw [← h.1] at hfront
    exact absurd endsInEscape_lone hfront
  | d :: e :: front', h, hfront =>
    simp only [List.cons_append, List.cons.injEq] at h
    obtain ⟨rfl, rfl, hrest⟩ := h
    rw [endsInEscape_pair_iff] at hfront
    exact .inr ⟨front', rfl, hrest, hfront⟩

/-- A place that is not escaped, in a byte string that starts with a byte that is no escape byte, is its start or
stands behind that byte. -/
theorem place_in_single {b c : UInt8} (hb : b ≠ escapeByte) {rest front back : Bytes}
    (h : b :: rest = front ++ c :: back) (hfront : ¬ EndsInEscape front) :
    (front = [] ∧ c = b ∧ back = rest) ∨
      ∃ front', front = b :: front' ∧ rest = front' ++ c :: back ∧ ¬ EndsInEscape front' := by
  match front, h, hfront with
  | [], h, _ =>
    rw [List.nil_append, List.cons.injEq] at h
    exact .inl ⟨rfl, h.1.symm, h.2.symm⟩
  | d :: front', h, hfront =>
    rw [List.cons_append, List.cons.injEq] at h
    obtain ⟨rfl, hrest⟩ := h
    rw [endsInEscape_single_iff hb] at hfront
    exact .inr ⟨front', rfl, hrest, hfront⟩

section
variable {allowed : UInt8 → Bool}

theorem escapesOnly_nil : EscapesOnly allowed [] := by
  intro front b back h
  simp at h

theorem escapesOnly_pair_iff (b : UInt8) (rest : Bytes) :
    EscapesOnly allowed (escapeByte :: b :: rest) ↔ allowed b = true ∧ EscapesOnly allowed rest := by
  constructor
  · intro h
    refine ⟨h [] b rest rfl not_endsInEscape_nil, ?_⟩
    intro front c back hrest hfront
    rw [← endsInEscape_pair_iff b] at hfront
    exact h (escapeByte :: b :: front) c back (by rw [hrest]; rfl) hfront
  · rintro ⟨hb, hrest⟩ front c back h hfront
    rcases place_in_pair h hfront with ⟨-, -, hback⟩ | ⟨front', -, hback, hfront'⟩
    · rw [List.cons.injEq] at hback
      rwa [hback.1]
    · exact hrest front' c back hback hfront'

theorem escapesOnly_single_iff {b : UInt8} (hb : b ≠ escapeByte) (rest : Bytes) :
    EscapesOnly allowed (b :: rest) ↔ EscapesOnly allowed rest := by
  constructor
  · intro h front c back hrest hfront
    rw [← endsInEscape_single_iff hb] at hfront
    exact h (b :: front) c back (by rw [hrest]; rfl) hfront
  · intro hrest front c back h hfront
    rcases place_in_single hb h hfront with ⟨-, hescape, -⟩ | ⟨front', -, hback, hfront'⟩
    · exact absurd hescape.symm hb
    · exact hrest front' c back hback hfront'

end

end LogCodec.Bytes
