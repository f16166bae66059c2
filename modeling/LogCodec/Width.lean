import LogCodec.Bytes

/-!
# `LogCodec.Width`: how wide a packed number is

A packed number is eight or four bytes wide.  Both are kept in a 64-bit word: a four-byte number is sign-extended, so
it fits the width when its value lies in the 32-bit range.  Bit patterns are natural numbers here: `Width.word` reads
the bits of a word that fits the width, and `Width.ofBits` makes the word of a bit pattern.
-/

namespace LogCodec

/-- The width of packed numbers. -/
inductive Width where
  | eight
  | four
deriving DecidableEq, Repr, Inhabited

namespace Width

/-- The number of bits. -/
def bits : Width → Nat
  | eight => 64
  | four => 32

/-- The name of a width in settings. -/
def name : Width → String
  | eight => "eight"
  | four => "four"

/-- An integer lies in the signed range of the width. -/
def Holds (width : Width) (value : Int) : Prop :=
  -(Nat.pow 2 (width.bits - 1) : Int) ≤ value ∧ value < Nat.pow 2 (width.bits - 1)

instance (width : Width) (value : Int) : Decidable (width.Holds value) :=
  inferInstanceAs (Decidable (_ ∧ _))

/-- The bit pattern of a word, of which a width of four keeps the lower half. -/
def bitsOf (width : Width) (value : Int64) : Nat := value.toUInt64.toNat % Nat.pow 2 width.bits

/-- The word of a bit pattern; four-byte patterns are sign-extended. -/
def ofBits : Width → Nat → Int64
  | eight, raw => (UInt64.ofNat raw).toInt64
  | four, raw => (UInt32.ofNat raw).toInt32.toInt64

end Width

end LogCodec
