import LogCodec.FlatBytes
import LogCodec.Logtype
import LogCodec.Packing

/-!
# `LogCodec.Message`: encoded messages

An encoded message is a logtype with the values of its variables: dictionary values and packed numbers, each group in
the order of its places in the logtype.

## Contents
- `EncodedMessage`, `clear`, and the operations that append to a message.
- `EncodedMessage.Consistent`: there is exactly one value for every place.
- `EncodedMessage.ofParts`, which puts a message together from parts that are consistent.
-/

namespace LogCodec

/-- A message in encoded form. -/
structure EncodedMessage where
  logtype : Bytes
  /-- The values of the dictionary variables. -/
  dictionary : FlatBytes
  /-- The packed numbers. -/
  numbers : List Int64
deriving DecidableEq

/-- Compares the places of a logtype with the number of values for them, dictionary variables first. -/
def Logtype.Counts.check (counts : Logtype.Counts) (dictionary encoded : Nat) : Except DecodeError Unit :=
  if counts.dictionary ≠ dictionary then
    .error (.countMismatch .dictionary counts.dictionary dictionary)
  else if counts.encoded ≠ encoded then
    .error (.countMismatch .numbers counts.encoded encoded)
  else .ok ()

namespace EncodedMessage

/-- The message without text and variables. -/
def empty : EncodedMessage := ⟨[], .empty, []⟩

instance : Inhabited EncodedMessage := ⟨empty⟩

/-- Removes all that a message holds. -/
def clear (m : EncodedMessage) : EncodedMessage := { m with logtype := [], dictionary := .empty, numbers := [] }

/-- Appends static text. -/
def appendText (m : EncodedMessage) (text : Bytes) : EncodedMessage :=
  { m with logtype := m.logtype ++ Logtype.writeText text }

/-- Appends a dictionary variable. -/
def appendDictionary (m : EncodedMessage) (value : Bytes) : EncodedMessage :=
  { m with logtype := m.logtype ++ [Placeholder.dictionary.toByte], dictionary := m.dictionary.push value }

/-- Appends a packed number. -/
def appendNumber (m : EncodedMessage) (packed : Packed) : EncodedMessage :=
  { m with logtype := m.logtype ++ [(Placeholder.number packed.1).toByte], numbers := m.numbers ++ [packed.2] }

/-- Appends a packed number under a placeholder, which must not be that of dictionary values. -/
def appendEncoded (m : EncodedMessage) (placeholder : Placeholder) (value : Int64) :
    Except Misuse EncodedMessage :=
  match placeholder with
  | .number kind => .ok (m.appendNumber (kind, value))
  | .dictionary => .error .dictionaryGivenNumber

/-- There is exactly one value for every place in the logtype. -/
def Consistent (m : EncodedMessage) : Prop :=
  Logtype.counts m.logtype = .ok ⟨m.dictionary.size, m.numbers.length⟩

/-- Puts a message together, if there is exactly one value for every place in the logtype. -/
def ofParts (logtype : Bytes) (dictionary : FlatBytes) (numbers : List Int64) :
    Except DecodeError EncodedMessage := do
  let counts ← Logtype.counts logtype
  counts.check dictionary.size numbers.length
  return ⟨logtype, dictionary, numbers⟩

end EncodedMessage

end LogCodec
