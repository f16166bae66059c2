import LogCodec.Bytes

/-!
# `LogCodec.Written`: appending to a buffer, all or nothing

Some results are appended to a buffer that already holds something.  `Written` is the buffer afterwards together with
the error that kept the result from being appended: after an error the buffer is as it was.
-/

namespace LogCodec

/-- A buffer after a result was to be appended to it. -/
structure Written (ε : Type) where
  buffer : Bytes
  failure : Option ε
deriving DecidableEq, Repr

namespace Written

/-- Appends a result to what a buffer holds. -/
def append {ε : Type} (held : Bytes) : Except ε Bytes → Written ε
  | .ok text => ⟨held ++ text, none⟩
  | .error e => ⟨held, some e⟩

end Written

end LogCodec
