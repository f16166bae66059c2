import LogCodec.Json.Token

/-!
# `LogCodec.Json.Tree`: JSON values, as far as the text goes

A text that is no JSON is read up to the place where it goes wrong.  The containers that are open there are marked as
not closed, so whoever reads the tree from the front can report what is wrong with a complete value before it reports
that the text breaks off behind it.

Open containers wait in a list of frames, the innermost first, so the depth of a text is not limited.
-/

namespace LogCodec.Json

/-- A JSON value. -/
inductive Tree where
  | null
  | bool (value : Bool)
  /-- An integer of at most twenty digits, other than negative zero. -/
  | integer (negative : Bool) (magnitude : Nat)
  | real
  | text (content : Option String)
  | array (items : List Tree) (closed : Bool)
  | object (fields : List (Option String × Tree)) (closed : Bool)
  /-- No value: the text goes wrong here. -/
  | broken

/-- The text of a value does not break off. -/
def Tree.isWhole : Tree → Bool
  | array _ closed => closed
  | object _ closed => closed
  | broken => false
  | _ => true

/-- A container whose next item is being read; items are kept latest first. -/
inductive Frame where
  | array (done : List Tree)
  | object (done : List (Option String × Tree)) (key : Option String)

/-- The container, with its last item. -/
def Frame.finish (last : Tree) (closed : Bool) : Frame → Tree
  | array done => .array (last :: done).reverse closed
  | object done key => .object ((key, last) :: done).reverse closed

/-- A text read as one value. -/
structure Document where
  tree : Tree
  /-- Nothing but blanks follows the value. -/
  isClean : Bool

/-- The document of a text that goes wrong behind the given value. -/
def breakOff (last : Tree) (frames : List Frame) : Document :=
  ⟨frames.foldl (fun tree frame => frame.finish tree false) last, false⟩

mutual

/-- Reads a value. -/
def readValue : List Token → List Frame → Document
  | .openBracket :: .closeBracket :: rest, frames => readOn (.array [] true) rest frames
  | .openBracket :: rest, frames => readValue rest (.array [] :: frames)
  | .openBrace :: .closeBrace :: rest, frames => readOn (.object [] true) rest frames
  | .openBrace :: .text key :: .colon :: rest, frames => readValue rest (.object [] key :: frames)
  | .null :: rest, frames => readOn .null rest frames
  | .bool value :: rest, frames => readOn (.bool value) rest frames
  | .integer negative magnitude :: rest, frames => readOn (.integer negative magnitude) rest frames
  | .real :: rest, frames => readOn .real rest frames
  | .text content :: rest, frames => readOn (.text content) rest frames
  | _, frames => breakOff .broken frames

/-- Reads on behind a value. -/
def readOn (last : Tree) : List Token → List Frame → Document
  | rest, [] => ⟨last, rest.isEmpty⟩
  | .comma :: rest, .array done :: frames => readValue rest (.array (last :: done) :: frames)
  | .closeBracket :: rest, .array done :: frames => readOn (.array (last :: done).reverse true) rest frames
  | .comma :: .text next :: .colon :: rest, .object done key :: frames =>
    readValue rest (.object ((key, last) :: done) next :: frames)
  | .closeBrace :: rest, .object done key :: frames =>
    readOn (.object ((key, last) :: done).reverse true) rest frames
  | _, frame :: frames => breakOff (frame.finish last false) frames

end

/-- Reads a text as one value. -/
def Document.ofText (text : String) : Document := readValue (tokens text) []

end LogCodec.Json
