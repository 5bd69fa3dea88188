import Typestate.Text.Path

/-!
Source texts and places in them. Lines and columns count from one, lengths and offsets count
characters.
-/

namespace Typestate

/-- A text to be read, with the file that it came from if there is one. -/
structure Source where
  text : String
  file : Option Path := none
  deriving DecidableEq, Repr

/-- The characters from offset `start` up to `stop`. -/
def Source.slice (src : Source) (start stop : Nat) : List Char :=
  (src.text.toList.drop start).take (stop - start)

/-- The place of a construct: where it starts and how wide it is. A place may come from outside, so
its numbers are not assumed to lie in a text. -/
structure Span where
  line : Int
  column : Int
  length : Int := 1
  deriving DecidableEq, Repr

end Typestate
