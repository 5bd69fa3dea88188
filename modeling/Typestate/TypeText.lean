import Typestate.Text.Blank
import Typestate.Identifier

/-!
Payload types, which are kept as text. Two types are the same when they have the same words,
lifetimes and punctuation characters, whatever the blanks between.
-/

namespace Typestate.TypeText

/-- The text goes on with a character of a word. -/
def startsWord : List Char → Bool
  | [] => false
  | c :: _ => Identifier.isPlainChar c

/-- The ASCII words of a type, each with the quote of a lifetime if it has one, and its other
characters one by one, without the blanks. -/
def tokenChars : List Char → List (List Char)
  | [] => []
  | c :: rest =>
    if (Identifier.isPlainChar c || c == '\'') && startsWord rest then
      Text.extendFirst c (tokenChars rest)
    else if Text.isBlank c then tokenChars rest
    else [c] :: tokenChars rest

/-- The tokens of a type. -/
def tokens (ty : String) : List String := (tokenChars ty.toList).map String.ofList

/-- The two texts spell the same type. -/
def same (a b : String) : Bool := tokenChars a.toList == tokenChars b.toList

end Typestate.TypeText
