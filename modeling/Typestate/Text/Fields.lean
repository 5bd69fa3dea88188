import Typestate.Text.Blank

/-!
Splitting a text at a character: at every occurrence, or only outside of brackets.
-/

namespace Typestate.Text

/-- The pieces between the occurrences of `sep`, empty ones included. -/
def fields (sep : Char) : List Char → List (List Char)
  | [] => [[]]
  | c :: rest => if c == sep then [] :: fields sep rest else extendFirst c (fields sep rest)

/-- The lines of a text, which end at a line feed only. -/
def lines (s : String) : List String := (fields '\n' s.toList).map String.ofList

/-- The text made of the given lines. -/
def unlines (ls : List String) : String := String.intercalate "\n" ls

/-- How much deeper in brackets the text is after a character, given the character before it. The
angle bracket of `->` closes nothing. -/
def nesting (previous c : Char) : Int :=
  if c == '<' || c == '(' || c == '[' || c == '\x7b' then 1
  else if c == ')' || c == ']' || c == '\x7d' || (c == '>' && previous != '-') then -1
  else 0

/-- The pieces between the separators that stand at depth zero. The separator is looked at after
its own effect on the depth. -/
def pieces (isSeparator : Char → Bool) (depth : Int) (previous : Char) :
    List Char → List (List Char)
  | [] => [[]]
  | c :: rest =>
    let depth := depth + nesting previous c
    if isSeparator c && depth == 0 then [] :: pieces isSeparator depth c rest
    else extendFirst c (pieces isSeparator depth c rest)

/-- The pieces of a text between the separators outside of brackets, without the blank ones and
each with its blanks made single spaces. -/
def splitOutsideBrackets (s : String) (isSeparator : Char → Bool) : List String :=
  ((pieces isSeparator 0 ' ' s.toList).map normalize).filter (!·.isEmpty) |>.map String.ofList

end Typestate.Text
