import Typestate.Digraph.Clause
import Typestate.Source.Context
import Typestate.Text.Quoted

/-!
The report about a text that holds no digraph: the line where reading failed, a caret below the
place, and what was expected and found there.
-/

namespace Typestate.Digraph

def Missing.describe : Missing → String
  | keyword => "\x7b'DIGRAPH' | 'GRAPH'\x7d"
  | openingBrace => "lbrace"
  | closingBrace => "rbrace"

/-- Where the Latin, Greek and Cyrillic scripts begin and end. The Coptic letters between the Greek
ones belong to none of them. -/
def scriptBoundaries : List Nat := [
  0, 0x250, 0x370, 0x3E2, 0x3F0, 0x530, 0x1C80, 0x1C89, 0x1D26, 0x1D2C, 0x1D5E, 0x1D5F, 0x1D60,
  0x1D61, 0x1D66, 0x1D6B, 0x1D78, 0x1D79, 0x1F00, 0x2000, 0xA640, 0xA6A0, 0xAB65, 0xAB66]

/-- The character belongs to a word that a report shows as a whole: a letter or digit of the Latin,
Greek or Cyrillic script. -/
def isShownChar (c : Char) : Bool :=
  Unicode.inBoundaries scriptBoundaries c.toNat && (Unicode.isLetter c || Unicode.isDigit c)

/-- What a report says was found: up to sixteen characters of a word, or one character. -/
def foundChars (ahead : List Char) : List Char :=
  match (ahead.takeWhile isShownChar).take 16 with
  | [] => ahead.take 1
  | cs => cs

/-- Pairs of backslashes as single ones. -/
def mergeBackslashes : List Char → List Char
  | [] => []
  | '\\' :: '\\' :: rest => '\\' :: mergeBackslashes rest
  | c :: rest => c :: mergeBackslashes rest

namespace Complaint

/-- The text that was read before the place of the complaint. -/
def before (c : Complaint) (text : List Char) : List Char :=
  text.take (text.length - c.ahead.length)

/-- The characters of the line up to the place. -/
def lineBefore (c : Complaint) (text : List Char) : List Char :=
  ((c.before text).reverse.takeWhile (· != '\n')).reverse

def found (c : Complaint) (text : List Char) : String :=
  if text.isEmpty then ""
  else if c.ahead.isEmpty then ", found end of text"
  else ", found " ++
    String.ofList (mergeBackslashes (Text.quoted (String.ofList (foundChars c.ahead))).toList)

/-- The lines of the report. -/
def report (c : Complaint) (source : String) : List String :=
  let text := source.toList
  let lineBefore := c.lineBefore text
  let offset := (c.before text).length + c.past
  let line := (c.before text).count '\n' + 1
  let column := lineBefore.length + c.past + 1
  [String.ofList (lineBefore ++ c.ahead.takeWhile (· != '\n')),
    String.ofList (List.replicate (column - 1) ' ' ++ ['^']),
    "Expected " ++ c.missing.describe ++ c.found text ++ "  (at char " ++ toString offset ++
      "), (line:" ++ toString line ++ ", col:" ++ toString column ++ ")"]

end Complaint

end Typestate.Digraph
