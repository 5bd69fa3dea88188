import Typestate.Token.Lexeme

/-!
The words and marks of the digraph language. There are no tokens: a reader asks for what it wants to
see next, and gaps are passed before it looks.
-/

namespace Typestate.Digraph

/-- A reader of the text ahead, which gives what it read and the text after it. -/
abbrev Reader (α : Type) := List Char → Option (α × List Char)

/-- Where the passing of a gap stands: between comments, in a comment up to the end of the line, or
at the opening, inside or at the end of a comment with two ends. -/
inductive Gap where
  | blanks
  | line
  | opening
  | inside
  | closing

/-- The end of a comment comes somewhere. -/
def closesComment : List Char → Bool
  | [] => false
  | c :: rest => (c == '*' && rest.head? == some '/') || closesComment rest

/-- The text after a gap. A comment that is not ended is none. -/
def skipFrom : Gap → List Char → List Char
  | _, [] => []
  | .blanks, c :: rest =>
    if Lexeme.isSpace c then skipFrom .blanks rest
    else if c == '#' || (c == '/' && rest.head? == some '/') then skipFrom .line rest
    else if c == '/' && rest.head? == some '*' && closesComment rest.tail then
      skipFrom .opening rest
    else c :: rest
  | .line, c :: rest => skipFrom (if c == '\n' then .blanks else .line) rest
  | .opening, _ :: rest => skipFrom .inside rest
  | .inside, c :: rest =>
    skipFrom (if c == '*' && rest.head? == some '/' then .closing else .inside) rest
  | .closing, _ :: rest => skipFrom .blanks rest

/-- The text after the blanks and comments at its front. -/
def skipGap (cs : List Char) : List Char := skipFrom .blanks cs

/-- The text after some marks, which must be next. -/
def mark (text : List Char) (cs : List Char) : Option (List Char) :=
  if text.isPrefixOf (skipGap cs) then some ((skipGap cs).drop text.length) else none

def dropKeyword : List Char → List Char → Option (List Char)
  | [], cs => some cs
  | _ :: _, [] => none
  | k :: ks, c :: cs => if Unicode.sameLetter k c then dropKeyword ks cs else none

/-- The text after a keyword, given in lower case. The keyword need not be a whole word. -/
def keyword (word : String) (cs : List Char) : Option (List Char) :=
  dropKeyword word.toList (skipGap cs)

/-- The inside of a quoted name and the text after it. A backslash takes the next character along. -/
def quotedBody : Reader (List Char)
  | [] => none
  | c :: rest =>
    if c == '"' then some ([], rest)
    else if c == '\\' then
      match rest with
      | [] => none
      | e :: after => (quotedBody after).map fun (body, after) => (c :: e :: body, after)
    else (quotedBody rest).map fun (body, after) => (c :: body, after)

/-- The text without the pairs of carriage return and line feed that have a backslash in front, and
without these backslashes. -/
def joinAtReturns : List Char → List Char
  | [] => []
  | '\\' :: '\r' :: '\n' :: rest => joinAtReturns rest
  | c :: rest => c :: joinAtReturns rest

/-- The text without the line feeds that have a backslash in front, and without these backslashes. -/
def joinAtFeeds : List Char → List Char
  | [] => []
  | '\\' :: '\n' :: rest => joinAtFeeds rest
  | c :: rest => c :: joinAtFeeds rest

/-- The text without the line ends that have a backslash in front. Those of two characters go first,
and a line feed behind one of them may then have a backslash in front too. -/
def joinLines (cs : List Char) : List Char := joinAtFeeds (joinAtReturns cs)

/-- The inside of a quoted name. -/
def quotedName (cs : List Char) : Option (List Char × List Char) := do
  let (body, rest) ← quotedBody (← mark ['"'] cs)
  return (joinLines body, rest)

/-- Repeat a reader as long as it succeeds and takes something. -/
def many {α : Type} (p : Reader α) (cs : List Char) : List α × List Char :=
  match p cs with
  | none => ([], cs)
  | some (a, rest) =>
    if rest.length < cs.length then
      let (as, rest) := many p rest
      (a :: as, rest)
    else ([a], rest)
termination_by cs.length

/-- Quoted names with plus signs between are one. -/
def quotedNames (cs : List Char) : Option (List Char × List Char) := do
  let (first, rest) ← quotedName cs
  let (more, rest) := many (fun cs => do quotedName (← mark ['+'] cs)) rest
  return ('"' :: ((first ++ more.flatten) ++ ['"']), rest)

/-- A letter, digit, underscore or dot, of the first plane. -/
def isWordChar (c : Char) : Bool :=
  c.toNat ≤ 0xFFFF && (Unicode.isLetter c || Unicode.isDigit c || c == '_' || c == '.')

def word (cs : List Char) : Option (List Char × List Char) :=
  let cs := skipGap cs
  match cs.takeWhile isWordChar with
  | [] => none
  | w => some (w, cs.drop w.length)

/-- Marked-up text up to the angle bracket that closes the outermost of `depth + 1` open ones. -/
def markupBody (depth : Nat) : Reader (List Char)
  | [] => none
  | c :: rest =>
    if c == '>' && depth == 0 then some ([c], rest)
    else
      let depth := if c == '<' then depth + 1 else if c == '>' then depth - 1 else depth
      (markupBody depth rest).map fun (body, after) => (c :: body, after)

def markup (cs : List Char) : Option (List Char × List Char) := do
  let (body, rest) ← markupBody 0 (← mark ['<'] cs)
  return ('<' :: body, rest)

/-- A name as it is written: in quotes, as a plain word, or as marked-up text. -/
def name (cs : List Char) : Option (List Char × List Char) :=
  (quotedNames cs).or ((word cs).or (markup cs))

/-- The characters of a number, after an optional sign. -/
def number (cs : List Char) : Option (List Char × List Char) :=
  let cs := skipGap cs
  let unsigned := if cs.head? == some '-' then cs.tail else cs
  match unsigned.takeWhile fun c => c.isDigit || c == '.' with
  | [] => none
  | digits => some (digits, unsigned.drop digits.length)

/-- What may stand behind an equals sign. -/
def value (cs : List Char) : Option (List Char × List Char) := (number cs).or (name cs)

end Typestate.Digraph
