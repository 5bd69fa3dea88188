import Typestate.Failure

/-!
The shapes of tokens and comments, read off the front of a text. Nothing here knows where in the
source the text stands: a fault says how far from its front it points and how far reading got.
-/

namespace Typestate

/-- What is read off the front of a text: the kind and the value of a token, or nothing for a
comment, and the number of characters after its first. -/
structure Lexeme where
  token : Option (TokenKind × List Char)
  more : Nat

namespace Lexeme

/-- A character that separates tokens. -/
def isSpace (c : Char) : Bool := c == ' ' || c == '\t' || c == '\r' || c == '\n'

/-- A complaint about the front of a text: the number of characters before the place that it points
to, its width there, and the number of characters read before giving up. -/
structure Fault where
  cause : ParseCause
  place : Nat
  width : Nat
  stop : Nat

/-- Put a character in front of what was read. -/
def prepend (c : Char) : List Char × List Char → List Char × List Char
  | (cs, rest) => (c :: cs, rest)

/-- A line comment goes on to the end of the line. -/
def lineComment (cs : List Char) : List Char := cs.takeWhile (· != '\n')

/-- The inner text of a block comment whose opening has been read, inside `depth` further comments,
and the text after it. Each delimiter is recognised at its first character, of which alone it
consumes unless it ends the comment. -/
def commentBody (depth : Nat) : List Char → Option (List Char × List Char)
  | [] => none
  | c :: rest =>
    if c == '/' && rest.head? == some '*' then (commentBody (depth + 1) rest).map (prepend c)
    else if c == '*' && rest.head? == some '/' then
      if depth == 0 then some ([], rest.tail) else (commentBody (depth - 1) rest).map (prepend c)
    else (commentBody depth rest).map (prepend c)

/-- A block comment: its inner text and its length. -/
def blockComment (cs : List Char) : Except Fault (List Char × Nat) :=
  match commentBody 0 (cs.drop 2) with
  | some (body, rest) => .ok (body, cs.length - rest.length)
  | none => .error ⟨.unterminatedComment, 0, 2, cs.length⟩

/-- The text starts with three slashes and not with four. -/
def isDocLine : List Char → Bool
  | '/' :: '/' :: '/' :: '/' :: _ => false
  | '/' :: '/' :: '/' :: _ => true
  | _ => false

/-- The text starts with a slash and two stars, and with neither a third star nor the slash that
would end an empty comment. -/
def isDocBlock : List Char → Bool
  | '/' :: '*' :: '*' :: '*' :: _ => false
  | '/' :: '*' :: '*' :: '/' :: _ => false
  | '/' :: '*' :: '*' :: _ => true
  | _ => false

/-- How the inside of a string ends: with its value and the text after the closing quote, without a
closing quote, or at a backslash before a character that is no escape. -/
inductive StringEnd where
  | closed (value rest : List Char)
  | unterminated
  | unknownEscape (c : Char) (rest : List Char)

def StringEnd.prepend (c : Char) : StringEnd → StringEnd
  | closed value rest => closed (c :: value) rest
  | unterminated => unterminated
  | unknownEscape e rest => unknownEscape e rest

/-- What a backslash and a character stand for. -/
def unescape : Char → Option Char
  | 'n' => some '\n'
  | 't' => some '\t'
  | 'r' => some '\r'
  | '0' => some '\x00'
  | '\\' => some '\\'
  | '"' => some '"'
  | '\'' => some '\''
  | _ => none

/-- The inside of a string from some place on. A backslash at the end of a line drops the line feed
and the spaces after it, which `skipping` says is going on. -/
def stringBody (skipping : Bool) : List Char → StringEnd
  | [] => .unterminated
  | c :: rest =>
    if skipping && isSpace c then stringBody true rest
    else if c == '"' then .closed [] rest
    else if c == '\\' then
      match rest with
      | [] => .unterminated
      | e :: after =>
        if e == '\n' then stringBody true after
        else match unescape e with
          | some v => (stringBody false after).prepend v
          | none => .unknownEscape e rest
    else (stringBody false rest).prepend c

/-- A string in double quotes: its value and its length. -/
def stringLiteral (cs : List Char) : Except Fault (List Char × Nat) :=
  match stringBody false (cs.drop 1) with
  | .closed value rest => .ok (value, cs.length - rest.length)
  | .unterminated => .error ⟨.unterminatedString, 0, 1, cs.length⟩
  | .unknownEscape e rest =>
    .error ⟨.unknownEscape e, cs.length - rest.length - 1, 2, cs.length - rest.length⟩

/-- The letters, numbers and underscores that the text starts with. -/
def word (cs : List Char) : List Char := cs.takeWhile Identifier.isWordChar

def startsWithWord (cs : List Char) : Bool := cs.head?.any Identifier.isWordStart

/-- A token whose value is its own text. -/
def plain (kind : TokenKind) (text : List Char) : Lexeme := ⟨some (kind, text), text.length - 1⟩

/-- The text without the carriage returns at its end. -/
def dropReturns (cs : List Char) : List Char := (cs.reverse.dropWhile (· == '\r')).reverse

/-- What starts at two slashes. -/
def slashes (cs : List Char) : Lexeme :=
  let line := lineComment cs
  if isDocLine cs then ⟨some (.doc, dropReturns (line.drop 3)), line.length - 1⟩
  else ⟨none, line.length - 1⟩

/-- What starts at a slash and a star. A doc comment has one more star in front of its text. -/
def slashStar (cs : List Char) : Except Fault Lexeme :=
  match blockComment cs with
  | .error fault => .error fault
  | .ok (body, length) =>
    .ok ⟨if isDocBlock cs then some (.doc, body.drop 1) else none, length - 1⟩

/-- What starts at a double quote. -/
def quote (cs : List Char) : Except Fault Lexeme :=
  match stringLiteral cs with
  | .error fault => .error fault
  | .ok (value, length) => .ok ⟨some (.string, value), length - 1⟩

/-- What starts at a character that is no comment, string, lifetime, number or word. -/
def punctuation (c : Char) (rest : List Char) : Except Fault Lexeme :=
  if c == ':' then
    .ok (if rest.head? == some ':' then plain .pathSeparator [':', ':'] else plain .colon [':'])
  else if c == '-' then
    .ok (if rest.head? == some '>' then plain .arrow ['-', '>'] else plain .minus ['-'])
  else match TokenKind.ofPunctuation c with
    | some kind => .ok (plain kind [c])
    | none => .error ⟨.unexpectedCharacter c, 0, 1, 0⟩

/-- The token or comment at the front of a text. -/
def first (c : Char) (rest : List Char) : Except Fault Lexeme :=
  if c == '/' && rest.head? == some '/' then .ok (slashes (c :: rest))
  else if c == '/' && rest.head? == some '*' then slashStar (c :: rest)
  else if c == '"' then quote (c :: rest)
  else if c == '\'' then
    if startsWithWord rest then .ok (plain .lifetime (c :: word rest))
    else .error ⟨.lifetimeName, 0, 1, 1⟩
  else if Unicode.isDigit c then .ok (plain .number (word (c :: rest)))
  else if c == 'r' && rest.head? == some '#' && startsWithWord (rest.drop 1) then
    .ok (plain .identifier ('r' :: '#' :: word (rest.drop 1)))
  else if Identifier.isWordStart c then
    let w := word (c :: rest)
    .ok (plain (TokenKind.ofWord w) w)
  else punctuation c rest

end Lexeme

end Typestate
