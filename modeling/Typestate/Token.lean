/-!
The tokens of the machine language: kinds, their spellings, and how a message names a token.
-/

namespace Typestate

inductive TokenKind where
  | identifier
  | lifetime
  | string
  | number
  | doc
  | pub
  | whereWord
  | trueWord
  | falseWord
  | semicolon
  | colon
  | pathSeparator
  | comma
  | dot
  | arrow
  | minus
  | ampersand
  | pound
  | equals
  | bang
  | star
  | plus
  | question
  | pipe
  | lessThan
  | greaterThan
  | leftParen
  | rightParen
  | leftBracket
  | rightBracket
  | leftBrace
  | rightBrace
  | endOfInput
  deriving DecidableEq, Repr

namespace TokenKind

/-- The text of a token with one spelling, and the name of the kind for the others. -/
def spelling : TokenKind → String
  | identifier => "IDENTIFIER"
  | lifetime => "LIFETIME"
  | string => "STRING"
  | number => "NUMBER"
  | doc => "DOC"
  | pub => "pub"
  | whereWord => "where"
  | trueWord => "true"
  | falseWord => "false"
  | semicolon => ";"
  | colon => ":"
  | pathSeparator => "::"
  | comma => ","
  | dot => "."
  | arrow => "->"
  | minus => "-"
  | ampersand => "&"
  | pound => "#"
  | equals => "="
  | bang => "!"
  | star => "*"
  | plus => "+"
  | question => "?"
  | pipe => "|"
  | lessThan => "<"
  | greaterThan => ">"
  | leftParen => "("
  | rightParen => ")"
  | leftBracket => "["
  | rightBracket => "]"
  | leftBrace => "\x7b"
  | rightBrace => "\x7d"
  | endOfInput => "EOF"

/-- The kind of a character that is a token by itself whatever follows it. -/
def ofPunctuation : Char → Option TokenKind
  | ';' => some semicolon
  | ',' => some comma
  | '.' => some dot
  | '&' => some ampersand
  | '#' => some pound
  | '=' => some equals
  | '!' => some bang
  | '*' => some star
  | '+' => some plus
  | '?' => some question
  | '|' => some pipe
  | '<' => some lessThan
  | '>' => some greaterThan
  | '(' => some leftParen
  | ')' => some rightParen
  | '[' => some leftBracket
  | ']' => some rightBracket
  | '\x7b' => some leftBrace
  | '\x7d' => some rightBrace
  | _ => none

/-- The kind of a word: one of the four keywords, or an identifier. -/
def ofWord (word : List Char) : TokenKind :=
  if word = ['p', 'u', 'b'] then pub
  else if word = ['w', 'h', 'e', 'r', 'e'] then whereWord
  else if word = ['t', 'r', 'u', 'e'] then trueWord
  else if word = ['f', 'a', 'l', 's', 'e'] then falseWord
  else identifier

/-- The kinds that may stand where a method name is expected. -/
def isName : TokenKind → Bool
  | identifier | pub | whereWord | trueWord | falseWord => true
  | _ => false

def isOpening : TokenKind → Bool
  | lessThan | leftParen | leftBracket | leftBrace => true
  | _ => false

def isClosing : TokenKind → Bool
  | greaterThan | rightParen | rightBracket | rightBrace => true
  | _ => false

end TokenKind

/-- A token, with the place where it starts and the offsets of its two ends. The value of a string
is decoded, that of a doc comment is its inner text. -/
structure Token where
  kind : TokenKind
  value : String
  line : Nat
  column : Nat
  start : Nat := 0
  stop : Nat := 0
  deriving DecidableEq, Repr

namespace Token

/-- The width of a token; the end of the input counts as one character wide. -/
def length (t : Token) : Nat := max 1 (t.stop - t.start)

/-- How a message names a token. -/
def describe (t : Token) : String :=
  match t.kind with
  | .endOfInput => "end of input"
  | .doc => "doc comment"
  | .string => "\"" ++ t.value ++ "\""
  | _ => "`" ++ t.value ++ "`"

end Token

end Typestate
