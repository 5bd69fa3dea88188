import Typestate.Source.Cursor
import Typestate.Token.Lexeme

/-!
From a source text to its tokens, each with its place, and a lexer that can also be driven step by
step.
-/

namespace Typestate

namespace Cursor

/-- Past the spaces at the cursor. -/
def skipSpaces (c : Cursor) : Cursor := advanceBy (c.rest.takeWhile Lexeme.isSpace).length c

theorem length_skipSpaces_le (c : Cursor) : c.skipSpaces.rest.length ≤ c.rest.length := by
  rw [skipSpaces, rest_advanceBy, List.length_drop]
  omega

/-- A complaint about the text at the cursor, and the cursor where reading gave up. -/
def complain (src : Source) (c : Cursor) (fault : Lexeme.Fault) : ParseError × Cursor :=
  (⟨fault.cause, some (src.context ((advanceBy fault.place c).span fault.width))⟩,
    advanceBy fault.stop c)

/-- The token at the cursor, given its kind and value and the number of its characters. -/
def token (c : Cursor) (length : Nat) (kind : TokenKind) (value : List Char) : Token :=
  { kind, value := String.ofList value, line := c.line, column := c.column, start := c.offset,
    stop := c.offset + length }

/-- The mark of the end of the text. -/
def endToken (c : Cursor) : Token := c.token 0 .endOfInput []

end Cursor

/-- What reading all tokens from some place on leaves behind: the tokens read, the cursor, and the
complaint that ended it if it did not reach the end of the text. -/
structure Lexing where
  tokens : List Token
  cursor : Cursor
  error : Option ParseError

/-- Put a token, if there is one, in front of those read after it. -/
def Lexing.prepend (t : Option Token) (l : Lexing) : Lexing :=
  { l with tokens := t.toList ++ l.tokens }

/-- All tokens from the cursor on, with the mark of the end behind them. -/
def Lexing.run (src : Source) (c : Cursor) : Lexing :=
  match _h : c.skipSpaces.rest with
  | [] => ⟨[c.skipSpaces.endToken], c.skipSpaces, none⟩
  | ch :: rest =>
    match Lexeme.first ch rest with
    | .error fault =>
      let (error, stopped) := c.skipSpaces.complain src fault
      ⟨[], stopped, some error⟩
    | .ok lexeme =>
      (Lexing.run src (c.skipSpaces.advanceBy (lexeme.more + 1))).prepend
        (lexeme.token.map fun (kind, value) => c.skipSpaces.token (lexeme.more + 1) kind value)
termination_by c.rest.length
decreasing_by
  have hle : c.skipSpaces.rest.length ≤ c.rest.length := Cursor.length_skipSpaces_le c
  rw [Cursor.rest_advanceBy, _h, List.length_drop]
  rw [_h] at hle
  simp only [List.length_cons] at hle ⊢
  omega

/-- The tokens of a source, the last of which marks the end. -/
def Source.tokenize (src : Source) : Except ParseError (List Token) :=
  match Lexing.run src (Cursor.start src.text) with
  | ⟨tokens, _, none⟩ => .ok tokens
  | ⟨_, _, some error⟩ => .error error

/-- A source, the place reached in it, and the tokens made so far. -/
structure Lexer where
  source : Source
  cursor : Cursor
  tokens : List Token := []

namespace Lexer

def ofSource (src : Source) : Lexer := { source := src, cursor := Cursor.start src.text }

/-- Read some characters off the text ahead by a rule that gives the value read and its length. -/
def read (l : Lexer) (rule : List Char → Except Lexeme.Fault (List Char × Nat)) :
    Except ParseError String × Lexer :=
  match rule l.cursor.rest with
  | .ok (value, length) =>
    (.ok (String.ofList value), { l with cursor := l.cursor.advanceBy length })
  | .error fault =>
    let (error, cursor) := l.cursor.complain l.source fault
    (.error error, { l with cursor })

def advance (l : Lexer) : Lexer := { l with cursor := l.cursor.advance }

/-- The character some way from the cursor, ahead or back. Places before the start of the text count
from its end. -/
def peek? (l : Lexer) (n : Int := 1) : Option Char :=
  let cs := l.source.text.toList
  let place := l.cursor.offset + n
  cs[(if place < 0 then place + cs.length else place).toNat]?

def skipSpaces (l : Lexer) : Lexer := { l with cursor := l.cursor.skipSpaces }

def isAtDocLine (l : Lexer) : Bool := Lexeme.isDocLine l.cursor.rest

def isAtDocBlock (l : Lexer) : Bool := Lexeme.isDocBlock l.cursor.rest

/-- The rest of the line. -/
def readLine (l : Lexer) : Except ParseError String × Lexer :=
  l.read fun cs => .ok (Lexeme.lineComment cs, (Lexeme.lineComment cs).length)

/-- A block comment, whose opening is taken to be the next two characters. -/
def readBlock (l : Lexer) : Except ParseError String × Lexer := l.read Lexeme.blockComment

/-- A string, whose opening quote is taken to be the next character. -/
def readString (l : Lexer) : Except ParseError String × Lexer := l.read Lexeme.stringLiteral

/-- The letters, numbers and underscores at the cursor. -/
def readWord (l : Lexer) : Except ParseError String × Lexer :=
  l.read fun cs => .ok (Lexeme.word cs, (Lexeme.word cs).length)

/-- All tokens from the cursor on, after those that are there already. The tokens before a
complaint are kept. -/
def tokenize (l : Lexer) : Except ParseError (List Token) × Lexer :=
  match Lexing.run l.source l.cursor with
  | ⟨tokens, cursor, none⟩ =>
    (.ok (l.tokens ++ tokens), { l with cursor, tokens := l.tokens ++ tokens })
  | ⟨tokens, cursor, some error⟩ =>
    (.error error, { l with cursor, tokens := l.tokens ++ tokens })

/-- A complaint at a given place of the source. -/
def complaint (l : Lexer) (message : String) (line column : Int) (length : Int := 1) :
    ParseError :=
  ⟨.other message,
    some { file := l.source.file, line, column, length,
           snippet := some (Source.snippet l.source.text line) }⟩

end Lexer

end Typestate
