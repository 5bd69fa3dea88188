import Typestate.Grammar.Header
import Typestate.Grammar.Statement
import Typestate.Token.Lexer

/-!
Whole machines: statements inside a header's braces, or bare statements that make up a machine with
the default name.
-/

namespace Typestate

namespace Parser

/-- Bare statements. The machine is placed at the first token. -/
def bareDocument : Parser Document := do
  let start ← current
  let statements ← statements .endOfInput
  return { statements, span := some start.span }

/-- A header and statements in braces. The machine is placed at its name. -/
def headedDocument : Parser Document := do
  let p ← preamble
  let h ← header
  let _ ← expect .leftBrace
  let statements ← statements .rightBrace
  let _ ← expect .rightBrace
  let _ ← expect .endOfInput
  return { name := h.name.value, vis := h.vis, docs := p.docs, attrs := p.attrs,
           generics := h.generics, predicates := h.predicates, config := p.config, statements,
           span := some h.name.span }

def document : Parser Document := do
  if (← get).startsHeader then headedDocument else bareDocument

/-- Run a reader on all tokens of a source. -/
def run {α : Type} (p : Parser α) (src : Source) (tokens : List Token) : Except ParseError α :=
  match p src (TokenStream.ofTokens tokens) with
  | .ok a _ => .ok a
  | .error e _ => .error e

end Parser

/-- Read a machine. -/
def Source.parse (src : Source) : Except ParseError Document := do
  Parser.document.run src (← src.tokenize)

end Typestate
