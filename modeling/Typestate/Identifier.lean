import Typestate.Unicode.Letter
import Typestate.Unicode.Number
import Typestate.Unicode.LetterCase

/-!
Identifiers of the generated language: keywords, raw identifiers, the canonical spelling of a node
name, and the method names derived from node names.
-/

namespace Typestate.Identifier

/-- The strict and the reserved keywords. -/
def keywords : List String := [
  "abstract", "as", "async", "await", "become", "box", "break", "const", "continue", "crate",
  "do", "dyn", "else", "enum", "extern", "false", "final", "fn", "for", "gen", "if", "impl",
  "in", "let", "loop", "macro", "match", "mod", "move", "mut", "override", "priv", "pub", "ref",
  "return", "self", "Self", "static", "struct", "super", "trait", "true", "try", "type",
  "typeof", "unsafe", "unsized", "use", "virtual", "where", "while", "yield"]

/-- The keywords, and the underscore, that cannot be written as raw identifiers. -/
def neverRaw : List String := ["crate", "self", "Self", "super", "_"]

/-- The character may start a word. -/
def isWordStart (c : Char) : Bool := Unicode.isLetter c || c == '_'

/-- The character may continue a word. -/
def isWordChar (c : Char) : Bool := Unicode.isLetter c || Unicode.isNumber c || c == '_'

/-- The character may start an ASCII identifier. -/
def isPlainStart (c : Char) : Bool := c.isAlpha || c == '_'

/-- The character may continue an ASCII identifier. -/
def isPlainChar (c : Char) : Bool := c.isAlpha || c.isDigit || c == '_'

/-- The characters without the marker of a raw identifier. -/
def bareChars : List Char → List Char
  | 'r' :: '#' :: rest => rest
  | cs => cs

def hasRawMarker : List Char → Bool
  | 'r' :: '#' :: _ => true
  | _ => false

/-- The name without the marker of a raw identifier. -/
def withoutRaw (name : String) : String := String.ofList (bareChars name.toList)

def isRaw (name : String) : Bool := hasRawMarker name.toList

/-- The text without one line feed at its end. -/
def dropFinalNewline : List Char → List Char
  | [] => []
  | ['\n'] => []
  | c :: rest => c :: dropFinalNewline rest

/-- The text is an ASCII identifier, raw or not, after which one line feed may stand. -/
def isWellFormed (name : String) : Bool :=
  match bareChars (dropFinalNewline name.toList) with
  | [] => false
  | c :: rest => isPlainStart c && rest.all isPlainChar

/-- Why a name cannot be the name of a node. -/
inductive NameCause where
  | unusable (bare : String)
  | keyword (bare : String)
  deriving DecidableEq, Repr

def NameCause.message : NameCause → String
  | unusable bare => "`" ++ bare ++ "` cannot be used as a node name"
  | keyword bare => "`" ++ bare ++ "` is a keyword; write it as `r#" ++ bare ++ "`"

/-- The canonical spelling of a node name: raw if and only if the bare name is a keyword, which has
to be written raw in the first place. -/
def canonical (name : String) : Except NameCause String :=
  let bare := withoutRaw name
  if bare ∈ neverRaw then .error (.unusable bare)
  else if bare ∈ keywords then
    if isRaw name then .ok name else .error (.keyword bare)
  else .ok bare

/-- A method name for any name: a keyword becomes raw, and one that cannot be raw gets an
underscore. -/
def escape (name : String) : String :=
  if isRaw name then
    let bare := withoutRaw name
    if bare ∈ neverRaw then bare ++ "_" else name
  else if name ∈ neverRaw then name ++ "_"
  else if name ∈ keywords then "r#" ++ name
  else name

/-- An underscore before every upper case character, and all in lower case. -/
def snakeTail : List Char → List Char
  | [] => []
  | c :: rest =>
    (if Unicode.isUpper c then '_' :: Unicode.lower c else Unicode.lower c) ++ snakeTail rest

def snakeChars : List Char → List Char
  | [] => []
  | c :: rest => Unicode.lower c ++ snakeTail rest

/-- The name in lower case, with an underscore before every upper case character but the first. -/
def snakeCase (name : String) : String := String.ofList (snakeChars (bareChars name.toList))

/-- The method name of an unnamed transition into `destination`. -/
def methodInto (destination : String) (renameMethods : Bool := true) : String :=
  escape (if renameMethods then snakeCase destination else withoutRaw destination)

end Typestate.Identifier
