import Typestate.Grammar.Attribute

/-!
The header of a machine: visibility, an optional keyword, the name, generic parameters and where
predicates.
-/

namespace Typestate

/-- The word that may stand in front of a machine's name. -/
def enumWord : String := "enum"

/-- The tokens after documentation and attributes. Inside an attribute, `depth` says how many of its
square brackets are open; a lone `#` is passed as if it were an attribute. -/
def afterPreamble : (depth : Option Nat) → List Token → List Token
  | _, [] => []
  | none, t :: rest =>
    match t.kind with
    | .doc => afterPreamble none rest
    | .pound =>
      afterPreamble (if rest.head?.any (·.kind == .leftBracket) then some 0 else none) rest
    | _ => t :: rest
  | some depth, t :: rest =>
    match t.kind with
    | .leftBracket => afterPreamble (some (depth + 1)) rest
    | .rightBracket => afterPreamble (if depth ≤ 1 then none else some (depth - 1)) rest
    | _ => afterPreamble (some depth) rest

/-- The input starts with a machine's header and not with a bare statement, as the tokens after
documentation and attributes show. -/
def TokenStream.startsHeader (s : TokenStream) : Bool :=
  let after : TokenStream := { s with ahead := afterPreamble none s.ahead }
  let next := (after.peek 1).kind
  match after.current.kind with
  | .pub => true
  | .identifier =>
    (after.current.value == enumWord && next == .identifier) ||
      next == .leftBrace || next == .lessThan || next == .whereWord
  | _ => false

structure Header where
  vis : String
  name : Token
  generics : String
  predicates : List String
  deriving DecidableEq, Repr

namespace Parser

/-- Optional generic parameters, with their angle brackets. -/
def generics : Parser String := do
  if !(← isAt .lessThan) then return ""
  let _ ← advance
  if ← isAt .greaterThan then
    let _ ← advance
    return ""
  let params ← textUpTo [.greaterThan] "generic parameters"
  let _ ← expect .greaterThan
  return "<" ++ String.intercalate ", " (Text.splitOutsideBrackets params (· == ',')) ++ ">"

/-- Optional where predicates, up to the brace that opens the machine. -/
def whereClause : Parser (List String) := do
  if !(← isAt .whereWord) then return []
  let word ← advance
  if ← isAt .leftBrace then return []
  let predicates := Text.splitOutsideBrackets (← textUpTo [.leftBrace] "where clause") (· == ',')
  if predicates.isEmpty then fail word .noPredicates
  return predicates

def header : Parser Header := do
  let vis ← visibility
  let s ← get
  if s.current.kind == .identifier && s.current.value == enumWord &&
      (s.peek 1).kind == .identifier then
    let _ ← advance
  let name ← expect .identifier
  let generics ← generics
  let predicates ← whereClause
  return { vis, name, generics, predicates }

end Parser

end Typestate
