import Typestate.Grammar.Attribute

/-!
Statements: node references and groups of them, arrows, and chains.
-/

namespace Typestate.Parser

/-- The tokens that end a payload type. -/
def typeStops : List TokenKind := [.arrow, .minus, .semicolon]

/-- A node name with an optional payload type. -/
def nodeRef (docs : List String) : Parser NodeRef := do
  let t ← current
  if t.kind != .identifier then fail t (.expected .nodeName t)
  let _ ← advance
  match Identifier.canonical t.value with
  | .error cause => fail t (.badName cause)
  | .ok name =>
    let ty ← if ← isAt .colon then do
        let _ ← advance
        some <$> textUpTo typeStops "type"
      else pure none
    return { name, ty, docs, span := some t.span }

/-- Node references with ampersands between. Documentation belongs to the first. -/
def group (docs : List String := []) : Parser NodeGroup := do
  let first ← nodeRef docs
  rounds (fun members => do
    if ← isAt .ampersand then
      let _ ← advance
      return .again (members ++ [← nodeRef []])
    else return .done members) [first]

/-- The end of an arrow that says something. -/
def arrowHead : Parser Token := do
  let t ← current
  if t.kind = .arrow then advance else fail t (.expected .arrowHead t)

/-- Inline documentation: the lines of a string, each after a space. -/
def inlineDocs (text : String) : List String := (docFragments text).map (" " ++ ·)

/-- What stands inside an arrow: a method name, documentation, or both in this order. -/
def arrowLabel : Parser ArrowForm := do
  if ← isAt .string then
    let text ← advance
    return .documented (inlineDocs text.value)
  let name ← expectName
  if ← isAt .string then
    let text ← advance
    return .named name.value (inlineDocs text.value)
  return .named name.value []

/-- An arrow in any of its spellings. -/
def arrow : Parser Arrow := do
  let first ← current
  match first.kind with
  | .arrow =>
    let _ ← advance
    return { form := .plain, span := some first.span }
  | .minus =>
    let _ ← advance
    if ← isAt .arrow then
      let last ← advance
      return { form := .long, span := some (first.spanTo last) }
    if ← isAt .minus then
      let _ ← advance
    let form ← arrowLabel
    if ← isAt .minus then
      let _ ← advance
    let last ← arrowHead
    return { form, span := some (first.spanTo last) }
  | _ => fail first (.expected .arrowOrSemicolon first)

/-- The arrows and positions of a chain after its first position. -/
def chainRest : Parser (List (Arrow × NodeGroup)) :=
  rounds (fun rest => do
    if ← isAt .semicolon then return .done rest
    let arrow ← arrow
    let start ← current
    let targets ← group
    if arrow.isNamed && targets.isMany then fail start .namedIntoGroup
    return .again (rest ++ [(arrow, targets)])) []

/-- A statement. A single node before the semicolon is a node statement, and keeps the
documentation in front of it; in front of a chain, that belongs to the chain. -/
def statement : Parser Statement := do
  let docs ← docs
  let first ← group docs
  if (← isAt .semicolon) && !first.isMany then
    match first with
    | ref :: _ =>
      let _ ← advance
      return .node ref
    | [] => pure ()
  let rest ← chainRest
  if rest.isEmpty then fail (← current) .loneGroup
  let _ ← expect .semicolon
  return .chain { docs, first := first.map ({ · with docs := [] }), rest }

/-- Statements up to a token that is not taken. -/
def statements (terminator : TokenKind) : Parser (List Statement) :=
  rounds (fun statements => do
    if ← isAt terminator then return .done statements
    let t ← current
    if t.kind == .endOfInput then fail t (.endOfInputBefore terminator)
    return .again (statements ++ [← statement])) []

end Typestate.Parser
