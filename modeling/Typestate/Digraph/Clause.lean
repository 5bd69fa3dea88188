import Typestate.Digraph.Lexeme
import Typestate.Digraph.Library

/-!
Digraphs as they are written: clauses, and the digraphs of a text. Choices are ordered, and what a
repetition took is never given back.
-/

namespace Typestate.Digraph

/-- A clause of a digraph. What stands inside a group, and what an attribute says, is dropped. -/
inductive Clause where
  | assignment
  | defaults (word : String) (hasAttributes : Bool)
  | group
  | node (name : String) (hasAttributes : Bool)
  | edges (ends : List Endpoint) (hasAttributes : Bool)
  deriving DecidableEq, Repr

/-- A graph of a text. The name is empty if there is none. -/
structure Written where
  isDirected : Bool
  name : String
  clauses : List Clause
  deriving DecidableEq, Repr

/-- The text after an optional semicolon. -/
def skipSemicolon (cs : List Char) : List Char := (mark [';'] cs).getD cs

/-- A name with an equals sign and a value. -/
def assignment (cs : List Char) : Option (List Char) := do
  let (_, rest) ← name cs
  let (_, rest) ← value (← mark ['='] rest)
  return rest

/-- What stands in brackets behind a node or an edge: a name, which may have a value. -/
structure Property where
  name : List Char
  hasValue : Bool
  deriving DecidableEq, Repr

/-- The name of a property that is no attribute unless it has a value. -/
def reservedProperty : List Char := "obj_dict".toList

/-- Some property is an attribute. The last mention of the reserved name counts for all of them. -/
def hasAttribute (properties : List Property) : Bool :=
  properties.any (·.name ≠ reservedProperty) ||
    (properties.reverse.find? (·.name = reservedProperty)).any (·.hasValue)

/-- A property, with or without a value, and an optional comma. -/
def property (cs : List Char) : Option (Property × List Char) := do
  let (name, rest) ← name cs
  let assigned := assignment cs
  let rest := assigned.getD rest
  return (⟨name, assigned.isSome⟩, (mark [','] rest).getD rest)

/-- Properties in one pair of brackets. -/
def bracketed (cs : List Char) : Option (List Property × List Char) := do
  let (properties, rest) := many property (← mark ['['] cs)
  return (properties, ← mark [']'] rest)

/-- Properties in one or more pairs of brackets. The result says whether there are attributes. -/
def attributes (cs : List Char) : Option (Bool × List Char) := do
  let (first, rest) ← bracketed cs
  let (more, rest) := many bracketed rest
  return (hasAttribute (first ++ more.flatten), rest)

/-- Attributes, if there are any. -/
def optionalAttributes (cs : List Char) : Bool × List Char := (attributes cs).getD (false, cs)

/-- A node and up to two ports, as one name. -/
def nodeName (cs : List Char) : Option (String × List Char) := do
  let port (cs : List Char) : Option (List Char × List Char) := do
    let (port, rest) ← name (← mark [':'] cs)
    return (':' :: port, rest)
  let (node, rest) ← name cs
  match port rest with
  | none => return (String.ofList node, rest)
  | some (first, rest) =>
    match port rest with
    | none => return (String.ofList (node ++ first), rest)
    | some (second, rest) => return (String.ofList (node ++ first ++ second), rest)

/-- What is missing where a text is no graph: the keyword in front, or a brace of its block. -/
inductive Missing where
  | keyword
  | openingBrace
  | closingBrace
  deriving DecidableEq, Repr

/-- Why a text has no graph at its front: what is missing, the text ahead of that place, and how many
characters behind the end of the text the place is. -/
structure Complaint where
  missing : Missing
  ahead : List Char
  past : Nat := 0
  deriving DecidableEq, Repr

/-- Clauses in braces, and an optional semicolon. -/
def block (clause : Reader Clause) (cs : List Char) :
    Except Complaint (List Clause × List Char) :=
  match mark ['\x7b'] cs with
  | none => .error ⟨.openingBrace, skipGap cs, 0⟩
  | some rest =>
    let terminated (cs : List Char) : Option (Clause × List Char) := do
      let (c, rest) ← clause cs
      return (c, skipSemicolon rest)
    let (clauses, rest) := many terminated rest
    match mark ['\x7d'] rest with
    | none => .error ⟨.closingBrace, skipGap rest, 0⟩
    | some rest => .ok (clauses, skipSemicolon rest)

/-- A group of nodes: a block, which may have the keyword and a name in front. -/
def group (clause : Reader Clause) (cs : List Char) : Option (List Char) :=
  let named : Option (List Char) := do
    let rest ← keyword "subgraph" cs
    let rest := ((name rest).map (·.2)).getD rest
    let (_, rest) ← (block clause rest).toOption
    return rest
  named.or ((block clause cs).toOption.map (·.2))

def endpoint (clause : Reader Clause) (cs : List Char) : Option (Endpoint × List Char) :=
  match group clause cs with
  | some rest => some (.group, rest)
  | none => (nodeName cs).map fun (name, rest) => (.node name, rest)

/-- An edge mark and the end after it. -/
def furtherEnd (clause : Reader Clause) (cs : List Char) : Option (Endpoint × List Char) := do
  endpoint clause (← (mark ['-', '-'] cs).or (mark ['-', '>'] cs))

/-- Attributes for all graphs, nodes or edges. -/
def defaults (cs : List Char) : Option (Clause × List Char) := do
  let (word, rest) ← ["graph", "node", "edge"].findSome? fun word =>
    (keyword word cs).map fun rest => (word, rest)
  let (hasAttributes, rest) ← attributes rest
  return (.defaults word hasAttributes, rest)

/-- A clause that starts with the end of an edge: an edge if an edge mark and another end follow,
otherwise a group or a node by itself, or attributes in front of which a keyword was taken for a
node. -/
def endClause (clause : Reader Clause) (cs : List Char) : Option (Clause × List Char) := do
  let (first, rest) ← endpoint clause cs
  match many (furtherEnd clause) rest with
  | ([], _) =>
    (defaults cs).or <| match first with
      | .group => some (.group, rest)
      | .node name =>
        let (hasAttributes, rest) := optionalAttributes rest
        some (.node name hasAttributes, skipSemicolon rest)
  | (more, rest) =>
    let (hasAttributes, rest) := optionalAttributes rest
    return (.edges (first :: more) hasAttributes, rest)

/-- A clause in which blocks are nested up to a given depth. -/
def clause : (depth : Nat) → Reader Clause
  | 0, _ => none
  | depth + 1, cs =>
    match assignment cs with
    | some rest => some (.assignment, rest)
    | none => endClause (clause depth) cs

/-- The text is the keyword in front of a graph with its first two letters as one sign. A keyword
takes as many characters as it has letters, so behind this one the place is past the end. -/
def isLigatedStrict (cs : List Char) : Bool :=
  match skipGap cs with
  | c :: rest => (c == 'ﬅ' || c == 'ﬆ') && Unicode.sameWord "rict".toList rest
  | [] => false

/-- A graph. A block opens with a brace, so no more blocks are nested than there are characters. -/
def written (cs : List Char) : Except Complaint (Written × List Char) :=
  let start := (keyword "strict" cs).getD cs
  let directed := keyword "digraph" start
  match directed.or (keyword "graph" start) with
  | none =>
    .error (if isLigatedStrict cs then ⟨.keyword, [], 1⟩ else ⟨.keyword, skipGap start, 0⟩)
  | some rest =>
    let (name, rest) := (name rest).getD ([], rest)
    (block (clause rest.length) rest).map fun (clauses, rest) =>
      (⟨directed.isSome, String.ofList name, clauses⟩, rest)

/-- The graphs at the front of a text. There must be one; what comes after them is ignored. -/
def graphs (text : String) : Except Complaint (List Written) :=
  match written text.toList with
  | .error complaint => .error complaint
  | .ok (first, rest) => .ok (first :: (many (fun cs => (written cs).toOption) rest).1)

end Typestate.Digraph
