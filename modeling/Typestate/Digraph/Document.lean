import Typestate.Digraph.Reference
import Typestate.Failure
import Typestate.Machine.Statement

/-!
Digraphs as machines. A node by itself is a node statement and every edge a chain of two nodes;
attributes, ports, groups and undirected graphs mean nothing for a machine and are refused.
-/

namespace Typestate.Digraph

/-- A name without the quotes around it. -/
def unquote : List Char → List Char
  | '"' :: rest => if rest.getLast? == some '"' then rest.dropLast else '"' :: rest
  | cs => cs

/-- The canonical spelling of a name as it is written. -/
def canonicalName (raw : String) : Except DigraphCause String :=
  let name := unquote raw.toList
  if name.contains ':' then .error (.port raw)
  else if !Identifier.isWellFormed (String.ofList name) then .error (.notIdentifier raw)
  else (Identifier.canonical (String.ofList name)).mapError .badName

/-- The canonical spelling of an end of an edge. -/
def Endpoint.clean : Endpoint → Except DigraphCause String
  | node name => canonicalName name
  | group => .error .groupedEnd

/-- The words whose clauses set defaults, and which are no names of nodes for that reason. -/
def defaultWords : List String := ["node", "edge", "graph"]

def nodeStatement (clause : String × Bool) : Except DigraphCause Statement := do
  let name ← canonicalName clause.1
  if name ∈ defaultWords then throw (.defaults name)
  if clause.2 then throw (.nodeAttributes name)
  return .node { name }

def edgeStatement (clause : (Endpoint × Endpoint) × Bool) : Except DigraphCause Statement := do
  let source ← clause.1.1.clean
  let target ← clause.1.2.clean
  if clause.2 then throw (.edgeAttributes source target)
  return .chain { first := [{ name := source }], rest := [({}, [{ name := target }])] }

/-- The machine of a graph. -/
def Contents.document (c : Contents) (defaultName : String) : Except DigraphCause Document := do
  if !c.isDirected then throw .undirected
  if c.hasGroups then throw .subgraphs
  if c.hasAttributes then throw .graphAttributes
  let name ← if c.name.isEmpty then pure defaultName else canonicalName c.name
  let nodes ← c.nodes.mapM nodeStatement
  let edges ← c.edges.mapM edgeStatement
  return { name, statements := nodes ++ edges }

/-- The machine of the only graph. -/
def document : List Contents → (defaultName : String) → Except DigraphCause Document
  | [], _ => .error .noGraph
  | [c], defaultName => c.document defaultName
  | _, _ => .error .severalGraphs

end Typestate.Digraph

namespace Typestate

/-- Read a machine from a digraph. -/
def Source.parseDigraph (src : Source) (defaultName : String := defaultMachineName)
    (library : Digraph.Library := Digraph.reference) : Except ParseError Document :=
  match library.read src.text with
  | .error (.raised message line column) =>
    .error ⟨.digraph none (.invalid message), some { file := src.file, line, column }⟩
  | .error (.reported _) => .error ⟨.digraph src.file .noGraph, none⟩
  | .ok graphs =>
    (Digraph.document graphs defaultName).mapError fun cause => ⟨.digraph src.file cause, none⟩

end Typestate
