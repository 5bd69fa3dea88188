import Typestate.Docs
import Typestate.Failure
import Typestate.Graph.Basic
import Typestate.Machine.Statement
import Typestate.Numbering
import Typestate.TypeText

/-!
From statements to a graph. Mentions of a node are merged, every hop of a chain gives the edges from
each of its sources to each of its targets, and the methods out of one node get different names.

The steps work on a draft, which keeps what was done before a step that fails.
-/

namespace Typestate

/-- A method that got a number behind its name. -/
structure Rename where
  source : String
  target : String
  name : String
  deriving DecidableEq, Repr

/-- A graph in the making, and the methods renamed so far. -/
structure Draft where
  graph : Graph := {}
  renames : List Rename := []

/-- Why statements give no graph: they say something invalid at a place, or an edge leaves a node
that was never mentioned, which only a caller that adds single edges can bring about. -/
inductive DraftFault where
  | invalid (cause : ValidationCause) (span : Option Span)
  | unknownNode (name : String)
  deriving DecidableEq, Repr

/-- The failure to report for a fault in a text, if that is known. -/
def DraftFault.failure (file : Option Path) (text : Option String) : DraftFault → Failure
  | invalid cause span => .validation (.atSpan file text cause span)
  | unknownNode name => .unknownNode name

/-- The first mention of a node makes it. -/
def Node.ofRef (r : NodeRef) : Node := { ty := r.ty, docs := r.docs, span := r.span }

/-- A later mention adds its documentation, and its type if there is none yet. -/
def Node.merge (n : Node) (r : NodeRef) : Node :=
  { n with ty := n.ty.or r.ty, docs := joinDocs n.docs r.docs }

/-- The two different types of a node and a mention of it: the mention's type and the earlier one. -/
def Node.conflict? (n : Node) (r : NodeRef) : Option (String × String) :=
  match n.ty, r.ty with
  | some earlier, some ty => if TypeText.same earlier ty then none else some (ty, earlier)
  | _, _ => none

/-- The method name of an arrow into a node. -/
def Arrow.methodName (a : Arrow) (target : String) (renameMethods : Bool) : String :=
  match a.method? with
  | some method => Identifier.escape method
  | none => Identifier.methodInto target renameMethods

/-- The ends of the edges of a hop: every source with every target. -/
def Hop.ends (h : Hop) : List EdgeKey :=
  h.sources.names.flatMap fun source => h.targets.names.map fun target => ⟨source, target⟩

/-- The name without its raw marker, with the first number from two on that makes it none of the
names in use. -/
def numbered (name : String) (used : List String) : String :=
  let candidate (n : Nat) : String := Identifier.withoutRaw name ++ "_" ++ toString n
  candidate (firstFree (fun n => !used.contains (candidate n)) used.length 2)

abbrev Drafting := EStateM DraftFault Draft

namespace Drafting

def fail {α : Type} (cause : ValidationCause) (span : Option Span) : Drafting α :=
  throw (.invalid cause span)

def putNode (name : String) (n : Node) : Drafting Unit :=
  modify fun d => { d with graph := { d.graph with nodes := d.graph.nodes.insert name n } }

def putEdge (key : EdgeKey) (e : Edge) : Drafting Unit :=
  modify fun d => { d with graph := { d.graph with edges := d.graph.edges.insert key e } }

/-- Add a node, or merge a mention into the node of that name. -/
def addNode (r : NodeRef) : Drafting Unit := do
  match (← get).graph.nodes.get? r.name with
  | none => putNode r.name (.ofRef r)
  | some n =>
    match n.conflict? r with
    | some (ty, earlier) => fail (.incompatible r.name ty earlier) r.span
    | none => putNode r.name (n.merge r)

/-- Add the edge of an arrow. Its ends need not be nodes yet. -/
def addEdge (renameMethods : Bool) (key : EdgeKey) (a : Arrow) (docs : List String) :
    Drafting Unit := do
  if (← get).graph.edges.contains key then
    fail (.duplicateEdge key.source key.target) a.span
  putEdge key { methodName := a.methodName key.target renameMethods, docs := joinDocs docs a.docs,
                explicit := a.isNamed, span := a.span }

/-- Add the edges of a chain. The documentation of the chain belongs to each of them. -/
def addChain (renameMethods : Bool) (c : Chain) : Drafting Unit :=
  c.hops.forM fun h => h.ends.forM fun key => addEdge renameMethods key h.arrow c.docs

/-- The explicit names of the methods out of a node, with target and edge. No two may agree. -/
def explicitNames (source : String) (known : SortedMap String (String × Edge)) :
    List (String × Edge) → Drafting (SortedMap String (String × Edge))
  | [] => return known
  | (target, e) :: rest =>
    if !e.explicit then explicitNames source known rest
    else if known.contains e.methodName then
      fail (.duplicateMethod e.methodName source) e.span
    else explicitNames source (known.insert e.methodName (target, e)) rest

/-- Give the derived names of the methods out of a node numbers where they clash. The first edge of
a name keeps it. A derived name must not be an explicit one. A number never makes a name that any
method out of the node had before. -/
def numberDerived (source : String) (explicit : SortedMap String (String × Edge)) (names : List String)
    (used : List String) : List (String × Edge) → Drafting Unit
  | [] => return
  | (target, e) :: rest => do
    if e.explicit then numberDerived source explicit names used rest
    else if let some (rival, named) := explicit.get? e.methodName then
      fail (.methodClash e.methodName source target rival) named.span
    else if used.contains e.methodName then
      let name := numbered e.methodName (names ++ used)
      putEdge ⟨source, target⟩ { e with methodName := name }
      modify fun d => { d with renames := d.renames ++ [⟨source, target, name⟩] }
      numberDerived source explicit names (name :: used) rest
    else numberDerived source explicit names (e.methodName :: used) rest

/-- Make the names of the methods out of one node different. -/
def settleNamesOf (source : String) : Drafting Unit := do
  let out := (← get).graph.leaving source
  let explicit ← explicitNames source SortedMap.empty out
  numberDerived source explicit (out.map (·.2.methodName)) [] out

/-- Make the names of the methods out of each node different. -/
def settleNames : Drafting Unit := do
  (← get).graph.sources.forM settleNamesOf

/-- No node with outgoing edges may have a reserved name. The complaint is placed at the node, or at
`anchor` if its place is not known. -/
def checkReserved (reserved : List String) (anchor : Option Span) : Drafting Unit := do
  let g := (← get).graph
  match reserved.find? g.sources.contains with
  | none => return
  | some name =>
    match g.nodes.get? name with
    | none => throw (.unknownNode name)
    | some n => fail (.reservedName name) (n.span.or anchor)

/-- Add all statements: node statements before the mentions in chains, and edges last. -/
def addStatements (renameMethods : Bool) (statements : List Statement) : Drafting Unit := do
  (nodeStatements statements).forM addNode
  (chains statements).forM fun c => c.nodeRefs.forM addNode
  (chains statements).forM (addChain renameMethods)

/-- The graph of a list of statements, which must have an edge. -/
def build (renameMethods : Bool) (reserved : List String) (anchor : Option Span)
    (statements : List Statement) : Drafting Graph := do
  addStatements renameMethods statements
  if (← get).graph.edges.size = 0 then fail .noEdges anchor
  settleNames
  checkReserved reserved anchor
  return (← get).graph

end Drafting

/-- The graph of a list of statements. -/
def Graph.ofStatements (renameMethods : Bool) (reserved : List String) (anchor : Option Span)
    (statements : List Statement) : Except DraftFault Graph :=
  match Drafting.build renameMethods reserved anchor statements {} with
  | .ok g _ => .ok g
  | .error fault _ => .error fault

/-- What the building of a machine's graph leaves behind. The names of the generated state and entry
types are reserved. -/
def Document.draft (d : Document) : EStateM.Result DraftFault Draft Graph :=
  Drafting.build d.config.renameMethods [d.name, d.entryName] d.span d.statements {}

end Typestate
