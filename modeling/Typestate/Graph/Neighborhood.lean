import Typestate.Failure
import Typestate.Graph.Basic

/-!
What part a node plays in a graph, by the edges into it and out of it.
-/

namespace Typestate

inductive NodeKind where
  | isolate
  | source
  | sink
  | nonTerminal
  deriving DecidableEq, Repr

namespace NodeKind

/-- The kind of a node that has edges into it and out of it, or not. -/
def ofEdges : (isEntered isLeft : Bool) → NodeKind
  | true, true => nonTerminal
  | false, true => source
  | true, false => sink
  | false, false => isolate

def name : NodeKind → String
  | isolate => "isolate"
  | source => "source"
  | sink => "sink"
  | nonTerminal => "non_terminal"

/-- Nodes with outgoing edges get a connector type. -/
def hasConnector : NodeKind → Bool
  | source | nonTerminal => true
  | isolate | sink => false

end NodeKind

/-- The other end of an edge, with its data and that of the edge. -/
structure Neighbor where
  name : String
  node : Node
  edge : Edge
  deriving DecidableEq, Repr

structure Neighborhood where
  incoming : List Neighbor := []
  outgoing : List Neighbor := []
  deriving DecidableEq, Repr

namespace Neighborhood

def kind (n : Neighborhood) : NodeKind := .ofEdges (!n.incoming.isEmpty) (!n.outgoing.isEmpty)

def hasConnector (n : Neighborhood) : Bool := n.kind.hasConnector

/-- The names of the methods out of a node. -/
def methods (n : Neighborhood) : List String := n.outgoing.map (·.edge.methodName)

end Neighborhood

namespace Graph

/-- A node, which must be in the graph. -/
def node (g : Graph) (name : String) : Except Failure Node :=
  match g.nodes.get? name with
  | some n => .ok n
  | none => .error (.unknownNode name)

/-- The neighbours at the other ends of some edges. -/
def neighbors (g : Graph) (edges : List (String × Edge)) : Except Failure (List Neighbor) :=
  edges.mapM fun (name, edge) => return { name, node := ← g.node name, edge }

/-- The sources of the edges into a node, in order. -/
def incoming (g : Graph) (name : String) : Except Failure (List Neighbor) :=
  g.neighbors (g.entering name)

/-- The targets of the edges out of a node, in order. -/
def outgoing (g : Graph) (name : String) : Except Failure (List Neighbor) :=
  g.neighbors (g.leaving name)

/-- The edges of a node, which must be in the graph. -/
def neighborhood (g : Graph) (name : String) : Except Failure Neighborhood := do
  let _ ← g.node name
  let incoming ← g.incoming name
  let outgoing ← g.outgoing name
  return { incoming, outgoing }

end Graph

/-- A node with its name and its edges. -/
structure PlacedNode where
  name : String
  node : Node
  neighborhood : Neighborhood
  deriving DecidableEq, Repr

/-- All nodes with their edges, in order. -/
def Graph.placedNodes (g : Graph) : Except Failure (List PlacedNode) :=
  g.nodes.entries.mapM fun (name, node) =>
    return { name, node, neighborhood := ← g.neighborhood name }

end Typestate
