/-!
A library that reads digraphs, and what it gives of a graph: the kind and the name, and lists of nodes and edges.
-/

namespace Typestate.Digraph

/-- An end of an edge: a node, with its ports, or a group of nodes. -/
inductive Endpoint where
  | node (name : String)
  | group
  deriving DecidableEq, Repr

/-- What is known of a graph. The name is empty if there is none. Nodes and edges come with whether they have
attributes. -/
structure Contents where
  isDirected : Bool := true
  name : String
  hasGroups : Bool := false
  hasAttributes : Bool := false
  nodes : List (String × Bool)
  edges : List ((Endpoint × Endpoint) × Bool)
  deriving DecidableEq, Repr

/-- How a library turns a text down: it prints the lines of a report and gives no graph, or it raises an error with a
message about a place. -/
inductive Rejection where
  | reported (lines : List String)
  | raised (message : String) (line column : Int)
  deriving DecidableEq, Repr

/-- A library reads the graphs of a text. -/
structure Library where
  read : String → Except Rejection (List Contents)

end Typestate.Digraph
