import Typestate.Graph.Basic

/-!
Graphs as diagram texts: a Graphviz digraph, and a mermaid flowchart. Every edge has a line, in
order; then every node without edges has one.
-/

namespace Typestate

/-- A line of a diagram: an edge, or a node by itself. -/
inductive Stroke where
  | edge (source target : String)
  | node (name : String)
  deriving DecidableEq, Repr

namespace Graph

/-- No edge starts or ends at the node. -/
def isIsolated (g : Graph) (name : String) : Bool :=
  g.edges.keys.all fun key => key.source != name && key.target != name

/-- The lines of a diagram. -/
def strokes (g : Graph) : List Stroke :=
  g.edges.keys.map (fun key => .edge key.source key.target) ++
    (g.nodes.keys.filter g.isIsolated).map .node

end Graph

/-- A line with the given arrow. An edge into a node without a name is drawn as its source alone. -/
def Stroke.line (arrow : String) : Stroke → String
  | edge source "" => "  " ++ source ++ ";\n"
  | edge source target => "  " ++ source ++ " " ++ arrow ++ " " ++ target ++ ";\n"
  | node name => "  " ++ name ++ ";\n"

namespace Graph

/-- The graph as a Graphviz digraph. -/
def toDot (g : Graph) (name : String) : String :=
  "digraph " ++ name ++ " \x7b\n" ++ String.join (g.strokes.map (Stroke.line "->")) ++ "\x7d\n"

/-- The graph as a mermaid flowchart from left to right. -/
def toMermaid (g : Graph) : String :=
  "graph LR\n" ++ String.join (g.strokes.map (Stroke.line "-->"))

end Graph

end Typestate
