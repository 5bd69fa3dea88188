import Typestate.Graph.Neighborhood
import Typestate.Report.Console

/-!
The table of a machine's nodes, and a line that counts nodes and edges.
-/

namespace Typestate.Report

/-- A text in a style. -/
def styled (style text : String) : String := "[" ++ style ++ "]" ++ text ++ "[/" ++ style ++ "]"

/-- The style of the nodes of a kind. -/
def styleOf : NodeKind → String
  | .isolate => "dim"
  | .source => "green"
  | .sink => "red"
  | .nonTerminal => "cyan"

/-- The columns of the table. -/
def headers : List String := ["State", "Data", "Kind", "Transitions"]

/-- The cells of a node. -/
def row (c : PlacedNode) : List String :=
  [c.name, c.node.ty.getD "", styled (styleOf c.neighborhood.kind) c.neighborhood.kind.name,
    String.intercalate ", " (c.neighborhood.outgoing.map fun n => n.edge.methodName ++ " → " ++ n.name)]

/-- The line that counts nodes and edges. -/
def countLine (nodes edges : Nat) : String :=
  "\n" ++ styled "green" "✓" ++ " " ++ toString nodes ++ " state(s), " ++ toString edges ++ " transition(s)"

/-- What a console prints of a machine; nothing if the markup of a cell is in error. -/
def summary (console : Console) (title : String) (nodes : List PlacedNode) (edges : Nat) : Option String := do
  let title ← console.shown title
  let headings ← headers.mapM console.shown
  let rows ← nodes.mapM fun c => (row c).mapM console.shown
  let count ← console.shown (countLine nodes.length edges)
  return console.table title headings rows ++ console.paragraph count

end Typestate.Report
