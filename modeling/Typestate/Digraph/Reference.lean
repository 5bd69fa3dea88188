import Typestate.Digraph.Complaint

/-!
A library for digraphs. The clauses of a graph are read by ordered choices, and then its nodes and edges are listed,
those of one name and those of the same two ends together.
-/

namespace Typestate.Digraph

/-- The items in groups of the same key, in the order in which the keys appear first. -/
def groupByKey {κ α : Type} [DecidableEq κ] (key : α → κ) (items : List α) : List α :=
  (items.map key).eraseDups.flatMap fun k => items.filter fun a => key a = k

/-- The node of a node clause: its name without ports, unless that is in quotes. -/
def bareNode (raw : String) : String :=
  match raw.toList with
  | '"' :: _ => raw
  | cs => String.ofList (cs.takeWhile (· != ':'))

/-- The nodes that have clauses of their own, and whether a clause gives them attributes. -/
def nodeClauses : List Clause → List (String × Bool)
  | [] => []
  | .node name hasAttributes :: rest => (bareNode name, hasAttributes) :: nodeClauses rest
  | .defaults word hasAttributes :: rest => (word, hasAttributes) :: nodeClauses rest
  | _ :: rest => nodeClauses rest

/-- The edges between consecutive ends. -/
def hops (hasAttributes : Bool) : List Endpoint → List ((Endpoint × Endpoint) × Bool)
  | source :: target :: rest =>
    ((source, target), hasAttributes) :: hops hasAttributes (target :: rest)
  | _ => []

/-- The edges of the edge clauses, and whether they have attributes. -/
def edgeClauses : List Clause → List ((Endpoint × Endpoint) × Bool)
  | [] => []
  | .edges ends hasAttributes :: rest => hops hasAttributes ends ++ edgeClauses rest
  | _ :: rest => edgeClauses rest

/-- What is known of a graph by its clauses. -/
def Written.contents (w : Written) : Contents where
  isDirected := w.isDirected
  name := w.name
  hasGroups := w.clauses.contains .group
  hasAttributes := w.clauses.contains .assignment
  nodes := groupByKey (·.1) (nodeClauses w.clauses)
  edges := groupByKey (·.1) (edgeClauses w.clauses)

/-- The library that is used unless there is another one. -/
def reference : Library where
  read text := match graphs text with
    | .ok ws => .ok (ws.map Written.contents)
    | .error complaint => .error (.reported (complaint.report text))

end Typestate.Digraph
