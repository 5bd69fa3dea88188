import Typestate.SortedMap
import Typestate.Source.Span

/-!
Graphs of machines: nodes by name, edges by their two ends, both kept in order. There is at most one
edge from a node to another.
-/

namespace Typestate

/-- A node: its payload type, its documentation, and the place of its first mention. -/
structure Node where
  ty : Option String := none
  docs : List String := []
  span : Option Span := none
  deriving DecidableEq, Repr

/-- An edge: the name of its method, which is explicit if an arrow gave it, its documentation, and
the place of its arrow. -/
structure Edge where
  methodName : String
  docs : List String := []
  explicit : Bool := false
  span : Option Span := none
  deriving DecidableEq, Repr

/-- The two ends of an edge. -/
structure EdgeKey where
  source : String
  target : String
  deriving DecidableEq, Repr

namespace EdgeKey

/-- Edges are ordered by their sources, and those of one source by their targets. -/
protected def compare (a b : EdgeKey) : Ordering :=
  compareLex (compareOn EdgeKey.source) (compareOn EdgeKey.target) a b

instance : Ord EdgeKey := ⟨EdgeKey.compare⟩

instance : Std.TransOrd EdgeKey :=
  inferInstanceAs (Std.TransCmp (compareLex (compareOn EdgeKey.source) (compareOn EdgeKey.target)))

instance : Std.LawfulEqOrd EdgeKey where
  eq_of_compare {a b} h := by
    obtain ⟨hs, ht⟩ := Ordering.then_eq_eq.1
      (show (compare a.source b.source).then (compare a.target b.target) = .eq from h)
    cases a
    cases b
    exact congr (congrArg _ (Std.LawfulEqCmp.eq_of_compare hs)) (Std.LawfulEqCmp.eq_of_compare ht)

end EdgeKey

structure Graph where
  nodes : SortedMap String Node := SortedMap.empty
  edges : SortedMap EdgeKey Edge := SortedMap.empty
  deriving DecidableEq

namespace Graph

/-- The nodes with outgoing edges, in order. -/
def sources (g : Graph) : List String := (g.edges.keys.map (·.source)).eraseDups

/-- The edges out of a node with their targets, in order. -/
def leaving (g : Graph) (node : String) : List (String × Edge) :=
  (g.edges.entries.filter (·.1.source == node)).map fun e => (e.1.target, e.2)

/-- The edges into a node with their sources, in order. -/
def entering (g : Graph) (node : String) : List (String × Edge) :=
  (g.edges.entries.filter (·.1.target == node)).map fun e => (e.1.source, e.2)

end Graph

end Typestate
