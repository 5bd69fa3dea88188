import Typestate.Graph.Neighborhood
import Typestate.Proofs.Run
import Typestate.Proofs.SortedMap

/-!
Nodes with their neighbours. Where every end of an edge is a node, looking up neighbours does not fail,
and the nodes of the graph are placed as `Graph.placed` says (`placedNodes_eq`).
-/

namespace Typestate.Graph

variable (g : Graph)

/-- Every end of an edge is a node. -/
def Closed : Prop := ∀ key ∈ g.edges.keys, key.source ∈ g.nodes.keys ∧ key.target ∈ g.nodes.keys

/-- The neighbour at the other end of an edge, which is a node. -/
def neighborAt (p : String × Edge) : Neighbor :=
  { name := p.1, node := (g.nodes.get? p.1).getD {}, edge := p.2 }

/-- The edges of a node with the nodes at their other ends. -/
def neighborhoodAt (name : String) : Neighborhood :=
  { incoming := (g.entering name).map g.neighborAt, outgoing := (g.leaving name).map g.neighborAt }

/-- All nodes with their edges. -/
def placed : List PlacedNode :=
  g.nodes.entries.map fun (name, node) => { name, node, neighborhood := g.neighborhoodAt name }

theorem placed_names : g.placed.map (·.name) = g.nodes.keys := by
  unfold placed SortedMap.keys
  rw [List.map_map]
  rfl

theorem methods_neighborhoodAt (name : String) :
    (g.neighborhoodAt name).methods = (g.leaving name).map (·.2.methodName) := by
  unfold Neighborhood.methods neighborhoodAt
  rw [List.map_map]
  rfl

theorem neighbors_eq (edges : List (String × Edge)) (h : ∀ p ∈ edges, p.1 ∈ g.nodes.keys) :
    g.neighbors edges = .ok (edges.map g.neighborAt) := by
  refine Run.mapM_eq_ok edges ?_
  rintro ⟨name, e⟩ he
  obtain ⟨n, hn⟩ := (SortedMap.mem_keys_iff _ _).mp (h _ he)
  simp only [node, neighborAt, hn]
  rfl

variable {g}

theorem neighborhood_eq (hclosed : g.Closed) {name : String} (h : name ∈ g.nodes.keys) :
    g.neighborhood name = .ok (g.neighborhoodAt name) := by
  have hentry : ∀ {key e}, (key, e) ∈ g.edges.entries →
      key.source ∈ g.nodes.keys ∧ key.target ∈ g.nodes.keys :=
    fun hmem => hclosed _ (List.mem_map_of_mem hmem)
  have hin : g.incoming name = .ok ((g.entering name).map g.neighborAt) := by
    refine g.neighbors_eq _ fun p hp => ?_
    obtain ⟨⟨key, e⟩, hmem, rfl⟩ := List.mem_map.mp hp
    exact (hentry (List.mem_filter.mp hmem).1).1
  have hout : g.outgoing name = .ok ((g.leaving name).map g.neighborAt) := by
    refine g.neighbors_eq _ fun p hp => ?_
    obtain ⟨⟨key, e⟩, hmem, rfl⟩ := List.mem_map.mp hp
    exact (hentry (List.mem_filter.mp hmem).1).2
  obtain ⟨n, hn⟩ := (SortedMap.mem_keys_iff _ _).mp h
  simp only [neighborhood, node, hn, hin, hout]
  rfl

/-- **Placing.** If the ends of all edges are nodes, every node is placed. -/
theorem placedNodes_eq (hclosed : g.Closed) : g.placedNodes = .ok g.placed := by
  refine Run.mapM_eq_ok _ ?_
  rintro ⟨name, node⟩ hmem
  have hname : name ∈ g.nodes.keys := List.mem_map.mpr ⟨_, hmem, rfl⟩
  simp only [neighborhood_eq hclosed hname]
  rfl

end Typestate.Graph
