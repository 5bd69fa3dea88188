import Typestate.Code.EntryApi
import Typestate.Proofs.Graph.Leaving
import Typestate.Proofs.Graph.Placing

/-!
The types that are declared for a machine: the state enum, the entry enum, and a connector for every
node with outgoing edges (`typeNames_declarations`).
-/

namespace Typestate

/-- The nodes with outgoing edges, in the order of their names. -/
def Graph.connectors (g : Graph) : List String :=
  (g.placed.filter (·.neighborhood.hasConnector)).map (·.name)

namespace Graph

variable {g : Graph}

theorem hasConnector_neighborhoodAt (name : String) :
    (g.neighborhoodAt name).hasConnector = true ↔ g.leaving name ≠ [] := by
  unfold Neighborhood.hasConnector Neighborhood.kind neighborhoodAt
  cases g.leaving name <;> cases g.entering name <;> simp [NodeKind.ofEdges, NodeKind.hasConnector]

theorem nodup_connectors : g.connectors.Nodup := by
  refine List.Nodup.sublist (List.filter_sublist.map _) ?_
  rw [placed_names]
  exact SortedMap.nodup_keys _

theorem mem_connectors_iff (hclosed : g.Closed) (name : String) :
    name ∈ g.connectors ↔ name ∈ g.sources := by
  unfold connectors placed
  simp only [List.mem_map, List.mem_filter]
  constructor
  · rintro ⟨c, ⟨⟨⟨node, n⟩, -, rfl⟩, hconnector⟩, rfl⟩
    exact (leaving_ne_nil_iff g node).mp ((hasConnector_neighborhoodAt node).mp hconnector)
  · intro hsource
    obtain ⟨target, hkey⟩ := (mem_sources g name).mp hsource
    obtain ⟨n, hn⟩ := (SortedMap.mem_keys_iff _ _).mp (hclosed _ hkey).1
    refine ⟨_, ⟨⟨(name, n), (SortedMap.mem_entries_iff _ _).mpr hn, rfl⟩, ?_⟩, rfl⟩
    exact (hasConnector_neighborhoodAt name).mpr ((leaving_ne_nil_iff g name).mpr hsource)

end Graph

namespace Code

/-- The type that a declaration for a document declares. Implementations declare none. -/
def Declaration.typeName? (d : Document) : Declaration → Option String
  | stateEnum .. => some d.name
  | entryEnum .. => some d.entryName
  | connector node => some node
  | _ => none

/-- The types that declarations for a document declare, in order. -/
def typeNames (d : Document) (ds : List Declaration) : List String :=
  ds.filterMap (·.typeName? d)

theorem typeNames_accessorDeclarations (d : Document) (c : PlacedNode) :
    typeNames d (accessorDeclarations c) = [] := by
  unfold accessorDeclarations
  cases c.node.ty <;> rfl

theorem typeNames_transitions (d : Document) (c : PlacedNode) : typeNames d (transitions c) = [] := by
  unfold typeNames transitions
  rw [List.filterMap_map]
  exact List.filterMap_eq_nil_iff.mpr fun n _ => rfl

theorem typeNames_flatMap (d : Document) (part : PlacedNode → List Declaration)
    (h : ∀ c, typeNames d (part c) = []) (connectors : List PlacedNode) :
    typeNames d (connectors.flatMap part) = [] := by
  induction connectors with
  | nil => rfl
  | cons c rest ih =>
    rw [List.flatMap_cons, typeNames, List.filterMap_append]
    change typeNames d (part c) ++ typeNames d (rest.flatMap part) = []
    rw [h c, ih, List.append_nil]

/-- **Declared types.** The types that are declared are the state enum, the entry enum, and a handle for every
connector. -/
theorem typeNames_declarations (d : Document) (docs : List String) (g : Graph) :
    typeNames d (declarations d docs g.placed) = d.name :: d.entryName :: g.connectors := by
  have haccessors := typeNames_flatMap d accessorDeclarations (typeNames_accessorDeclarations d)
    (g.placed.filter (·.neighborhood.hasConnector))
  have htransitions := typeNames_flatMap d transitions (typeNames_transitions d)
    (g.placed.filter (·.neighborhood.hasConnector))
  have hconnectors : typeNames d ((g.placed.filter (·.neighborhood.hasConnector)).map
      fun c => .connector c.name) = g.connectors := by
    unfold typeNames Graph.connectors
    rw [List.filterMap_map, ← List.filterMap_eq_map]
    rfl
  unfold declarations typeNames
  dsimp only
  rw [List.filterMap_append, List.filterMap_append, List.filterMap_append]
  change [d.name, d.entryName] ++ typeNames d _ ++ typeNames d _ ++ typeNames d _ = _
  rw [hconnectors, haccessors, htransitions, List.append_nil, List.append_nil]
  rfl

end Code

end Typestate
