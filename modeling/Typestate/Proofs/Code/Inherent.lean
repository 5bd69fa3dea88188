import Typestate.Proofs.Code.Accessors

/-!
The inherent methods of connectors, read off the declarations of a machine. A connector has the
accessors of its node's payload, if there is one, and the methods out of the node, and nothing else
(`inherentMethods_declarations`).
-/

namespace Typestate

/-- The accessors and the methods out of a node. -/
def PlacedNode.inherentMethods (c : PlacedNode) : List String :=
  (if c.node.ty.isSome then (Code.accessorNames c.name c.neighborhood.methods).toList else []) ++
    c.neighborhood.methods

namespace Code

/-- The inherent methods that a declaration gives the connector of a node. Implementations of traits
give it none. -/
def Declaration.inherentMethods (node : String) : Declaration → List String
  | accessors owner _ names => if owner = node then names.toList else []
  | transition t => if t.source = node then [t.method] else []
  | _ => []

/-- The inherent methods that declarations give the connector of a node. -/
def inherentMethods (ds : List Declaration) (node : String) : List String :=
  ds.flatMap (·.inherentMethods node)

/-- If all but one element give nothing, that one gives all. -/
theorem flatMap_eq_of_unique {α β κ : Type} {l : List α} {f : α → List β} {key : α → κ} {a : α}
    (hnodup : (l.map key).Nodup) (ha : a ∈ l) (h : ∀ b ∈ l, key b ≠ key a → f b = []) :
    l.flatMap f = f a := by
  induction l with
  | nil => cases ha
  | cons b l ih =>
    rw [List.map_cons, List.nodup_cons] at hnodup
    rw [List.flatMap_cons]
    rcases List.mem_cons.mp ha with rfl | ha
    · have hrest : l.flatMap f = [] := by
        refine List.flatMap_eq_nil_iff.mpr fun b hb => h b (List.mem_cons_of_mem _ hb) fun he => ?_
        exact hnodup.1 (List.mem_map.mpr ⟨b, hb, he⟩)
      rw [hrest, List.append_nil]
    · have hb : f b = [] := by
        refine h b (List.mem_cons_self ..) fun he => ?_
        exact hnodup.1 (List.mem_map.mpr ⟨a, ha, he.symm⟩)
      rw [hb, List.nil_append, ih hnodup.2 ha fun b hb => h b (List.mem_cons_of_mem _ hb)]

theorem inherentMethods_append (ds ds' : List Declaration) (node : String) :
    inherentMethods (ds ++ ds') node = inherentMethods ds node ++ inherentMethods ds' node :=
  List.flatMap_append

theorem inherentMethods_accessorDeclarations (c : PlacedNode) (node : String) :
    inherentMethods (accessorDeclarations c) node =
      if c.name = node then
        if c.node.ty.isSome then (accessorNames c.name c.neighborhood.methods).toList else []
      else [] := by
  unfold accessorDeclarations
  cases c.node.ty with
  | none => simp [inherentMethods]
  | some ty => simp [inherentMethods, Declaration.inherentMethods]

theorem inherentMethods_transitions (c : PlacedNode) (node : String) :
    inherentMethods (transitions c) node = if c.name = node then c.neighborhood.methods else [] := by
  unfold inherentMethods transitions Neighborhood.methods
  rw [List.flatMap_map]
  by_cases h : c.name = node
  · rw [if_pos h, List.map_eq_flatMap]
    simp only [Declaration.inherentMethods, h, ↓reduceIte]
  · rw [if_neg h]
    simp [Declaration.inherentMethods, h]

/-- The connectors have different names, so one part of the declarations for all of them gives a
connector what that part for its own node gives it. -/
theorem inherentMethods_flatMap (part : PlacedNode → List Declaration) {connectors : List PlacedNode}
    (hnodup : (connectors.map (·.name)).Nodup) {c : PlacedNode} (hc : c ∈ connectors)
    (hothers : ∀ b ∈ connectors, b.name ≠ c.name → inherentMethods (part b) c.name = []) :
    inherentMethods (connectors.flatMap part) c.name = inherentMethods (part c) c.name := by
  unfold inherentMethods
  rw [List.flatMap_assoc]
  exact flatMap_eq_of_unique hnodup hc hothers

/-- **Inherent methods.** The inherent methods of a connector's handle are those of its own node, wherever they are
declared. -/
theorem inherentMethods_declarations (d : Document) (docs : List String) {nodes : List PlacedNode}
    (hnodup : (nodes.map (·.name)).Nodup) {c : PlacedNode} (hc : c ∈ nodes)
    (hconnector : c.neighborhood.hasConnector = true) :
    inherentMethods (declarations d docs nodes) c.name = c.inherentMethods := by
  have hmem : c ∈ nodes.filter (·.neighborhood.hasConnector) := List.mem_filter.mpr ⟨hc, hconnector⟩
  have hnodup' : ((nodes.filter (·.neighborhood.hasConnector)).map (·.name)).Nodup :=
    (List.filter_sublist.map _).nodup hnodup
  unfold declarations
  dsimp only
  generalize nodes.filter (·.neighborhood.hasConnector) = connectors at hmem hnodup'
  have htypes : inherentMethods (connectors.map fun c => .connector c.name) c.name = [] := by
    unfold inherentMethods
    rw [List.flatMap_map]
    simp [Declaration.inherentMethods]
  have haccessors := inherentMethods_flatMap accessorDeclarations hnodup' hmem
    fun b _ hb => by rw [inherentMethods_accessorDeclarations, if_neg hb]
  have htransitions := inherentMethods_flatMap transitions hnodup' hmem
    fun b _ hb => by rw [inherentMethods_transitions, if_neg hb]
  rw [inherentMethods_append, inherentMethods_append, inherentMethods_append, htypes, haccessors,
    htransitions, inherentMethods_accessorDeclarations, inherentMethods_transitions, if_pos rfl,
    if_pos rfl]
  rfl

end Code

end Typestate
