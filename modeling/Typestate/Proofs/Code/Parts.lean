import Typestate.Proofs.Code.TypeNames

/-!
The declarations for a graph, one by one. Four are for all nodes together; then there is a connector for
every node that edges leave, three implementations for its payload if it has one, and a transition for
every edge, each of these in the order of the graph (`declarations_eq_map_parts`).
-/

namespace Typestate

namespace Graph

variable {g : Graph}

/-! ## Nodes that edges leave -/

/-- An edge leaves the node. -/
def isLeft (g : Graph) (name : String) : Bool := g.edges.keys.any (·.source == name)

/-- The nodes that edges leave, in order. -/
def leftNodes (g : Graph) : List (String × Node) := g.nodes.entries.filter fun e => g.isLeft e.1

/-- Those of them that have a payload, with its type. -/
def leftPayloads (g : Graph) : List (String × String) :=
  g.leftNodes.filterMap fun e => e.2.ty.map (e.1, ·)

/-- A node with its edges. -/
def place (g : Graph) (e : String × Node) : PlacedNode :=
  { name := e.1, node := e.2, neighborhood := g.neighborhoodAt e.1 }

theorem isLeft_iff (name : String) : g.isLeft name = true ↔ ∃ target, ⟨name, target⟩ ∈ g.edges.keys := by
  rw [isLeft, List.any_eq_true]
  constructor
  · rintro ⟨key, hkey, hsource⟩
    obtain rfl := beq_iff_eq.mp hsource
    exact ⟨key.target, hkey⟩
  · rintro ⟨target, hkey⟩
    exact ⟨_, hkey, beq_iff_eq.mpr rfl⟩

theorem hasConnector_eq_isLeft (name : String) :
    (g.neighborhoodAt name).hasConnector = g.isLeft name := by
  rw [Bool.eq_iff_iff, hasConnector_neighborhoodAt, isLeft_iff, ← mem_sources, leaving_ne_nil_iff]

theorem filter_placed : g.placed.filter (·.neighborhood.hasConnector) = g.leftNodes.map g.place := by
  have hplaced : g.placed = g.nodes.entries.map g.place := rfl
  rw [hplaced, List.filter_map, leftNodes]
  congr 1
  exact List.filter_congr fun e _ => hasConnector_eq_isLeft e.1

/-- The edges that leave one node after the other are all edges, in their order. -/
theorem flatMap_leaving (hclosed : g.Closed) :
    (g.leftNodes.flatMap fun e => g.edges.entries.filter fun edge => edge.1.source == e.1) =
      g.edges.entries := by
  refine SortedMap.eq_of_increasing (List.pairwise_flatMap.mpr ⟨fun e _ => ?_, ?_⟩)
    g.edges.increasing fun edge => ?_
  · exact g.edges.increasing.sublist List.filter_sublist
  · -- Edges are in the order of their sources first.
    refine (g.nodes.increasing.sublist List.filter_sublist).imp fun {a b} hab x hx y hy => ?_
    have hx : x.1.source = a.1 := beq_iff_eq.mp (List.mem_filter.mp hx).2
    have hy : y.1.source = b.1 := beq_iff_eq.mp (List.mem_filter.mp hy).2
    change (compare x.1.source y.1.source).then (compare x.1.target y.1.target) = .lt
    rw [hx, hy, hab]
    rfl
  · rw [List.mem_flatMap]
    constructor
    · rintro ⟨e, -, hedge⟩
      exact (List.mem_filter.mp hedge).1
    · intro hedge
      have hkey : edge.1 ∈ g.edges.keys := List.mem_map_of_mem hedge
      obtain ⟨n, hn⟩ := (SortedMap.mem_keys_iff _ _).mp (hclosed _ hkey).1
      refine ⟨(edge.1.source, n), List.mem_filter.mpr ⟨?_, (isLeft_iff _).mpr ⟨_, hkey⟩⟩,
        List.mem_filter.mpr ⟨hedge, beq_iff_eq.mpr rfl⟩⟩
      exact (SortedMap.mem_entries_iff _ _).mpr hn

end Graph

namespace Code

/-! ## Parts -/

/-- What a declaration is for. -/
inductive Part where
  | stateEnum
  | entryEnum
  | conversion
  | entryMethod
  | connector (node : String)
  | accessors (node ty : String)
  | asRef (node ty : String)
  | asMut (node ty : String)
  | transition (key : EdgeKey) (e : Edge)
  deriving DecidableEq, Repr

/-- The node whose connector gets an implementation. -/
def Part.owner? : Part → Option String
  | accessors node _ | asRef node _ | asMut node _ => some node
  | transition key _ => some key.source
  | _ => none

end Code

open Code (Part Declaration)

/-- All that is generated for a graph, in order. -/
def Graph.parts (g : Graph) : List Part :=
  [.stateEnum, .entryEnum, .conversion, .entryMethod] ++
    g.leftNodes.map (fun e => .connector e.1) ++
    g.leftPayloads.flatMap (fun e => [.accessors e.1 e.2, .asRef e.1 e.2, .asMut e.1 e.2]) ++
    g.edges.entries.map fun e => .transition e.1 e.2

theorem Graph.length_parts (g : Graph) : g.parts.length =
    4 + g.leftNodes.length + 3 * g.leftPayloads.length + g.edges.size := by
  have hthree : ∀ l : List (String × String), (l.flatMap fun e =>
      [Part.accessors e.1 e.2, Part.asRef e.1 e.2, Part.asMut e.1 e.2]).length = 3 * l.length := by
    intro l
    simp [List.length_flatMap, List.map_const', Nat.mul_comm]
  unfold Graph.parts
  rw [List.length_append, List.length_append, List.length_append, List.length_map, List.length_map,
    hthree]
  rfl

namespace Code

/-- The payload of a node of the graph. -/
def payloadOf (g : Graph) (name : String) : Option String := (g.nodes.get? name).bind (·.ty)

/-- The transition of an edge. -/
def transitionOf (g : Graph) (key : EdgeKey) (e : Edge) : Transition where
  source := key.source
  target := key.target
  method := e.methodName
  takes := payloadOf g key.target
  returns := payloadOf g key.source
  docs := e.docs

/-- The declaration of a part. -/
def Part.declaration (d : Document) (entryDocs : List String) (g : Graph) : Part → Declaration
  | stateEnum => .stateEnum d.docs d.attrs (g.nodes.entries.map fun e => stateVariant e.1 e.2)
  | entryEnum => .entryEnum entryDocs (g.nodes.entries.map fun e => entryVariant d.name (g.place e))
  | conversion => .conversion (g.nodes.entries.map fun e => conversionArm (g.place e))
  | entryMethod => .entryMethod
  | connector node => .connector node
  | accessors node ty => .accessors node ty (accessorNames node (g.neighborhoodAt node).methods)
  | asRef node ty => .asRef node ty
  | asMut node ty => .asMut node ty
  | transition key e => .transition (transitionOf g key e)

variable {g : Graph}

theorem flatMap_accessorDeclarations (d : Document) (entryDocs : List String)
    (nodes : List (String × Node)) :
    (nodes.map g.place).flatMap accessorDeclarations =
      ((nodes.filterMap fun e => e.2.ty.map (e.1, ·)).flatMap fun e =>
        [.accessors e.1 e.2, .asRef e.1 e.2, .asMut e.1 e.2]).map (Part.declaration d entryDocs g) := by
  induction nodes with
  | nil => rfl
  | cons e nodes ih =>
    rw [List.map_cons, List.flatMap_cons, ih, List.filterMap_cons]
    cases hty : e.2.ty with
    | none => simp [accessorDeclarations, Graph.place, hty]
    | some ty => simp [accessorDeclarations, Graph.place, hty, Part.declaration]

theorem transitions_place (d : Document) (entryDocs : List String) {e : String × Node}
    (he : e ∈ g.nodes.entries) : transitions (g.place e) =
      (g.edges.entries.filter fun edge => edge.1.source == e.1).map fun edge =>
        (Part.transition edge.1 edge.2).declaration d entryDocs g := by
  have hnode : g.nodes.get? e.1 = some e.2 := (SortedMap.mem_entries_iff _ _).mp he
  have hleaving : (g.neighborhoodAt e.1).outgoing = (g.leaving e.1).map g.neighborAt := rfl
  unfold transitions Graph.place
  dsimp only
  rw [hleaving, Graph.leaving, List.map_map, List.map_map]
  refine List.map_congr_left fun edge hedge => ?_
  have hsource : edge.1.source = e.1 := beq_iff_eq.mp (List.mem_filter.mp hedge).2
  simp only [Function.comp_apply, Graph.neighborAt, Part.declaration, transitionOf, payloadOf, hsource,
    hnode]
  cases g.nodes.get? edge.1.target <;> rfl

/-- **Declarations.** The declarations of a machine are those of its parts, one by one and in order. -/
theorem declarations_eq_map_parts (d : Document) (entryDocs : List String) (hclosed : g.Closed) :
    declarations d entryDocs g.placed = g.parts.map (Part.declaration d entryDocs g) := by
  have htransitions : (g.leftNodes.map g.place).flatMap transitions =
      (g.edges.entries.map fun e => Part.transition e.1 e.2).map (Part.declaration d entryDocs g) := by
    conv_rhs => rw [← Graph.flatMap_leaving hclosed]
    rw [List.flatMap_map, List.map_map, List.map_flatMap]
    refine List.flatMap_congr fun e he => ?_
    exact transitions_place d entryDocs (List.mem_filter.mp he).1
  have haccessors := flatMap_accessorDeclarations d entryDocs (g := g) g.leftNodes
  unfold declarations Graph.parts
  dsimp only
  rw [Graph.filter_placed, htransitions, haccessors]
  simp only [List.map_append, List.map_map, Graph.placed]
  rfl

end Code

end Typestate
