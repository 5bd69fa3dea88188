import Typestate.Code.Generate
import Typestate.Proofs.Graph.Placing
import Typestate.Proofs.Run

/-!
Generated code does not tell where the nodes and the edges of a machine are mentioned: graphs with the same
nodes and edges, but for their places in the text, give the same source (`Machine.compile_congr`).
-/

namespace Typestate

def Node.withoutSpan (n : Node) : Node := { n with span := none }

def Edge.withoutSpan (e : Edge) : Edge := { e with span := none }

def Neighbor.withoutSpans (n : Neighbor) : Neighbor :=
  { n with node := n.node.withoutSpan, edge := n.edge.withoutSpan }

def Neighborhood.withoutSpans (n : Neighborhood) : Neighborhood :=
  { incoming := n.incoming.map .withoutSpans, outgoing := n.outgoing.map .withoutSpans }

def PlacedNode.withoutSpans (c : PlacedNode) : PlacedNode :=
  { c with node := c.node.withoutSpan, neighborhood := c.neighborhood.withoutSpans }

namespace Code

theorem hasConnector_withoutSpans (n : Neighborhood) :
    n.withoutSpans.hasConnector = n.hasConnector := by
  simp [Neighborhood.hasConnector, Neighborhood.kind, Neighborhood.withoutSpans]

theorem methods_withoutSpans (n : Neighborhood) : n.withoutSpans.methods = n.methods := by
  simp only [Neighborhood.methods, Neighborhood.withoutSpans, List.map_map]
  rfl

theorem entryVariant_withoutSpans (state : String) (c : PlacedNode) :
    entryVariant state c.withoutSpans = entryVariant state c := by
  have hdocs : variantDocs state c.withoutSpans = variantDocs state c := by
    simp only [variantDocs, PlacedNode.withoutSpans, Neighborhood.withoutSpans, List.map_map]
    rfl
  have haccess : access c.withoutSpans = access c := by
    simp only [access, PlacedNode.withoutSpans, hasConnector_withoutSpans]
    rfl
  unfold entryVariant
  rw [hdocs, haccess]
  rfl

theorem conversionArm_withoutSpans (c : PlacedNode) :
    conversionArm c.withoutSpans = conversionArm c := by
  simp only [conversionArm, PlacedNode.withoutSpans, hasConnector_withoutSpans]
  rfl

theorem accessorDeclarations_withoutSpans (c : PlacedNode) :
    accessorDeclarations c.withoutSpans = accessorDeclarations c := by
  simp only [accessorDeclarations, PlacedNode.withoutSpans, methods_withoutSpans]
  rfl

theorem transitions_withoutSpans (c : PlacedNode) :
    transitions c.withoutSpans = transitions c := by
  simp only [transitions, PlacedNode.withoutSpans, Neighborhood.withoutSpans, List.map_map]
  rfl

/-- No declaration tells the place of a node or an edge. -/
theorem declarations_withoutSpans (d : Document) (docs : List String) (nodes : List PlacedNode) :
    declarations d docs (nodes.map .withoutSpans) = declarations d docs nodes := by
  have hfilter : (nodes.map PlacedNode.withoutSpans).filter (·.neighborhood.hasConnector) =
      (nodes.filter (·.neighborhood.hasConnector)).map .withoutSpans := by
    rw [List.filter_map]
    congr 2
    funext c
    exact hasConnector_withoutSpans c.neighborhood
  simp only [declarations, hfilter, List.map_map, List.flatMap_map, Function.comp_def,
    entryVariant_withoutSpans, conversionArm_withoutSpans, accessorDeclarations_withoutSpans,
    transitions_withoutSpans]
  rfl

end Code

/-! ## Graphs -/

namespace Graph

variable {g g' : Graph}

/-- The nodes are the same but for their places. -/
def SameNodes (g g' : Graph) : Prop :=
  ∀ name, (g.nodes.get? name).map Node.withoutSpan = (g'.nodes.get? name).map Node.withoutSpan

/-- The edges are the same but for their places. -/
def SameEdges (g g' : Graph) : Prop :=
  ∀ key, (g.edges.get? key).map Edge.withoutSpan = (g'.edges.get? key).map Edge.withoutSpan

/-- The graphs are the same but for the places of nodes and edges. -/
structure SameUpToSpans (g g' : Graph) : Prop where
  nodes : g.SameNodes g'
  edges : g.SameEdges g'

theorem SameNodes.keys_eq (h : SameNodes g g') : g.nodes.keys = g'.nodes.keys :=
  SortedMap.keys_eq_of_map h

theorem SameEdges.keys_eq (h : SameEdges g g') : g.edges.keys = g'.edges.keys :=
  SortedMap.keys_eq_of_map h

theorem SameEdges.entries_eq (h : SameEdges g g') :
    g.edges.entries.map (fun e => (e.1, e.2.withoutSpan)) =
      g'.edges.entries.map fun e => (e.1, e.2.withoutSpan) :=
  SortedMap.map_entries_eq Edge.withoutSpan h

/-- What leaves and enters a node is the same but for the places of edges. -/
theorem SameEdges.leaving_eq (h : SameEdges g g') (name : String) :
    (g.leaving name).map (fun p => (p.1, p.2.withoutSpan)) =
      (g'.leaving name).map fun p => (p.1, p.2.withoutSpan) := by
  have hleaving : ∀ g : Graph, (g.leaving name).map (fun p => (p.1, p.2.withoutSpan)) =
      ((g.edges.entries.map fun e => (e.1, e.2.withoutSpan)).filter (·.1.source == name)).map
        fun e => (e.1.target, e.2) := by
    intro g
    rw [leaving, List.filter_map, List.map_map, List.map_map]
    rfl
  rw [hleaving, hleaving, h.entries_eq]

theorem SameEdges.entering_eq (h : SameEdges g g') (name : String) :
    (g.entering name).map (fun p => (p.1, p.2.withoutSpan)) =
      (g'.entering name).map fun p => (p.1, p.2.withoutSpan) := by
  have hentering : ∀ g : Graph, (g.entering name).map (fun p => (p.1, p.2.withoutSpan)) =
      ((g.edges.entries.map fun e => (e.1, e.2.withoutSpan)).filter (·.1.target == name)).map
        fun e => (e.1.source, e.2) := by
    intro g
    rw [entering, List.filter_map, List.map_map, List.map_map]
    rfl
  rw [hentering, hentering, h.entries_eq]

theorem neighborAt_withoutSpans (h : SameNodes g g') (p : String × Edge) :
    (g.neighborAt p).withoutSpans = (g'.neighborAt (p.1, p.2.withoutSpan)).withoutSpans := by
  have hnode : ∀ n? : Option Node,
      (n?.getD {}).withoutSpan = (n?.map Node.withoutSpan).getD {} := by
    rintro (_ | n) <;> rfl
  simp only [neighborAt, Neighbor.withoutSpans, hnode, h p.1]
  rfl

theorem map_neighborAt_withoutSpans (h : SameNodes g g') {edges edges' : List (String × Edge)}
    (hedges : edges.map (fun p => (p.1, p.2.withoutSpan)) =
      edges'.map fun p => (p.1, p.2.withoutSpan)) :
    (edges.map g.neighborAt).map Neighbor.withoutSpans =
      (edges'.map g'.neighborAt).map Neighbor.withoutSpans := by
  have hnear : ∀ {g₁ : Graph}, SameNodes g₁ g' → ∀ edges : List (String × Edge),
      (edges.map g₁.neighborAt).map Neighbor.withoutSpans =
        (edges.map fun p => (p.1, p.2.withoutSpan)).map fun p => (g'.neighborAt p).withoutSpans := by
    intro g₁ hnodes edges
    rw [List.map_map, List.map_map]
    exact List.map_congr_left fun p _ => neighborAt_withoutSpans hnodes p
  have hself : SameNodes g' g' := fun _ => rfl
  rw [hnear h, hnear hself, hedges]

theorem neighborhoodAt_withoutSpans (h : SameUpToSpans g g') (name : String) :
    (g.neighborhoodAt name).withoutSpans = (g'.neighborhoodAt name).withoutSpans := by
  unfold neighborhoodAt Neighborhood.withoutSpans
  dsimp only
  rw [map_neighborAt_withoutSpans h.nodes (h.edges.entering_eq name),
    map_neighborAt_withoutSpans h.nodes (h.edges.leaving_eq name)]

theorem placed_withoutSpans (h : SameUpToSpans g g') :
    g.placed.map PlacedNode.withoutSpans = g'.placed.map PlacedNode.withoutSpans := by
  have hplaced : ∀ g : Graph, g.placed.map PlacedNode.withoutSpans =
      (g.nodes.entries.map fun e => (e.1, e.2.withoutSpan)).map fun e =>
        { name := e.1, node := e.2, neighborhood := (g.neighborhoodAt e.1).withoutSpans } := by
    intro g
    rw [placed, List.map_map, List.map_map]
    rfl
  rw [hplaced, hplaced, SortedMap.map_entries_eq Node.withoutSpan h.nodes]
  simp only [neighborhoodAt_withoutSpans h]

/-- Diagrams do not tell places. -/
theorem strokes_congr (h : SameUpToSpans g g') : g.strokes = g'.strokes := by
  have hisolated : g.isIsolated = g'.isIsolated := by
    funext name
    simp only [isIsolated, h.edges.keys_eq]
  simp only [strokes, h.edges.keys_eq, h.nodes.keys_eq, hisolated]

end Graph

/-! ## Machines -/

/-- What a document says besides its statements, which are in the graph, and besides its place. -/
def Document.frame (d : Document) : Document := { d with statements := [], span := none }

namespace Machine

/-- **Placelessness.** What is generated depends on the statements through the graph alone, and on the
graph up to the places of its nodes and edges. -/
theorem generate_congr {d d' : Document} {g g' : Graph} (hd : d.frame = d'.frame) (hg : g.Closed)
    (hg' : g'.Closed) (h : g.SameUpToSpans g') (renderer : Renderer) :
    generate ⟨d, g⟩ renderer = generate ⟨d', g'⟩ renderer := by
  have hframe : ∀ d : Document, generate ⟨d, g⟩ renderer = generate ⟨d.frame, g⟩ renderer :=
    fun _ => rfl
  have hframe' : generate ⟨d', g'⟩ renderer = generate ⟨d'.frame, g'⟩ renderer := rfl
  rw [hframe, hframe', hd]
  have hmermaid : g.toMermaid = g'.toMermaid := by
    simp only [Graph.toMermaid, Graph.strokes_congr h]
  have hdeclarations : ∀ docs, Code.declarations d'.frame docs g.placed =
      Code.declarations d'.frame docs g'.placed := by
    intro docs
    rw [← Code.declarations_withoutSpans, Graph.placed_withoutSpans h, Code.declarations_withoutSpans]
  simp only [generate, mermaidDocs, hmermaid, Graph.placedNodes_eq hg, Graph.placedNodes_eq hg',
    Run.ofExcept_ok, pure_bind, hdeclarations]

/-- So does what is compiled, with whatever drawing. -/
theorem compile_congr {d d' : Document} {g g' : Graph} (hd : d.frame = d'.frame) (hg : g.Closed)
    (hg' : g'.Closed) (h : g.SameUpToSpans g') (mermaid : Renderer) (svg : Option Renderer) :
    compile ⟨d, g⟩ mermaid svg = compile ⟨d', g'⟩ mermaid svg := by
  have hname : d.name = d'.name := (congrArg Document.name hd :)
  have hdot : g.toDot d.name = g'.toDot d'.name := by
    simp only [Graph.toDot, Graph.strokes_congr h, hname]
  simp only [compile, svgDocs, hdot, generate_congr hd hg hg' h mermaid]

end Machine

end Typestate
