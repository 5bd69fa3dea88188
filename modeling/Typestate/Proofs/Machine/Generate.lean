import Typestate.Proofs.Code.Blocks
import Typestate.Proofs.Code.Parts
import Typestate.Proofs.Digraph.Names
import Typestate.Proofs.Machine.Compile

/-!
What is generated for a machine that was loaded. There is an item for every part of the graph, in their
order; that of an edge is the method of the edge, with the payloads of its two ends
(`Machine.generate_parts`).
-/

namespace Typestate

namespace Code

/-- The item is the one for a part of a graph: it starts as such items do, and if it gives methods to a
connector it gives those of the part and no others. -/
inductive Part.Makes (api : Api) (g : Graph) : Part → Item → Prop
  | stateEnum {i : Item} {lines : List String}
    (h : i.HasLines (api.opening (visibility api.stateVis ++ "enum " ++ api.state ++
      api.stateGenerics) :: lines)) : Makes api g .stateEnum i
  | entryEnum {i : Item} {lines : List String}
    (h : i.HasLines (api.opening (visibility api.entryVis ++ "enum " ++ api.entry ++
      declaredParameters api.entryParams) :: lines)) : Makes api g .entryEnum i
  | conversion {i : Item} {lines : List String}
    (h : i.HasLines (api.openingTraitImpl ("From<" ++ api.stateReference ++ ">") api.entryType ::
      lines)) : Makes api g .conversion i
  | entryMethod {i : Item}
    (h : i.HasLines [api.opening ("impl" ++ declaredParameters api.params ++ " " ++ api.stateType),
      "    " ++ needlessLifetimes,
      "    " ++ visibility api.entryVis ++ "fn entry<" ++ entryLifetime ++ ">(&" ++ entryLifetime ++
        " mut self) -> " ++ api.entryType ++ " \x7b",
      "        self.into()", "    \x7d", "\x7d"]) : Makes api g .entryMethod i
  | connector {i : Item} {node : String} {lines : List String}
    (h : i.HasLines ((visibility api.entryVis ++ "struct " ++ node ++
      declaredParameters api.entryParams ++ "(") :: lines)) : Makes api g (.connector node) i
  | accessors {i : Item} {node ty : String} {names : AccessorNames} {docs docsMut : Documentation}
    (h : i.Implements api (api.openingImpl (api.connectorType node))
      [.accessor api node ty docs ("pub fn " ++ names.get ++ "(&self) -> &" ++ ty) "&self.0",
        .accessor api node ty docsMut ("pub fn " ++ names.getMut ++ "(&mut self) -> &mut " ++ ty)
          "&mut self.0"]) : Makes api g (.accessors node ty) i
  | asRef {i : Item} {node ty : String} {docs : Documentation}
    (h : i.Implements api (api.openingTraitImpl ("AsRef<" ++ ty ++ ">") (api.connectorType node))
      [.accessor api node ty docs ("fn as_ref(&self) -> &" ++ ty) "&self.0"]) :
    Makes api g (.asRef node ty) i
  | asMut {i : Item} {node ty : String} {docs : Documentation}
    (h : i.Implements api (api.openingTraitImpl ("AsMut<" ++ ty ++ ">") (api.connectorType node))
      [.accessor api node ty docs ("fn as_mut(&mut self) -> &mut " ++ ty) "&mut self.0"]) :
    Makes api g (.asMut node ty) i
  | transition {i : Item} {key : EdgeKey} {e : Edge} {source target : Node} {docs : Documentation}
    (hedge : g.edges.get? key = some e) (hsource : g.nodes.get? key.source = some source)
    (htarget : g.nodes.get? key.target = some target)
    (h : i.Implements api (api.openingImpl (api.connectorType key.source)) [{
      docs
      signature := "pub fn " ++ e.methodName ++
        "(" ++ target.ty.elim "self" ("self, next: " ++ ·) ++ ")" ++ source.ty.elim "" (" -> " ++ ·)
      scrutinee := api.core ++ "::mem::replace(self.0, " ++
        (api.variant key.target ++ inParens (target.ty.map fun _ => "next")) ++ ")"
      arm := api.expecting key.source source.ty }]) : Makes api g (.transition key e) i

variable {g : Graph}

theorem edge_of_mem_parts {key : EdgeKey} {e : Edge} (h : .transition key e ∈ g.parts) :
    g.edges.get? key = some e := by
  rw [← SortedMap.mem_entries_iff g.edges (key, e)]
  simpa [Graph.parts] using h

/-- Every part is made. -/
theorem makes_item (api : Api) (d : Document) (entryDocs : List String) (hclosed : g.Closed)
    {part : Part} (h : part ∈ g.parts) :
    part.Makes api g ((part.declaration d entryDocs g).item api) := by
  cases part with
  | stateEnum => exact .stateEnum rfl
  | entryEnum => exact .entryEnum rfl
  | conversion => exact .conversion rfl
  | entryMethod => exact .entryMethod rfl
  | connector node => exact .connector rfl
  | accessors node ty => exact .accessors (Declaration.implements_accessors api node ty _)
  | asRef node ty => exact .asRef (Declaration.implements_asRef api node ty)
  | asMut node ty => exact .asMut (Declaration.implements_asMut api node ty)
  | transition key e =>
    have hedge := edge_of_mem_parts h
    obtain ⟨hsource, htarget⟩ := hclosed key ((SortedMap.mem_keys_iff _ _).mpr ⟨e, hedge⟩)
    obtain ⟨source, hsource⟩ := (SortedMap.mem_keys_iff _ _).mp hsource
    obtain ⟨target, htarget⟩ := (SortedMap.mem_keys_iff _ _).mp htarget
    have hitem := Declaration.implements_transition api (transitionOf g key e)
    have htakes : (transitionOf g key e).takes = target.ty := by simp [transitionOf, payloadOf, htarget]
    have hreturns : (transitionOf g key e).returns = source.ty := by
      simp [transitionOf, payloadOf, hsource]
    rw [Method.transition, htakes, hreturns] at hitem
    exact .transition hedge hsource htarget hitem

end Code

/-! ## Generating -/

/-- The parameters of a document that was read are a list of parameters. -/
theorem Source.exists_parametersOf_of_read {src : Source} {language : Language} {d : Document}
    {events events' : List Event} (h : src.read language events = .ok d events') :
    ∃ params, Code.parametersOf d.generics = .ok params := by
  cases language with
  | machine => exact exists_parametersOf (parse_of_read h)
  | digraph =>
    rw [parseDigraph_generics (parseDigraph_of_read h)]
    exact ⟨[], rfl⟩

/-- The renderer does not fail on the diagram of the machine, if the machine wants one. -/
def Machine.DrawnBy (m : Machine) (renderer : Renderer) (noted : List Event) : Prop :=
  m.document.config.mermaid = true →
    ∃ markup noted', renderer.render m.graph.toMermaid noted = .ok markup noted'

namespace Machine

variable {m : Machine} {renderer : Renderer} {noted : List Event}

theorem exists_mermaidDocs (h : m.DrawnBy renderer noted) :
    ∃ docs noted', m.mermaidDocs renderer noted = .ok docs noted' := by
  unfold mermaidDocs
  cases hwanted : m.document.config.mermaid with
  | false => exact ⟨[], noted, rfl⟩
  | true =>
    obtain ⟨markup, noted', hrender⟩ := h hwanted
    cases markup with
    | none => exact ⟨[], noted', Run.bind_eq_ok_iff.mpr ⟨none, noted', hrender, rfl⟩⟩
    | some markup =>
      exact ⟨["", markup], noted', Run.bind_eq_ok_iff.mpr ⟨some markup, noted', hrender, rfl⟩⟩

/-- The items of a machine are those of the parts of its graph. -/
theorem generate_eq {api : Code.Api} {docs : List String} {noted₁ : List Event}
    (hclosed : m.graph.Closed) (hapi : Code.Api.ofDocument m.document = .ok api)
    (hdocs : m.mermaidDocs renderer noted = .ok docs noted₁) : m.generate renderer noted =
      .ok ⟨m.graph.parts.map fun part =>
        (part.declaration m.document (Code.entryDocs m.document.name ++ docs) m.graph).item api⟩
        (noted₁ ++ [.generated m.graph.parts.length m.document.name]) := by
  unfold generate
  rw [hapi, Graph.placedNodes_eq hclosed]
  refine Run.bind_eq_ok_iff.mpr ⟨api, noted, rfl, Run.bind_eq_ok_iff.mpr ⟨m.graph.placed, noted, rfl,
    Run.bind_eq_ok_iff.mpr ⟨docs, noted₁, hdocs, ?_⟩⟩⟩
  rw [Code.declarations_eq_map_parts _ _ hclosed, List.length_map, List.map_map]
  rfl

theorem exists_ofDocument {src : Source} {language : Language} {overrides : Overrides}
    {events events' : List Event} (hload : load src language overrides events = .ok m events') :
    ∃ api, Code.Api.ofDocument m.document = .ok api := by
  obtain ⟨d, _, hread, hdocument, -⟩ := read_of_load hload
  obtain ⟨params, hparams⟩ : ∃ params, Code.parametersOf m.document.generics = .ok params := by
    rw [hdocument]
    exact (Source.exists_parametersOf_of_read hread : ∃ params, Code.parametersOf d.generics = _)
  exact Code.Api.exists_ofDocument hparams

/-- For every machine that was loaded there are items, those of the parts of its graph. -/
theorem exists_generate {src : Source} {language : Language} {overrides : Overrides}
    {events events' : List Event} (hload : load src language overrides events = .ok m events')
    (hrenderer : m.DrawnBy renderer noted) : ∃ api entryDocs noted',
      Code.Api.ofDocument m.document = .ok api ∧ m.generate renderer noted =
        .ok ⟨m.graph.parts.map fun part =>
          (part.declaration m.document entryDocs m.graph).item api⟩ noted' := by
  obtain ⟨-, -, -, -, hdrawn⟩ := read_of_load hload
  obtain ⟨api, hapi⟩ := exists_ofDocument hload
  obtain ⟨docs, noted₁, hdocs⟩ := exists_mermaidDocs hrenderer
  exact ⟨api, _, _, hapi, generate_eq hdrawn.built.closed hapi hdocs⟩

/-- **Items.** For every machine that was loaded, the items are those of the parts of its graph: the two
enums, the conversion and the method between them, then the connectors of the nodes that edges leave,
three implementations for the payload of each of these that has one, and a transition for each edge. -/
theorem generate_parts {src : Source} {language : Language} {overrides : Overrides}
    {events events' : List Event} (hload : load src language overrides events = .ok m events')
    (hrenderer : m.DrawnBy renderer noted) : ∃ api listing noted',
      Code.Api.ofDocument m.document = .ok api ∧ m.generate renderer noted = .ok listing noted' ∧
      List.Forall₂ (Code.Part.Makes api m.graph) m.graph.parts listing.items ∧
      listing.items.length = 4 + m.graph.leftNodes.length + 3 * m.graph.leftPayloads.length +
        m.graph.edges.size := by
  obtain ⟨-, -, -, -, hdrawn⟩ := read_of_load hload
  obtain ⟨api, entryDocs, noted', hapi, hgenerate⟩ := exists_generate hload hrenderer
  refine ⟨api, _, noted', hapi, hgenerate, ?_, ?_⟩
  · rw [List.forall₂_map_right_iff, List.forall₂_same]
    exact fun part hpart => Code.makes_item api m.document entryDocs hdrawn.built.closed hpart
  · rw [List.length_map, Graph.length_parts]

/-- A hatch with a diagram, a loop, and payloads on a node that edges leave and on one that they do not. -/
def hatch : Source := { text := "#[fsmentry(mermaid = true)]
Hatch \x7b Shut: u8; Stuck: bool; Shut -> Open -> Shut -> Shut; Open -jam-> Stuck; Lone; \x7d" }

theorem exists_load_hatch : ∃ m events, load hatch .machine {} [] = .ok m events ∧
    m.document.config.mermaid = true ∧ m.graph.edges.size = 4 ∧
    m.graph.nodes.entries.map (fun e => (e.1, e.2.ty, m.graph.isLeft e.1)) =
      [("Lone", none, false), ("Open", none, true), ("Shut", some "u8", true),
        ("Stuck", some "bool", false)] := by
  obtain ⟨m, events, -, hload, -, hcheck⟩ := exists_load_of_check hatch (fun m _ =>
    m.document.config.mermaid && m.graph.edges.size == 4 &&
      m.graph.nodes.entries.map (fun e => (e.1, e.2.ty, m.graph.isLeft e.1)) ==
        [("Lone", none, false), ("Open", none, true), ("Shut", some "u8", true),
          ("Stuck", some "bool", false)]) (by decide +kernel)
  simp only [Bool.and_eq_true, beq_iff_eq] at hcheck
  obtain ⟨⟨hmermaid, hedges⟩, hnodes⟩ := hcheck
  exact ⟨m, events, hload, hmermaid, hedges, hnodes⟩

theorem hatch_generate : ∃ m events, load hatch .machine {} [] = .ok m events ∧
    m.document.config.mermaid = true ∧ m.DrawnBy .mermaid [] ∧ ∃ api listing noted,
      Code.Api.ofDocument m.document = .ok api ∧ m.generate .mermaid [] = .ok listing noted ∧
      List.Forall₂ (Code.Part.Makes api m.graph) m.graph.parts listing.items ∧
      listing.items.length = 4 + 2 + 3 * 1 + 4 := by
  obtain ⟨m, events, hload, hmermaid, hedges, hnodes⟩ := exists_load_hatch
  have hleft : m.graph.leftNodes.map (fun e => (e.1, e.2.ty, m.graph.isLeft e.1)) =
      [("Open", none, true), ("Shut", some "u8", true)] := by
    have hfilter := congrArg (List.filter (·.2.2)) hnodes
    rwa [List.filter_map] at hfilter
  have hpayloads : m.graph.leftPayloads = [("Shut", "u8")] := by
    have hfilter := congrArg (List.filterMap fun e => e.2.1.map (e.1, ·)) hleft
    rwa [List.filterMap_map] at hfilter
  have hcount := congrArg List.length hleft
  rw [List.length_map] at hcount
  have hdrawn : m.DrawnBy .mermaid [] := fun _ => ⟨_, _, rfl⟩
  have hgenerate := generate_parts hload hdrawn
  rw [hcount, hpayloads, hedges] at hgenerate
  exact ⟨m, events, hload, hmermaid, hdrawn, hgenerate⟩

end Machine

end Typestate
