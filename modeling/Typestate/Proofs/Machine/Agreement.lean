import Typestate.Proofs.Machine.Generate

/-!
The declarations that are generated for a machine agree with each other node by node. The two enums have
a variant for each node and the conversion an arm, an arm gives the entry variant of its node what that
variant wraps, and whatever a connector does it expects the state variant of its node
(`Machine.generate_agrees`).
-/

namespace Typestate

namespace Code

/-! ## Nodes in declarations -/

/-- How a node appears in the declarations: what its state variant carries, what its entry variant gives
access to, and the pattern and the argument in its arm of the conversion. -/
structure Appearance where
  carried : Option String
  access : Access
  pattern : PayloadPattern
  argument : EntryArgument
  deriving DecidableEq, Repr

/-- An arm gives its entry variant what that wraps: nothing, the payload that the pattern bound, or a
connector. -/
inductive Supplies : PayloadPattern → EntryArgument → Access → Prop
  | nothing {pattern : PayloadPattern} : Supplies pattern .absent .nothing
  | payload {ty : String} : Supplies .bound .bound (.payload ty)
  | connector {pattern : PayloadPattern} : Supplies pattern .connector .connector

/-- A node with some payload appears as it should, if an edge leaves it and if not. -/
structure Appearance.Fits (a : Appearance) (payload : Option String) (isLeft : Bool) : Prop where
  carried : a.carried = payload
  access : a.access = if isLeft then .connector else payload.elim .nothing .payload
  pattern : a.pattern.binder.isSome = a.carried.isSome
  argument : Supplies a.pattern a.argument a.access

/-- How a node of a graph appears. -/
def appearance (g : Graph) (e : String × Node) : Appearance where
  carried := (stateVariant e.1 e.2).payload
  access := access (g.place e)
  pattern := (conversionArm (g.place e)).pattern
  argument := (conversionArm (g.place e)).argument

variable {g : Graph}

theorem appearance_fits (e : String × Node) :
    (appearance g e).Fits e.2.ty (g.isLeft e.1) := by
  have hleft : (g.place e).neighborhood.hasConnector = g.isLeft e.1 := Graph.hasConnector_eq_isLeft e.1
  have hty : (g.place e).node.ty = e.2.ty := rfl
  unfold appearance access conversionArm
  rw [hleft, hty]
  cases g.isLeft e.1 <;> cases hpayload : e.2.ty
  all_goals
    refine ⟨hpayload, rfl, ?_, by constructor⟩
    simp [stateVariant, hpayload, PayloadPattern.binder]

/-! ## Items -/

/-- The item for a part agrees with how the nodes appear. -/
inductive Part.Agrees (api : Api) (g : Graph) (look : String × Node → Appearance) :
    Part → Item → Prop
  | stateEnum {i : Item} (docs : String × Node → Documentation)
    (h : i.HasLines (
      api.opening (visibility api.stateVis ++ "enum " ++ api.state ++ api.stateGenerics) ::
      g.nodes.entries.flatMap (fun e => (docs e).lines ++
        ["    " ++ e.1 ++ inParens (look e).carried ++ ","]) ++ ["\x7d"])) :
    Agrees api g look .stateEnum i
  | entryEnum {i : Item} (docs : String × Node → Documentation)
    (h : i.HasLines (
      api.opening (visibility api.entryVis ++ "enum " ++ api.entry ++
        declaredParameters api.entryParams) ::
      g.nodes.entries.flatMap (fun e => (docs e).lines ++
        ["    " ++ e.1 ++ inParens ((look e).access.wrapped api e.1) ++ ","]) ++ ["\x7d"])) :
    Agrees api g look .entryEnum i
  | conversion {i : Item}
    (h : i.HasLines ([
      api.openingTraitImpl ("From<" ++ api.stateReference ++ ">") api.entryType,
      "    fn from(value: " ++ api.stateReference ++ ") -> Self \x7b",
      "        match value \x7b"] ++
      g.nodes.entries.map (fun e => "            " ++ api.variant e.1 ++
        inParens (look e).pattern.binder ++ " => " ++ api.entry ++ "::" ++ e.1 ++
        inParens ((look e).argument.value e.1) ++ ",") ++ ["        \x7d", "    \x7d", "\x7d"])) :
    Agrees api g look .conversion i
  | entryMethod {i : Item} (h : Part.entryMethod.Makes api g i) : Agrees api g look .entryMethod i
  | connector {i : Item} {node clause : String}
    (h : i.HasLines [
      visibility api.entryVis ++ "struct " ++ node ++ declaredParameters api.entryParams ++ "(",
      "    /// MUST match [`" ++ api.entry ++ "::" ++ node ++ "`]",
      "    " ++ api.stateReference ++ ",",
      ")" ++ clause ++ ";"]) :
    Agrees api g look (.connector node) i
  | implementation {part : Part} {i : Item} {node opening : String} {n : Node} {methods : List Method}
    (howner : part.owner? = some node) (hnode : g.nodes.get? node = some n)
    (hmade : part.Makes api g i) (h : i.Implements api opening methods)
    (harms : ∀ m ∈ methods, m.arm = api.expecting node (look (node, n)).carried) :
    Agrees api g look part i

theorem mem_leftPayloads {node ty : String} (h : (node, ty) ∈ g.leftPayloads) :
    ∃ n, g.nodes.get? node = some n ∧ n.ty = some ty := by
  obtain ⟨e, he, hty⟩ := List.mem_filterMap.mp h
  obtain ⟨ty', hpayload, hsame⟩ := Option.map_eq_some_iff.mp hty
  cases hsame
  exact ⟨e.2, (SortedMap.mem_entries_iff _ _).mp (List.mem_filter.mp he).1, hpayload⟩

/-- There is a connector for each node whose entry wraps one. -/
theorem connector_mem_parts_iff (node : String) : .connector node ∈ g.parts ↔
    ∃ n, g.nodes.get? node = some n ∧ (appearance g (node, n)).access = .connector := by
  have haccess : ∀ n, (appearance g (node, n)).access = .connector ↔ g.isLeft node = true := by
    intro n
    rw [(appearance_fits (node, n)).access]
    cases g.isLeft node with
    | true => simp
    | false => cases n.ty <;> simp
  have hmem : .connector node ∈ g.parts ↔ ∃ n, (node, n) ∈ g.leftNodes := by simp [Graph.parts]
  rw [hmem]
  refine exists_congr fun n => ?_
  rw [haccess, Graph.leftNodes, List.mem_filter, SortedMap.mem_entries_iff]

/-- Every item agrees with the others. -/
theorem agrees_item (api : Api) (d : Document) (entryDocs : List String) (hclosed : g.Closed)
    {part : Part} (h : part ∈ g.parts) :
    part.Agrees api g (appearance g) ((part.declaration d entryDocs g).item api) := by
  have hmade := makes_item api d entryDocs hclosed h
  have hpayload : ∀ {node ty}, (node, ty) ∈ g.leftPayloads → ∃ n, g.nodes.get? node = some n ∧
      (appearance g (node, n)).carried = some ty := mem_leftPayloads
  cases part with
  | stateEnum =>
    refine .stateEnum (fun e => .ofDocs e.2.docs) ?_
    simp only [Item.HasLines, Declaration.item, Declaration.lines, Part.declaration, List.flatMap_map,
      StateVariant.lines_eq]
    rfl
  | entryEnum =>
    refine .entryEnum (fun e => .ofDocs (variantDocs d.name (g.place e))) ?_
    simp only [Item.HasLines, Declaration.item, Declaration.lines, Part.declaration, List.flatMap_map,
      EntryVariant.lines_eq]
    rfl
  | conversion =>
    refine .conversion ?_
    have hnode : ∀ e, (conversionArm (g.place e)).node = e.1 := by
      intro e
      unfold conversionArm
      dsimp only
      split_ifs <;> rfl
    simp only [Item.HasLines, Declaration.item, Declaration.lines, Part.declaration, List.map_map,
      Function.comp_def, ConversionArm.line_eq, hnode]
    rfl
  | entryMethod => exact .entryMethod hmade
  | connector node => exact .connector rfl
  | accessors node ty =>
    obtain ⟨n, hnode, hty⟩ := hpayload (by simpa [Graph.parts] using h)
    exact .implementation rfl hnode hmade (Declaration.implements_accessors api node ty _)
      (by simp [Method.accessor, hty])
  | asRef node ty =>
    obtain ⟨n, hnode, hty⟩ := hpayload (by simpa [Graph.parts] using h)
    exact .implementation rfl hnode hmade (Declaration.implements_asRef api node ty)
      (by simp [Method.accessor, hty])
  | asMut node ty =>
    obtain ⟨n, hnode, hty⟩ := hpayload (by simpa [Graph.parts] using h)
    exact .implementation rfl hnode hmade (Declaration.implements_asMut api node ty)
      (by simp [Method.accessor, hty])
  | transition key e =>
    cases hmade with
    | transition hedge hsource htarget hitem =>
      refine .implementation rfl hsource (.transition hedge hsource htarget hitem) hitem ?_
      simp [appearance, stateVariant]

end Code

/-! ## Machines -/

namespace Machine

variable {m : Machine} {renderer : Renderer} {noted : List Event}

/-- **Agreement.** For every machine that was loaded, the items agree with one way in which each node
appears, which fits its payload and the edges that leave it; and there is a connector for each node whose
entry wraps one. -/
theorem generate_agrees {src : Source} {language : Language} {overrides : Overrides}
    {events events' : List Event} (hload : load src language overrides events = .ok m events')
    (hrenderer : m.DrawnBy renderer noted) : ∃ api listing noted',
      Code.Api.ofDocument m.document = .ok api ∧ m.generate renderer noted = .ok listing noted' ∧
      ∃ look : String × Node → Code.Appearance,
        (∀ e ∈ m.graph.nodes.entries, (look e).Fits e.2.ty (m.graph.isLeft e.1)) ∧
        List.Forall₂ (Code.Part.Agrees api m.graph look) m.graph.parts listing.items ∧
        ∀ node, .connector node ∈ m.graph.parts ↔
          ∃ n, m.graph.nodes.get? node = some n ∧ (look (node, n)).access = .connector := by
  obtain ⟨-, -, -, -, hdrawn⟩ := read_of_load hload
  obtain ⟨api, entryDocs, noted', hapi, hgenerate⟩ := exists_generate hload hrenderer
  refine ⟨api, _, noted', hapi, hgenerate, Code.appearance m.graph,
    fun e _ => Code.appearance_fits e, ?_, Code.connector_mem_parts_iff⟩
  rw [List.forall₂_map_right_iff, List.forall₂_same]
  exact fun part hpart => Code.agrees_item api m.document entryDocs hdrawn.built.closed hpart

theorem hatch_agrees : ∃ m events, load hatch .machine {} [] = .ok m events ∧
    m.DrawnBy .mermaid [] ∧ ∃ api listing noted,
      Code.Api.ofDocument m.document = .ok api ∧ m.generate .mermaid [] = .ok listing noted ∧
      ∃ look : String × Node → Code.Appearance,
        m.graph.nodes.entries.map (fun e => (e.1, (look e).carried, (look e).access)) =
          [("Lone", none, .nothing), ("Open", none, .connector), ("Shut", some "u8", .connector),
            ("Stuck", some "bool", .payload "bool")] ∧
        List.Forall₂ (Code.Part.Agrees api m.graph look) m.graph.parts listing.items := by
  obtain ⟨m, events, hload, -, -, hnodes⟩ := exists_load_hatch
  have hdrawn : m.DrawnBy .mermaid [] := fun _ => ⟨_, _, rfl⟩
  obtain ⟨api, listing, noted, hapi, hgenerate, look, hfits, hitems, -⟩ := generate_agrees hload hdrawn
  refine ⟨m, events, hload, hdrawn, api, listing, noted, hapi, hgenerate, look, ?_, hitems⟩
  have hlooks := congrArg (List.map fun e => (e.1, e.2.1,
    if e.2.2 then Code.Access.connector else e.2.1.elim .nothing .payload)) hnodes
  rw [List.map_map] at hlooks
  refine (List.map_congr_left fun e he => ?_).trans hlooks
  rw [(hfits e he).carried, (hfits e he).access]
  rfl

end Machine

end Typestate
