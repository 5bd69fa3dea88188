import Typestate.Proofs.Code.Parts
import Typestate.Proofs.Grammar.Origin
import Typestate.Proofs.Machine.TypeNames

/-!
Canonical names in a machine that was loaded. Every node has a canonical name, so different nodes are
different identifiers, and so are the variants of either enum and the connectors
(`Machine.nodeNames_apart`). The name of the machine is canonical in a digraph; in the machine language it
is kept as it stands, as is a name that is set for the entry enum (`Machine.enumNames_canonical_iff`).
-/

namespace Typestate

namespace Code

/-! ## Nodes in declarations -/

/-- The nodes of the variants of the state enum that a declaration declares. -/
def Declaration.stateNodes : Declaration → List String
  | stateEnum _ _ variants => variants.map (·.node)
  | _ => []

/-- The nodes of the variants of the entry enum that a declaration declares. -/
def Declaration.entryNodes : Declaration → List String
  | entryEnum _ variants => variants.map (·.node)
  | _ => []

/-- The nodes of the connectors that a declaration declares. -/
def Declaration.connectorNodes : Declaration → List String
  | connector node => [node]
  | _ => []

section
variable {g : Graph} (d : Document) (docs : List String) (hclosed : g.Closed)
include hclosed

/-- What implementations say nothing about, the enums, the conversion between them and the connectors
say. -/
theorem flatMap_declarations {f : Declaration → List String}
    (howned : ∀ part : Part, part.owner?.isSome = true → f (part.declaration d docs g) = []) :
    (declarations d docs g.placed).flatMap f =
      ([.stateEnum, .entryEnum, .conversion, .entryMethod].flatMap fun part : Part =>
        f (part.declaration d docs g)) ++ g.leftNodes.flatMap fun e => f (.connector e.1) := by
  have hpayloads : (g.leftPayloads.flatMap fun e =>
      [Part.accessors e.1 e.2, Part.asRef e.1 e.2, Part.asMut e.1 e.2]).flatMap
        (fun part => f (part.declaration d docs g)) = [] := by
    refine List.flatMap_eq_nil_iff.mpr fun part hpart => howned part ?_
    obtain ⟨e, -, hpart⟩ := List.mem_flatMap.mp hpart
    simp only [List.mem_cons, List.not_mem_nil, or_false] at hpart
    rcases hpart with rfl | rfl | rfl <;> rfl
  have hedges : (g.edges.entries.map fun e => Part.transition e.1 e.2).flatMap
      (fun part => f (part.declaration d docs g)) = [] := by
    refine List.flatMap_eq_nil_iff.mpr fun part hpart => howned part ?_
    obtain ⟨e, -, rfl⟩ := List.mem_map.mp hpart
    rfl
  rw [declarations_eq_map_parts d docs hclosed, List.flatMap_map, Graph.parts, List.flatMap_append,
    List.flatMap_append, List.flatMap_append, hpayloads, hedges, List.append_nil, List.append_nil,
    List.flatMap_map]
  rfl

/-- The state enum has a variant for each node. -/
theorem stateNodes_declarations :
    (declarations d docs g.placed).flatMap Declaration.stateNodes = g.nodes.keys := by
  rw [flatMap_declarations d docs hclosed fun part hpart => by cases part <;> first | rfl | cases hpart]
  have hconnectors : (g.leftNodes.flatMap fun e => Declaration.stateNodes (.connector e.1)) = [] :=
    List.flatMap_eq_nil_iff.mpr fun _ _ => rfl
  have hvariants : (g.nodes.entries.map fun e => stateVariant e.1 e.2).map (·.node) = g.nodes.keys :=
    List.map_map
  rw [hconnectors, List.append_nil, ← hvariants]
  exact List.append_nil _

/-- The entry enum has a variant for each node. -/
theorem entryNodes_declarations :
    (declarations d docs g.placed).flatMap Declaration.entryNodes = g.nodes.keys := by
  rw [flatMap_declarations d docs hclosed fun part hpart => by cases part <;> first | rfl | cases hpart]
  have hconnectors : (g.leftNodes.flatMap fun e => Declaration.entryNodes (.connector e.1)) = [] :=
    List.flatMap_eq_nil_iff.mpr fun _ _ => rfl
  have hvariants : (g.nodes.entries.map fun e => entryVariant d.name (g.place e)).map (·.node) =
      g.nodes.keys := List.map_map
  rw [hconnectors, List.append_nil, ← hvariants]
  exact List.append_nil _

/-- The connectors are for some of the nodes. -/
theorem connectorNodes_declarations :
    ((declarations d docs g.placed).flatMap Declaration.connectorNodes).Sublist g.nodes.keys := by
  rw [flatMap_declarations d docs hclosed fun part hpart => by cases part <;> first | rfl | cases hpart]
  have hconnectors : (g.leftNodes.flatMap fun e => Declaration.connectorNodes (.connector e.1)) =
      g.leftNodes.map (·.1) := List.map_eq_flatMap.symm
  rw [hconnectors]
  exact List.filter_sublist.map _

end

end Code

/-! ## Names of nodes -/

namespace Machine

variable {m : Machine}

/-- **Nodes.** Every node of a loaded machine has its name in canonical spelling, and different nodes have
names that differ in more than a raw marker. So all variants of the state enum are different identifiers,
and so are those of the entry enum, and the connectors. -/
theorem nodeNames_apart {src : Source} {language : Language} {overrides : Overrides}
    {events events' : List Event} (h : load src language overrides events = .ok m events') :
    (∀ name ∈ m.graph.nodes.keys, Identifier.canonical name = .ok name) ∧
    (∀ a ∈ m.graph.nodes.keys, ∀ b ∈ m.graph.nodes.keys,
      Identifier.withoutRaw a = Identifier.withoutRaw b → a = b) ∧
    ∃ nodes, m.graph.placedNodes = .ok nodes ∧ ∀ docs,
      let declarations := Code.declarations m.document docs nodes
      declarations.flatMap Code.Declaration.stateNodes = m.graph.nodes.keys ∧
      declarations.flatMap Code.Declaration.entryNodes = m.graph.nodes.keys ∧
      ((declarations.flatMap Code.Declaration.stateNodes).map Identifier.withoutRaw).Nodup ∧
      ((declarations.flatMap Code.Declaration.entryNodes).map Identifier.withoutRaw).Nodup ∧
      ((declarations.flatMap Code.Declaration.connectorNodes).map Identifier.withoutRaw).Nodup := by
  have hcanonical := isCanonical_of_load h
  obtain ⟨-, -, -, -, hdrawn⟩ := read_of_load h
  have hclosed := hdrawn.built.closed
  have hnodup : (m.graph.nodes.keys.map Identifier.withoutRaw).Nodup :=
    Identifier.nodup_withoutRaw_of_canonical hcanonical (SortedMap.nodup_keys _)
  refine ⟨fun name hname => (hcanonical name hname).canonical_eq,
    fun a ha b hb hab => (hcanonical a ha).eq (hcanonical b hb) hab,
    m.graph.placed, Graph.placedNodes_eq hclosed, fun docs => ?_⟩
  have hstate := Code.stateNodes_declarations m.document docs hclosed
  have hentry := Code.entryNodes_declarations m.document docs hclosed
  refine ⟨hstate, hentry, ?_, ?_, ?_⟩
  · rwa [hstate]
  · rwa [hentry]
  · exact hnodup.sublist ((Code.connectorNodes_declarations m.document docs hclosed).map _)

/-- Two spellings of one node, and a node with the name of a keyword. -/
def respelled : Source := { text := "r#Shut -> Open -> Shut; Open -> r#type;" }

theorem respelled_nodeNames : ∃ m events nodes, load respelled .machine {} [] = .ok m events ∧
    m.graph.nodes.keys = ["Open", "Shut", "r#type"] ∧ m.graph.placedNodes = .ok nodes ∧ ∀ docs,
      let declarations := Code.declarations m.document docs nodes
      declarations.flatMap Code.Declaration.stateNodes = ["Open", "Shut", "r#type"] ∧
      ((declarations.flatMap Code.Declaration.connectorNodes).map Identifier.withoutRaw).Nodup := by
  obtain ⟨m, events, nodes, hload, hnodes, hcheck⟩ := exists_load_of_check respelled
    (fun m _ => m.graph.nodes.keys == ["Open", "Shut", "r#type"]) (by decide +kernel)
  obtain ⟨-, -, nodes', hnodes', hapart⟩ := nodeNames_apart hload
  rw [hnodes] at hnodes'
  cases hnodes'
  have hkeys := beq_iff_eq.mp hcheck
  refine ⟨m, events, nodes, hload, hkeys, hnodes, fun docs => ?_⟩
  obtain ⟨hstate, -, -, -, hconnectors⟩ := hapart docs
  exact ⟨hstate.trans hkeys, hconnectors⟩

/-! ## Names of enums -/

/-- Without overrides, the document of a loaded machine is the one that its text holds. -/
theorem read_document_of_load {src : Source} {language : Language} {events events' : List Event}
    (h : load src language {} events = .ok m events') :
    ∃ events₁, src.read language events = .ok m.document events₁ := by
  obtain ⟨d, events₁, hread, hdocument, -⟩ := read_of_load h
  have hsame : m.document = d := hdocument
  exact ⟨events₁, hsame ▸ hread⟩

/-- **Enums.** The name of a machine in a digraph is canonical. In the machine language the name of the
machine, if it has one, and that of the entry enum, if one is set, are identifiers of the text as they
stand, so they are canonical unless they are keywords, words that cannot be raw, or raw names of no keyword.
An entry enum that is named after its machine has a canonical name unless the machine has a raw one. -/
theorem enumNames_canonical_iff {src : Source} {language : Language} {events events' : List Event}
    (h : load src language {} events = .ok m events') :
    (∀ library, language = .digraph library →
      Identifier.canonical m.document.name = .ok m.document.name ∧ m.document.config.entryName = none) ∧
    (language = .machine → ∃ tokens, src.tokenize = .ok tokens ∧ m.document.EnumsNamedBy fun name =>
      ∃ t ∈ tokens, t.kind = .identifier ∧ t.value = name) ∧
    (Identifier.canonical m.document.name = .ok m.document.name ↔
      m.document.name ∉ Identifier.keywords ∧
      Identifier.withoutRaw m.document.name ∉ Identifier.neverRaw ∧
      (Identifier.isRaw m.document.name = true →
        Identifier.withoutRaw m.document.name ∈ Identifier.keywords)) ∧
    (m.document.config.entryName = none → m.document.entryName = m.document.name ++ "Entry" ∧
      (Identifier.canonical m.document.entryName = .ok m.document.entryName ↔
        Identifier.isRaw m.document.name = false)) ∧
    ∀ name, m.document.config.entryName = some name → m.document.entryName = name ∧
      (Identifier.canonical m.document.entryName = .ok m.document.entryName ↔
        name ∉ Identifier.keywords ∧ Identifier.withoutRaw name ∉ Identifier.neverRaw ∧
        (Identifier.isRaw name = true → Identifier.withoutRaw name ∈ Identifier.keywords)) := by
  obtain ⟨events₁, hread⟩ := read_document_of_load h
  have hdigraph : ∀ library, language = .digraph library →
      Identifier.canonical m.document.name = .ok m.document.name ∧
        m.document.config.entryName = none := by
    rintro library rfl
    obtain ⟨hname, hconfig⟩ := Source.parseDigraph_name (Source.parseDigraph_of_read hread)
    rw [hconfig]
    refine ⟨?_, rfl⟩
    rcases hname with hdefault | hname
    · rw [hdefault]
      rfl
    · exact hname.canonical_eq
  have hmachine : language = .machine → ∃ tokens, src.tokenize = .ok tokens ∧
      m.document.EnumsNamedBy fun name => ∃ t ∈ tokens, t.kind = .identifier ∧ t.value = name := by
    rintro rfl
    have hparse := Source.parse_of_read hread
    obtain ⟨tokens, htokens, -⟩ := Run.except_bind_eq_ok_iff.mp hparse
    exact ⟨tokens, htokens, Source.parse_enumNames htokens hparse⟩
  refine ⟨hdigraph, hmachine, Identifier.canonical_eq_self_iff _, fun hnone => ?_, fun name hname => ?_⟩
  · have hentry : m.document.entryName = m.document.name ++ "Entry" := by
      rw [Document.entryName, Config.entryNameOf, hnone]
    rw [hentry]
    exact ⟨rfl, Identifier.canonical_append_entry_iff _⟩
  · have hne : name ≠ "" := by
      cases language with
      | digraph library =>
        rw [(hdigraph library rfl).2] at hname
        cases hname
      | machine =>
        obtain ⟨tokens, htokens, hnames⟩ := hmachine rfl
        obtain ⟨t, ht, hkind, rfl⟩ := hnames.entryName name hname
        exact Source.ne_empty_of_tokenize htokens ht hkind
    have hentry : m.document.entryName = name := by
      rw [Document.entryName, Config.entryNameOf, hname]
      split
      · next heq => cases heq
      · next heq => exact absurd (Option.some.inj heq) hne
      · next heq => exact (Option.some.inj heq).symm
    rw [hentry]
    exact ⟨rfl, Identifier.canonical_eq_self_iff _⟩

/-- The state enum of a switch has a raw name that is no keyword's, its entry enum a canonical one. -/
theorem switch_enumNames : ∃ m events, load switch .machine {} [] = .ok m events ∧
    m.document.name = "r#Switch" ∧
    Identifier.canonical m.document.name ≠ .ok m.document.name ∧
    m.document.config.entryName = some "Position" ∧
    Identifier.canonical m.document.entryName = .ok m.document.entryName := by
  obtain ⟨m, events, -, hload, -, hcheck⟩ := exists_load_of_check switch
    (fun m _ => m.document.name == "r#Switch" && m.document.config.entryName == some "Position")
    (by decide +kernel)
  rw [Bool.and_eq_true, beq_iff_eq, beq_iff_eq] at hcheck
  obtain ⟨hname, hentry⟩ := hcheck
  obtain ⟨-, -, hcanonical, -, hset⟩ := enumNames_canonical_iff hload
  refine ⟨m, events, hload, hname, ?_, hentry, (hset _ hentry).2.mpr (by decide)⟩
  rw [Ne, hcanonical, hname]
  decide

/-- A machine whose name is a word that cannot be raw. -/
def selfNamed : Source := { text := "self { A -> B; }" }

/-- The same machine as a digraph. -/
def selfNamedDigraph : Source := { text := "digraph " ++ selfNamed.text }

/-- The name is kept in the machine language; in a digraph it is refused. -/
theorem selfNamed_enumNames : (∃ m events, load selfNamed .machine {} [] = .ok m events ∧
      m.document.name = "self" ∧
      Identifier.canonical m.document.name = .error (.unusable "self")) ∧
    Digraph.reference.read selfNamedDigraph.text =
      .ok [{ name := "self", nodes := [], edges := [((.node "A", .node "B"), false)] }] ∧
    ∀ library, library.read selfNamedDigraph.text = Digraph.reference.read selfNamedDigraph.text →
      load selfNamedDigraph (.digraph library) {} [] =
        .error (.parse ⟨.digraph none (.badName (.unusable "self")), none⟩) [] := by
  have hreference : Digraph.reference.read selfNamedDigraph.text =
      .ok [{ name := "self", nodes := [], edges := [((.node "A", .node "B"), false)] }] := by decide +kernel
  refine ⟨?_, hreference, fun library hlibrary => ?_⟩
  · obtain ⟨m, events, -, hload, -, hcheck⟩ := exists_load_of_check selfNamed
      (fun m _ => m.document.name == "self") (by decide +kernel)
    have hname := beq_iff_eq.mp hcheck
    refine ⟨m, events, hload, hname, ?_⟩
    rw [hname]
    decide
  · have hparse : selfNamedDigraph.parseDigraph defaultMachineName library =
        .error ⟨.digraph none (.badName (.unusable "self")), none⟩ := by
      rw [Source.parseDigraph_eq (hlibrary.trans hreference)]
      decide +kernel
    unfold load Source.read
    dsimp only
    rw [hparse]
    rfl

end Machine

end Typestate
