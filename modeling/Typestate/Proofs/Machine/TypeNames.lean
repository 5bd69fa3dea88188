import Typestate.Code.Generate
import Typestate.Proofs.Code.TypeNames
import Typestate.Proofs.Digraph.Names
import Typestate.Proofs.Graph.Names
import Typestate.Proofs.Machine.Load

/-!
The types that are declared for a machine that was loaded. Connectors have names of their own, which are
different identifiers; the names of the two enums come from the text or from a caller as they stand. Two
of the types are one identifier only if the entry enum is named like the state enum, or if the name of an
enum is that of another type but for its raw marker (`Machine.typeNames_distinct_iff`).
-/

namespace Typestate

theorem Source.namedBy_canonical_of_read {src : Source} {language : Language} {d : Document}
    {events events' : List Event} (h : src.read language events = .ok d events') :
    ∀ s ∈ d.statements, s.NamedBy Identifier.IsCanonical fun _ => True := by
  cases language with
  | digraph =>
    intro s hs
    have hnames := parseDigraph_canonical (parseDigraph_of_read h) s hs
    cases s with
    | node r => exact hnames
    | chain c => exact ⟨hnames.1, fun step hstep name _ => trivial⟩
  | machine =>
    have hparse := parse_of_read h
    cases htokens : src.tokenize with
    | error e =>
      rw [parse, htokens] at hparse
      cases hparse
    | ok tokens =>
      refine parse_names htokens hparse (fun t ht hkind name hname => ?_) fun _ _ _ => trivial
      have hvalue := tokenize_names htokens t ht (by rw [hkind]; rfl)
      exact Identifier.isCanonical_canonical hvalue.isWord hname

namespace Identifier

/-- Canonical names with two further ones in front are different identifiers if the further ones are
different from each other in spite of their markers, and from the canonical ones. -/
theorem nodup_withoutRaw_cons_cons_iff {state entry : String} {names : List String}
    (hnames : ∀ name ∈ names, IsCanonical name) (hnodup : names.Nodup) (hstate : state ∉ names)
    (hentry : entry ∉ names) :
    ((state :: entry :: names).map withoutRaw).Nodup ↔
      state ≠ entry ∧ ¬ Respelled state entry ∧
        ∀ name ∈ names, ¬ Respelled state name ∧ ¬ Respelled entry name := by
  have hcanonical : (names.map withoutRaw).Nodup := nodup_withoutRaw_of_canonical hnames hnodup
  have hfresh : ∀ {a : String}, a ∉ names →
      (withoutRaw a ∉ names.map withoutRaw ↔ ∀ name ∈ names, ¬ Respelled a name) := by
    intro a ha
    constructor
    · intro hnot name hname hrespelled
      exact hnot (List.mem_map.mpr ⟨name, hname, hrespelled.bare.symm⟩)
    · intro hno hmem
      obtain ⟨name, hname, hbare⟩ := List.mem_map.mp hmem
      rcases (withoutRaw_eq_iff a name).mp hbare.symm with rfl | hrespelled
      · exact ha hname
      · exact hno name hname hrespelled
  rw [List.map_cons, List.map_cons, List.nodup_cons, List.nodup_cons, List.mem_cons, not_or,
    hfresh hstate, hfresh hentry, withoutRaw_eq_iff, not_or]
  constructor
  · rintro ⟨⟨⟨hne, hapart⟩, hstates⟩, hentries, -⟩
    exact ⟨hne, hapart, fun name hname => ⟨hstates name hname, hentries name hname⟩⟩
  · rintro ⟨hne, hapart, hall⟩
    exact ⟨⟨⟨hne, hapart⟩, fun name hname => (hall name hname).1⟩,
      fun name hname => (hall name hname).2, hcanonical⟩

end Identifier

namespace Machine

variable {m : Machine}

/-- No edge leaves a node that has the name of an enum. -/
theorem Drawn.unreserved (h : m.Drawn) {key : EdgeKey} (hkey : key ∈ m.graph.edges.keys) :
    key.source ∉ [m.document.name, m.document.entryName] := by
  obtain ⟨mention, hmention, rfl⟩ := (h.built.mem_edge_keys key).mp hkey
  exact fun hname => h.buildable.unreserved _ hname mention hmention rfl

/-- A connector never has the name of an enum. -/
theorem not_mem_connectors (h : m.Drawn) {name : String}
    (hname : name ∈ [m.document.name, m.document.entryName]) : name ∉ m.graph.connectors := by
  rw [Graph.mem_connectors_iff h.built.closed, Graph.mem_sources]
  rintro ⟨target, hkey⟩
  exact h.unreserved hkey hname

/-- Every node of a loaded machine has a canonical name. -/
theorem isCanonical_of_load {src : Source} {language : Language} {overrides : Overrides}
    {events events' : List Event} (h : load src language overrides events = .ok m events') :
    ∀ name ∈ m.graph.nodes.keys, Identifier.IsCanonical name := by
  obtain ⟨d, _, hread, hdocument, hdrawn⟩ := read_of_load h
  have hcanonical : ∀ s ∈ m.document.statements,
      s.NamedBy Identifier.IsCanonical fun _ => True := by
    rw [hdocument]
    exact (Source.namedBy_canonical_of_read hread : ∀ s ∈ d.statements, _)
  exact fun name hname => hdrawn.built.namedBy hcanonical hname

/-- **Distinctness.** The types that are declared for a loaded machine are the two enums and a connector
for every node with outgoing edges. They are different identifiers if and only if the enums have
different names, of which neither is that of the other enum or of a connector but for its marker. -/
theorem typeNames_distinct_iff {src : Source} {language : Language} {overrides : Overrides}
    {events events' : List Event} (h : load src language overrides events = .ok m events') :
    ∃ nodes, m.graph.placedNodes = .ok nodes ∧ ∀ docs, ∃ connectors,
      Code.typeNames m.document (Code.declarations m.document docs nodes) =
        m.document.name :: m.document.entryName :: connectors ∧
      connectors.Nodup ∧
      (∀ name, name ∈ connectors ↔ ∃ target, ⟨name, target⟩ ∈ m.graph.edges.keys) ∧
      (((m.document.name :: m.document.entryName :: connectors).map Identifier.withoutRaw).Nodup ↔
        m.document.name ≠ m.document.entryName ∧
        ¬ Identifier.Respelled m.document.name m.document.entryName ∧
        ∀ node ∈ connectors, ¬ Identifier.Respelled m.document.name node ∧
          ¬ Identifier.Respelled m.document.entryName node) := by
  obtain ⟨-, -, -, -, hdrawn⟩ := read_of_load h
  have hnames : ∀ node ∈ m.graph.connectors, Identifier.IsCanonical node := by
    intro node hnode
    obtain ⟨target, hkey⟩ := (Graph.mem_sources _ node).mp
      ((Graph.mem_connectors_iff hdrawn.built.closed node).mp hnode)
    exact isCanonical_of_load h node (hdrawn.built.closed _ hkey).1
  refine ⟨m.graph.placed, Graph.placedNodes_eq hdrawn.built.closed, fun docs => ?_⟩
  refine ⟨m.graph.connectors, Code.typeNames_declarations m.document docs m.graph,
    Graph.nodup_connectors, ?_, ?_⟩
  · intro name
    rw [Graph.mem_connectors_iff hdrawn.built.closed, Graph.mem_sources]
  · exact Identifier.nodup_withoutRaw_cons_cons_iff hnames Graph.nodup_connectors
      (not_mem_connectors hdrawn (by simp)) (not_mem_connectors hdrawn (by simp))

/-- A switch whose entry enum has a name of its own. -/
def switch : Source :=
  { text := "#[fsmentry(entry = Position)] r#Switch \x7b On -> Off -> On; \x7d" }

theorem switch_typeNames : ∃ m events nodes, load switch .machine {} [] = .ok m events ∧
    m.graph.placedNodes = .ok nodes ∧ ∀ docs,
      Code.typeNames m.document (Code.declarations m.document docs nodes) =
        ["r#Switch", "Position", "Off", "On"] ∧
      ((Code.typeNames m.document (Code.declarations m.document docs nodes)).map
        Identifier.withoutRaw).Nodup := by
  obtain ⟨m, events, nodes, hload, hnodes, hcheck⟩ := exists_load_of_check switch
    (fun m nodes => Code.typeNames m.document (Code.declarations m.document [] nodes) ==
      ["r#Switch", "Position", "Off", "On"]) (by decide +kernel)
  obtain ⟨nodes', hnodes', hdistinct⟩ := typeNames_distinct_iff hload
  rw [hnodes] at hnodes'
  cases hnodes'
  have hnames := beq_iff_eq.mp hcheck
  refine ⟨m, events, nodes, hload, hnodes, fun docs => ⟨hnames, ?_⟩⟩
  obtain ⟨connectors, htypes, -, -, hiff⟩ := hdistinct docs
  have hlist : m.document.name :: m.document.entryName :: connectors =
      ["r#Switch", "Position", "Off", "On"] := htypes.symm.trans hnames
  rw [htypes, hiff]
  obtain ⟨hstate, hentry, hconnectors⟩ := List.cons_eq_cons.mp hlist |>.imp id List.cons_eq_cons.mp
  rw [hstate, hentry, hconnectors]
  refine ⟨by decide, fun h => absurd h.bare (by decide), fun node hnode => ?_⟩
  have hapart : ∀ node ∈ ["Off", "On"],
      Identifier.withoutRaw "r#Switch" ≠ Identifier.withoutRaw node ∧
      Identifier.withoutRaw "Position" ≠ Identifier.withoutRaw node := by decide
  exact ⟨fun h => (hapart node hnode).1 h.bare, fun h => (hapart node hnode).2 h.bare⟩

/-- A machine with the raw name of one of its nodes. -/
def rawState : Source := { text := "r#A \x7b A -> B; \x7d" }

theorem rawState_typeNames : ∃ m events nodes, load rawState .machine {} [] = .ok m events ∧
    m.graph.placedNodes = .ok nodes ∧ ∀ docs,
      let names := Code.typeNames m.document (Code.declarations m.document docs nodes)
      names = ["r#A", "r#AEntry", "A"] ∧ ¬ (names.map Identifier.withoutRaw).Nodup := by
  obtain ⟨m, events, nodes, hload, hnodes, hcheck⟩ := exists_load_of_check rawState
    (fun m nodes => Code.typeNames m.document (Code.declarations m.document [] nodes) ==
      ["r#A", "r#AEntry", "A"]) (by decide +kernel)
  have hnames := beq_iff_eq.mp hcheck
  refine ⟨m, events, nodes, hload, hnodes, fun docs => ⟨hnames, ?_⟩⟩
  change ¬ ((Code.typeNames m.document (Code.declarations m.document [] nodes)).map _).Nodup
  rw [hnames]
  decide

end Machine

end Typestate
