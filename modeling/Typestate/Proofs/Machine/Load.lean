import Typestate.Graph.Neighborhood
import Typestate.Machine.Load
import Typestate.Proofs.Graph.Building

/-!
Machines that are loaded. The document is what the text holds, changed as the caller wishes, and the
graph is that of its statements (`Machine.read_of_load`).
-/

namespace Typestate

/-- The graph of a machine is that of its statements. -/
structure Machine.Drawn (m : Machine) : Prop where
  buildable : Buildable m.document.config.renameMethods [m.document.name, m.document.entryName]
    m.document.statements
  built : Built m.document.config.renameMethods m.document.statements m.graph

theorem Document.ofStatements_of_buildGraph {d : Document} {file : Option Path}
    {text : Option String} {g : Graph} {events events' : List Event}
    (h : d.buildGraph file text events = .ok g events') :
    Graph.ofStatements d.config.renameMethods [d.name, d.entryName] d.span d.statements = .ok g := by
  unfold Graph.ofStatements
  unfold buildGraph draft at h
  split
  · next g' draft hrun =>
    rw [hrun] at h
    obtain ⟨-, _, -, h⟩ := Run.bind_eq_ok_iff.mp h
    obtain ⟨g'', _, hg, h⟩ := Run.bind_eq_ok_iff.mp h
    obtain ⟨-, _, -, h⟩ := Run.bind_eq_ok_iff.mp h
    obtain ⟨hg, -⟩ := Run.ofExcept_eq_ok_iff.mp hg
    cases hg
    cases h
    rfl
  · next fault draft hrun =>
    rw [hrun] at h
    obtain ⟨-, _, -, h⟩ := Run.bind_eq_ok_iff.mp h
    obtain ⟨g'', _, hg, -⟩ := Run.bind_eq_ok_iff.mp h
    obtain ⟨hg, -⟩ := Run.ofExcept_eq_ok_iff.mp hg
    cases hg

theorem Overrides.eq_apply_of_run {o : Overrides} {d d' : Document} {events events' : List Event}
    (h : o.run d events = .ok d' events') : d' = o.apply d := by
  unfold run at h
  split at h
  · obtain ⟨-, _, -, h⟩ := Run.bind_eq_ok_iff.mp h
    cases h
    rfl
  · cases h
    rfl

/-- A document that is noted is the one that was read. -/
theorem Run.eq_ok_of_noted {x : Except ParseError Document} {event : Document → Event} {d : Document}
    {events events' : List Event}
    (h : (do
      let d ← Logged.ofExcept (x.mapError Failure.parse)
      Logged.note (event d)
      return d : Logged Document) events = .ok d events') : x = .ok d := by
  obtain ⟨d', _, hread, h⟩ := bind_eq_ok_iff.mp h
  obtain ⟨-, _, -, h⟩ := bind_eq_ok_iff.mp h
  obtain ⟨hread, -⟩ := ofExcept_eq_ok_iff.mp hread
  cases h
  exact eq_ok_of_mapError hread

theorem Source.parse_of_read {src : Source} {d : Document} {events events' : List Event}
    (h : src.read .machine events = .ok d events') : src.parse = .ok d :=
  Run.eq_ok_of_noted h

theorem Source.parseDigraph_of_read {src : Source} {library : Digraph.Library} {d : Document}
    {events events' : List Event} (h : src.read (.digraph library) events = .ok d events') :
    src.parseDigraph defaultMachineName library = .ok d :=
  Run.eq_ok_of_noted h

/-- **Loading.** A machine that is loaded is the document that was read, changed as the caller wishes, with the graph
of its statements. -/
theorem Machine.read_of_load {src : Source} {language : Language} {overrides : Overrides}
    {m : Machine} {events events' : List Event}
    (h : load src language overrides events = .ok m events') :
    ∃ d events₁, src.read language events = .ok d events₁ ∧ m.document = overrides.apply d ∧
      m.Drawn := by
  unfold load at h
  obtain ⟨d, events₁, hread, h⟩ := Run.bind_eq_ok_iff.mp h
  obtain ⟨d', _, hrun, h⟩ := Run.bind_eq_ok_iff.mp h
  obtain ⟨g, _, hbuild, h⟩ := Run.bind_eq_ok_iff.mp h
  cases h
  obtain ⟨hbuildable, hbuilt⟩ :=
    Graph.built_of_ofStatements (Document.ofStatements_of_buildGraph hbuild)
  exact ⟨d, events₁, hread, Overrides.eq_apply_of_run hrun, hbuildable, hbuilt⟩

theorem Machine.of_load {src : Source} {overrides : Overrides} {m : Machine}
    {events events' : List Event} (h : load src .machine overrides events = .ok m events') :
    ∃ d, src.parse = .ok d ∧ m.document = overrides.apply d ∧ m.Drawn := by
  obtain ⟨d, _, hread, hdocument, hdrawn⟩ := read_of_load h
  exact ⟨d, Source.parse_of_read hread, hdocument, hdrawn⟩

/-- What a library makes of the text decides what is loaded. -/
theorem Machine.load_congr {src : Source} {library library' : Digraph.Library}
    (h : library.read src.text = library'.read src.text) (overrides : Overrides) :
    load src (.digraph library) overrides = load src (.digraph library') overrides := by
  unfold load Source.read Source.parseDigraph
  dsimp only
  rw [h]

/-- The text holds a machine that passes a check, together with its nodes. -/
def Source.loadPasses (src : Source) (check : Machine → List PlacedNode → Bool)
    (language : Language := .machine) : Bool :=
  match Machine.load src language {} [] with
  | .ok m _ => match m.graph.placedNodes with
    | .ok nodes => check m nodes
    | .error _ => false
  | .error .. => false

/-- What a check finds out about the machine that a text holds in some language is true of it. -/
theorem Machine.exists_loadIn_of_check (language : Language) (src : Source)
    (check : Machine → List PlacedNode → Bool) (h : src.loadPasses check language = true) :
    ∃ m events nodes, load src language {} [] = .ok m events ∧ m.graph.placedNodes = .ok nodes ∧
      check m nodes = true := by
  unfold Source.loadPasses at h
  split at h
  · next m events hload =>
    split at h
    · next nodes hnodes => exact ⟨m, events, nodes, hload, hnodes, h⟩
    · cases h
  · cases h

/-- What a check finds out about the machine that a text holds is true of it. -/
theorem Machine.exists_load_of_check (src : Source) (check : Machine → List PlacedNode → Bool)
    (h : src.loadPasses check = true) :
    ∃ m events nodes, load src .machine {} [] = .ok m events ∧ m.graph.placedNodes = .ok nodes ∧
      check m nodes = true := exists_loadIn_of_check .machine src check h

end Typestate
