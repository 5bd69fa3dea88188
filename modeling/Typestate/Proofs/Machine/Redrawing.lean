import Typestate.Proofs.Digraph.Diagrams
import Typestate.Proofs.Digraph.Reference
import Typestate.Proofs.Grammar.Origin
import Typestate.Proofs.Machine.CanonicalNames
import Typestate.Proofs.Machine.Complaints

/-!
The diagram of a machine, read again by a library. The names in it stand as they are, without quotes. So the digraph of
a machine whose text is in ASCII is no machine of the same nodes and edges if a name in it is raw. If no name is a word
of digraphs, it is one exactly when it can be read as it is written: no name is raw, the name of the machine is
canonical, and no edge leaves a node with the name of an enum (`Machine.toDot_reread_iff`).
-/

namespace Typestate

open Identifier (IsAscii IsAsciiName IsPlain)

/-! ## Names in ASCII -/

theorem Identifier.IsAsciiName.canonical {value name : String} (h : IsAsciiName value)
    (hname : Identifier.canonical value = .ok name) : IsAsciiName name := by
  unfold IsAsciiName
  rwa [bareChars_canonical h.isName.isWord hname]

theorem Identifier.IsAsciiName.isPlain {name : String} (h : IsAsciiName name) (hraw : isRaw name = false)
    (hword : name.toLower ∉ digraphWords) : IsPlain name := by
  unfold IsAsciiName at h
  rw [bareChars_of_not_raw hraw] at h
  refine ⟨?_, isPlainChar_of_mem h, hword⟩
  cases hchars : name.toList with
  | nil =>
    rw [hchars] at h
    cases h
  | cons c more =>
    rw [hchars] at h
    cases h with
    | cons hstart _ => exact hstart

/-- Of a text in ASCII, all names of nodes are in ASCII, and so is that of the machine. -/
theorem Source.parse_ascii {src : Source} {d : Document} (h : src.parse = .ok d) (hascii : IsAscii src.text) :
    (∀ s ∈ d.statements, s.NamedBy IsAsciiName fun _ => True) ∧ IsAsciiName d.name := by
  cases htokens : src.tokenize with
  | error e =>
    rw [parse, htokens] at h
    cases h
  | ok tokens =>
    have hvalue : ∀ t ∈ tokens, t.kind = .identifier → IsAsciiName t.value := fun t ht hkind =>
      ascii_of_tokenize htokens hascii ht (by rw [hkind]; rfl)
    have hnode : ∀ t ∈ tokens, t.kind = .identifier → ∀ name, Identifier.canonical t.value = .ok name →
        IsAsciiName name := fun t ht hkind _ hname => (hvalue t ht hkind).canonical hname
    refine ⟨parse_names htokens h hnode fun _ _ _ => trivial, ?_⟩
    rcases (parse_enumNames htokens h).name with hdefault | ⟨t, ht, hkind, hname⟩
    · rw [hdefault]
      exact .cons (by decide) (List.all_eq_true.mp (by decide))
    · exact hname ▸ hvalue t ht hkind

namespace Machine

variable {m : Machine}

theorem asciiNames_of_load {src : Source} {overrides : Overrides} {events events' : List Event}
    (h : load src .machine overrides events = .ok m events') (hascii : IsAscii src.text)
    (hname : ∀ name, overrides.name = some name → IsAsciiName name) :
    (∀ n ∈ m.graph.nodes.keys, IsAsciiName n) ∧ IsAsciiName m.document.name := by
  obtain ⟨d, hparse, hdocument, hdrawn⟩ := of_load h
  obtain ⟨hstatements, hown⟩ := Source.parse_ascii hparse hascii
  constructor
  · have hnames : ∀ s ∈ m.document.statements, s.NamedBy IsAsciiName fun _ => True := by
      rw [hdocument]
      exact hstatements
    exact fun n hn => hdrawn.built.namedBy hnames hn
  · rw [hdocument]
    change IsAsciiName (overrides.name.getD d.name)
    cases hoverride : overrides.name with
    | none => exact hown
    | some name => exact hname name hoverride

/-! ## Loading -/

/-- A digraph whose statements make a graph is loaded. -/
theorem yields_load {library : Digraph.Library} {src : Source} {d : Document} {again : Overrides}
    (hparse : src.parseDigraph defaultMachineName library = .ok d)
    (hbuildable : Buildable (again.apply d).config.renameMethods [(again.apply d).name, (again.apply d).entryName]
      d.statements) :
    (load src (.digraph library) again).Yields fun m => m.document = again.apply d ∧ m.Drawn := by
  obtain ⟨g, hgraph⟩ := Graph.exists_ofStatements_iff.mpr hbuildable
  have hread : (src.read (.digraph library)).Yields (· = d) := by
    unfold Source.read
    dsimp only
    rw [hparse]
    exact (Logged.yields_pure rfl : (pure d : Logged Document).Yields (· = d)).bind fun _ hd =>
      (Logged.yields_note _).bind fun _ _ => Logged.yields_pure hd
  unfold load
  refine hread.bind ?_
  rintro d rfl
  refine (yields_overrides again d).bind ?_
  rintro _ rfl
  refine (Document.yields_buildGraph hgraph _ _).bind ?_
  rintro _ rfl
  exact Logged.yields_pure ⟨rfl, hbuildable, (Graph.built_of_ofStatements hgraph).2⟩

/-- A digraph that has the name of the machine, and nothing in it, changed as a caller wishes. -/
def namesake (m : Machine) (again : Overrides) : Document := again.apply { name := m.document.name }

/-- The digraph of the machine can be read as it is written. The last condition always holds if the two names are
those of the machine itself (`Drawn.unreserved`), but a digraph does not carry the name of an entry enum. -/
structure Redrawable (m : Machine) (again : Overrides) : Prop where
  notRaw : Identifier.isRaw m.document.name = false
  canonical : Identifier.canonical m.document.name = .ok m.document.name
  nodes : ∀ n ∈ m.graph.nodes.keys, Identifier.isRaw n = false
  sources : ∀ key ∈ m.graph.edges.keys, key.source ∉ [(m.namesake again).name, (m.namesake again).entryName]

instance (m : Machine) (again : Overrides) : Decidable (m.Redrawable again) :=
  decidable_of_iff (Identifier.isRaw m.document.name = false ∧
      Identifier.canonical m.document.name = .ok m.document.name ∧
      (∀ n ∈ m.graph.nodes.keys, Identifier.isRaw n = false) ∧
      ∀ key ∈ m.graph.edges.keys, key.source ∉ [(m.namesake again).name, (m.namesake again).entryName])
    ⟨fun ⟨hraw, hname, hraws, hsources⟩ => ⟨hraw, hname, hraws, hsources⟩,
      fun ⟨hraw, hname, hraws, hsources⟩ => ⟨hraw, hname, hraws, hsources⟩⟩

/-- The machine has the nodes and the edges of another one. -/
def SameKeys (m m' : Machine) : Prop :=
  m'.graph.nodes.keys = m.graph.nodes.keys ∧ m'.graph.edges.keys = m.graph.edges.keys

/-! ## Reading again -/

/-- Whatever the library, no node by itself has the name of a default clause. -/
theorem not_mem_defaultWords_of_load {library : Digraph.Library} {drawing : Source} {again : Overrides} {m' : Machine}
    {events events' : List Event} (hload : load drawing (.digraph library) again events = .ok m' events')
    (hsame : m.SameKeys m') :
    ∀ n ∈ m.graph.nodes.keys, m.graph.isIsolated n = true → n ∉ Digraph.defaultWords := by
  obtain ⟨d, _, hread, hdocument, hdrawn⟩ := read_of_load hload
  obtain ⟨c, -, hc⟩ := Source.exists_contents (Source.parseDigraph_of_read hread)
  have hbuilt := hdrawn.built
  rw [hdocument] at hbuilt
  intro n hn hisolated
  rw [Graph.isIsolated_iff, ← hsame.2] at hisolated
  exact Digraph.not_mem_defaultWords_of_built hc hbuilt (hsame.1 ▸ hn) hisolated

section
variable {library : Digraph.Library} {drawing : Source} {again : Overrides} (hdrawn : m.Drawn)
  (hown : IsAsciiName m.document.name) (hascii : ∀ n ∈ m.graph.nodes.keys, IsAsciiName n)
  (htext : drawing.text = m.graph.toDot m.document.name)
include hdrawn hown hascii htext

/-- What is loaded from the digraph of a machine as one of the same nodes and edges has no raw names. -/
theorem not_raw_of_load (hlibrary : library.ReadsUnquoted) {m' : Machine} {events events' : List Event}
    (hload : load drawing (.digraph library) again events = .ok m' events') (hsame : m.SameKeys m') :
    Identifier.isRaw m.document.name = false ∧ ∀ n ∈ m.graph.nodes.keys, Identifier.isRaw n = false := by
  have hclosed := hdrawn.built.closed
  obtain ⟨d, _, hread, hdocument, hdrawn'⟩ := read_of_load hload
  have hparse := Source.parseDigraph_of_read hread
  refine ⟨Source.not_raw_of_parseDigraph hlibrary hclosed hown hascii htext hparse, fun n hn => ?_⟩
  have hunmarked : ∀ s ∈ m'.document.statements, s.NamedBy Digraph.Unmarked fun _ => False := by
    rw [hdocument]
    exact (Source.unmarked_of_parseDigraph hlibrary hclosed hown hascii htext hparse : ∀ s ∈ d.statements, _)
  exact Identifier.not_raw_of_not_mem (hdrawn'.built.namedBy hunmarked (hsame.1 ▸ hn))

variable (hcanonical : ∀ n ∈ m.graph.nodes.keys, Identifier.canonical n = .ok n)
  (hwords : ∀ n ∈ m.document.name :: m.graph.nodes.keys, n.toLower ∉ digraphWords)
include hcanonical hwords

/-- Without raw names and without words of digraphs, the digraph is a machine exactly if its name is canonical. -/
theorem parseDigraph_of_not_raw (hlibrary : library.ReadsTrails) (hraw : Identifier.isRaw m.document.name = false)
    (hraws : ∀ n ∈ m.graph.nodes.keys, Identifier.isRaw n = false) :
    match drawing.parseDigraph defaultMachineName library with
    | .ok d => (∃ statements, d = { name := m.document.name, statements } ∧ statements.Perm m.graph.statements) ∧
        Identifier.canonical m.document.name = .ok m.document.name
    | .error _ => ¬ Identifier.canonical m.document.name = .ok m.document.name := by
  rw [List.forall_mem_cons] at hwords
  exact Source.parseDigraph_toDot hlibrary hdrawn.built.closed ⟨m.document.name, hown.isPlain hraw hwords.1⟩
    (fun n hn => (hascii n hn).isPlain (hraws n hn) (hwords.2 n hn)) hcanonical htext

/-- What is loaded from the digraph of a machine as one of the same nodes and edges can be read as it is written. -/
theorem redrawable_of_load (hlibrary : library.ReadsUnquoted) {m' : Machine} {events events' : List Event}
    (hload : load drawing (.digraph library) again events = .ok m' events') (hsame : m.SameKeys m') :
    m.Redrawable again := by
  obtain ⟨hraw, hraws⟩ := not_raw_of_load hdrawn hown hascii htext hlibrary hload hsame
  obtain ⟨d, _, hread, hdocument, hdrawn'⟩ := read_of_load hload
  have hreading := parseDigraph_of_not_raw hdrawn hown hascii htext hcanonical hwords hlibrary.trails hraw hraws
  rw [Source.parseDigraph_of_read hread] at hreading
  obtain ⟨⟨statements, rfl, -⟩, hname⟩ := hreading
  refine ⟨hraw, hname, hraws, fun key hkey => ?_⟩
  have hunreserved := hdrawn'.unreserved (hsame.2 ▸ hkey)
  rwa [hdocument] at hunreserved

/-- What can be read as it is written is loaded as a machine of the same nodes and edges. -/
theorem yields_redrawn (hlibrary : library.ReadsTrails) (h : m.Redrawable again) :
    (load drawing (.digraph library) again).Yields m.SameKeys := by
  have hclosed := hdrawn.built.closed
  have hreading := parseDigraph_of_not_raw hdrawn hown hascii htext hcanonical hwords hlibrary h.notRaw h.nodes
  cases hparse : drawing.parseDigraph defaultMachineName library with
  | error e =>
    rw [hparse] at hreading
    exact absurd h.canonical hreading
  | ok d =>
    rw [hparse] at hreading
    obtain ⟨⟨statements, rfl, hperm⟩, -⟩ := hreading
    have hsome : m.graph.edges.keys ≠ [] := by
      obtain ⟨mention, hmention⟩ := List.exists_mem_of_ne_nil _ hdrawn.buildable.someEdge
      exact List.ne_nil_of_mem ((hdrawn.built.mem_edge_keys _).mpr ⟨mention, hmention, rfl⟩)
    have hbuildable : Buildable (again.apply { name := m.document.name, statements }).config.renameMethods
        [(m.namesake again).name, (m.namesake again).entryName] statements :=
      Buildable.perm hperm.symm ((Graph.buildable_statements_iff hclosed _ _).mpr ⟨hsome, h.sources⟩)
    intro events
    obtain ⟨m', events', hload, hdocument, hdrawn'⟩ := yields_load hparse hbuildable events
    have hbuilt := hdrawn'.built
    rw [hdocument] at hbuilt
    exact ⟨m', events', hload, Graph.keys_of_built hclosed hperm hbuilt⟩

end

/-- **Reading again.** The digraph of a machine whose text is in ASCII is loaded as a machine of the same nodes and
edges only if no name in it is raw and no node by itself has the name of a default clause. If no name is a word of
digraphs, it is loaded so if and only if it can be read as it is written. -/
theorem toDot_reread_iff {library : Digraph.Library} (hlibrary : library.ReadsUnquoted) {src : Source}
    {overrides : Overrides} {events events' : List Event} (h : load src .machine overrides events = .ok m events')
    (hascii : IsAscii src.text) (hname : ∀ name, overrides.name = some name → IsAsciiName name)
    (file : Option Path) (again : Overrides) :
    let reread := load { text := m.graph.toDot m.document.name, file } (.digraph library) again
    (reread.Yields m.SameKeys → Identifier.isRaw m.document.name = false ∧
      (∀ n ∈ m.graph.nodes.keys, Identifier.isRaw n = false) ∧
      ∀ n ∈ m.graph.nodes.keys, m.graph.isIsolated n = true → n ∉ Digraph.defaultWords) ∧
    ((∀ n ∈ m.document.name :: m.graph.nodes.keys, n.toLower ∉ digraphWords) →
      (reread.Yields m.SameKeys ↔ m.Redrawable again)) := by
  obtain ⟨hnodes, hown⟩ := asciiNames_of_load h hascii hname
  obtain ⟨d, -, -, hdrawn⟩ := of_load h
  have hcanonical : ∀ n ∈ m.graph.nodes.keys, Identifier.canonical n = .ok n := fun n hn =>
    (isCanonical_of_load h n hn).canonical_eq
  dsimp only
  refine ⟨fun hyields => ?_, fun hwords => ⟨fun hyields => ?_, fun hredrawable => ?_⟩⟩
  · obtain ⟨m', _, hload, hsame⟩ := hyields []
    obtain ⟨hraw, hraws⟩ := not_raw_of_load hdrawn hown hnodes rfl hlibrary hload hsame
    exact ⟨hraw, hraws, not_mem_defaultWords_of_load hload hsame⟩
  · obtain ⟨m', _, hload, hsame⟩ := hyields []
    exact redrawable_of_load hdrawn hown hnodes rfl hcanonical hwords hlibrary hload hsame
  · exact yields_redrawn hdrawn hown hnodes rfl hcanonical hwords hlibrary.trails hredrawable

/-- A road with a fork, a way back, and a place without ways. -/
def crossing : Source :=
  { text := "/// A road.\npub Crossing<'a> \x7b Road: &'a u8 -> Left & Right -> Road; Lane -> Road; Lawn; \x7d" }

theorem crossing_reread : ∃ m events, load crossing .machine {} [] = .ok m events ∧
    m.graph.toDot m.document.name = "digraph Crossing \x7b\n  Lane -> Road;\n  Left -> Road;\n  Right -> Road;\n" ++
      "  Road -> Left;\n  Road -> Right;\n  Lawn;\n\x7d\n" ∧
    (load { text := m.graph.toDot m.document.name } .digraph).Yields m.SameKeys := by
  obtain ⟨m, events, -, hload, -, hcheck⟩ := exists_load_of_check crossing
    (fun m _ => decide ((∀ n ∈ m.document.name :: m.graph.nodes.keys, n.toLower ∉ digraphWords) ∧
      m.Redrawable {} ∧ m.graph.toDot m.document.name =
        "digraph Crossing \x7b\n  Lane -> Road;\n  Left -> Road;\n  Right -> Road;\n" ++
          "  Road -> Left;\n  Road -> Right;\n  Lawn;\n\x7d\n")) (by decide +kernel)
  obtain ⟨hwords, hredrawable, hdot⟩ := of_decide_eq_true hcheck
  have hreread := toDot_reread_iff Digraph.reference_readsUnquoted hload (by decide)
    (fun _ hname => by cases hname) none {}
  exact ⟨m, events, hload, hdot, (hreread.2 hwords).mpr hredrawable⟩

/-- A node with the name of a keyword. -/
def rawTarget : Source := { text := "M \x7b A -> r#type; \x7d" }

/-- No library finds a raw node in the digraph again. The reference library ends its name at the marker. -/
theorem rawTarget_reread : IsAscii rawTarget.text ∧ ∃ m events, load rawTarget .machine {} [] = .ok m events ∧
    m.graph.toDot m.document.name = "digraph M \x7b\n  A -> r#type;\n\x7d\n" ∧
    m.graph.edges.keys = [⟨"A", "r#type"⟩] ∧
    (∀ library : Digraph.Library, library.ReadsUnquoted →
      ¬ (load { text := m.graph.toDot m.document.name } (.digraph library)).Yields m.SameKeys) ∧
    Digraph.reference.ReadsUnquoted ∧
    ∃ m' events', load { text := m.graph.toDot m.document.name } .digraph {} [] = .ok m' events' ∧
      m'.graph.edges.keys = [⟨"A", "r"⟩] := by
  obtain ⟨m, events, -, hload, -, hcheck⟩ := exists_load_of_check rawTarget
    (fun m _ => decide (m.graph.toDot m.document.name = "digraph M \x7b\n  A -> r#type;\n\x7d\n" ∧
      m.graph.edges.keys = [⟨"A", "r#type"⟩] ∧ "r#type" ∈ m.graph.nodes.keys)) (by decide +kernel)
  obtain ⟨hdot, hedges, hraw⟩ := of_decide_eq_true hcheck
  have hascii : IsAscii rawTarget.text := by decide
  refine ⟨hascii, m, events, hload, hdot, hedges, fun library hlibrary hyields => ?_,
    Digraph.reference_readsUnquoted, ?_⟩
  · obtain ⟨hnodes, hown⟩ := asciiNames_of_load hload hascii fun _ hname => by cases hname
    obtain ⟨d, -, -, hdrawn⟩ := of_load hload
    obtain ⟨m', _, hagain, hsame⟩ := hyields []
    have hraws := (not_raw_of_load hdrawn hown hnodes rfl hlibrary hagain hsame).2 _ hraw
    exact absurd hraws (by decide)
  · obtain ⟨m', events', -, hagain, -, hcheck⟩ := exists_loadIn_of_check .digraph
      { text := "digraph M \x7b\n  A -> r#type;\n\x7d\n" }
      (fun m _ => decide (m.graph.edges.keys = [⟨"A", "r"⟩])) (by decide +kernel)
    rw [hdot]
    exact ⟨m', events', hagain, of_decide_eq_true hcheck⟩

end Machine

end Typestate
