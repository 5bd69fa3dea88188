import Mathlib.Data.List.Perm.Basic
import Typestate.Proofs.Digraph.Names
import Typestate.Proofs.Digraph.Trails

/-!
Trails as the machine of a digraph, whatever the library that reads it. All that is assumed is that the library lists
the single names as nodes and the pairs of names that follow each other as edges, in any order and without attributes
(`Digraph.Library.ReadsTrails`). Then a digraph of trails is a machine if and only if all of its names are canonical
(`Source.parseDigraph_trails`).
-/

namespace Typestate

/-! ## Names -/

namespace PlainName

variable (n : PlainName)

theorem isEmpty_eq_false : n.text.isEmpty = false := by
  obtain ⟨c, more, hcons, -⟩ := n.exists_cons
  rw [← Bool.not_eq_true, String.isEmpty_iff]
  intro hempty
  rw [hempty] at hcons
  cases hcons

/-- A plain name is taken as it is, if it is canonical. -/
theorem canonicalName_eq :
    Digraph.canonicalName n.text = (Identifier.canonical n.text).mapError .badName := by
  have hn := n.isPlainWord
  have hunquote : Digraph.unquote n.text.toList = n.text.toList := by
    obtain ⟨c, more, hcons, hstart, -⟩ := n.exists_cons
    rw [hcons]
    unfold Digraph.unquote
    split
    · next heq =>
      obtain ⟨rfl, -⟩ := List.cons.inj heq
      exact absurd hstart (by decide)
    · rfl
  have hport : n.text.toList.contains ':' = false := by
    simpa using Identifier.not_mem_of_isPlainWord hn (d := ':') (by decide)
  have hwell : Identifier.isWellFormed n.text = true := by
    have hlast : n.text.toList.getLast? ≠ some '\n' := fun hlast =>
      Identifier.not_mem_of_isPlainWord hn (by decide) (List.mem_of_getLast? hlast)
    rwa [Identifier.isWellFormed_iff, Identifier.dropFinalNewline_of_not_last hlast,
      Identifier.bareChars_of_not_raw n.isRaw_eq_false]
  unfold Digraph.canonicalName
  simp only [hunquote, hport, String.ofList_toList, hwell, Bool.not_true, Bool.false_eq_true, if_false]

theorem canonicalName_iff (name : String) :
    Digraph.canonicalName n.text = .ok name ↔ n.IsCanonical ∧ name = n.text := by
  rw [canonicalName_eq]
  rcases n.isCanonical_or with hok | ⟨cause, hcause⟩
  · have hcanonical : Identifier.canonical n.text = .ok n.text := hok
    rw [hcanonical]
    constructor
    · rintro ⟨⟩
      exact ⟨hok, rfl⟩
    · rintro ⟨-, rfl⟩
      rfl
  · rw [hcause]
    constructor
    · rintro ⟨⟩
    · rintro ⟨hok, -⟩
      unfold IsCanonical at hok
      rw [hcause] at hok
      cases hok

/-- No plain name is that of a default clause. -/
theorem not_mem_defaultWords : n.text ∉ Digraph.defaultWords := by
  intro hmem
  have hlower : ∀ word ∈ Digraph.defaultWords, word.toLower ∈ digraphWords := by decide +kernel
  exact n.isPlain.unreserved (hlower n.text hmem)

theorem nodeStatement_iff (s : Statement) :
    Digraph.nodeStatement (n.text, false) = .ok s ↔ n.IsCanonical ∧ s = n.statement := by
  constructor
  · intro h
    obtain ⟨name, hname, h⟩ := Run.except_bind_eq_ok_iff.mp h
    obtain ⟨hok, rfl⟩ := (n.canonicalName_iff name).mp hname
    dsimp only at h
    rw [Run.ite_throw_eq_ok_iff, Run.ite_throw_eq_ok_iff] at h
    obtain ⟨-, -, h⟩ := h
    cases h
    exact ⟨hok, rfl⟩
  · rintro ⟨hok, rfl⟩
    refine Run.except_bind_eq_ok_iff.mpr ⟨n.text, (n.canonicalName_iff _).mpr ⟨hok, rfl⟩, ?_⟩
    dsimp only
    rw [Run.ite_throw_eq_ok_iff, Run.ite_throw_eq_ok_iff]
    exact ⟨n.not_mem_defaultWords, Bool.false_ne_true, rfl⟩

end PlainName

theorem edgeStatement_iff (h : PlainName × PlainName) (s : Statement) :
    Digraph.edgeStatement ((.node h.1.text, .node h.2.text), false) = .ok s ↔
      (h.1.IsCanonical ∧ h.2.IsCanonical) ∧ s = hopStatement h := by
  constructor
  · intro hs
    obtain ⟨source, hsource, hs⟩ := Run.except_bind_eq_ok_iff.mp hs
    obtain ⟨target, htarget, hs⟩ := Run.except_bind_eq_ok_iff.mp hs
    obtain ⟨hfirst, rfl⟩ := (h.1.canonicalName_iff source).mp hsource
    obtain ⟨hsecond, rfl⟩ := (h.2.canonicalName_iff target).mp htarget
    cases hs
    exact ⟨⟨hfirst, hsecond⟩, rfl⟩
  · rintro ⟨⟨hfirst, hsecond⟩, rfl⟩
    refine Run.except_bind_eq_ok_iff.mpr ⟨h.1.text, (h.1.canonicalName_iff _).mpr ⟨hfirst, rfl⟩, ?_⟩
    exact Run.except_bind_eq_ok_iff.mpr ⟨h.2.text, (h.2.canonicalName_iff _).mpr ⟨hsecond, rfl⟩, rfl⟩

/-! ## Lists -/

/-- A run over a list in another order gives the results in another order. -/
theorem Run.mapM_perm {α β ε : Type} {f : α → Except ε β} {items items' : List α} (hperm : items.Perm items') :
    ∀ {bs : List β}, items.mapM f = .ok bs → ∃ bs', items'.mapM f = .ok bs' ∧ bs'.Perm bs := by
  induction hperm with
  | nil => exact fun h => ⟨_, h, .refl _⟩
  | cons a _ ih =>
    intro bs h
    rw [List.mapM_cons] at h
    obtain ⟨b, hb, h⟩ := except_bind_eq_ok_iff.mp h
    obtain ⟨more, hmore, h⟩ := except_bind_eq_ok_iff.mp h
    cases h
    obtain ⟨more', hmore', hperm⟩ := ih hmore
    refine ⟨b :: more', ?_, hperm.cons b⟩
    rw [List.mapM_cons, hb, hmore']
    rfl
  | swap a a' items =>
    intro bs h
    rw [List.mapM_cons] at h
    obtain ⟨b, hb, h⟩ := except_bind_eq_ok_iff.mp h
    obtain ⟨_, h', h⟩ := except_bind_eq_ok_iff.mp h
    cases h
    rw [List.mapM_cons] at h'
    obtain ⟨b', hb', h'⟩ := except_bind_eq_ok_iff.mp h'
    obtain ⟨more, hmore, h'⟩ := except_bind_eq_ok_iff.mp h'
    cases h'
    refine ⟨b' :: b :: more, ?_, .swap b b' more⟩
    rw [List.mapM_cons, hb', List.mapM_cons, hb, hmore]
    rfl
  | trans _ _ ih ih' =>
    intro bs h
    obtain ⟨bs', h', hperm⟩ := ih h
    obtain ⟨bs'', h'', hperm'⟩ := ih' h'
    exact ⟨bs'', h'', hperm'.trans hperm⟩

namespace Digraph

/-- What a graph holds is what the trails say: a node for every single name and an edge for every two names that follow
each other, all without attributes and in any order. -/
structure Contents.Lists (c : Contents) (n : PlainName) (trails : List Trail) : Prop where
  directed : c.isDirected = true
  name : c.name = n.text
  noGroups : c.hasGroups = false
  noAttributes : c.hasAttributes = false
  nodes : ((trails.flatMap Trail.alone).map fun n => (n.text, false)).Perm c.nodes
  edges : ((trails.flatMap Trail.hops).map fun h => ((.node h.1.text, .node h.2.text), false)).Perm c.edges

section
variable {c : Contents} {n : PlainName} {trails : List Trail} (h : c.Lists n trails) (defaultName : String)
include h

/-- All names in what is read of trails are canonical. -/
theorem Contents.Lists.canonical {d : Document} (hdocument : c.document defaultName = .ok d) :
    n.IsCanonical ∧ ∀ t ∈ trails, t.IsCanonical := by
  obtain ⟨name, nodes, edges, hname, hnodes, hedges, -⟩ := eq_of_document hdocument
  constructor
  · rw [h.name] at hname
    rcases hname with ⟨hempty, -⟩ | hname
    · rw [n.isEmpty_eq_false] at hempty
      cases hempty
    · exact ((n.canonicalName_iff name).mp hname).1
  · intro t ht x hx
    rcases (t.mem_names_iff x).mp hx with hx | ⟨hop, hhop, hend⟩
    · obtain ⟨s, hs⟩ := Run.exists_of_mapM hnodes
        (h.nodes.subset (List.mem_map_of_mem (List.mem_flatMap.mpr ⟨t, ht, hx⟩)))
      exact ((x.nodeStatement_iff s).mp hs).1
    · obtain ⟨s, hs⟩ := Run.exists_of_mapM hedges
        (h.edges.subset (List.mem_map_of_mem (List.mem_flatMap.mpr ⟨t, ht, hhop⟩)))
      obtain ⟨⟨hfirst, hsecond⟩, -⟩ := (edgeStatement_iff hop s).mp hs
      rcases hend with rfl | rfl
      · exact hfirst
      · exact hsecond

/-- With canonical names, the machine has the statements of the trails in another order. -/
theorem Contents.Lists.exists_document (hn : n.IsCanonical) (htrails : ∀ t ∈ trails, t.IsCanonical) :
    ∃ statements, c.document defaultName = .ok { name := n.text, statements } ∧
      statements.Perm (trails.flatMap Trail.parts) := by
  have hnodes : ((trails.flatMap Trail.alone).map fun n => (n.text, false)).mapM nodeStatement =
      .ok ((trails.flatMap Trail.alone).map PlainName.statement) := by
    rw [List.mapM_map]
    refine Run.mapM_eq_ok _ fun x hx => (x.nodeStatement_iff _).mpr ⟨?_, rfl⟩
    obtain ⟨t, ht, hx⟩ := List.mem_flatMap.mp hx
    exact htrails t ht x ((t.mem_names_iff x).mpr (Or.inl hx))
  have hedges : ((trails.flatMap Trail.hops).map fun h =>
        ((Endpoint.node h.1.text, Endpoint.node h.2.text), false)).mapM edgeStatement =
      .ok ((trails.flatMap Trail.hops).map hopStatement) := by
    rw [List.mapM_map]
    refine Run.mapM_eq_ok _ fun hop hhop => (edgeStatement_iff hop _).mpr ⟨?_, rfl⟩
    obtain ⟨t, ht, hhop⟩ := List.mem_flatMap.mp hhop
    exact ⟨htrails t ht _ ((t.mem_names_iff _).mpr (Or.inr ⟨hop, hhop, Or.inl rfl⟩)),
      htrails t ht _ ((t.mem_names_iff _).mpr (Or.inr ⟨hop, hhop, Or.inr rfl⟩))⟩
  obtain ⟨nodes, hnodes, hnodesPerm⟩ := Run.mapM_perm h.nodes hnodes
  obtain ⟨edges, hedges, hedgesPerm⟩ := Run.mapM_perm h.edges hedges
  refine ⟨nodes ++ edges, ?_, ?_⟩
  · simp only [Contents.document, h.directed, h.noGroups, h.noAttributes, h.name, n.isEmpty_eq_false,
      (n.canonicalName_iff _).mpr ⟨hn, rfl⟩, hnodes, hedges, Bool.not_true, Bool.false_eq_true, if_false]
    rfl
  · refine (hnodesPerm.append hedgesPerm).trans ?_
    rw [List.map_flatMap, List.map_flatMap]
    exact List.flatMap_append_perm trails _ _

end

/-- What is assumed of a library: in a digraph of chains and single names, all of them plain names, it finds one node
without attributes for every single name, and one edge without attributes for any two names that follow each other. -/
def Library.ReadsTrails (library : Library) : Prop :=
  ∀ (n : PlainName) (trails : List Trail) (text : String), LaidOut (graphWords n trails) text.toList →
    ∃ c, library.read text = .ok [c] ∧ c.Lists n trails

/-- The name is a word of letters, digits, underscores and dots. -/
def IsId (name : String) : Prop :=
  ∀ c ∈ name.toList, (Unicode.isLetter c || Unicode.isDigit c || c == '_' || c == '.') = true

/-- The end of the edge is a group, or its name is of the given kind. -/
def Endpoint.NamedBy (P : String → Prop) : Endpoint → Prop
  | node name => P name
  | group => True

/-- The nodes and the ends of edges have names of the given kind. -/
structure Contents.NamedBy (c : Contents) (P : String → Prop) : Prop where
  nodes : ∀ node ∈ c.nodes, P node.1
  edges : ∀ edge ∈ c.edges, edge.1.1.NamedBy P ∧ edge.1.2.NamedBy P

/-- Nothing in the text can be in quotes, marked up or a port, and no comment can start with a slash. -/
structure Unquoted (cs : List Char) : Prop where
  quote : '"' ∉ cs
  angle : '<' ∉ cs
  colon : ':' ∉ cs
  slash : '/' ∉ cs

/-- In no line of the text a brace is opened in front of the first `#`. -/
def OpensNothing (cs : List Char) : Prop :=
  ∀ line ∈ Text.fields '\n' cs, '\x7b' ∉ line.takeWhile (· != '#')

/-- What is assumed of a library about names without quotes. It reads trails; such names are words of letters, digits,
underscores and dots; and a `#` starts a comment, so there is no graph in a text that opens its braces in comments
only. -/
structure Library.ReadsUnquoted (library : Library) : Prop where
  trails : library.ReadsTrails
  words : ∀ text graphs, Unquoted text.toList → library.read text = .ok graphs → ∀ c ∈ graphs, c.NamedBy IsId
  comments : ∀ text graphs, Unquoted text.toList → library.read text = .ok graphs → OpensNothing text.toList →
    graphs = []

end Digraph

/-- **Trails.** A library that reads trails makes a digraph of them a machine if and only if all names are canonical,
and then the machine has the nodes and the edges of the trails one by one, in some order. -/
theorem Source.parseDigraph_trails {library : Digraph.Library} (hlibrary : library.ReadsTrails) {src : Source}
    {n : PlainName} {trails : List Trail} (h : LaidOut (Digraph.graphWords n trails) src.text.toList) :
    match src.parseDigraph defaultMachineName library with
    | .ok d => (∃ statements, d = { name := n.text, statements } ∧ statements.Perm (trails.flatMap Trail.parts)) ∧
        n.IsCanonical ∧ ∀ t ∈ trails, t.IsCanonical
    | .error _ => ¬ (n.IsCanonical ∧ ∀ t ∈ trails, t.IsCanonical) := by
  obtain ⟨c, hread, hlists⟩ := hlibrary n trails src.text h
  rw [parseDigraph_eq hread]
  cases hdocument : c.document defaultMachineName with
  | ok d =>
    have hcanonical := hlists.canonical defaultMachineName hdocument
    obtain ⟨statements, hstatements, hperm⟩ :=
      hlists.exists_document defaultMachineName hcanonical.1 hcanonical.2
    rw [hdocument] at hstatements
    cases hstatements
    exact ⟨⟨statements, rfl, hperm⟩, hcanonical⟩
  | error cause =>
    rintro ⟨hn, htrails⟩
    obtain ⟨statements, hstatements, -⟩ := hlists.exists_document defaultMachineName hn htrails
    rw [hdocument] at hstatements
    cases hstatements

end Typestate
