import Typestate.Proofs.Graph.Building

/-!
What a graph of statements consists of. Its nodes are the names mentioned, with what the mentions give
(`Built.mem_node_keys`, `Built.node_eq`); its edges are the pairs across the arrows of chains, with what
the arrow and the chain give (`Built.mem_edge_keys`, `Built.exists_edge`). No name, pair, type or fragment
of documentation is lost or made up (`Graph.ofStatements_contents`).
-/

namespace Typestate

/-- The graph has the names that the statements mention and the pairs across their arrows, with what
the mentions of each say in the order of merging, and nothing else. -/
structure Contents (statements : List Statement) (g : Graph) : Prop where
  names : ∀ name, name ∈ g.nodes.keys ↔ ∃ r ∈ mentions statements, r.name = name
  pairs : ∀ key, key ∈ g.edges.keys ↔ ∃ c ∈ chains statements,
    ∃ sides ∈ c.groups.zip c.groups.tail,
      key.source ∈ sides.1.names ∧ key.target ∈ sides.2.names
  ends : ∀ key ∈ g.edges.keys, key.source ∈ g.nodes.keys ∧ key.target ∈ g.nodes.keys
  node : ∀ name n, g.nodes.get? name = some n →
    n.ty = (mentionsOf (mentions statements) name).findSome? (·.ty) ∧
    n.span = (mentionsOf (mentions statements) name).head?.bind (·.span) ∧
    n.docs = joinRuns ((mentionsOf (mentions statements) name).map (·.docs))
  edge : ∀ c ∈ chains statements, ∀ h ∈ c.hops, ∀ key ∈ h.ends, ∃ e, g.edges.get? key = some e ∧
    e.explicit = h.arrow.isNamed ∧ e.docs = joinRuns [c.docs, h.arrow.docs]

/-- The edge is that of the mention, but that the method of an arrow without a name may be numbered. -/
def EdgeMention.Makes (renameMethods : Bool) (m : EdgeMention) (e : Edge) : Prop :=
  e = m.edge renameMethods ∨ m.arrow.isNamed = false ∧ ∃ used,
    e = { m.edge renameMethods with methodName := numbered (m.methodName renameMethods) used }

/-- All of an edge but its method name is as the mention says. -/
theorem EdgeMention.Makes.eq {renameMethods : Bool} {m : EdgeMention} {e : Edge}
    (h : m.Makes renameMethods e) : ∃ name, e = { m.edge renameMethods with methodName := name } := by
  rcases h with rfl | ⟨-, used, rfl⟩
  · exact ⟨_, rfl⟩
  · exact ⟨_, rfl⟩

/-- The pairs that hops mention are those across consecutive positions of chains. -/
theorem exists_edgeMention_iff (statements : List Statement) (key : EdgeKey) :
    (∃ m ∈ edgeMentions statements, m.key = key) ↔
      ∃ c ∈ chains statements, ∃ sides ∈ c.groups.zip c.groups.tail,
        key.source ∈ sides.1.names ∧ key.target ∈ sides.2.names := by
  constructor
  · rintro ⟨m, hm, rfl⟩
    obtain ⟨c, hc, h, hh, hkey, -, -⟩ := (mem_edgeMentions statements m).mp hm
    refine ⟨c, hc, (h.sources, h.targets), ?_, (mem_ends h m.key).mp hkey⟩
    rw [← hops_sides]
    exact List.mem_map.mpr ⟨h, hh, rfl⟩
  · rintro ⟨c, hc, sides, hsides, hends⟩
    rw [← hops_sides] at hsides
    obtain ⟨h, hh, rfl⟩ := List.mem_map.mp hsides
    refine ⟨⟨key, h.arrow, c.docs⟩, ?_, rfl⟩
    exact (mem_edgeMentions statements _).mpr ⟨c, hc, h, hh, (mem_ends h key).mpr hends, rfl, rfl⟩

namespace Built

variable {renameMethods : Bool} {statements : List Statement} {g : Graph}
  (h : Built renameMethods statements g)
include h

theorem mem_node_keys (name : String) :
    name ∈ g.nodes.keys ↔ ∃ r ∈ mentions statements, r.name = name := by
  rw [SortedMap.mem_keys_iff, h.nodes, Node.exists_ofMentions_iff]

theorem mem_edge_keys (key : EdgeKey) :
    key ∈ g.edges.keys ↔ ∃ m ∈ edgeMentions statements, m.key = key := by
  rw [mem_keys_of_settled h.leaving, mem_keys_edgeMap]

/-- No edge hangs in the air. -/
theorem ends_mem {key : EdgeKey} (hkey : key ∈ g.edges.keys) :
    key.source ∈ g.nodes.keys ∧ key.target ∈ g.nodes.keys := by
  obtain ⟨m, hm, rfl⟩ := (h.mem_edge_keys key).mp hkey
  rw [h.mem_node_keys, h.mem_node_keys]
  exact ends_mem_mentions hm

theorem node_eq {name : String} {n : Node} (hn : g.nodes.get? name = some n) :
    n = .gather (mentionsOf (mentions statements) name) := by
  rw [h.nodes] at hn
  unfold Node.ofMentions at hn
  split at hn
  · cases hn
  · cases hn
    rfl

/-- The edge of a mention is in the graph, as the mention makes it. -/
theorem exists_edge (honce : ((edgeMentions statements).map (·.key)).Nodup) {m : EdgeMention}
    (hm : m ∈ edgeMentions statements) :
    ∃ e, g.edges.get? m.key = some e ∧ m.Makes renameMethods e := by
  have hkey : m.key ∈ g.edges.keys := (h.mem_edge_keys m.key).mpr ⟨m, hm, rfl⟩
  obtain ⟨e, he⟩ := (SortedMap.mem_keys_iff _ _).mp hkey
  have hdrafted : ∀ e', (m.key.target, e') ∈
      Graph.leaving { edges := edgeMap renameMethods statements } m.key.source →
      e' = m.edge renameMethods := by
    intro e' hmem
    obtain ⟨m', hm', hsame, rfl⟩ := (mem_leaving_edgeMap honce _ _ _).mp hmem
    rw [List.inj_on_of_nodup_map honce hm' hm hsame]
  have hmem : (m.key.target, e) ∈ g.leaving m.key.source := (Graph.mem_leaving _ _ _ _).mpr he
  rw [h.leaving] at hmem
  refine ⟨e, he, ?_⟩
  rcases mem_numberedFrom hmem with hold | ⟨e', he', hderived, hnew, -, used, hname⟩
  · exact Or.inl (hdrafted e hold)
  · have hsame : e' = m.edge renameMethods := hdrafted e' he'
    rw [hsame] at hderived hnew hname
    rw [hname] at hnew
    exact Or.inr ⟨hderived, used, hnew⟩

/-- Every edge of the graph is as a mention makes it. -/
theorem exists_mention (honce : ((edgeMentions statements).map (·.key)).Nodup)
    {source target : String} {e : Edge} (hmem : (target, e) ∈ g.leaving source) :
    ∃ m ∈ edgeMentions statements, m.key = ⟨source, target⟩ ∧ m.Makes renameMethods e := by
  have he := (Graph.mem_leaving _ _ _ _).mp hmem
  obtain ⟨m, hm, hkey⟩ := (h.mem_edge_keys _).mp ((SortedMap.mem_keys_iff _ _).mpr ⟨e, he⟩)
  obtain ⟨e', he', hmakes⟩ := h.exists_edge honce hm
  rw [hkey, he] at he'
  cases he'
  exact ⟨m, hm, hkey, hmakes⟩

end Built

/-- **Contents.** Whatever the statements, a graph that is made of them has the nodes and edges that they mention and
no others. A node has its first type, its first place and all of its documentation, in order; an edge has the
documentation of its chain and of its arrow, and it is explicit if the arrow has a name. -/
theorem Graph.ofStatements_contents {renameMethods : Bool} {reserved : List String}
    {anchor : Option Span} {statements : List Statement} {g : Graph}
    (h : ofStatements renameMethods reserved anchor statements = .ok g) :
    Contents statements g := by
  obtain ⟨hbuildable, hbuilt⟩ := built_of_ofStatements h
  constructor
  case names => exact hbuilt.mem_node_keys
  case pairs =>
    intro key
    rw [hbuilt.mem_edge_keys, exists_edgeMention_iff]
  case ends =>
    intro key hkey
    exact hbuilt.ends_mem hkey
  case node =>
    intro name n hn
    rw [hbuilt.node_eq hn]
    exact ⟨rfl, rfl, rfl⟩
  case edge =>
    intro c hc hop hhop key hkey
    have hm : (⟨key, hop.arrow, c.docs⟩ : EdgeMention) ∈ edgeMentions statements :=
      (mem_edgeMentions statements _).mpr ⟨c, hc, hop, hhop, hkey, rfl, rfl⟩
    obtain ⟨e, he, hmakes⟩ := hbuilt.exists_edge hbuildable.edgesOnce hm
    obtain ⟨name, rfl⟩ := hmakes.eq
    exact ⟨_, he, rfl, (joinRuns_pair c.docs hop.arrow.docs).symm⟩

/-- A chain whose second position gets its type from a node statement behind it. -/
def openDoor : List Statement :=
  [.chain { docs := ["Opening."], first := [{ name := "Closed", docs := ["Shut."] }],
            rest := [({ form := .named "open" ["By hand."] }, [{ name := "Open" }])] },
   .node { name := "Open", ty := some "u8" }, .node { name := "Closed", docs := ["And locked."] }]

def openDoorGraph : Graph :=
  { nodes := .ofList [("Closed", { docs := ["And locked.", "", "Shut."] }),
      ("Open", { ty := some "u8" })],
    edges := .ofList [(⟨"Closed", "Open"⟩,
      { methodName := "open", docs := ["Opening.", "", "By hand."], explicit := true })] }

theorem openDoor_contents : Graph.ofStatements true ["Door"] none openDoor = .ok openDoorGraph ∧
    Contents openDoor openDoorGraph := by
  have hrun : Graph.ofStatements true ["Door"] none openDoor = .ok openDoorGraph := by rfl
  exact ⟨hrun, Graph.ofStatements_contents hrun⟩

end Typestate
