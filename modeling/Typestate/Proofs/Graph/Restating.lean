import Typestate.Proofs.Grammar.Spelling
import Typestate.Proofs.Graph.Reordering

/-!
Statements that say the same in other words. A graph is made of the mentions of nodes and edges, and where
these stand in a text is kept for complaints alone, so lists of statements with the same mentions but for
their places and their order make the same graph but for places (`Built.sameUpToSpans`), or none of them
makes one (`Buildable.restate`).
-/

namespace Typestate

def EdgeMention.withoutSpan (m : EdgeMention) : EdgeMention := { m with arrow := m.arrow.withoutSpan }

/-- The statements mention the same edges and make the same nodes, but for places. -/
structure SameMentions (statements statements' : List Statement) : Prop where
  refs : ∀ r, r ∈ (mentions statements).map NodeRef.withoutSpan ↔
    r ∈ (mentions statements').map NodeRef.withoutSpan
  nodes : ∀ name, (Node.ofMentions (mentionsOf (mentions statements) name)).map Node.withoutSpan =
    (Node.ofMentions (mentionsOf (mentions statements') name)).map Node.withoutSpan
  edges : ((edgeMentions statements).map EdgeMention.withoutSpan).Perm
    ((edgeMentions statements').map EdgeMention.withoutSpan)

theorem SameMentions.symm {statements statements' : List Statement}
    (h : SameMentions statements statements') : SameMentions statements' statements :=
  ⟨fun r => (h.refs r).symm, fun name => (h.nodes name).symm, h.edges.symm⟩

theorem SameMentions.trans {statements statements' statements'' : List Statement}
    (h : SameMentions statements statements') (h' : SameMentions statements' statements'') :
    SameMentions statements statements'' :=
  ⟨fun r => (h.refs r).trans (h'.refs r), fun name => (h.nodes name).trans (h'.nodes name),
    h.edges.trans h'.edges⟩

/-! ## Mentions without their places -/

theorem mentionsOf_withoutSpan (refs : List NodeRef) (name : String) :
    mentionsOf (refs.map NodeRef.withoutSpan) name =
      (mentionsOf refs name).map NodeRef.withoutSpan := List.filter_map

theorem Node.ofMentions_withoutSpan (refs : List NodeRef) :
    (ofMentions refs).map Node.withoutSpan =
      (ofMentions (refs.map NodeRef.withoutSpan)).map Node.withoutSpan := by
  unfold ofMentions
  rw [List.isEmpty_map]
  split
  · rfl
  · simp only [Option.map_some, gather, withoutSpan, List.findSome?_map, List.map_map]
    rfl

theorem nodeStatements_withoutSpans (statements : List Statement) :
    nodeStatements (statements.map Statement.withoutSpans) =
      (nodeStatements statements).map NodeRef.withoutSpan := by
  induction statements with
  | nil => rfl
  | cons s rest ih =>
    cases s with
    | node r => exact congrArg (r.withoutSpan :: ·) ih
    | chain c => exact ih

theorem chains_withoutSpans (statements : List Statement) :
    chains (statements.map Statement.withoutSpans) =
      (chains statements).map Chain.withoutSpans := by
  induction statements with
  | nil => rfl
  | cons s rest ih =>
    cases s with
    | node r => exact ih
    | chain c => exact congrArg (c.withoutSpans :: ·) ih

theorem Chain.nodeRefs_withoutSpans (c : Chain) :
    c.withoutSpans.nodeRefs = c.nodeRefs.map NodeRef.withoutSpan := by
  simp only [nodeRefs, groups, withoutSpans, List.map_flatten, List.map_cons, List.map_map]
  rfl

theorem mentions_withoutSpans (statements : List Statement) :
    mentions (statements.map Statement.withoutSpans) =
      (mentions statements).map NodeRef.withoutSpan := by
  simp only [mentions, nodeStatements_withoutSpans, chains_withoutSpans, List.map_append,
    List.flatMap_map, List.map_flatMap, Chain.nodeRefs_withoutSpans]

/-- An arrow with the positions on its two sides, without places. -/
def Hop.withoutSpans (h : Hop) : Hop where
  sources := h.sources.map NodeRef.withoutSpan
  arrow := h.arrow.withoutSpan
  targets := h.targets.map NodeRef.withoutSpan

theorem Chain.hopsFrom_withoutSpans (sources : NodeGroup) (rest : List (Arrow × NodeGroup)) :
    hopsFrom (sources.map NodeRef.withoutSpan) (rest.map stepWithoutSpans) =
      (hopsFrom sources rest).map Hop.withoutSpans := by
  induction rest generalizing sources with
  | nil => rfl
  | cons step rest ih => exact congrArg (Hop.withoutSpans ⟨sources, step.1, step.2⟩ :: ·) (ih step.2)

theorem Hop.ends_withoutSpans (h : Hop) : h.withoutSpans.ends = h.ends := by
  have hnames : ∀ g : NodeGroup, NodeGroup.names (g.map NodeRef.withoutSpan) = g.names := by
    intro g
    simp only [NodeGroup.names, List.map_map]
    rfl
  simp only [ends, withoutSpans, hnames]

theorem Chain.edgeMentions_withoutSpans (c : Chain) :
    c.withoutSpans.edgeMentions = c.edgeMentions.map EdgeMention.withoutSpan := by
  have hhops : c.withoutSpans.hops = c.hops.map Hop.withoutSpans := hopsFrom_withoutSpans c.first c.rest
  simp only [edgeMentions, hhops, List.flatMap_map, List.map_flatMap, List.map_map, Hop.ends_withoutSpans]
  rfl

theorem edgeMentions_withoutSpans (statements : List Statement) :
    edgeMentions (statements.map Statement.withoutSpans) =
      (edgeMentions statements).map EdgeMention.withoutSpan := by
  simp only [edgeMentions, chains_withoutSpans, List.flatMap_map, List.map_flatMap,
    Chain.edgeMentions_withoutSpans]

/-- Statements that differ in places alone have the same mentions. -/
theorem sameMentions_of_withoutSpans {statements statements' : List Statement}
    (h : statements.map Statement.withoutSpans = statements'.map Statement.withoutSpans) :
    SameMentions statements statements' := by
  have hrefs : (mentions statements).map NodeRef.withoutSpan =
      (mentions statements').map NodeRef.withoutSpan := by
    rw [← mentions_withoutSpans, ← mentions_withoutSpans, h]
  refine ⟨fun r => by rw [hrefs], fun name => ?_, ?_⟩
  · rw [Node.ofMentions_withoutSpan, Node.ofMentions_withoutSpan (mentionsOf (mentions statements') name),
      ← mentionsOf_withoutSpan, ← mentionsOf_withoutSpan, hrefs]
  · rw [← edgeMentions_withoutSpans, ← edgeMentions_withoutSpans, h]

/-- Mentions that give no type and no documentation say nothing about a node but that it is there. -/
theorem Node.withoutSpan_gather {refs : List NodeRef} (h : ∀ r ∈ refs, r.ty = none ∧ r.docs = []) :
    (gather refs).withoutSpan = {} := by
  have hty : refs.findSome? (·.ty) = none := List.findSome?_eq_none_iff.mpr fun r hr => (h r hr).1
  have hdocs : joinRuns (refs.map (·.docs)) = [] := by
    have hempty : (refs.map (·.docs)).filter (!·.isEmpty) = [] := by
      rw [List.filter_eq_nil_iff]
      intro docs hmem
      obtain ⟨r, hr, rfl⟩ := List.mem_map.mp hmem
      simp [(h r hr).2]
    rw [joinRuns, hempty]
    rfl
  rw [gather, hty, hdocs]
  rfl

/-- Where nodes are mentioned by their names alone, it does not matter how often. -/
theorem sameMentions_of_bare {statements statements' : List Statement}
    (hsame : ∀ r, r ∈ mentions statements ↔ r ∈ mentions statements')
    (hbare : ∀ r ∈ mentions statements, r.ty = none ∧ r.docs = [])
    (hedges : (edgeMentions statements).Perm (edgeMentions statements')) : SameMentions statements statements' := by
  refine ⟨fun r => ?_, fun name => ?_, hedges.map _⟩
  · simp only [List.mem_map, hsame]
  · have hmem : ∀ r, r ∈ mentionsOf (mentions statements) name ↔ r ∈ mentionsOf (mentions statements') name := by
      intro r
      rw [mem_mentionsOf, mem_mentionsOf, hsame]
    have hgather : (Node.gather (mentionsOf (mentions statements) name)).withoutSpan =
        (Node.gather (mentionsOf (mentions statements') name)).withoutSpan := by
      rw [Node.withoutSpan_gather, Node.withoutSpan_gather]
      · exact fun r hr => hbare r ((mem_mentionsOf _ _ _).mp ((hmem r).mpr hr)).1
      · exact fun r hr => hbare r ((mem_mentionsOf _ _ _).mp hr).1
    have hempty : (mentionsOf (mentions statements) name).isEmpty = (mentionsOf (mentions statements') name).isEmpty := by
      rw [Bool.eq_iff_iff, List.isEmpty_iff, List.isEmpty_iff, List.eq_nil_iff_forall_not_mem,
        List.eq_nil_iff_forall_not_mem]
      simp only [hmem]
    rw [Node.ofMentions, Node.ofMentions, hempty]
    split
    · rfl
    · exact congrArg some hgather

/-! ## Names without places -/

/-- An edge out of a node with its target, without the place of its arrow. -/
def leavingWithoutSpan (p : String × Edge) : String × Edge := (p.1, p.2.withoutSpan)

theorem numberedFrom_withoutSpan (names used : List String) (out : List (String × Edge)) :
    numberedFrom names used (out.map leavingWithoutSpan) =
      (numberedFrom names used out).map leavingWithoutSpan := by
  induction out generalizing used with
  | nil => rfl
  | cons p out ih =>
    obtain ⟨target, e⟩ := p
    cases he : e.explicit with
    | true =>
      rw [numberedFrom_explicit names used target he, List.map_cons, List.map_cons, ← ih]
      exact numberedFrom_explicit names used target (e := e.withoutSpan) he _
    | false =>
      rw [numberedFrom_derived names used target he, List.map_cons, List.map_cons, ← ih]
      exact numberedFrom_derived names used target (e := e.withoutSpan) he _

theorem settled_withoutSpan (out : List (String × Edge)) :
    settled (out.map leavingWithoutSpan) = (settled out).map leavingWithoutSpan := by
  have hnames : (out.map leavingWithoutSpan).map (·.2.methodName) = out.map (·.2.methodName) := by
    rw [List.map_map]
    rfl
  rw [settled, hnames, numberedFrom_withoutSpan]
  rfl

/-- The edges are the same but for their places if those out of each node are. -/
theorem Graph.sameEdges_of_leaving {g g' : Graph} (h : ∀ source,
    (g.leaving source).map leavingWithoutSpan = (g'.leaving source).map leavingWithoutSpan) :
    g.SameEdges g' := by
  have hget : ∀ (g : Graph) (key : EdgeKey) (e : Edge), (g.edges.get? key).map Edge.withoutSpan = some e ↔
      (key.target, e) ∈ (g.leaving key.source).map leavingWithoutSpan := by
    intro g key e
    simp only [Option.map_eq_some_iff, List.mem_map, leavingWithoutSpan, Prod.mk.injEq, Prod.exists,
      mem_leaving]
    constructor
    · rintro ⟨e', he', rfl⟩
      exact ⟨_, e', he', rfl, rfl⟩
    · rintro ⟨_, e', he', rfl, rfl⟩
      exact ⟨e', he', rfl⟩
  intro key
  apply Option.ext
  intro e
  rw [hget, hget, h]

/-! ## Graphs -/

section
variable {renameMethods : Bool} {reserved : List String} {statements statements' : List Statement}
  (h : SameMentions statements statements')
include h

/-- Each mention of a node is one in the other words. -/
theorem SameMentions.exists_ref {r : NodeRef} (hr : r ∈ mentions statements') :
    ∃ r₁ ∈ mentions statements, r₁.name = r.name ∧ r₁.ty = r.ty := by
  obtain ⟨r₁, hr₁, hsame⟩ := List.mem_map.mp ((h.refs _).mpr (List.mem_map_of_mem hr))
  exact ⟨r₁, hr₁, (congrArg NodeRef.name hsame :), (congrArg NodeRef.ty hsame :)⟩

/-- So is each mention of an edge. -/
theorem SameMentions.exists_edge {m : EdgeMention} (hm : m ∈ edgeMentions statements') :
    ∃ m₁ ∈ edgeMentions statements, m₁.key = m.key ∧ m₁.arrow.isNamed = m.arrow.isNamed ∧
      m₁.methodName renameMethods = m.methodName renameMethods := by
  obtain ⟨m₁, hm₁, hsame⟩ := List.mem_map.mp (h.edges.mem_iff.mpr (List.mem_map_of_mem hm))
  exact ⟨m₁, hm₁, (congrArg EdgeMention.key hsame :), (congrArg (·.arrow.isNamed) hsame :),
    (congrArg (·.methodName renameMethods) hsame :)⟩

theorem SameMentions.keys_perm :
    ((edgeMentions statements).map (·.key)).Perm ((edgeMentions statements').map (·.key)) := by
  have hkeys : ∀ ms : List EdgeMention,
      ms.map (·.key) = (ms.map EdgeMention.withoutSpan).map (·.key) := by
    intro ms
    rw [List.map_map]
    rfl
  rw [hkeys, hkeys (edgeMentions statements')]
  exact h.edges.map _

/-- **Validity.** Statements with the same mentions are buildable if one of them is. -/
theorem Buildable.restate (hbuildable : Buildable renameMethods reserved statements) :
    Buildable renameMethods reserved statements' := by
  have hedge : ∀ m ∈ edgeMentions statements', ∃ m₁ ∈ edgeMentions statements,
      m₁.key = m.key ∧ m₁.arrow.isNamed = m.arrow.isNamed ∧
        m₁.methodName renameMethods = m.methodName renameMethods :=
    fun _ hm => h.exists_edge hm
  constructor
  case agree =>
    intro r hr r' hr' hname ty hty ty' hty'
    obtain ⟨r₁, hr₁, hname₁, hty₁⟩ := h.exists_ref hr
    obtain ⟨r₂, hr₂, hname₂, hty₂⟩ := h.exists_ref hr'
    refine hbuildable.agree r₁ hr₁ r₂ hr₂ ?_ ty (hty₁.trans hty) ty' (hty₂.trans hty')
    rw [hname₁, hname₂, hname]
  case edgesOnce => exact h.keys_perm.nodup_iff.mp hbuildable.edgesOnce
  case someEdge =>
    intro hnil
    have hempty := h.edges
    rw [hnil, List.map_nil] at hempty
    exact hbuildable.someEdge (List.map_eq_nil_iff.mp hempty.eq_nil)
  case namesApart =>
    intro m hm m' hm' hkey hsource hnamed
    obtain ⟨m₁, hm₁, hkey₁, hnamed₁, hmethod₁⟩ := hedge m hm
    obtain ⟨m₂, hm₂, hkey₂, hnamed₂, hmethod₂⟩ := hedge m' hm'
    rw [← hmethod₁, ← hmethod₂]
    refine hbuildable.namesApart m₁ hm₁ m₂ hm₂ ?_ ?_ ?_
    · rwa [hkey₁, hkey₂]
    · rwa [hkey₁, hkey₂]
    · rwa [hnamed₁, hnamed₂]
  case unreserved =>
    intro name hname m hm
    obtain ⟨m₁, hm₁, hkey₁, -⟩ := hedge m hm
    rw [← hkey₁]
    exact hbuildable.unreserved name hname m₁ hm₁

/-- The drafted edges are the same but for their places. -/
theorem SameMentions.edgeMap (honce : ((edgeMentions statements).map (·.key)).Nodup) :
    Graph.SameEdges { edges := Typestate.edgeMap renameMethods statements }
      { edges := Typestate.edgeMap renameMethods statements' } := by
  have hget : ∀ {statements : List Statement}, ((edgeMentions statements).map (·.key)).Nodup →
      ∀ key e, ((Typestate.edgeMap renameMethods statements).get? key).map Edge.withoutSpan = some e ↔
        ∃ m ∈ (edgeMentions statements).map EdgeMention.withoutSpan,
          m.key = key ∧ m.edge renameMethods = e := by
    intro statements honce key e
    simp only [Option.map_eq_some_iff, get?_edgeMap honce, List.mem_map]
    constructor
    · rintro ⟨_, ⟨m, hm, rfl, rfl⟩, rfl⟩
      exact ⟨_, ⟨m, hm, rfl⟩, rfl, rfl⟩
    · rintro ⟨_, ⟨m, hm, rfl⟩, rfl, rfl⟩
      exact ⟨_, ⟨m, hm, rfl, rfl⟩, rfl⟩
  intro key
  apply Option.ext
  intro e
  rw [hget honce, hget (h.keys_perm.nodup_iff.mp honce)]
  exact exists_congr fun m => and_congr_left fun _ => h.edges.mem_iff

/-- **Restating.** Statements with the same mentions make the same graph, but for places. -/
theorem Built.sameUpToSpans {g g' : Graph} (hg : Built renameMethods statements g)
    (hg' : Built renameMethods statements' g')
    (honce : ((edgeMentions statements).map (·.key)).Nodup) : g.SameUpToSpans g' := by
  refine ⟨fun name => ?_, Graph.sameEdges_of_leaving fun source => ?_⟩
  · rw [hg.nodes, hg'.nodes, h.nodes]
  · rw [hg.leaving, hg'.leaving, ← settled_withoutSpan, ← settled_withoutSpan]
    exact congrArg settled ((h.edgeMap honce).leaving_eq source)

end

end Typestate
