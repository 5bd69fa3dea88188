import Mathlib.Data.List.Pairwise
import Typestate.Proofs.Graph.EdgeMention
import Typestate.Proofs.Graph.MethodNames

/-!
When statements make a graph, and which. Building decides whether they are `Buildable`, which says in
terms of the mentions of nodes and edges what the steps check one after the other
(`Graph.ofStatements_exact`), and the graph that it leaves is the one they make (`Built`).
-/

namespace Typestate

/-- The edges that the statements draft. -/
def edgeMap (renameMethods : Bool) (statements : List Statement) : SortedMap EdgeKey Edge :=
  .ofList ((edgeMentions statements).map fun m => (m.key, m.edge renameMethods))

/-- No two edges out of one node have the same method name, one of which at least is named by an
arrow. -/
def NamesApart (renameMethods : Bool) (ms : List EdgeMention) : Prop :=
  ∀ m ∈ ms, ∀ m' ∈ ms, m.key ≠ m'.key → m.key.source = m'.key.source →
    m.arrow.isNamed = true ∨ m'.arrow.isNamed = true →
      m.methodName renameMethods ≠ m'.methodName renameMethods

/-- The statements make a graph. -/
structure Buildable (renameMethods : Bool) (reserved : List String) (statements : List Statement) :
    Prop where
  agree : Agree (mentions statements)
  edgesOnce : ((edgeMentions statements).map (·.key)).Nodup
  someEdge : edgeMentions statements ≠ []
  namesApart : NamesApart renameMethods (edgeMentions statements)
  unreserved : ∀ name ∈ reserved, ∀ m ∈ edgeMentions statements, m.key.source ≠ name

/-- The graph is the one that the statements make. -/
structure Built (renameMethods : Bool) (statements : List Statement) (g : Graph) : Prop where
  nodes : ∀ name, g.nodes.get? name = Node.ofMentions (mentionsOf (mentions statements) name)
  leaving : ∀ source, g.leaving source =
    settled (Graph.leaving { edges := edgeMap renameMethods statements } source)

/-! ## Drafted edges -/

theorem mem_keys_edgeMap (renameMethods : Bool) (statements : List Statement) (key : EdgeKey) :
    key ∈ (edgeMap renameMethods statements).keys ↔ ∃ m ∈ edgeMentions statements, m.key = key := by
  rw [edgeMap, SortedMap.mem_keys_ofList, List.map_map, List.mem_map]
  rfl

section
variable {renameMethods : Bool} {statements : List Statement}

theorem get?_edgeMap (h : ((edgeMentions statements).map (·.key)).Nodup) (key : EdgeKey) (e : Edge) :
    (edgeMap renameMethods statements).get? key = some e ↔
      ∃ m ∈ edgeMentions statements, m.key = key ∧ m.edge renameMethods = e := by
  rw [edgeMap, SortedMap.get?_ofList]
  · simp
  · rwa [List.map_map]

theorem mem_leaving_edgeMap (h : ((edgeMentions statements).map (·.key)).Nodup)
    (source target : String) (e : Edge) :
    (target, e) ∈ Graph.leaving { edges := edgeMap renameMethods statements } source ↔
      ∃ m ∈ edgeMentions statements, m.key = ⟨source, target⟩ ∧ m.edge renameMethods = e := by
  rw [Graph.mem_leaving, get?_edgeMap h]

/-- Clashes among the edges out of the nodes are clashes among mentions of edges. -/
theorem clashFree_iff_namesApart (h : ((edgeMentions statements).map (·.key)).Nodup) :
    (∀ s, ClashFree (Graph.leaving { edges := edgeMap renameMethods statements } s)) ↔
      NamesApart renameMethods (edgeMentions statements) := by
  constructor
  · intro hfree m hm m' hm' hkey hsource hnamed
    have hmem := (mem_leaving_edgeMap h m.key.source m.key.target (m.edge renameMethods)).mpr
      ⟨m, hm, rfl, rfl⟩
    have hmem' := (mem_leaving_edgeMap h m.key.source m'.key.target (m'.edge renameMethods)).mpr
      ⟨m', hm', by rw [hsource], rfl⟩
    have hne : (m.key.target, m.edge renameMethods) ≠ (m'.key.target, m'.edge renameMethods) := by
      intro heq
      exact hkey (EdgeKey.ext hsource (congrArg (·.1) heq))
    have : Std.Symm fun a b : String × Edge => a.2.explicit = true ∨ b.2.explicit = true →
        a.2.methodName ≠ b.2.methodName := ⟨fun a b hab hba => (hab hba.symm).symm⟩
    exact (hfree m.key.source).forall hmem hmem' hne hnamed
  · intro hapart s
    have hnodup : (Graph.leaving { edges := edgeMap renameMethods statements } s).Nodup :=
      (Graph.nodup_leaving_targets _ s).of_map _
    refine hnodup.pairwise_of_forall_ne ?_
    rintro ⟨target, e⟩ he ⟨target', e'⟩ he' hne hnamed
    obtain ⟨m, hm, hkey, rfl⟩ := (mem_leaving_edgeMap h s target e).mp he
    obtain ⟨m', hm', hkey', rfl⟩ := (mem_leaving_edgeMap h s target' e').mp he'
    refine hapart m hm m' hm' ?_ (by rw [hkey, hkey']) hnamed
    intro hsame
    rw [List.inj_on_of_nodup_map h hm hm' hsame] at hkey hne
    rw [hkey] at hkey'
    cases hkey'
    exact hne rfl

end

/-! ## Steps -/

namespace Drafting

variable (renameMethods : Bool) (statements : List Statement)

/-- All statements are added by merging the mentions of nodes, then adding those of edges. -/
theorem addStatements_eq : addStatements renameMethods statements = (do
    forM (mentions statements) addNode
    forM (edgeMentions statements) fun m => addEdge renameMethods m.key m.arrow m.docs) := by
  simp only [addStatements, mentions, edgeMentions, List.forM_eq_forM, List.forM_append,
    Run.forM_flatMap, ← funext (addChain_eq renameMethods), bind_assoc]

theorem decides_addStatements :
    Decides (addStatements renameMethods statements) {}
      (Agree (mentions statements) ∧ ((edgeMentions statements).map (·.key)).Nodup)
      fun _ d => d.HasNodesOf (mentions statements) ∧
        d.graph.edges = edgeMap renameMethods statements := by
  rw [addStatements_eq]
  refine (decides_forM_addNode (mentions statements) rfl).bind fun _ _ d h => ?_
  refine (decides_forM_addEdge renameMethods (edgeMentions statements) h.2).weaken ?_
  rintro - - d' ⟨hnodes, hedges⟩
  refine ⟨fun name => ?_, hedges⟩
  rw [hnodes]
  exact h.1 name

/-- The check of reserved names never meets a source that is not a node. -/
theorem decides_checkReserved (reserved : List String) (anchor : Option Span) (d : Draft)
    (hnodes : ∀ name ∈ d.graph.sources, name ∈ d.graph.nodes.keys) :
    Decides (checkReserved reserved anchor) d (∀ name ∈ reserved, name ∉ d.graph.sources)
      fun _ d' => d' = d := by
  cases hfind : reserved.find? d.graph.sources.contains with
  | none =>
    have hrun : checkReserved reserved anchor d = .ok () d := by
      unfold checkReserved
      simp only [Run.get_bind_apply, hfind]
      rfl
    refine decides_of_eq_ok hrun (fun name hname hsource => ?_) rfl
    exact List.find?_eq_none.mp hfind name hname (List.contains_iff_mem.mpr hsource)
  | some name =>
    have hsource : name ∈ d.graph.sources := List.contains_iff_mem.mp (List.find?_some hfind)
    obtain ⟨n, hn⟩ := (SortedMap.mem_keys_iff _ _).mp (hnodes name hsource)
    have hrun : checkReserved reserved anchor d =
        .error (.invalid (.reservedName name) (n.span.or anchor)) d := by
      unfold checkReserved
      simp only [Run.get_bind_apply, hfind, hn]
      rfl
    refine decides_of_eq_invalid hrun fun h => ?_
    exact h name (List.mem_of_find?_eq_some hfind) hsource

/-- The end of the building, with the names settled. -/
theorem decides_finish (reserved : List String) (anchor : Option Span) {d d' : Draft}
    (hnodes : ∀ key ∈ d.graph.edges.keys, key.source ∈ d.graph.nodes.keys)
    (hsame : d'.graph.nodes = d.graph.nodes)
    (hleaving : ∀ s, d'.graph.leaving s = settled (d.graph.leaving s)) :
    Decides (do
        checkReserved reserved anchor
        return (← get).graph) d'
      (∀ name ∈ reserved, ∀ key ∈ d.graph.edges.keys, key.source ≠ name)
      fun g _ => g.nodes = d.graph.nodes ∧ ∀ s, g.leaving s = settled (d.graph.leaving s) := by
  have hsources : ∀ s, s ∈ d'.graph.sources ↔ ∃ key ∈ d.graph.edges.keys, key.source = s := by
    intro s
    simp only [Graph.mem_sources, mem_keys_of_settled hleaving]
    constructor
    · rintro ⟨target, hkey⟩
      exact ⟨_, hkey, rfl⟩
    · rintro ⟨key, hkey, rfl⟩
      exact ⟨key.target, hkey⟩
  have hends : ∀ s ∈ d'.graph.sources, s ∈ d'.graph.nodes.keys := by
    intro s hs
    obtain ⟨key, hkey, rfl⟩ := (hsources s).mp hs
    rw [hsame]
    exact hnodes key hkey
  have hget : ∀ (_ : Unit) (d₁ : Draft), d₁ = d' → Decides (do return (← get).graph) d₁ True
      fun g _ => g.nodes = d.graph.nodes ∧ ∀ s, g.leaving s = settled (d.graph.leaving s) := by
    rintro _ d₁ rfl
    exact decides_of_eq_ok rfl trivial ⟨hsame, hleaving⟩
  refine ((decides_checkReserved reserved anchor d' hends).bind fun _ => hget).congr ?_
  simp [hsources]

/-- What is left to do with all edges drafted: there must be some, their names are settled, and none
may leave a node of a reserved name. -/
theorem decides_settle (reserved : List String) (anchor : Option Span) (d : Draft)
    (hnodes : ∀ key ∈ d.graph.edges.keys, key.source ∈ d.graph.nodes.keys) :
    Decides (do
        if (← get).graph.edges.size = 0 then fail .noEdges anchor
        settleNames
        checkReserved reserved anchor
        return (← get).graph) d
      (d.graph.edges.keys ≠ [] ∧ (∀ s, ClashFree (d.graph.leaving s)) ∧
        ∀ name ∈ reserved, ∀ key ∈ d.graph.edges.keys, key.source ≠ name)
      fun g _ => g.nodes = d.graph.nodes ∧ ∀ s, g.leaving s = settled (d.graph.leaving s) := by
  by_cases hsize : d.graph.edges.size = 0
  · have hrun : (do
        if (← get).graph.edges.size = 0 then fail .noEdges anchor
        settleNames
        checkReserved reserved anchor
        return (← get).graph : Drafting Graph) d = .error (.invalid .noEdges anchor) d := by
      change (if d.graph.edges.size = 0 then fail .noEdges anchor >>= _ else _ : Drafting Graph) d = _
      rw [if_pos hsize]
      rfl
    exact decides_of_eq_invalid hrun fun h => h.1 ((SortedMap.size_eq_zero_iff _).mp hsize)
  · have hrest := (decides_settleNames d).bind fun _ _ d' h =>
      decides_finish reserved anchor hnodes h.2 h.1
    refine Decides.of_run_eq (hrest.congr ?_) ?_
    · simp [← SortedMap.size_eq_zero_iff, hsize]
    · change (if d.graph.edges.size = 0 then fail .noEdges anchor >>= _ else _ : Drafting Graph) d = _
      rw [if_neg hsize]

/-- **Building.** A graph is built exactly of statements that are buildable, and it is what they build. -/
theorem decides_build (reserved : List String) (anchor : Option Span) :
    Decides (build renameMethods reserved anchor statements) {}
      (Buildable renameMethods reserved statements) fun g _ => Built renameMethods statements g := by
  have hkeys := mem_keys_edgeMap renameMethods statements
  have hdrafted : ∀ (_ : Unit) (d : Draft), d.HasNodesOf (mentions statements) ∧
      d.graph.edges = edgeMap renameMethods statements →
      Decides (do
          if (← get).graph.edges.size = 0 then fail .noEdges anchor
          settleNames
          checkReserved reserved anchor
          return (← get).graph) d
        (edgeMentions statements ≠ [] ∧
          (∀ s, ClashFree (Graph.leaving { edges := edgeMap renameMethods statements } s)) ∧
            ∀ name ∈ reserved, ∀ m ∈ edgeMentions statements, m.key.source ≠ name)
        fun g _ => Built renameMethods statements g := by
    rintro - d ⟨hnodes, hedges⟩
    have hleaving : ∀ s, d.graph.leaving s =
        Graph.leaving { edges := edgeMap renameMethods statements } s := by
      intro s
      rw [← hedges]
      rfl
    have hsources : ∀ key ∈ d.graph.edges.keys, key.source ∈ d.graph.nodes.keys := by
      intro key hkey
      rw [hedges] at hkey
      obtain ⟨m, hm, rfl⟩ := (hkeys key).mp hkey
      rw [SortedMap.mem_keys_iff, hnodes, Node.exists_ofMentions_iff]
      exact (ends_mem_mentions hm).1
    refine ((decides_settle reserved anchor d hsources).weaken ?_).congr ?_
    · rintro - g - ⟨hg, hsettled⟩
      refine ⟨fun name => ?_, fun s => ?_⟩
      · rw [hg, hnodes]
      · rw [hsettled, hleaving]
    · simp only [hleaving]
      refine and_congr (not_congr ?_) (and_congr_right fun _ => ?_)
      · simp only [List.eq_nil_iff_forall_not_mem, hedges, hkeys]
        simp
      · simp only [hedges, hkeys]
        simp
  refine Decides.congr ((decides_addStatements renameMethods statements).bind fun _ => hdrafted) ?_
  constructor
  · rintro ⟨⟨hagree, honce⟩, hsome, hclash, hreserved⟩
    exact ⟨hagree, honce, hsome, (clashFree_iff_namesApart honce).mp hclash, hreserved⟩
  · rintro ⟨hagree, honce, hsome, hapart, hreserved⟩
    exact ⟨⟨hagree, honce⟩, hsome, (clashFree_iff_namesApart honce).mpr hapart, hreserved⟩

end Drafting

/-! ## Graphs of statements -/

namespace Graph

variable {renameMethods : Bool} {reserved : List String} {anchor : Option Span}
  {statements : List Statement}

theorem built_of_ofStatements {g : Graph}
    (h : ofStatements renameMethods reserved anchor statements = .ok g) :
    Buildable renameMethods reserved statements ∧ Built renameMethods statements g := by
  have hdecides := Drafting.decides_build renameMethods statements reserved anchor
  unfold ofStatements at h
  split at h
  · next g' d hrun =>
    cases h
    exact hdecides.of_ok g d hrun
  · cases h

theorem invalid_of_ofStatements {fault : DraftFault}
    (h : ofStatements renameMethods reserved anchor statements = .error fault) :
    ¬ Buildable renameMethods reserved statements ∧ ∃ cause span, fault = .invalid cause span := by
  have hdecides := Drafting.decides_build renameMethods statements reserved anchor
  unfold ofStatements at h
  split at h
  · cases h
  · next fault' d hrun =>
    cases h
    exact hdecides.of_error fault d hrun

theorem exists_ofStatements_iff :
    (∃ g, ofStatements renameMethods reserved anchor statements = .ok g) ↔
      Buildable renameMethods reserved statements := by
  constructor
  · rintro ⟨g, hg⟩
    exact (built_of_ofStatements hg).1
  · intro h
    cases hrun : ofStatements renameMethods reserved anchor statements with
    | ok g => exact ⟨g, rfl⟩
    | error fault => exact absurd h (invalid_of_ofStatements hrun).1

/-- **Exactness.** Statements have a graph exactly if they are buildable; whatever else they are, the
failure to report is one of validation. -/
theorem ofStatements_exact (renameMethods : Bool) (reserved : List String) (anchor : Option Span)
    (statements : List Statement) :
    ((∃ g, ofStatements renameMethods reserved anchor statements = .ok g) ↔
      Buildable renameMethods reserved statements) ∧
    ∀ fault, ofStatements renameMethods reserved anchor statements = .error fault →
      ∀ file text, ∃ error, fault.failure file text = .validation error := by
  refine ⟨exists_ofStatements_iff, fun fault hfault file text => ?_⟩
  obtain ⟨-, cause, span, rfl⟩ := invalid_of_ofStatements hfault
  exact ⟨_, rfl⟩

end Graph

end Typestate
