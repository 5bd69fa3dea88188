import Mathlib.Data.List.Nodup
import Typestate.Proofs.Graph.Mention

/-!
What chains make of edges. Each hop mentions an edge from each of its sources to each of its targets
(`edgeMentions`). Adding them decides whether any edge is mentioned twice, and leaves the map of what
they mention (`decides_forM_addEdge`).
-/

namespace Typestate

/-- A mention of an edge: an arrow from one node to another, and the documentation of its chain. -/
structure EdgeMention where
  key : EdgeKey
  arrow : Arrow
  docs : List String

namespace EdgeMention

/-- The method name that the arrow asks for, before any number is put behind it. -/
def methodName (m : EdgeMention) (renameMethods : Bool) : String :=
  m.arrow.methodName m.key.target renameMethods

/-- The edge as it is first drafted. -/
def edge (m : EdgeMention) (renameMethods : Bool) : Edge :=
  { methodName := m.methodName renameMethods, docs := joinDocs m.docs m.arrow.docs,
    explicit := m.arrow.isNamed, span := m.arrow.span }

end EdgeMention

def Chain.edgeMentions (c : Chain) : List EdgeMention :=
  c.hops.flatMap fun h => h.ends.map fun key => ⟨key, h.arrow, c.docs⟩

/-- All mentions of edges, in order. -/
def edgeMentions (statements : List Statement) : List EdgeMention :=
  (chains statements).flatMap Chain.edgeMentions

/-! ## Hops -/

theorem mem_ends (h : Hop) (k : EdgeKey) :
    k ∈ h.ends ↔ k.source ∈ h.sources.names ∧ k.target ∈ h.targets.names := by
  simp only [Hop.ends, List.mem_flatMap, List.mem_map]
  constructor
  · rintro ⟨source, hs, target, ht, rfl⟩
    exact ⟨hs, ht⟩
  · rintro ⟨hs, ht⟩
    exact ⟨k.source, hs, k.target, ht, rfl⟩

/-- The hops of a chain join consecutive positions of it, and none is left out. -/
theorem hops_sides (c : Chain) :
    c.hops.map (fun h => (h.sources, h.targets)) = c.groups.zip c.groups.tail := by
  unfold Chain.hops Chain.groups
  generalize c.first = first
  generalize c.rest = rest
  induction rest generalizing first with
  | nil => rfl
  | cons step rest ih =>
    have := ih step.2
    simpa [Chain.hopsFrom] using this

theorem mem_edgeMentions (statements : List Statement) (m : EdgeMention) :
    m ∈ edgeMentions statements ↔ ∃ c ∈ chains statements, ∃ h ∈ c.hops,
      m.key ∈ h.ends ∧ m.arrow = h.arrow ∧ m.docs = c.docs := by
  simp only [edgeMentions, Chain.edgeMentions, List.mem_flatMap, List.mem_map]
  constructor
  · rintro ⟨c, hc, h, hh, key, hkey, rfl⟩
    exact ⟨c, hc, h, hh, hkey, rfl, rfl⟩
  · rintro ⟨c, hc, h, hh, hkey, ha, hd⟩
    refine ⟨c, hc, h, hh, m.key, hkey, ?_⟩
    rw [← ha, ← hd]

/-- Both positions of a hop are positions of its chain. -/
theorem mem_groups_of_mem_hops {c : Chain} {h : Hop} (hh : h ∈ c.hops) :
    h.sources ∈ c.groups ∧ h.targets ∈ c.groups := by
  have hmem : (h.sources, h.targets) ∈ c.groups.zip c.groups.tail := by
    rw [← hops_sides]
    exact List.mem_map_of_mem hh
  exact ⟨(List.of_mem_zip hmem).1, List.mem_of_mem_tail (List.of_mem_zip hmem).2⟩

/-- The arrow of a hop is one of its chain. -/
theorem exists_step_of_mem_hops {c : Chain} {h : Hop} (hh : h ∈ c.hops) :
    ∃ step ∈ c.rest, step.1 = h.arrow := by
  unfold Chain.hops at hh
  generalize c.first = first at hh
  generalize c.rest = rest at hh ⊢
  induction rest generalizing first with
  | nil => cases hh
  | cons step rest ih =>
    rcases List.mem_cons.mp hh with rfl | hh
    · exact ⟨step, List.mem_cons_self .., rfl⟩
    · obtain ⟨step', hstep', harrow⟩ := ih step.2 hh
      exact ⟨step', List.mem_cons_of_mem _ hstep', harrow⟩

/-- The arrow of a mention is one of a chain. -/
theorem exists_step_of_mem_edgeMentions {statements : List Statement} {m : EdgeMention}
    (h : m ∈ edgeMentions statements) : ∃ c, .chain c ∈ statements ∧ ∃ step ∈ c.rest, step.1 = m.arrow := by
  obtain ⟨c, hc, hop, hhop, -, harrow, -⟩ := (mem_edgeMentions statements m).mp h
  exact ⟨c, (mem_chains _ c).mp hc, harrow ▸ exists_step_of_mem_hops hhop⟩

/-- Every end of a mention of an edge is mentioned as a node. -/
theorem ends_mem_mentions {statements : List Statement} {m : EdgeMention}
    (h : m ∈ edgeMentions statements) :
    (∃ r ∈ mentions statements, r.name = m.key.source) ∧
      ∃ r ∈ mentions statements, r.name = m.key.target := by
  obtain ⟨c, hc, hop, hhop, hkey, -, -⟩ := (mem_edgeMentions statements m).mp h
  obtain ⟨hsource, htarget⟩ := (mem_ends hop m.key).mp hkey
  obtain ⟨hsources, htargets⟩ := mem_groups_of_mem_hops hhop
  have hmem : ∀ group ∈ c.groups, ∀ name ∈ group.names, ∃ r ∈ mentions statements, r.name = name := by
    intro group hgroup name hname
    obtain ⟨r, hr, rfl⟩ := List.mem_map.mp hname
    refine ⟨r, List.mem_append_right _ (List.mem_flatMap.mpr ⟨c, hc, ?_⟩), rfl⟩
    exact List.mem_flatten.mpr ⟨group, hgroup, hr⟩
  exact ⟨hmem _ hsources _ hsource, hmem _ htargets _ htarget⟩

/-! ## Adding -/

namespace Drafting

/-- A chain is added by adding its mentions of edges. -/
theorem addChain_eq (renameMethods : Bool) (c : Chain) : addChain renameMethods c =
    forM c.edgeMentions fun m => addEdge renameMethods m.key m.arrow m.docs := by
  simp only [addChain, Chain.edgeMentions, List.forM_eq_forM, Run.forM_flatMap, List.forM_map]

theorem addEdge_apply (renameMethods : Bool) (m : EdgeMention) (d : Draft) :
    addEdge renameMethods m.key m.arrow m.docs d =
      if d.graph.edges.contains m.key then
        .error (.invalid (.duplicateEdge m.key.source m.key.target) m.arrow.span) d
      else putEdge m.key (m.edge renameMethods) d := by
  change (if d.graph.edges.contains m.key then
      fail (.duplicateEdge m.key.source m.key.target) m.arrow.span >>= fun _ =>
        putEdge m.key (m.edge renameMethods)
    else putEdge m.key (m.edge renameMethods)) d = _
  split <;> rfl

/-- One more mention. -/
theorem decides_addEdge (renameMethods : Bool) {ms : List EdgeMention} {d : Draft}
    (hd : d.graph.edges = SortedMap.ofList (ms.map fun m => (m.key, m.edge renameMethods)))
    (m : EdgeMention) :
    Decides (addEdge renameMethods m.key m.arrow m.docs) d (m.key ∉ ms.map (·.key))
      fun _ d' => d'.graph.nodes = d.graph.nodes ∧ d'.graph.edges =
        SortedMap.ofList ((ms ++ [m]).map fun m => (m.key, m.edge renameMethods)) := by
  have hkeys : m.key ∈ d.graph.edges.keys ↔ m.key ∈ ms.map (·.key) := by
    rw [hd, SortedMap.mem_keys_ofList, List.map_map]
    rfl
  have hrun := addEdge_apply renameMethods m d
  by_cases hc : d.graph.edges.contains m.key = true
  · rw [if_pos hc] at hrun
    refine decides_of_eq_invalid hrun fun hnew => hnew ?_
    rw [← hkeys, ← SortedMap.contains_iff]
    exact hc
  · rw [if_neg hc] at hrun
    refine decides_of_eq_ok hrun ?_ ⟨rfl, ?_⟩
    · rw [← hkeys, ← SortedMap.contains_iff]
      exact hc
    · rw [List.map_append, List.map_singleton, SortedMap.ofList_append_singleton, ← hd]

/-- **Adding.** Edges are added to a draft without edges if and only if no two are the same. -/
theorem decides_forM_addEdge (renameMethods : Bool) (ms : List EdgeMention) {d : Draft}
    (hd : d.graph.edges = SortedMap.empty) :
    Decides (forM ms fun m => addEdge renameMethods m.key m.arrow m.docs) d
      (ms.map (·.key)).Nodup
      fun _ d' => d'.graph.nodes = d.graph.nodes ∧ d'.graph.edges =
        SortedMap.ofList (ms.map fun m => (m.key, m.edge renameMethods)) := by
  induction ms using List.reverseRecOn with
  | nil => exact decides_of_eq_ok rfl List.nodup_nil ⟨rfl, hd⟩
  | append_singleton ms m ih =>
    have hvalid : (ms.map (·.key)).Nodup ∧ m.key ∉ ms.map (·.key) ↔
        ((ms ++ [m]).map (·.key)).Nodup := by
      rw [List.map_append, List.map_singleton, List.nodup_append_comm, List.singleton_append,
        List.nodup_cons, and_comm]
    rw [List.forM_append]
    refine (ih.bind fun _ _ d₁ h₁ => ?_).congr hvalid
    rw [List.forM_cons, List.forM_nil, bind_pure_unit]
    exact (decides_addEdge renameMethods h₁.2 m).weaken fun _ _ d₂ h₂ => ⟨h₂.1.trans h₁.1, h₂.2⟩

end Drafting

end Typestate
