import Typestate.Graph.Diagram
import Typestate.Proofs.Code.TypeNames

/-!
The neighbours of a node. In the lists of a node stand the other ends of the edges that leave it, or that
enter it: each of these edges once, with its data, no other edge, and in the order of the names of the other
ends (`otherEnds_outgoing`, `otherEnds_incoming`). What kind of node it is follows from there being such edges
(`hasConnector_iff`, `kind_isolate_iff`).
-/

namespace Typestate.Graph

variable (g : Graph)

/-! ## Edges into a node -/

theorem mem_entering (source target : String) (e : Edge) :
    (source, e) ∈ g.entering target ↔ g.edges.get? ⟨source, target⟩ = some e := by
  rw [← SortedMap.mem_entries_iff g.edges (⟨source, target⟩, e)]
  simp only [entering, List.mem_map, List.mem_filter, beq_iff_eq, Prod.mk.injEq]
  constructor
  · rintro ⟨⟨⟨s, t⟩, e'⟩, ⟨hmem, rfl⟩, rfl, rfl⟩
    exact hmem
  · intro hmem
    exact ⟨_, ⟨hmem, rfl⟩, rfl, rfl⟩

/-- The edges into a node are in the order of their sources. -/
theorem increasing_entering (target : String) :
    (g.entering target).Pairwise fun p q => p.1 < q.1 := by
  refine List.pairwise_map.mpr ?_
  refine (List.Pairwise.and_mem.mp (g.edges.increasing.sublist List.filter_sublist)).imp ?_
  rintro a b ⟨ha, hb, hab⟩
  have ha : a.1.target = target := beq_iff_eq.mp (List.mem_filter.mp ha).2
  have hb : b.1.target = target := beq_iff_eq.mp (List.mem_filter.mp hb).2
  -- Edges with the same target are in the order of their sources, since no two have both in common.
  change (compare a.1.source b.1.source).then (compare a.1.target b.1.target) = .lt at hab
  rw [ha, hb, Std.ReflOrd.compare_self, Ordering.then_eq] at hab
  exact compareOfLessAndEq_eq_lt.mp hab

/-! ## Lists of neighbours -/

/-- The edges that neighbours stand for, where `edgeWith` is the edge with its other end at a node. -/
def edgesWith (edgeWith : String → EdgeKey) (l : List Neighbor) : List (EdgeKey × Edge) :=
  l.map fun n => (edgeWith n.name, n.edge)

/-- The neighbours are the nodes at the other ends of the edges that have one end in some place. Such an
edge stands in the list once and another edge does not, and the neighbours are in the order of their names. -/
structure OtherEnds (isAt : EdgeKey → Bool) (edgeWith : String → EdgeKey) (l : List Neighbor) : Prop where
  sorted : l.Pairwise fun a b => a.name < b.name
  count : ∀ key e, g.edges.get? key = some e →
    (edgesWith edgeWith l).count (key, e) = if isAt key then 1 else 0
  only : ∀ n ∈ l, g.edges.get? (edgeWith n.name) = some n.edge ∧ g.nodes.get? n.name = some n.node

variable {g}

theorem otherEnds_map {isAt : EdgeKey → Bool} {edgeWith : String → EdgeKey} {ends : List (String × Edge)}
    (hsorted : ends.Pairwise fun p q => p.1 < q.1)
    (hmem : ∀ other e, (other, e) ∈ ends ↔ g.edges.get? (edgeWith other) = some e)
    (hat : ∀ key, isAt key = true ↔ ∃ other, edgeWith other = key) (hinj : Function.Injective edgeWith)
    (hnodes : ∀ other, edgeWith other ∈ g.edges.keys → other ∈ g.nodes.keys) :
    g.OtherEnds isAt edgeWith (ends.map g.neighborAt) where
  sorted := List.pairwise_map.mpr hsorted
  count := by
    intro key e hedge
    have hnodup : (edgesWith edgeWith (ends.map g.neighborAt)).Nodup := by
      rw [edgesWith, List.map_map, List.Nodup, List.pairwise_map]
      refine hsorted.imp fun {p q} hlt heq => ?_
      have hsame : p.1 = q.1 := hinj (Prod.mk.inj heq).1
      exact absurd (hsame ▸ hlt) (String.lt_irrefl _)
    have hin : (key, e) ∈ edgesWith edgeWith (ends.map g.neighborAt) ↔ isAt key = true := by
      rw [hat, edgesWith, List.map_map, List.mem_map]
      constructor
      · rintro ⟨p, -, heq⟩
        exact ⟨p.1, (Prod.mk.inj heq).1⟩
      · rintro ⟨other, rfl⟩
        exact ⟨(other, e), (hmem other e).mpr hedge, rfl⟩
    rw [hnodup.count]
    exact if_congr hin rfl rfl
  only := by
    intro n hn
    obtain ⟨⟨other, e⟩, hp, rfl⟩ := List.mem_map.mp hn
    have hedge := (hmem other e).mp hp
    obtain ⟨node, hnode⟩ := (SortedMap.mem_keys_iff _ _).mp
      (hnodes other ((SortedMap.mem_keys_iff _ _).mpr ⟨e, hedge⟩))
    refine ⟨hedge, ?_⟩
    simp only [neighborAt, hnode, Option.getD_some]

variable (hclosed : g.Closed) (name : String)
include hclosed

theorem otherEnds_outgoing :
    g.OtherEnds (·.source == name) (EdgeKey.mk name) (g.neighborhoodAt name).outgoing := by
  refine otherEnds_map (g.increasing_leaving name) (g.mem_leaving name) (fun key => ?_)
    (fun a b hab => (EdgeKey.mk.inj hab).2) fun other hkey => (hclosed _ hkey).2
  rw [beq_iff_eq]
  constructor
  · rintro rfl
    exact ⟨key.target, rfl⟩
  · rintro ⟨other, rfl⟩
    rfl

theorem otherEnds_incoming :
    g.OtherEnds (·.target == name) (EdgeKey.mk · name) (g.neighborhoodAt name).incoming := by
  refine otherEnds_map (g.increasing_entering name) (fun other => g.mem_entering other name) (fun key => ?_)
    (fun a b hab => (EdgeKey.mk.inj hab).1) fun other hkey => (hclosed _ hkey).1
  rw [beq_iff_eq]
  constructor
  · rintro rfl
    exact ⟨key.source, rfl⟩
  · rintro ⟨other, rfl⟩
    rfl

/-- The two lists of a node, each by itself. -/
theorem incoming_outgoing_eq : g.incoming name = .ok (g.neighborhoodAt name).incoming ∧
    g.outgoing name = .ok (g.neighborhoodAt name).outgoing := by
  constructor
  · refine g.neighbors_eq _ fun ⟨other, e⟩ hp => ?_
    have hedge := (g.mem_entering other name e).mp hp
    exact (hclosed _ ((SortedMap.mem_keys_iff _ _).mpr ⟨e, hedge⟩)).1
  · refine g.neighbors_eq _ fun ⟨other, e⟩ hp => ?_
    have hedge := (g.mem_leaving name other e).mp hp
    exact (hclosed _ ((SortedMap.mem_keys_iff _ _).mpr ⟨e, hedge⟩)).2

omit hclosed

/-! ## Kinds -/

theorem hasConnector_iff :
    (g.neighborhoodAt name).hasConnector = true ↔ ∃ target, ⟨name, target⟩ ∈ g.edges.keys := by
  rw [hasConnector_neighborhoodAt, leaving_ne_nil_iff, mem_sources]

theorem entering_eq_nil_iff : g.entering name = [] ↔ ∀ key ∈ g.edges.keys, key.target ≠ name := by
  unfold entering SortedMap.keys
  rw [List.map_eq_nil_iff, List.filter_eq_nil_iff, List.forall_mem_map]
  exact forall₂_congr fun e _ => not_congr beq_iff_eq

theorem leaving_eq_nil_iff : g.leaving name = [] ↔ ∀ key ∈ g.edges.keys, key.source ≠ name := by
  unfold leaving SortedMap.keys
  rw [List.map_eq_nil_iff, List.filter_eq_nil_iff, List.forall_mem_map]
  exact forall₂_congr fun e _ => not_congr beq_iff_eq

/-- A node is isolated if no edge leaves it and none enters it. -/
theorem kind_isolate_iff : (g.neighborhoodAt name).kind = .isolate ↔ g.isIsolated name = true := by
  have hall : g.isIsolated name = true ↔ g.leaving name = [] ∧ g.entering name = [] := by
    rw [leaving_eq_nil_iff, entering_eq_nil_iff, isIsolated, List.all_eq_true]
    simp only [Bool.and_eq_true, bne_iff_ne]
    exact forall₂_and
  rw [hall]
  unfold Neighborhood.kind neighborhoodAt
  cases g.leaving name <;> cases g.entering name <;> simp [NodeKind.ofEdges]

end Typestate.Graph
