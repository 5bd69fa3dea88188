import Mathlib.Data.List.Nodup
import Typestate.Graph.Basic
import Typestate.Proofs.SortedMap

/-!
The edges out of a node. They are the entries of the edge map at that source (`mem_leaving`), together
they determine the map (`edges_eq_of_leaving`), and a new value for one edge changes what leaves its
source in one place and nothing else (`leaving_insert`).
-/

namespace Typestate.Graph

attribute [ext] EdgeKey

variable (g : Graph)

theorem mem_leaving (source target : String) (e : Edge) :
    (target, e) ∈ g.leaving source ↔ g.edges.get? ⟨source, target⟩ = some e := by
  rw [← SortedMap.mem_entries_iff g.edges (⟨source, target⟩, e)]
  simp only [leaving, List.mem_map, List.mem_filter, beq_iff_eq, Prod.mk.injEq]
  constructor
  · rintro ⟨⟨⟨s, t⟩, e'⟩, ⟨hmem, rfl⟩, rfl, rfl⟩
    exact hmem
  · intro hmem
    exact ⟨_, ⟨hmem, rfl⟩, rfl, rfl⟩

/-- The edges out of a node are in the order of their targets. -/
theorem increasing_leaving (source : String) :
    (g.leaving source).Pairwise fun p q => p.1 < q.1 := by
  refine List.pairwise_map.mpr ?_
  refine (List.Pairwise.and_mem.mp (g.edges.increasing.sublist List.filter_sublist)).imp ?_
  rintro a b ⟨ha, hb, hab⟩
  have ha : a.1.source = source := beq_iff_eq.mp (List.mem_filter.mp ha).2
  have hb : b.1.source = source := beq_iff_eq.mp (List.mem_filter.mp hb).2
  change (compare a.1.source b.1.source).then (compare a.1.target b.1.target) = .lt at hab
  rw [ha, hb, Std.ReflOrd.compare_self] at hab
  exact compareOfLessAndEq_eq_lt.mp hab

/-- No two edges out of a node have the same target. -/
theorem nodup_leaving_targets (source : String) : ((g.leaving source).map (·.1)).Nodup := by
  have hkeys : ((g.leaving source).map (·.1)).map (EdgeKey.mk source) =
      (g.edges.entries.filter (·.1.source == source)).map (·.1) := by
    unfold leaving
    rw [List.map_map, List.map_map]
    apply List.map_congr_left
    intro e he
    have hs := beq_iff_eq.mp (List.mem_filter.mp he).2
    exact congrArg (EdgeKey.mk · e.1.target) hs.symm
  have hsub := (List.filter_sublist (l := g.edges.entries)
    (p := fun e => e.1.source == source)).map (·.1)
  refine List.Nodup.of_map (EdgeKey.mk source) ?_
  rw [hkeys]
  exact hsub.nodup (SortedMap.nodup_keys g.edges)

theorem mem_sources (source : String) :
    source ∈ g.sources ↔ ∃ target, ⟨source, target⟩ ∈ g.edges.keys := by
  simp only [sources, List.mem_eraseDups, List.mem_map]
  constructor
  · rintro ⟨k, hk, rfl⟩
    exact ⟨k.target, hk⟩
  · rintro ⟨target, hk⟩
    exact ⟨_, hk, rfl⟩

theorem mem_leaving_targets (source target : String) :
    target ∈ (g.leaving source).map (·.1) ↔ ⟨source, target⟩ ∈ g.edges.keys := by
  simp only [List.mem_map, SortedMap.mem_keys_iff, ← mem_leaving]
  constructor
  · rintro ⟨⟨_, e⟩, hmem, rfl⟩
    exact ⟨e, hmem⟩
  · rintro ⟨e, hmem⟩
    exact ⟨_, hmem, rfl⟩

theorem leaving_eq_nil (source : String) (h : source ∉ g.sources) : g.leaving source = [] := by
  apply List.eq_nil_iff_forall_not_mem.mpr
  intro p hp
  have htarget := (mem_leaving_targets g source p.1).mp (List.mem_map_of_mem hp)
  exact h ((mem_sources g source).mpr ⟨p.1, htarget⟩)

theorem leaving_ne_nil_iff (source : String) : g.leaving source ≠ [] ↔ source ∈ g.sources := by
  constructor
  · intro hne
    by_contra hno
    exact hne (leaving_eq_nil g source hno)
  · intro hsource hnil
    obtain ⟨target, hkey⟩ := (mem_sources g source).mp hsource
    have htarget := (mem_leaving_targets g source target).mpr hkey
    rw [hnil] at htarget
    cases htarget

theorem nodup_eraseDups {α : Type} [BEq α] [LawfulBEq α] (l : List α) : l.eraseDups.Nodup := by
  induction l using List.reverseRecOn with
  | nil => simp
  | append_singleton l a ih =>
    rw [List.eraseDups_append, List.nodup_append]
    refine ⟨ih, ?_, ?_⟩
    · simp only [List.removeAll, List.filter_cons, List.filter_nil]
      split <;> simp [List.eraseDups_cons]
    · rintro b hb c hc rfl
      rw [List.mem_eraseDups] at hb hc
      simp only [List.removeAll, List.mem_filter, List.mem_singleton] at hc
      obtain ⟨rfl, hc⟩ := hc
      simp [hb] at hc

theorem nodup_sources : g.sources.Nodup := nodup_eraseDups _

/-- The edges out of all nodes determine the edge map. -/
theorem edges_eq_of_leaving {g g' : Graph} (h : ∀ source, g.leaving source = g'.leaving source) :
    g.edges = g'.edges := by
  apply SortedMap.ext_get?
  intro k
  apply Option.ext
  intro e
  rw [← mem_leaving g k.source k.target e, ← mem_leaving g' k.source k.target e, h]

theorem leaving_insert {g : Graph} {key : EdgeKey} (e : Edge) (h : key ∈ g.edges.keys)
    (source : String) :
    leaving { g with edges := g.edges.insert key e } source =
      if source = key.source then
        (g.leaving source).map fun p => if p.1 = key.target then (key.target, e) else p
      else g.leaving source := by
  have hkey : ∀ a : EdgeKey × Edge, (if a.1 = key then (key, e) else a).1 = a.1 := by
    intro a
    split
    · next ha => exact ha.symm
    · rfl
  have hfilter : g.edges.entries.filter
      ((fun a => a.1.source == source) ∘ fun a => if a.1 = key then (key, e) else a) =
        g.edges.entries.filter (·.1.source == source) := by
    apply List.filter_congr
    intro a _
    simp only [Function.comp_apply, hkey]
  simp only [leaving, SortedMap.entries_insert g.edges e h, List.filter_map, hfilter, List.map_map]
  split
  · next hsource =>
    apply List.map_congr_left
    intro a ha
    have hs := beq_iff_eq.mp (List.mem_filter.mp ha).2
    have hiff : a.1 = key ↔ a.1.target = key.target := by
      constructor
      · intro h
        rw [h]
      · intro h
        exact EdgeKey.ext (hs.trans hsource) h
    simp only [Function.comp_apply, hiff]
    split <;> rfl
  · next hsource =>
    apply List.map_congr_left
    intro a ha
    have hs := beq_iff_eq.mp (List.mem_filter.mp ha).2
    have hne : a.1 ≠ key := by
      rintro rfl
      exact hsource hs.symm
    simp only [Function.comp_apply, if_neg hne]

end Typestate.Graph
