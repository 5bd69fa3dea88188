import Typestate.Proofs.Digraph.Unquoted

/-!
The reference library meets what is assumed of a library: it reads trails (`reference_readsTrails`), and names without
quotes as words (`reference_readsUnquoted`).
-/

namespace Typestate.Digraph

/-! ## Groups -/

section
variable {κ α : Type} [DecidableEq κ]

/-- Grouping is another order. -/
theorem groupByKey_perm (key : α → κ) (items : List α) : (groupByKey key items).Perm items := by
  suffices hkeys : ∀ (keys : List κ) (items : List α), keys.Nodup → (∀ a ∈ items, key a ∈ keys) →
      (keys.flatMap fun k => items.filter fun a => key a = k).Perm items from
    hkeys _ items (Graph.nodup_eraseDups _) fun a ha => List.mem_eraseDups.mpr (List.mem_map_of_mem ha)
  intro keys
  induction keys with
  | nil =>
    intro items _ hmem
    rw [List.eq_nil_iff_forall_not_mem.mpr fun a ha => List.not_mem_nil (hmem a ha)]
    rfl
  | cons k keys ih =>
    intro items hnodup hmem
    obtain ⟨hk, hkeys⟩ := List.nodup_cons.mp hnodup
    -- The items of other keys are the same without those of this one.
    have hothers : (keys.flatMap fun k' => items.filter fun a => key a = k') =
        keys.flatMap fun k' => (items.filter fun a => !decide (key a = k)).filter fun a => key a = k' := by
      refine List.flatMap_congr fun k' hk' => ?_
      rw [List.filter_filter]
      refine List.filter_congr fun a _ => ?_
      have hne : k' ≠ k := by
        rintro rfl
        exact hk hk'
      by_cases ha : key a = k' <;> simp [ha, hne]
    have hperm := ih (items.filter fun a => !decide (key a = k)) hkeys fun a ha => by
      obtain ⟨ha, hne⟩ := List.mem_filter.mp ha
      exact (List.mem_cons.mp (hmem a ha)).resolve_left (by simpa using hne)
    rw [List.flatMap_cons, hothers]
    exact (hperm.append_left _).trans (List.filter_append_perm _ items)

end

/-! ## Trails -/

theorem bareNode_plainName (n : PlainName) : bareNode n.text = n.text := by
  unfold bareNode
  split
  · rfl
  · have hcolon : n.text.toList.takeWhile (· != ':') = n.text.toList := by
      refine List.takeWhile_eq_self_iff.mpr fun c hc => ?_
      rw [bne_iff_ne]
      rintro rfl
      exact Identifier.not_mem_of_isPlainWord n.isPlainWord (by decide) hc
    rw [hcolon, String.ofList_toList]

theorem nodeClauses_trails (trails : List Trail) : nodeClauses (trails.map trailClause) =
    (trails.flatMap Trail.alone).map fun n => (n.text, false) := by
  induction trails with
  | nil => rfl
  | cons t trails ih =>
    obtain ⟨first, _ | ⟨m, more⟩⟩ := t
    · rw [List.map_cons, trailClause, nodeClauses, bareNode_plainName, ih]
      rfl
    · exact ih

theorem edgeClauses_trails (trails : List Trail) : edgeClauses (trails.map trailClause) =
    (trails.flatMap Trail.hops).map fun h => ((.node h.1.text, .node h.2.text), false) := by
  have hhops : ∀ (more : List PlainName) (n : PlainName),
      hops false (.node n.text :: more.map fun n => .node n.text) =
        (Trail.hopsFrom n more).map fun h => ((.node h.1.text, .node h.2.text), false) := by
    intro more
    induction more with
    | nil => exact fun n => rfl
    | cons m more ih =>
      exact fun n => congrArg (List.cons ((Endpoint.node n.text, Endpoint.node m.text), false)) (ih m)
  induction trails with
  | nil => rfl
  | cons t trails ih =>
    obtain ⟨first, _ | ⟨m, more⟩⟩ := t
    · exact ih
    · rw [List.map_cons, trailClause, edgeClauses, hhops (m :: more), ih, List.flatMap_cons, List.map_append]
      rfl

/-- Trails are nodes and edges. -/
theorem contains_trails {trails : List Trail} {c : Clause} (hnode : ∀ name b, c ≠ .node name b)
    (hedges : ∀ ends b, c ≠ .edges ends b) : (trails.map trailClause).contains c = false := by
  rw [← Bool.not_eq_true, List.contains_iff_mem]
  intro hmem
  obtain ⟨⟨first, _ | ⟨m, more⟩⟩, -, hclause⟩ := List.mem_map.mp hmem
  · exact hnode _ _ hclause.symm
  · exact hedges _ _ hclause.symm

theorem nodes_perm (w : Written) : (nodeClauses w.clauses).Perm w.contents.nodes := (groupByKey_perm _ _).symm

theorem edges_perm (w : Written) : (edgeClauses w.clauses).Perm w.contents.edges := (groupByKey_perm _ _).symm

/-- The reference library reads trails. -/
theorem reference_readsTrails : reference.ReadsTrails := by
  intro n trails text h
  refine ⟨Written.contents ⟨true, n.text, trails.map trailClause⟩, ?_, ?_⟩
  · simp only [reference, graphs_trails h, List.map_cons, List.map_nil]
  · exact {
      directed := rfl
      name := rfl
      noGroups := contains_trails nofun nofun
      noAttributes := contains_trails nofun nofun
      nodes := nodeClauses_trails trails ▸ nodes_perm ⟨true, n.text, trails.map trailClause⟩
      edges := edgeClauses_trails trails ▸ edges_perm ⟨true, n.text, trails.map trailClause⟩ }

/-! ## Names -/

theorem isId_bareNode {raw : String} (h : IsId raw) : IsId (bareNode raw) := by
  unfold bareNode
  split
  · exact h
  · intro c hc
    rw [String.toList_ofList] at hc
    exact h c ((List.takeWhile_prefix _).subset hc)

theorem isId_nodeClauses {clauses : List Clause} (h : ∀ c ∈ clauses, c.HasIds) :
    ∀ node ∈ nodeClauses clauses, IsId node.1 := by
  induction clauses with
  | nil => exact List.forall_mem_nil _
  | cons c clauses ih =>
    obtain ⟨hc, hclauses⟩ := List.forall_mem_cons.mp h
    cases c with
    | node raw b => exact List.forall_mem_cons.mpr ⟨isId_bareNode hc, ih hclauses⟩
    | defaults word b => exact List.forall_mem_cons.mpr ⟨hc, ih hclauses⟩
    | _ => exact ih hclauses

theorem namedBy_hops {ends : List Endpoint} (b : Bool) (h : ∀ e ∈ ends, e.NamedBy IsId) :
    ∀ edge ∈ hops b ends, edge.1.1.NamedBy IsId ∧ edge.1.2.NamedBy IsId := by
  fun_induction hops b ends with
  | case1 source target rest ih =>
    obtain ⟨hsource, hrest⟩ := List.forall_mem_cons.mp h
    exact List.forall_mem_cons.mpr ⟨⟨hsource, hrest target List.mem_cons_self⟩, ih hrest⟩
  | case2 => exact List.forall_mem_nil _

theorem namedBy_edgeClauses {clauses : List Clause} (h : ∀ c ∈ clauses, c.HasIds) :
    ∀ edge ∈ edgeClauses clauses, edge.1.1.NamedBy IsId ∧ edge.1.2.NamedBy IsId := by
  induction clauses with
  | nil => exact List.forall_mem_nil _
  | cons c clauses ih =>
    obtain ⟨hc, hclauses⟩ := List.forall_mem_cons.mp h
    cases c with
    | edges ends b => exact List.forall_mem_append.mpr ⟨namedBy_hops b hc, ih hclauses⟩
    | _ => exact ih hclauses

theorem namedBy_contents {w : Written} (h : ∀ c ∈ w.clauses, c.HasIds) : w.contents.NamedBy IsId where
  nodes node hnode := isId_nodeClauses h node ((nodes_perm w).mem_iff.mpr hnode)
  edges edge hedge := namedBy_edgeClauses h edge ((edges_perm w).mem_iff.mpr hedge)

theorem exists_graphs {text : String} {found : List Contents} (h : reference.read text = .ok found) :
    ∃ ws, graphs text = .ok ws ∧ found = ws.map Written.contents := by
  simp only [reference] at h
  split at h
  · next ws hgraphs =>
    cases h
    exact ⟨ws, hgraphs, rfl⟩
  · cases h

/-- **Reference.** Names without quotes are words to the reference library, and comments start with a `#`. -/
theorem reference_readsUnquoted : reference.ReadsUnquoted where
  trails := reference_readsTrails
  words text found htext h := by
    obtain ⟨ws, hgraphs, rfl⟩ := exists_graphs h
    exact List.forall_mem_map.mpr fun w hw => namedBy_contents (graphs_named htext hgraphs w hw)
  comments text found htext h hnothing := by
    obtain ⟨ws, hgraphs, -⟩ := exists_graphs h
    obtain ⟨complaint, hwritten⟩ := written_opensNothing hnothing htext
    rw [graphs, hwritten] at hgraphs
    cases hgraphs

end Typestate.Digraph
