import Mathlib.Data.List.Induction
import Typestate.Proofs.Graph.Drafting
import Typestate.Proofs.SortedMap

/-!
What mentions make of nodes. All mentions are merged in one order, node statements before chains
(`mentions`). Merging them decides whether any two mentions of one node are compatible, and leaves for
each name what `Node.ofMentions` reads off the mentions of that name (`decides_forM_addNode`).
-/

namespace Typestate

/-! ## Documentation -/

/-- Runs of documentation in one, with an empty fragment between any two that are not empty. -/
def joinRuns (runs : List (List String)) : List String :=
  List.intercalate [""] (runs.filter (!·.isEmpty))

theorem joinDocs_nil (docs : List String) : joinDocs docs [] = docs := by
  cases docs <;> rfl

theorem intercalate_append_singleton {α : Type} (sep : α) (l : List (List α)) (last : List α)
    (h : l ≠ []) :
    List.intercalate [sep] (l ++ [last]) = List.intercalate [sep] l ++ sep :: last := by
  induction l with
  | nil => exact absurd rfl h
  | cons a l ih =>
    cases l with
    | nil => simp [List.intercalate]
    | cons b l =>
      have hb := ih (by simp)
      simp only [List.intercalate, List.cons_append, List.intersperse_cons_cons,
        List.flatten_cons] at hb ⊢
      rw [hb]
      simp

theorem joinRuns_append_singleton (runs : List (List String)) (docs : List String) :
    joinRuns (runs ++ [docs]) = joinDocs (joinRuns runs) docs := by
  unfold joinRuns
  rw [List.filter_append]
  cases docs with
  | nil => simp [joinDocs_nil]
  | cons d docs =>
    by_cases hnil : runs.filter (!·.isEmpty) = []
    · simp [hnil, List.intercalate, joinDocs]
    · have hne : List.intercalate [""] (runs.filter (!·.isEmpty)) ≠ [] := by
        cases hr : runs.filter (!·.isEmpty) with
        | nil => exact absurd hr hnil
        | cons a rest =>
          have ha : a ≠ [] := by
            have hmem : a ∈ runs.filter (!·.isEmpty) := by simp [hr]
            simpa using (List.mem_filter.mp hmem).2
          cases rest <;> simp [List.intercalate, ha]
      have hs := intercalate_append_singleton "" _ (d :: docs) hnil
      simp [hs, joinDocs, hne]

theorem joinRuns_pair (docs docs' : List String) : joinRuns [docs, docs'] = joinDocs docs docs' := by
  rw [show [docs, docs'] = [] ++ [docs] ++ [docs'] from rfl, joinRuns_append_singleton,
    joinRuns_append_singleton]
  rfl

/-! ## Mentions -/

theorem mem_nodeStatements (statements : List Statement) (r : NodeRef) :
    r ∈ nodeStatements statements ↔ .node r ∈ statements := by
  induction statements with
  | nil => simp [nodeStatements]
  | cons s rest ih => cases s <;> simp [nodeStatements, ih]

theorem mem_chains (statements : List Statement) (c : Chain) :
    c ∈ chains statements ↔ .chain c ∈ statements := by
  induction statements with
  | nil => simp [chains]
  | cons s rest ih => cases s <;> simp [chains, ih]

/-- All mentions of nodes in the order in which they are merged: those of node statements, wherever
they stand, before those of chains. -/
def mentions (statements : List Statement) : List NodeRef :=
  nodeStatements statements ++ (chains statements).flatMap Chain.nodeRefs

theorem mem_mentions (statements : List Statement) (r : NodeRef) :
    r ∈ mentions statements ↔
      .node r ∈ statements ∨ ∃ c, .chain c ∈ statements ∧ r ∈ c.nodeRefs := by
  simp only [mentions, List.mem_append, mem_nodeStatements, List.mem_flatMap, mem_chains]

/-- The mentions of one name. -/
def mentionsOf (refs : List NodeRef) (name : String) : List NodeRef :=
  refs.filter (·.name == name)

theorem mem_mentionsOf (refs : List NodeRef) (name : String) (r : NodeRef) :
    r ∈ mentionsOf refs name ↔ r ∈ refs ∧ r.name = name := by
  simp [mentionsOf]

/-- Two mentions do not give one node two different types. -/
def NodeRef.Compatible (r r' : NodeRef) : Prop :=
  r.name = r'.name → ∀ ty, r.ty = some ty → ∀ ty', r'.ty = some ty' →
    TypeText.tokens ty = TypeText.tokens ty'

/-- What the mentions of a node make of it: the type of the first that gives one, the place of the
first, and the documentation of all. -/
def Node.gather (refs : List NodeRef) : Node :=
  { ty := refs.findSome? (·.ty), docs := joinRuns (refs.map (·.docs)),
    span := refs.head?.bind (·.span) }

/-- The node that mentions of one name make, if there is a mention. -/
def Node.ofMentions (refs : List NodeRef) : Option Node :=
  if refs.isEmpty then none else some (.gather refs)

theorem TypeText.same_iff (a b : String) : same a b = true ↔ tokens a = tokens b := by
  unfold same tokens
  rw [beq_iff_eq, List.map_inj_right]
  intro cs cs' h
  exact String.ofList_injective h

theorem Node.conflict?_eq_none_iff (n : Node) (r : NodeRef) :
    n.conflict? r = none ↔ ∀ ty, n.ty = some ty → ∀ ty', r.ty = some ty' →
      TypeText.tokens ty = TypeText.tokens ty' := by
  unfold conflict?
  cases n.ty with
  | none => simp
  | some ty =>
    cases r.ty with
    | none => simp
    | some ty' => simp [← TypeText.same_iff]

theorem Node.gather_singleton (r : NodeRef) : gather [r] = ofRef r := by
  have hdocs : joinRuns [r.docs] = r.docs := by
    rw [show [r.docs] = [] ++ [r.docs] from rfl, joinRuns_append_singleton]
    rfl
  cases hty : r.ty <;> simp [gather, ofRef, hdocs, hty]

theorem Node.gather_append_singleton (refs : List NodeRef) (r : NodeRef) (h : refs ≠ []) :
    gather (refs ++ [r]) = (gather refs).merge r := by
  cases refs with
  | nil => exact absurd rfl h
  | cons first rest =>
    have hdocs : joinRuns (((first :: rest) ++ [r]).map (·.docs)) =
        joinDocs (joinRuns ((first :: rest).map (·.docs))) r.docs := by
      rw [List.map_append, List.map_singleton, joinRuns_append_singleton]
    have hty : ((first :: rest) ++ [r]).findSome? (·.ty) =
        ((first :: rest).findSome? (·.ty)).or r.ty := by
      rw [List.findSome?_append, List.findSome?_singleton]
    unfold gather merge
    rw [hdocs, hty]
    rfl

theorem Node.ofMentions_nil : ofMentions [] = none := rfl

theorem Node.ofMentions_of_ne_nil {refs : List NodeRef} (h : refs ≠ []) :
    ofMentions refs = some (gather refs) := by
  simp [ofMentions, h]

/-- A node is made exactly of a name that is mentioned. -/
theorem Node.exists_ofMentions_iff (refs : List NodeRef) (name : String) :
    (∃ n, ofMentions (mentionsOf refs name) = some n) ↔ ∃ r ∈ refs, r.name = name := by
  constructor
  · rintro ⟨n, hn⟩
    cases hown : mentionsOf refs name with
    | nil =>
      rw [hown, ofMentions_nil] at hn
      cases hn
    | cons r rest =>
      have hmem : r ∈ mentionsOf refs name := by
        rw [hown]
        exact List.mem_cons_self ..
      exact ⟨r, (mem_mentionsOf refs name r).mp hmem⟩
  · rintro ⟨r, hr, hname⟩
    have hmem : r ∈ mentionsOf refs name := (mem_mentionsOf refs name r).mpr ⟨hr, hname⟩
    exact ⟨_, ofMentions_of_ne_nil (List.ne_nil_of_mem hmem)⟩

theorem Node.ofMentions_append_singleton (refs : List NodeRef) (r : NodeRef) :
    ofMentions (refs ++ [r]) =
      some (match ofMentions refs with
        | none => ofRef r
        | some n => n.merge r) := by
  cases refs with
  | nil => simp [ofMentions, gather_singleton]
  | cons first rest =>
    have h := gather_append_singleton (first :: rest) r (by simp)
    simpa [ofMentions] using h

/-! ## Merging -/

/-- No two of the mentions give one node two different types. -/
def Agree (refs : List NodeRef) : Prop := ∀ r ∈ refs, ∀ r' ∈ refs, r.Compatible r'

theorem NodeRef.compatible_self (r : NodeRef) : r.Compatible r := by
  intro _ ty hty ty' hty'
  rw [hty] at hty'
  cases hty'
  rfl

theorem NodeRef.Compatible.symm {r r' : NodeRef} (h : r.Compatible r') : r'.Compatible r :=
  fun hn ty hty ty' hty' => (h hn.symm ty' hty' ty hty).symm

theorem agree_append_singleton (refs : List NodeRef) (r : NodeRef) :
    Agree (refs ++ [r]) ↔ Agree refs ∧ ∀ r' ∈ refs, r'.Compatible r := by
  constructor
  · intro h
    exact ⟨fun a ha b hb => h a (by simp [ha]) b (by simp [hb]),
      fun a ha => h a (by simp [ha]) r (by simp)⟩
  · rintro ⟨hold, hnew⟩ a ha b hb
    rcases List.mem_append.mp ha with ha | ha <;> rcases List.mem_append.mp hb with hb | hb
    · exact hold a ha b hb
    · rw [List.mem_singleton.mp hb]
      exact hnew a ha
    · rw [List.mem_singleton.mp ha]
      exact (hnew b hb).symm
    · rw [List.mem_singleton.mp ha, List.mem_singleton.mp hb]
      exact r.compatible_self

/-- The nodes of a draft are those that the mentions make. -/
def Draft.HasNodesOf (d : Draft) (refs : List NodeRef) : Prop :=
  ∀ name, d.graph.nodes.get? name = Node.ofMentions (mentionsOf refs name)

namespace Drafting

theorem addNode_apply (r : NodeRef) (d : Draft) :
    addNode r d = (match d.graph.nodes.get? r.name with
      | none => putNode r.name (.ofRef r)
      | some n =>
        match n.conflict? r with
        | some (ty, earlier) => fail (.incompatible r.name ty earlier) r.span
        | none => putNode r.name (n.merge r)) d := rfl

theorem hasNodesOf_insert {refs : List NodeRef} {r : NodeRef} {n : Node} {d : Draft}
    (hd : d.HasNodesOf refs)
    (hn : Node.ofMentions (mentionsOf refs r.name ++ [r]) = some n) :
    Draft.HasNodesOf { d with graph := { d.graph with nodes := d.graph.nodes.insert r.name n } }
      (refs ++ [r]) := by
  intro name
  by_cases h : name = r.name
  · subst h
    rw [SortedMap.get?_insert_self, ← hn]
    simp [mentionsOf]
  · rw [SortedMap.get?_insert_of_ne _ _ h, hd name]
    simp [mentionsOf, Ne.symm h]

/-- A node that compatible mentions make conflicts with a further one if and only if one of the
mentions does. -/
theorem conflict?_gather_eq_none_iff {refs : List NodeRef} (hagree : Agree refs) (r : NodeRef) :
    (Node.gather (mentionsOf refs r.name)).conflict? r = none ↔
      ∀ r' ∈ refs, r'.Compatible r := by
  rw [Node.conflict?_eq_none_iff]
  constructor
  · intro h r' hr' hname ty hty ty' hty'
    -- The type of the node is that of some mention, which is compatible with `r'`.
    cases hfirst : (mentionsOf refs r.name).findSome? (·.ty) with
    | none =>
      have hnone := List.findSome?_eq_none_iff.mp hfirst r'
        ((mem_mentionsOf _ _ _).mpr ⟨hr', hname⟩)
      rw [hty] at hnone
      cases hnone
    | some ty₀ =>
      obtain ⟨r₀, hr₀, hty₀⟩ := List.exists_of_findSome?_eq_some hfirst
      obtain ⟨hmem, hname₀⟩ := (mem_mentionsOf _ _ _).mp hr₀
      have heq : r'.name = r₀.name := by rw [hname, hname₀]
      rw [hagree r' hr' r₀ hmem heq ty hty ty₀ hty₀]
      exact h ty₀ hfirst ty' hty'
  · intro h ty hty ty' hty'
    obtain ⟨r₀, hr₀, hty₀⟩ := List.exists_of_findSome?_eq_some hty
    obtain ⟨hmem, hname₀⟩ := (mem_mentionsOf _ _ _).mp hr₀
    exact h r₀ hmem hname₀ ty hty₀ ty' hty'

/-- One more mention. -/
theorem decides_addNode {refs : List NodeRef} {d : Draft} (hagree : Agree refs)
    (hd : d.HasNodesOf refs) (r : NodeRef) :
    Decides (addNode r) d (∀ r' ∈ refs, r'.Compatible r)
      fun _ d' => d'.HasNodesOf (refs ++ [r]) ∧ d'.graph.edges = d.graph.edges := by
  have hget := hd r.name
  have hstep := Node.ofMentions_append_singleton (mentionsOf refs r.name) r
  by_cases hown : mentionsOf refs r.name = []
  · have hnone : Node.ofMentions (mentionsOf refs r.name) = none := by
      rw [hown, Node.ofMentions_nil]
    rw [hnone] at hget hstep
    have hrun : addNode r d = putNode r.name (.ofRef r) d := by rw [addNode_apply, hget]
    refine decides_of_eq_ok hrun ?_ ⟨hasNodesOf_insert hd hstep, rfl⟩
    intro r' hr' hname
    have hmem : r' ∈ mentionsOf refs r.name := (mem_mentionsOf _ _ _).mpr ⟨hr', hname⟩
    rw [hown] at hmem
    cases hmem
  · rw [Node.ofMentions_of_ne_nil hown] at hget hstep
    cases hc : (Node.gather (mentionsOf refs r.name)).conflict? r with
    | none =>
      have hrun : addNode r d =
          putNode r.name ((Node.gather (mentionsOf refs r.name)).merge r) d := by
        rw [addNode_apply, hget]
        dsimp only
        rw [hc]
      exact decides_of_eq_ok hrun ((conflict?_gather_eq_none_iff hagree r).mp hc)
        ⟨hasNodesOf_insert hd hstep, rfl⟩
    | some types =>
      have hrun : addNode r d = fail (.incompatible r.name types.1 types.2) r.span d := by
        rw [addNode_apply, hget]
        dsimp only
        rw [hc]
      refine decides_of_eq_invalid hrun ?_
      rw [← conflict?_gather_eq_none_iff hagree, hc]
      exact fun h => by cases h

/-- **Merging.** Mentions are merged into a draft without nodes if and only if they agree. -/
theorem decides_forM_addNode (refs : List NodeRef) {d : Draft}
    (hd : d.graph.nodes = SortedMap.empty) :
    Decides (forM refs addNode) d (Agree refs)
      fun _ d' => d'.HasNodesOf refs ∧ d'.graph.edges = d.graph.edges := by
  induction refs using List.reverseRecOn with
  | nil =>
    refine decides_of_eq_ok rfl (fun r hr => by cases hr) ⟨fun name => ?_, rfl⟩
    rw [hd]
    rfl
  | append_singleton refs r ih =>
    rw [List.forM_append]
    refine (ih.bind fun hagree _ d₁ h₁ => ?_).congr (agree_append_singleton refs r).symm
    have hstep := decides_addNode hagree h₁.1 r
    rw [List.forM_cons, List.forM_nil, bind_pure_unit]
    exact hstep.weaken fun _ _ d₂ h₂ => ⟨h₂.1, h₂.2.trans h₁.2⟩

end Drafting

end Typestate
