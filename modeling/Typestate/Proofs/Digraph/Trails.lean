import Typestate.Proofs.Grammar.Trails
import Typestate.Proofs.Graph.EdgeMention
import Typestate.Proofs.Graph.Leaving
import Typestate.Proofs.Graph.Restating

/-!
Chains of plain names as single edges. In a digraph the edges of a chain come one by one, but every node and every
edge is mentioned as it is in the machine language (`sameMentions_parts`).
-/

namespace Typestate

open Word (method leftBrace rightBrace)

/-! ## Statements -/

/-- The chain of an edge between two names. -/
def EdgeKey.statement (key : EdgeKey) : Statement :=
  .chain { first := [{ name := key.source }], rest := [({}, [{ name := key.target }])] }

theorem mem_mentions_refs (statements : List Statement) (r : NodeRef) :
    r ∈ mentions statements ↔ ∃ s ∈ statements, r ∈ s.refs := by
  rw [mem_mentions]
  constructor
  · rintro (hnode | ⟨c, hc, hr⟩)
    · exact ⟨_, hnode, List.mem_singleton.mpr rfl⟩
    · exact ⟨_, hc, hr⟩
  · rintro ⟨s, hs, hr⟩
    cases s with
    | node r' =>
      rw [List.mem_singleton.mp hr]
      exact Or.inl hs
    | chain c => exact Or.inr ⟨c, hs, hr⟩

theorem chains_append (statements statements' : List Statement) :
    chains (statements ++ statements') = chains statements ++ chains statements' := by
  induction statements with
  | nil => rfl
  | cons s statements ih =>
    cases s with
    | node r => exact ih
    | chain c => exact congrArg (c :: ·) ih

theorem edgeMentions_append (statements statements' : List Statement) :
    edgeMentions (statements ++ statements') = edgeMentions statements ++ edgeMentions statements' := by
  rw [edgeMentions, chains_append, List.flatMap_append]
  rfl

/-- The mention of an edge by an arrow that says nothing. -/
def EdgeKey.mention (key : EdgeKey) : EdgeMention := ⟨key, {}, []⟩

theorem edgeMentions_edges (keys : List EdgeKey) :
    edgeMentions (keys.map EdgeKey.statement) = keys.map EdgeKey.mention := by
  induction keys with
  | nil => rfl
  | cons key keys ih => exact congrArg (key.mention :: ·) ih

theorem edgeMentions_nodes (refs : List NodeRef) : edgeMentions (refs.map .node) = [] := by
  induction refs with
  | nil => rfl
  | cons r refs ih => exact ih

/-! ## Edges one by one -/

namespace Trail

/-- The consecutive pairs of a name and those behind it. -/
def hopsFrom : PlainName → List PlainName → List (PlainName × PlainName)
  | _, [] => []
  | n, m :: more => (n, m) :: hopsFrom m more

def hops (t : Trail) : List (PlainName × PlainName) := hopsFrom t.first t.more

/-- The only name, if there is just one. -/
def alone (t : Trail) : List PlainName := if t.more.isEmpty then [t.first] else []

end Trail

/-- The statement of one node. -/
def PlainName.statement (n : PlainName) : Statement := .node { name := n.text }

/-- The chain of one edge. -/
def hopStatement (h : PlainName × PlainName) : Statement :=
  .chain { first := [{ name := h.1.text }], rest := [({}, [{ name := h.2.text }])] }

/-- What the trail says with its edges one by one. -/
def Trail.parts (t : Trail) : List Statement := t.alone.map PlainName.statement ++ t.hops.map hopStatement

/-- Every name of a trail of several is an end of an edge. -/
theorem Trail.mem_hopsFrom_iff (n m : PlainName) (more : List PlainName) (x : PlainName) :
    (∃ h ∈ hopsFrom n (m :: more), x = h.1 ∨ x = h.2) ↔ x ∈ n :: m :: more := by
  induction more generalizing n m with
  | nil => simp [hopsFrom]
  | cons k more ih =>
    rw [hopsFrom, List.exists_mem_cons_iff, ih m k]
    simp only [List.mem_cons]
    tauto

/-- A name of a trail stands alone, or it is an end of an edge. -/
theorem Trail.mem_names_iff (t : Trail) (x : PlainName) :
    x ∈ t.names ↔ x ∈ t.alone ∨ ∃ h ∈ t.hops, x = h.1 ∨ x = h.2 := by
  obtain ⟨first, more⟩ := t
  cases more with
  | nil => simp [names, alone, hops, hopsFrom]
  | cons m more =>
    rw [hops, mem_hopsFrom_iff]
    simp [names, alone]

/-! ## Mentions -/

theorem Trail.refs_statement (t : Trail) : t.statement.refs = t.names.map fun n => { name := n.text } := by
  obtain ⟨first, more⟩ := t
  cases more with
  | nil => rfl
  | cons m more =>
    have hmore : ∀ names : List PlainName,
        (names.map fun n => ([{ name := n.text }] : NodeGroup)).flatten = names.map fun n => { name := n.text } := by
      intro names
      rw [← List.flatMap_def, List.map_eq_flatMap]
    simp [statement, Statement.refs, Chain.nodeRefs, Chain.groups, names, Function.comp_def, hmore]

theorem mem_mentions_statements (trails : List Trail) (r : NodeRef) :
    r ∈ mentions (trails.map Trail.statement) ↔ ∃ t ∈ trails, ∃ n ∈ t.names, r = { name := n.text } := by
  simp only [mem_mentions_refs, List.mem_map, exists_exists_and_eq_and, Trail.refs_statement]
  simp only [eq_comm]

theorem mem_mentions_parts (trails : List Trail) (r : NodeRef) :
    r ∈ mentions (trails.flatMap Trail.parts) ↔ ∃ t ∈ trails, ∃ n ∈ t.names, r = { name := n.text } := by
  have hparts : ∀ t : Trail, (∃ s ∈ t.parts, r ∈ s.refs) ↔ ∃ n ∈ t.names, r = { name := n.text } := by
    intro t
    have hnode : ∀ n : PlainName, r ∈ n.statement.refs ↔ r = { name := n.text } := fun n => List.mem_singleton
    have hhop : ∀ h : PlainName × PlainName,
        r ∈ (hopStatement h).refs ↔ r = { name := h.1.text } ∨ r = { name := h.2.text } := fun h => List.mem_pair
    constructor
    · rintro ⟨s, hs, hr⟩
      rcases List.mem_append.mp hs with hs | hs
      · obtain ⟨n, hn, rfl⟩ := List.mem_map.mp hs
        exact ⟨n, (t.mem_names_iff n).mpr (Or.inl hn), (hnode n).mp hr⟩
      · obtain ⟨h, hh, rfl⟩ := List.mem_map.mp hs
        rcases (hhop h).mp hr with hr | hr
        · exact ⟨h.1, (t.mem_names_iff h.1).mpr (Or.inr ⟨h, hh, Or.inl rfl⟩), hr⟩
        · exact ⟨h.2, (t.mem_names_iff h.2).mpr (Or.inr ⟨h, hh, Or.inr rfl⟩), hr⟩
    · rintro ⟨n, hn, hr⟩
      rcases (t.mem_names_iff n).mp hn with hn | ⟨h, hh, hend⟩
      · exact ⟨_, List.mem_append_left _ (List.mem_map_of_mem hn), (hnode n).mpr hr⟩
      · refine ⟨_, List.mem_append_right _ (List.mem_map_of_mem hh), (hhop h).mpr ?_⟩
        rcases hend with rfl | rfl
        · exact Or.inl hr
        · exact Or.inr hr
  simp only [mem_mentions_refs, List.mem_flatMap, ← hparts]
  constructor
  · rintro ⟨s, ⟨t, ht, hs⟩, hr⟩
    exact ⟨t, ht, s, hs, hr⟩
  · rintro ⟨t, ht, s, hs, hr⟩
    exact ⟨s, ⟨t, ht, hs⟩, hr⟩

/-- The mention of an edge of a trail. -/
def hopMention (h : PlainName × PlainName) : EdgeMention := ⟨⟨h.1.text, h.2.text⟩, {}, []⟩

theorem edgeMentions_hops (hops : List (PlainName × PlainName)) :
    edgeMentions (hops.map hopStatement) = hops.map hopMention := by
  have h := edgeMentions_edges (hops.map fun h => ⟨h.1.text, h.2.text⟩)
  rwa [List.map_map, List.map_map] at h

theorem edgeMentions_alone (names : List PlainName) : edgeMentions (names.map PlainName.statement) = [] := by
  have h := edgeMentions_nodes (names.map fun n => { name := n.text })
  rwa [List.map_map] at h

theorem Trail.edgeMentions_parts (t : Trail) : edgeMentions t.parts = t.hops.map hopMention := by
  rw [parts, edgeMentions_append, edgeMentions_alone, edgeMentions_hops]
  rfl

theorem Trail.edgeMentions_statement (t : Trail) : edgeMentions [t.statement] = t.hops.map hopMention := by
  have hchain : ∀ (more : List PlainName) (n : PlainName),
      (Chain.hopsFrom [{ name := n.text }] (more.map fun n => ({}, [{ name := n.text }]))).flatMap
        (fun h => h.ends.map fun key => (⟨key, h.arrow, []⟩ : EdgeMention)) = (hopsFrom n more).map hopMention := by
    intro more
    induction more with
    | nil => exact fun n => rfl
    | cons m more ih => exact fun n => congrArg (hopMention (n, m) :: ·) (ih m)
  obtain ⟨first, more⟩ := t
  cases more with
  | nil => rfl
  | cons m more => exact (List.append_nil _).trans (hchain (m :: more) first)

theorem edgeMentions_statements (trails : List Trail) :
    edgeMentions (trails.map Trail.statement) = edgeMentions (trails.flatMap Trail.parts) := by
  induction trails with
  | nil => rfl
  | cons t trails ih =>
    rw [List.map_cons, ← List.singleton_append, edgeMentions_append, t.edgeMentions_statement, ih,
      List.flatMap_cons, edgeMentions_append, t.edgeMentions_parts]

/-- **Mentions.** Nodes and edges are mentioned alike by chains and by edges in any order. -/
theorem sameMentions_parts {trails : List Trail} {statements : List Statement}
    (h : statements.Perm (trails.flatMap Trail.parts)) :
    SameMentions (trails.map Trail.statement) statements := by
  refine sameMentions_of_bare (fun r => ?_) (fun r hr => ?_) ?_
  · rw [mem_mentions_statements, ← mem_mentions_parts, (mentions_perm h).mem_iff]
  · obtain ⟨t, -, n, -, rfl⟩ := (mem_mentions_statements trails r).mp hr
    exact ⟨rfl, rfl⟩
  · rw [edgeMentions_statements]
    exact (edgeMentions_perm h).symm

/-! ## Texts -/

theorem PlainName.isPlainWord (n : PlainName) : Identifier.IsPlainWord n.text.toList := by
  obtain ⟨c, more, hn, hstart, hchars⟩ := n.exists_cons
  rw [hn]
  exact .cons hstart fun d hd => hchars d (List.mem_cons_of_mem _ hd)

/-- The digraph of some trails, as it is written. -/
def Digraph.graphWords (n : PlainName) (trails : List Trail) : List Word :=
  Word.identifier "digraph" :: method n.text :: leftBrace :: (trails.flatMap Trail.words ++ [rightBrace])

end Typestate
