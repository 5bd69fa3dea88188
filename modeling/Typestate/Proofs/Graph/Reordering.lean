import Typestate.Proofs.Code.Spans
import Typestate.Proofs.Graph.Contents

/-!
The order of statements. It decides which mention of a node comes first, so whose spelling of a type and
whose place the node gets, and the order of its documentation. Everything else about the graph is the
same for every order, and the generated code is too where those mentions agree
(`Graph.ofStatements_perm`).
-/

namespace Typestate

/-- Mentions that give one node a type spell it alike. -/
def SpelledAlike (refs : List NodeRef) : Prop :=
  ∀ r ∈ refs, ∀ r' ∈ refs, r.name = r'.name →
    ∀ ty, r.ty = some ty → ∀ ty', r'.ty = some ty' → ty = ty'

/-- No node is documented by two mentions. -/
def DocumentedOnce (refs : List NodeRef) : Prop :=
  ∀ name, ((mentionsOf refs name).filter (!·.docs.isEmpty)).length ≤ 1

/-! ## Lists -/

/-- The first answers in two orders of a list are related if any two answers are. -/
theorem rel_findSome?_of_perm {α β : Type} {f : α → Option β} {R : β → β → Prop} {l l' : List α}
    (hperm : l.Perm l')
    (hR : ∀ a ∈ l, ∀ b ∈ l, ∀ x, f a = some x → ∀ y, f b = some y → R x y) :
    Option.Rel R (l.findSome? f) (l'.findSome? f) := by
  cases hl : l.findSome? f with
  | none =>
    have hl' : l'.findSome? f = none := by
      rw [List.findSome?_eq_none_iff] at hl ⊢
      intro a ha
      exact hl a (hperm.mem_iff.mpr ha)
    rw [hl']
    exact .none
  | some x =>
    obtain ⟨a, ha, hx⟩ := List.exists_of_findSome?_eq_some hl
    cases hl' : l'.findSome? f with
    | none =>
      rw [List.findSome?_eq_none_iff.mp hl' a (hperm.mem_iff.mp ha)] at hx
      cases hx
    | some y =>
      obtain ⟨b, hb, hy⟩ := List.exists_of_findSome?_eq_some hl'
      exact .some (hR a ha b (hperm.mem_iff.mpr hb) x hx y hy)

theorem eq_of_rel_eq {α : Type} {x y : Option α} (h : Option.Rel (fun a b => a = b) x y) : x = y := by
  cases h with
  | some hab => rw [hab]
  | none => rfl

theorem eq_of_perm_of_length_le_one {α : Type} {l l' : List α} (hperm : l.Perm l')
    (h : l.length ≤ 1) : l = l' := by
  match l, h with
  | [], _ => exact (List.nil_perm.mp hperm).symm
  | [a], _ => exact List.singleton_perm.mp hperm

/-! ## Mentions -/

section
variable {statements statements' : List Statement} (hperm : statements.Perm statements')
include hperm

theorem nodeStatements_perm : (nodeStatements statements).Perm (nodeStatements statements') := by
  induction hperm with
  | nil => exact .nil
  | cons s _ ih =>
    cases s with
    | node r => exact ih.cons r
    | chain c => exact ih
  | swap s s' l =>
    cases s <;> cases s' <;> first | exact .swap _ _ _ | exact .refl _
  | trans _ _ ih ih' => exact ih.trans ih'

theorem chains_perm : (chains statements).Perm (chains statements') := by
  induction hperm with
  | nil => exact .nil
  | cons s _ ih =>
    cases s with
    | node r => exact ih
    | chain c => exact ih.cons c
  | swap s s' l =>
    cases s <;> cases s' <;> first | exact .swap _ _ _ | exact .refl _
  | trans _ _ ih ih' => exact ih.trans ih'

theorem mentions_perm : (mentions statements).Perm (mentions statements') :=
  (nodeStatements_perm hperm).append ((chains_perm hperm).flatMap_right _)

theorem edgeMentions_perm : (edgeMentions statements).Perm (edgeMentions statements') :=
  (chains_perm hperm).flatMap_right _

theorem Buildable.perm {renameMethods : Bool} {reserved : List String}
    (h : Buildable renameMethods reserved statements) :
    Buildable renameMethods reserved statements' := by
  have hmentions : ∀ {r}, r ∈ mentions statements' → r ∈ mentions statements :=
    (mentions_perm hperm).mem_iff.mpr
  have hedges : ∀ {m}, m ∈ edgeMentions statements' → m ∈ edgeMentions statements :=
    (edgeMentions_perm hperm).mem_iff.mpr
  constructor
  case agree => exact fun r hr r' hr' => h.agree r (hmentions hr) r' (hmentions hr')
  case edgesOnce => exact ((edgeMentions_perm hperm).map _).nodup_iff.mp h.edgesOnce
  case someEdge =>
    intro hnil
    have hempty := edgeMentions_perm hperm
    rw [hnil] at hempty
    exact h.someEdge hempty.eq_nil
  case namesApart => exact fun m hm m' hm' => h.namesApart m (hedges hm) m' (hedges hm')
  case unreserved => exact fun name hname m hm => h.unreserved name hname m (hedges hm)

theorem edgeMap_perm (renameMethods : Bool)
    (honce : ((edgeMentions statements).map (·.key)).Nodup) :
    edgeMap renameMethods statements = edgeMap renameMethods statements' := by
  refine SortedMap.ofList_eq_of_perm ((edgeMentions_perm hperm).map _) ?_
  rwa [List.map_map]

theorem mentionsOf_perm (name : String) :
    (mentionsOf (mentions statements) name).Perm (mentionsOf (mentions statements') name) :=
  (mentions_perm hperm).filter _

/-- Two orders give a node the same type, to the letter if its mentions do. -/
theorem gather_ty_perm {R : String → String → Prop} (name : String)
    (hR : ∀ r ∈ mentions statements, ∀ r' ∈ mentions statements, r.name = r'.name →
      ∀ ty, r.ty = some ty → ∀ ty', r'.ty = some ty' → R ty ty') :
    Option.Rel R (Node.gather (mentionsOf (mentions statements) name)).ty
      (Node.gather (mentionsOf (mentions statements') name)).ty := by
  refine rel_findSome?_of_perm (mentionsOf_perm hperm name) fun r hr r' hr' => ?_
  obtain ⟨hr, hname⟩ := (mem_mentionsOf _ _ _).mp hr
  obtain ⟨hr', hname'⟩ := (mem_mentionsOf _ _ _).mp hr'
  exact hR r hr r' hr' (hname.trans hname'.symm)

theorem gather_docs_perm (name : String) (honce : DocumentedOnce (mentions statements)) :
    (Node.gather (mentionsOf (mentions statements) name)).docs =
      (Node.gather (mentionsOf (mentions statements') name)).docs := by
  have hruns : ∀ refs : List NodeRef, (refs.map (·.docs)).filter (!·.isEmpty) =
      (refs.filter (!·.docs.isEmpty)).map (·.docs) := fun refs => List.filter_map
  have heq := eq_of_perm_of_length_le_one ((mentionsOf_perm hperm name).filter _) (honce name)
  simp only [Node.gather, joinRuns, hruns, heq]

/-- The nodes are the same up to their places. -/
theorem withoutSpan_ofMentions_perm (halike : SpelledAlike (mentions statements))
    (honce : DocumentedOnce (mentions statements)) (name : String) :
    (Node.ofMentions (mentionsOf (mentions statements) name)).map Node.withoutSpan =
      (Node.ofMentions (mentionsOf (mentions statements') name)).map Node.withoutSpan := by
  have hempty := (mentionsOf_perm hperm name).isEmpty_eq
  unfold Node.ofMentions
  rw [hempty]
  split
  · rfl
  · have hty : (Node.gather (mentionsOf (mentions statements) name)).ty =
        (Node.gather (mentionsOf (mentions statements') name)).ty :=
      eq_of_rel_eq (gather_ty_perm hperm name halike)
    simp only [Option.map_some, Node.withoutSpan, hty, gather_docs_perm hperm name honce]

end

/-! ## Graphs -/

namespace Built

variable {renameMethods : Bool} {statements statements' : List Statement} {g g' : Graph}
  (h : Built renameMethods statements g) (h' : Built renameMethods statements' g')
  (hperm : statements.Perm statements')
include h h' hperm

theorem node_keys_perm : g.nodes.keys = g'.nodes.keys := by
  refine SortedMap.keys_eq fun name => ?_
  simp only [h.mem_node_keys, h'.mem_node_keys, (mentions_perm hperm).mem_iff]

/-- Numbers are put behind names in the order of the graph, not in that of the statements. -/
theorem edges_perm (honce : ((edgeMentions statements).map (·.key)).Nodup) : g.edges = g'.edges := by
  refine Graph.edges_eq_of_leaving fun source => ?_
  rw [h.leaving, h'.leaving, edgeMap_perm hperm renameMethods honce]

theorem types_perm (hagree : Agree (mentions statements)) {name : String} {n n' : Node}
    (hn : g.nodes.get? name = some n) (hn' : g'.nodes.get? name = some n') :
    Option.Rel (fun ty ty' => TypeText.same ty ty' = true) n.ty n'.ty := by
  rw [h.node_eq hn, h'.node_eq hn']
  refine gather_ty_perm hperm name fun r hr r' hr' hname ty hty ty' hty' => ?_
  exact (TypeText.same_iff ty ty').mpr (hagree r hr r' hr' hname ty hty ty' hty')

theorem generate_perm (honce : ((edgeMentions statements).map (·.key)).Nodup)
    (halike : SpelledAlike (mentions statements)) (hdocs : DocumentedOnce (mentions statements))
    (d : Document) (renderer : Renderer) :
    Machine.generate ⟨{ d with statements }, g⟩ renderer =
      Machine.generate ⟨{ d with statements := statements' }, g'⟩ renderer := by
  refine Machine.generate_congr rfl (fun _ => h.ends_mem) (fun _ => h'.ends_mem)
    ⟨fun name => ?_, fun key => ?_⟩ renderer
  · rw [h.nodes, h'.nodes, withoutSpan_ofMentions_perm hperm halike hdocs]
  · rw [edges_perm h h' hperm honce]

end Built

/-- **Order.** Statements make a graph in any order or in none. The graphs have the same nodes and the same edges, and
types that compare as the same; and the machines are generated as the same source if every type is spelled alike
wherever it is mentioned and no node is documented at two mentions. -/
theorem Graph.ofStatements_perm {renameMethods : Bool} {reserved : List String}
    {anchor : Option Span} {statements statements' : List Statement}
    (hperm : statements.Perm statements') :
    ((∃ g, ofStatements renameMethods reserved anchor statements = .ok g) ↔
      ∃ g, ofStatements renameMethods reserved anchor statements' = .ok g) ∧
    ∀ g g', ofStatements renameMethods reserved anchor statements = .ok g →
      ofStatements renameMethods reserved anchor statements' = .ok g' →
      g.nodes.keys = g'.nodes.keys ∧ g.edges = g'.edges ∧
      (∀ name n n', g.nodes.get? name = some n → g'.nodes.get? name = some n' →
        Option.Rel (fun ty ty' => TypeText.same ty ty' = true) n.ty n'.ty) ∧
      (SpelledAlike (mentions statements) → DocumentedOnce (mentions statements) →
        ∀ (d : Document) (renderer : Renderer),
          Machine.generate ⟨{ d with statements }, g⟩ renderer =
            Machine.generate ⟨{ d with statements := statements' }, g'⟩ renderer) := by
  constructor
  · rw [exists_ofStatements_iff, exists_ofStatements_iff]
    exact ⟨Buildable.perm hperm, Buildable.perm hperm.symm⟩
  · intro g g' hg hg'
    obtain ⟨hbuildable, hbuilt⟩ := built_of_ofStatements hg
    obtain ⟨-, hbuilt'⟩ := built_of_ofStatements hg'
    have honce := hbuildable.edgesOnce
    exact ⟨hbuilt.node_keys_perm hbuilt' hperm, hbuilt.edges_perm hbuilt' hperm honce,
      fun _ _ _ => hbuilt.types_perm hbuilt' hperm hbuildable.agree,
      hbuilt.generate_perm hbuilt' hperm honce⟩

/-- Two edges into equally named methods, and the node that gives its type to one of them. -/
def twoDoors : List Statement :=
  [.chain { first := [{ name := "Hall" }], rest := [({}, [{ name := "door" }, { name := "Door" }])] },
   .node { name := "Door", ty := some "u8", docs := ["Locked."] }]

def twoDoorsGraph : Graph :=
  { nodes := .ofList [("Hall", {}), ("door", {}), ("Door", { ty := some "u8", docs := ["Locked."] })],
    edges := .ofList [(⟨"Hall", "Door"⟩, { methodName := "door" }),
      (⟨"Hall", "door"⟩, { methodName := "door_2" })] }

theorem twoDoors_perm : twoDoors.Perm twoDoors.reverse ∧
    Graph.ofStatements true [] none twoDoors = .ok twoDoorsGraph ∧
    Graph.ofStatements true [] none twoDoors.reverse = .ok twoDoorsGraph ∧
    SpelledAlike (mentions twoDoors) ∧ DocumentedOnce (mentions twoDoors) ∧
    ∀ (d : Document) (renderer : Renderer),
      Machine.generate ⟨{ d with statements := twoDoors }, twoDoorsGraph⟩ renderer =
        Machine.generate ⟨{ d with statements := twoDoors.reverse }, twoDoorsGraph⟩ renderer := by
  have hperm : twoDoors.Perm twoDoors.reverse := (List.reverse_perm twoDoors).symm
  have hrun : Graph.ofStatements true [] none twoDoors = .ok twoDoorsGraph := by rfl
  have hrun' : Graph.ofStatements true [] none twoDoors.reverse = .ok twoDoorsGraph := by rfl
  have halike : SpelledAlike (mentions twoDoors) := by
    intro r hr r' hr' hname ty hty ty' hty'
    have htyped : ∀ r ∈ mentions twoDoors, r.ty = none ∨ r.ty = some "u8" := by decide
    rcases htyped r hr with h | h <;> rcases htyped r' hr' with h' | h' <;> simp_all
  have hdocs : DocumentedOnce (mentions twoDoors) := by
    intro name
    have hall : ((mentions twoDoors).filter (!·.docs.isEmpty)).length ≤ 1 := by decide
    exact Nat.le_trans (List.filter_sublist.filter _).length_le hall
  obtain ⟨-, hsame⟩ := Graph.ofStatements_perm hperm
  obtain ⟨-, -, -, hgenerate⟩ := hsame _ _ hrun hrun'
  exact ⟨hperm, hrun, hrun', halike, hdocs, hgenerate halike hdocs⟩

end Typestate
