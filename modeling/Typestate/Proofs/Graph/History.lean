import Typestate.Proofs.Graph.EdgeMention
import Typestate.Proofs.Graph.Leaving

/-!
What drafting never takes back. A step may succeed or fail, and any other may follow. Nodes and edges only
grow along every run of steps, and names change only where they are settled. A step that fails has done
nothing, but for a chain, which keeps the edges in front of the first that is there already
(`DraftStep.run_history`).
-/

namespace Typestate

/-! ## Growing -/

/-- The later node is the earlier one with what further mentions can add. -/
structure Node.Persists (n n' : Node) : Prop where
  span : n'.span = n.span
  ty : ∀ ty, n.ty = some ty → n'.ty = some ty
  docs : n.docs <+: n'.docs

/-- The later edge is the earlier one, perhaps with another name if that is derived. -/
structure Edge.Persists (e e' : Edge) : Prop where
  docs : e'.docs = e.docs
  explicit : e'.explicit = e.explicit
  span : e'.span = e.span
  name : e.explicit = true → e'.methodName = e.methodName

/-- Every node and every edge of the earlier draft is still there in the later one. -/
structure Draft.Grows (d d' : Draft) : Prop where
  nodes : ∀ name n, d.graph.nodes.get? name = some n →
    ∃ n', d'.graph.nodes.get? name = some n' ∧ n.Persists n'
  edges : ∀ key e, d.graph.edges.get? key = some e →
    ∃ e', d'.graph.edges.get? key = some e' ∧ e.Persists e'

/-- Every edge of the earlier draft is the same in the later one. -/
def Draft.KeepsEdges (d d' : Draft) : Prop :=
  ∀ key e, d.graph.edges.get? key = some e → d'.graph.edges.get? key = some e

/-- The later draft is the earlier one but for names of edges. -/
structure Draft.Relabels (d d' : Draft) : Prop extends Draft.Grows d d' where
  sameNodes : d'.graph.nodes = d.graph.nodes
  sameKeys : d'.graph.edges.keys = d.graph.edges.keys

theorem Node.Persists.refl (n : Node) : n.Persists n := ⟨rfl, fun _ h => h, List.prefix_rfl⟩

theorem Node.Persists.trans {n n' n'' : Node} (h : n.Persists n') (h' : n'.Persists n'') :
    n.Persists n'' :=
  ⟨h'.span.trans h.span, fun ty hty => h'.ty ty (h.ty ty hty), h.docs.trans h'.docs⟩

theorem Edge.Persists.refl (e : Edge) : e.Persists e := ⟨rfl, rfl, rfl, fun _ => rfl⟩

theorem Edge.Persists.trans {e e' e'' : Edge} (h : e.Persists e') (h' : e'.Persists e'') :
    e.Persists e'' :=
  ⟨h'.docs.trans h.docs, h'.explicit.trans h.explicit, h'.span.trans h.span,
    fun he => (h'.name (h.explicit.trans he)).trans (h.name he)⟩

theorem Edge.persists_rename {e : Edge} (name : String) (he : e.explicit = false) :
    e.Persists { e with methodName := name } :=
  ⟨rfl, rfl, rfl, fun hexplicit => absurd (he.symm.trans hexplicit) (by decide)⟩

theorem prefix_joinDocs (existing extra : List String) : existing <+: joinDocs existing extra := by
  unfold joinDocs
  split
  · next hempty =>
    rw [List.isEmpty_iff.mp hempty]
    exact List.nil_prefix
  · split
    · exact List.prefix_rfl
    · exact List.prefix_append _ _

theorem Node.persists_merge (n : Node) (r : NodeRef) : n.Persists (n.merge r) := by
  refine ⟨rfl, fun ty hty => ?_, prefix_joinDocs n.docs r.docs⟩
  change n.ty.or r.ty = some ty
  rw [hty, Option.some_or]

namespace Draft

variable {d d' d'' : Draft}

theorem Grows.refl (d : Draft) : d.Grows d :=
  ⟨fun _ n h => ⟨n, h, .refl n⟩, fun _ e h => ⟨e, h, .refl e⟩⟩

theorem Grows.trans (h : d.Grows d') (h' : d'.Grows d'') : d.Grows d'' where
  nodes name n hn := by
    obtain ⟨n', hn', hpersists⟩ := h.nodes name n hn
    obtain ⟨n'', hn'', hpersists'⟩ := h'.nodes name n' hn'
    exact ⟨n'', hn'', hpersists.trans hpersists'⟩
  edges key e he := by
    obtain ⟨e', he', hpersists⟩ := h.edges key e he
    obtain ⟨e'', he'', hpersists'⟩ := h'.edges key e' he'
    exact ⟨e'', he'', hpersists.trans hpersists'⟩

theorem KeepsEdges.refl (d : Draft) : d.KeepsEdges d := fun _ _ h => h

theorem KeepsEdges.trans (h : d.KeepsEdges d') (h' : d'.KeepsEdges d'') : d.KeepsEdges d'' :=
  fun key e he => h' key e (h key e he)

theorem Relabels.refl (d : Draft) : d.Relabels d := ⟨.refl d, rfl, rfl⟩

theorem Relabels.trans (h : d.Relabels d') (h' : d'.Relabels d'') : d.Relabels d'' :=
  ⟨h.toGrows.trans h'.toGrows, h'.sameNodes.trans h.sameNodes, h'.sameKeys.trans h.sameKeys⟩

/-- A node that is put in the place of one that it persists, or of none. -/
theorem grows_putNode (d : Draft) (name : String) (n' : Node)
    (h : ∀ n, d.graph.nodes.get? name = some n → n.Persists n') :
    d.Grows { d with graph := { d.graph with nodes := d.graph.nodes.insert name n' } } := by
  refine ⟨fun other n hn => ?_, (Grows.refl d).edges⟩
  by_cases hother : other = name
  · subst hother
    exact ⟨n', SortedMap.get?_insert_self .., h n hn⟩
  · exact ⟨n, (SortedMap.get?_insert_of_ne _ n' hother).trans hn, .refl n⟩

theorem keepsEdges_putEdge (d : Draft) {key : EdgeKey} (e : Edge) (h : key ∉ d.graph.edges.keys) :
    d.KeepsEdges { d with graph := { d.graph with edges := d.graph.edges.insert key e } } := by
  intro other e' he'
  have hother : other ≠ key := by
    rintro rfl
    exact h ((SortedMap.mem_keys_iff _ _).mpr ⟨e', he'⟩)
  exact (SortedMap.get?_insert_of_ne _ e hother).trans he'

/-- Where the nodes are the same, edges that are the same have grown. -/
theorem KeepsEdges.grows (h : d.KeepsEdges d') (hnodes : d'.graph.nodes = d.graph.nodes) :
    d.Grows d' where
  nodes name n hn := ⟨n, by rw [hnodes, hn], .refl n⟩
  edges key e he := ⟨e, h key e he, .refl e⟩

theorem relabels_putEdge {key : EdgeKey} {e e' : Edge} (h : d.graph.edges.get? key = some e)
    (hpersists : e.Persists e') (renames : List Rename) :
    d.Relabels { graph := { d.graph with edges := d.graph.edges.insert key e' }, renames } := by
  refine ⟨⟨(Grows.refl d).nodes, fun other e₀ he₀ => ?_⟩, rfl, SortedMap.keys_eq fun other => ?_⟩
  · by_cases hother : other = key
    · subst hother
      rw [h] at he₀
      cases he₀
      exact ⟨e', SortedMap.get?_insert_self .., hpersists⟩
    · exact ⟨e₀, (SortedMap.get?_insert_of_ne _ e' hother).trans he₀, .refl e₀⟩
  · rw [SortedMap.mem_keys_insert]
    refine or_iff_right_of_imp ?_
    rintro rfl
    exact (SortedMap.mem_keys_iff _ _).mpr ⟨e, h⟩

end Draft

/-! ## Single steps -/

namespace Drafting

variable {α β : Type}

/-- The draft that a step leaves, whether it succeeds or fails. -/
def left (step : Drafting α) (d : Draft) : Draft :=
  match step d with
  | .ok _ d' => d'
  | .error _ d' => d'

theorem left_congr {step step' : Drafting α} {d : Draft} (h : step d = step' d) :
    left step d = left step' d := by
  rw [left, left, h]

theorem left_of_eq_ok {step : Drafting α} {d d' : Draft} {a : α} (h : step d = .ok a d') :
    left step d = d' := by
  rw [left, h]

theorem left_of_eq_error {step : Drafting α} {d d' : Draft} {fault : DraftFault}
    (h : step d = .error fault d') : left step d = d' := by
  rw [left, h]

/-- What a sequence leaves is what its first part leaves, or what the second makes of that. -/
theorem left_bind (step : Drafting α) (next : α → Drafting β) (d : Draft) :
    left (step >>= next) d = left step d ∨
      ∃ a, step d = .ok a (left step d) ∧ left (step >>= next) d = left (next a) (left step d) := by
  have hbind : (step >>= next) d = EStateM.bind step next d := rfl
  unfold left
  rw [hbind, EStateM.bind]
  cases step d with
  | ok a d' => exact Or.inr ⟨a, rfl, rfl⟩
  | error fault d' => exact Or.inl rfl

/-- What each step of a row keeps is kept by all of them. -/
theorem left_forM (related : Draft → Draft → Prop) (hrefl : ∀ d, related d d)
    (htrans : ∀ {d d' d''}, related d d' → related d' d'' → related d d'') {step : α → Drafting Unit}
    (hstep : ∀ a d, related d (left (step a) d)) (l : List α) (d : Draft) :
    related d (left (forM l step) d) := by
  induction l generalizing d with
  | nil => exact hrefl d
  | cons a l ih =>
    rw [List.forM_cons]
    rcases left_bind (step a) (fun _ => forM l step) d with hleft | ⟨_, -, hleft⟩
    · rw [hleft]
      exact hstep a d
    · rw [hleft]
      exact htrans (hstep a d) (ih _)

/-- A mention puts a node in the place of an earlier one that it persists, or it does nothing. -/
theorem addNode_cases (r : NodeRef) (d : Draft) :
    (∃ n', (∀ n, d.graph.nodes.get? r.name = some n → n.Persists n') ∧ addNode r d =
      .ok () { d with graph := { d.graph with nodes := d.graph.nodes.insert r.name n' } }) ∨
    ∃ fault, addNode r d = .error fault d := by
  rw [addNode_apply]
  cases hget : d.graph.nodes.get? r.name with
  | none => exact Or.inl ⟨.ofRef r, nofun, rfl⟩
  | some n =>
    dsimp only
    cases n.conflict? r with
    | some types => exact Or.inr ⟨_, rfl⟩
    | none =>
      refine Or.inl ⟨n.merge r, ?_, rfl⟩
      rintro _ ⟨⟩
      exact n.persists_merge r

theorem addNode_grows (r : NodeRef) (d : Draft) :
    d.Grows (left (addNode r) d) ∧ (left (addNode r) d).graph.edges = d.graph.edges := by
  rcases addNode_cases r d with ⟨n', hpersists, hrun⟩ | ⟨fault, hrun⟩
  · rw [left_of_eq_ok hrun]
    exact ⟨Draft.grows_putNode d r.name n' hpersists, rfl⟩
  · rw [left_of_eq_error hrun]
    exact ⟨.refl d, rfl⟩

/-- An edge is put where none is yet, or nothing is done. -/
theorem addEdge_cases (renameMethods : Bool) (m : EdgeMention) (d : Draft) :
    (m.key ∉ d.graph.edges.keys ∧ addEdge renameMethods m.key m.arrow m.docs d = .ok () { d with
      graph := { d.graph with edges := d.graph.edges.insert m.key (m.edge renameMethods) } }) ∨
    (m.key ∈ d.graph.edges.keys ∧ addEdge renameMethods m.key m.arrow m.docs d =
      .error (.invalid (.duplicateEdge m.key.source m.key.target) m.arrow.span) d) := by
  rw [addEdge_apply, ← SortedMap.contains_iff]
  split
  · next h => exact Or.inr ⟨h, rfl⟩
  · next h => exact Or.inl ⟨h, rfl⟩

theorem left_checkReserved (reserved : List String) (anchor : Option Span) (d : Draft) :
    left (checkReserved reserved anchor) d = d := by
  unfold left checkReserved
  cases hfind : reserved.find? d.graph.sources.contains with
  | none =>
    simp only [Run.get_bind_apply, hfind]
    rfl
  | some name =>
    cases hget : d.graph.nodes.get? name <;> simp only [Run.get_bind_apply, hfind, hget] <;> rfl

theorem left_explicitNames (source : String) (known : SortedMap String (String × Edge))
    (out : List (String × Edge)) (d : Draft) : left (explicitNames source known out) d = d := by
  induction out generalizing known with
  | nil => rfl
  | cons p out ih =>
    obtain ⟨target, e⟩ := p
    unfold explicitNames
    split
    · exact ih known
    · split
      · rfl
      · exact ih _

/-- Numbers are put behind names of edges as they were read from the draft. -/
theorem relabels_numberDerived (source : String) (explicit : SortedMap String (String × Edge))
    (names used : List String) (rest : List (String × Edge)) (d : Draft)
    (h : ∀ p ∈ rest, d.graph.edges.get? ⟨source, p.1⟩ = some p.2) (hnodup : (rest.map (·.1)).Nodup) :
    d.Relabels (left (numberDerived source explicit names used rest) d) := by
  induction rest generalizing used d with
  | nil => exact .refl d
  | cons p rest ih =>
    obtain ⟨target, e⟩ := p
    obtain ⟨hhere, hrest⟩ := List.forall_mem_cons.mp h
    obtain ⟨hnot, hnodup⟩ := List.nodup_cons.mp hnodup
    unfold numberDerived
    by_cases he : e.explicit = true
    · rw [if_pos he]
      exact ih used d hrest hnodup
    · rw [if_neg he]
      cases explicit.get? e.methodName with
      | some rival => exact .refl d
      | none =>
        by_cases hused : used.contains e.methodName = true
        · simp only [hused, ↓reduceIte]
          generalize numbered e.methodName (names ++ used) = name
          have hput := Draft.relabels_putEdge hhere
            (Edge.persists_rename name (Bool.eq_false_iff.mpr he))
            (d.renames ++ [⟨source, target, name⟩])
          -- The edges behind this one go to other targets and stand as they were read.
          refine hput.trans (ih (name :: used) _ (fun q hq => ?_) hnodup)
          have hother : (⟨source, q.1⟩ : EdgeKey) ≠ ⟨source, target⟩ := by
            intro heq
            exact hnot (List.mem_map.mpr ⟨q, hq, congrArg EdgeKey.target heq⟩)
          exact (SortedMap.get?_insert_of_ne _ _ hother).trans (hrest q hq)
        · simp only [hused, Bool.false_eq_true, ↓reduceIte]
          exact ih (e.methodName :: used) d hrest hnodup

theorem relabels_settleNamesOf (source : String) (d : Draft) :
    d.Relabels (left (settleNamesOf source) d) := by
  have hrun : settleNamesOf source d = (explicitNames source .empty (d.graph.leaving source) >>=
    fun explicit => numberDerived source explicit ((d.graph.leaving source).map (·.2.methodName)) []
      (d.graph.leaving source)) d := rfl
  rw [left_congr hrun]
  rcases left_bind (explicitNames source .empty (d.graph.leaving source)) _ d with hleft | ⟨_, -, hleft⟩
  · rw [hleft, left_explicitNames]
    exact .refl d
  · rw [hleft, left_explicitNames]
    refine relabels_numberDerived source _ _ _ _ d ?_ (Graph.nodup_leaving_targets d.graph source)
    rintro ⟨target, e⟩ hp
    exact (Graph.mem_leaving d.graph source target e).mp hp

theorem relabels_settleNames (d : Draft) : d.Relabels (left settleNames d) :=
  left_forM Draft.Relabels Draft.Relabels.refl Draft.Relabels.trans relabels_settleNamesOf d.graph.sources d

/-! ## Chains -/

/-- An edge is added to the others, or it is there already and nothing is done. -/
theorem keepsEdges_addEdge (renameMethods : Bool) (m : EdgeMention) (d : Draft) :
    d.KeepsEdges (left (addEdge renameMethods m.key m.arrow m.docs) d) ∧
      (left (addEdge renameMethods m.key m.arrow m.docs) d).graph.nodes = d.graph.nodes := by
  rcases addEdge_cases renameMethods m d with ⟨hnew, hrun⟩ | ⟨-, hrun⟩
  · rw [left_of_eq_ok hrun]
    exact ⟨Draft.keepsEdges_putEdge d _ hnew, rfl⟩
  · rw [left_of_eq_error hrun]
    exact ⟨.refl d, rfl⟩

theorem keepsEdges_addChain (renameMethods : Bool) (c : Chain) (d : Draft) :
    d.KeepsEdges (left (addChain renameMethods c) d) ∧
      (left (addChain renameMethods c) d).graph.nodes = d.graph.nodes := by
  rw [addChain_eq]
  refine left_forM (fun d d' => d.KeepsEdges d' ∧ d'.graph.nodes = d.graph.nodes)
    (fun d => ⟨.refl d, rfl⟩) ?_ (keepsEdges_addEdge renameMethods) c.edgeMentions d
  rintro d d' d'' ⟨h, hnodes⟩ ⟨h', hnodes'⟩
  exact ⟨h.trans h', hnodes'.trans hnodes⟩

/-- The draft `d'` is `d` with the edges of the mentions `added`, and the mention `repeated` is the first
of an edge that is there already. -/
structure StopsAt (renameMethods : Bool) (d d' : Draft) (added : List EdgeMention)
    (repeated : EdgeMention) : Prop where
  once : (added.map (·.key)).Nodup
  new : ∀ m ∈ added, m.key ∉ d.graph.edges.keys
  again : repeated.key ∈ d.graph.edges.keys ∨ repeated.key ∈ added.map (·.key)
  nodes : d'.graph.nodes = d.graph.nodes
  renames : d'.renames = d.renames
  edges : ∀ key e, d'.graph.edges.get? key = some e ↔ d.graph.edges.get? key = some e ∨
    ∃ m ∈ added, m.key = key ∧ m.edge renameMethods = e

/-- Edges that are added one after the other end at the first that is there already. -/
theorem stopsAt_of_forM_addEdge {renameMethods : Bool} {ms : List EdgeMention} {d d' : Draft}
    {fault : DraftFault}
    (h : forM ms (fun m => addEdge renameMethods m.key m.arrow m.docs) d = .error fault d') :
    ∃ added repeated rest, ms = added ++ repeated :: rest ∧
      fault = .invalid (.duplicateEdge repeated.key.source repeated.key.target) repeated.arrow.span ∧
      StopsAt renameMethods d d' added repeated := by
  induction ms generalizing d with
  | nil => cases h
  | cons m ms ih =>
    rw [List.forM_cons, Run.bind_eq_error_iff] at h
    rcases addEdge_cases renameMethods m d with ⟨hnew, hrun⟩ | ⟨hold, hrun⟩
    · rw [hrun] at h
      obtain hnone | ⟨_, d₁, ⟨⟩, h⟩ := h
      · cases hnone
      obtain ⟨added, repeated, rest, rfl, hfault, honce, hnews, hagain, hnodes, hrenames, hedges⟩ := ih h
      have hkeys : ∀ key, key ∈ (d.graph.edges.insert m.key (m.edge renameMethods)).keys ↔
          key = m.key ∨ key ∈ d.graph.edges.keys :=
        fun key => SortedMap.mem_keys_insert d.graph.edges m.key key _
      refine ⟨m :: added, repeated, rest, rfl, hfault, ?_, ?_, ?_, hnodes, hrenames, fun key e => ?_⟩
      · refine List.nodup_cons.mpr ⟨fun hmem => ?_, honce⟩
        obtain ⟨m', hm', hkey⟩ := List.mem_map.mp hmem
        exact hnews m' hm' ((hkeys _).mpr (Or.inl hkey))
      · refine List.forall_mem_cons.mpr ⟨hnew, fun m' hm' hmem => ?_⟩
        exact hnews m' hm' ((hkeys _).mpr (Or.inr hmem))
      · rw [List.map_cons, List.mem_cons, or_left_comm, ← or_assoc, ← hkeys]
        exact hagain
      · rw [hedges, List.exists_mem_cons_iff, ← or_assoc]
        exact or_congr_left (SortedMap.get?_insert_iff hnew _ key e)
    · rw [hrun] at h
      obtain ⟨⟨⟩⟩ | ⟨_, _, ⟨⟩, -⟩ := h
      exact ⟨[], m, ms, rfl, rfl, List.nodup_nil, nofun, Or.inl hold, rfl, rfl, fun key e => by simp⟩

end Drafting

/-! ## Runs -/

/-- A step of drafting. -/
inductive DraftStep where
  | node (ref : NodeRef)
  | edge (key : EdgeKey) (arrow : Arrow) (docs : List String)
  | chain (chain : Chain)
  | settle
  | check (reserved : List String) (anchor : Option Span)
  deriving DecidableEq, Repr

namespace DraftStep

open Drafting

/-- What the step does, in a draft whose derived names follow the given rule. -/
def action (renameMethods : Bool) : DraftStep → Drafting Unit
  | node ref => addNode ref
  | edge key arrow docs => addEdge renameMethods key arrow docs
  | chain c => addChain renameMethods c
  | settle => settleNames
  | check reserved anchor => checkReserved reserved anchor

/-- The draft that steps leave, one after the other. One that fails does not end the run. -/
def run (renameMethods : Bool) (steps : List DraftStep) (d : Draft) : Draft :=
  steps.foldl (fun d step => left (step.action renameMethods) d) d

/-- What a step has done to the draft `d` when it fails with the fault and leaves `d'`. -/
def Fails (renameMethods : Bool) (d d' : Draft) (fault : DraftFault) : DraftStep → Prop
  | node _ => d' = d
  | edge .. => d' = d
  | check .. => d' = d
  | settle => d.Relabels d'
  | chain c => ∃ added repeated rest, c.edgeMentions = added ++ repeated :: rest ∧
      fault = .invalid (.duplicateEdge repeated.key.source repeated.key.target) repeated.arrow.span ∧
      StopsAt renameMethods d d' added repeated

variable (renameMethods : Bool)

theorem fails_of_eq_error {step : DraftStep} {d d' : Draft} {fault : DraftFault}
    (h : step.action renameMethods d = .error fault d') : step.Fails renameMethods d d' fault := by
  cases step with
  | node ref =>
    change addNode ref d = .error fault d' at h
    rcases addNode_cases ref d with ⟨n', -, hrun⟩ | ⟨fault', hrun⟩
    · cases hrun.symm.trans h
    · cases hrun.symm.trans h
      exact (rfl : d = d)
  | edge key arrow docs =>
    change addEdge renameMethods key arrow docs d = .error fault d' at h
    rcases addEdge_cases renameMethods ⟨key, arrow, docs⟩ d with ⟨-, hrun⟩ | ⟨-, hrun⟩
    · cases hrun.symm.trans h
    · cases hrun.symm.trans h
      exact (rfl : d = d)
  | chain c =>
    change addChain renameMethods c d = .error fault d' at h
    rw [addChain_eq] at h
    exact stopsAt_of_forM_addEdge h
  | settle =>
    change settleNames d = .error fault d' at h
    have hleft := relabels_settleNames d
    rwa [left_of_eq_error h] at hleft
  | check reserved anchor => exact (left_of_eq_error h).symm.trans (left_checkReserved reserved anchor d)

theorem keepsEdges_action {step : DraftStep} (h : step ≠ settle) (d : Draft) :
    d.KeepsEdges (left (step.action renameMethods) d) := by
  cases step with
  | node ref =>
    intro key e he
    rw [← (addNode_grows ref d).2] at he
    exact he
  | edge key arrow docs => exact (keepsEdges_addEdge renameMethods ⟨key, arrow, docs⟩ d).1
  | chain c => exact (keepsEdges_addChain renameMethods c d).1
  | settle => exact absurd rfl h
  | check reserved anchor =>
    change d.KeepsEdges (left (checkReserved reserved anchor) d)
    rw [left_checkReserved]
    exact .refl d

/-- **Growth.** Every step keeps what is there, also when it fails. -/
theorem grows_action (step : DraftStep) (d : Draft) : d.Grows (left (step.action renameMethods) d) := by
  cases step with
  | node ref => exact (addNode_grows ref d).1
  | edge key arrow docs =>
    obtain ⟨hedges, hnodes⟩ := keepsEdges_addEdge renameMethods ⟨key, arrow, docs⟩ d
    exact hedges.grows hnodes
  | chain c =>
    obtain ⟨hedges, hnodes⟩ := keepsEdges_addChain renameMethods c d
    exact hedges.grows hnodes
  | settle => exact (relabels_settleNames d).toGrows
  | check reserved anchor =>
    change d.Grows (left (checkReserved reserved anchor) d)
    rw [left_checkReserved]
    exact .refl d

theorem grows_run (steps : List DraftStep) (d : Draft) : d.Grows (run renameMethods steps d) := by
  induction steps generalizing d with
  | nil => exact .refl d
  | cons step steps ih => exact (grows_action renameMethods step d).trans (ih _)

theorem keepsEdges_run {steps : List DraftStep} (h : settle ∉ steps) (d : Draft) :
    d.KeepsEdges (run renameMethods steps d) := by
  induction steps generalizing d with
  | nil => exact .refl d
  | cons step steps ih =>
    rw [List.mem_cons, not_or] at h
    exact (keepsEdges_action renameMethods (Ne.symm h.1) d).trans (ih h.2 _)

/-- **History.** From an empty draft on, whatever the earlier steps made stays through all later ones, with
the names of its edges unless they are settled, and a step that fails has done no more than it says. -/
theorem run_history (earlier later : List DraftStep) :
    (run renameMethods earlier {}).Grows (run renameMethods (earlier ++ later) {}) ∧
      (settle ∉ later →
        (run renameMethods earlier {}).KeepsEdges (run renameMethods (earlier ++ later) {})) ∧
      ∀ step fault d', action renameMethods step (run renameMethods earlier {}) = .error fault d' →
        step.Fails renameMethods (run renameMethods earlier {}) d' fault := by
  have happend : run renameMethods (earlier ++ later) {} =
      run renameMethods later (run renameMethods earlier {}) := List.foldl_append ..
  rw [happend]
  exact ⟨grows_run renameMethods later _, fun hsettle => keepsEdges_run renameMethods hsettle _,
    fun step fault d' => fails_of_eq_error renameMethods⟩

end DraftStep

/-- A door that is drafted in four steps, the third of which fails. -/
def porch : List DraftStep :=
  [.node { name := "Door", ty := some "u8" },
    .chain { first := [{ name := "Door" }], rest := [({}, [{ name := "Open" }])] },
    .node { name := "Door", ty := some "u16" },
    .settle]

/-- A chain whose second edge is there already. -/
def revisit : Chain :=
  { first := [{ name := "Door" }], rest := [({}, [{ name := "Shut" }, { name := "Open" }, { name := "Hall" }])] }

theorem porch_history : DraftStep.settle ∉ [DraftStep.chain revisit] ∧
    (DraftStep.run true porch {}).KeepsEdges (DraftStep.run true (porch ++ [.chain revisit]) {}) ∧
    ∃ fault d', DraftStep.action true (.chain revisit) (DraftStep.run true porch {}) = .error fault d' ∧
      (DraftStep.chain revisit).Fails true (DraftStep.run true porch {}) d' fault := by
  have hsettle : DraftStep.settle ∉ [DraftStep.chain revisit] := by decide
  obtain ⟨-, hkeeps, hfails⟩ := DraftStep.run_history true porch [.chain revisit]
  exact ⟨hsettle, hkeeps hsettle, _, _, rfl, hfails _ _ _ rfl⟩

end Typestate
