import Typestate.Digraph.Document
import Typestate.Proofs.Grammar.Names
import Typestate.Proofs.NodeName

/-!
The names in a machine that is written as a digraph. Every name of a node is canonical
(`Source.parseDigraph_canonical`).
-/

namespace Typestate

namespace Digraph

theorem isCanonical_canonicalName {raw name : String} (h : canonicalName raw = .ok name) :
    Identifier.IsCanonical name := by
  unfold canonicalName at h
  dsimp only at h
  split at h
  · cases h
  · split at h
    · cases h
    · next hwell =>
      have hword := Identifier.isWord_of_isWellFormed (by simpa using hwell)
      exact Identifier.isCanonical_canonical hword (Run.eq_ok_of_mapError h)

theorem isCanonical_clean {e : Endpoint} {name : String} (h : e.clean = .ok name) :
    Identifier.IsCanonical name := by
  cases e with
  | node raw => exact isCanonical_canonicalName h
  | group => cases h

/-- The names of nodes are canonical, and the arrows have no names. -/
def Canonical (s : Statement) : Prop := s.NamedBy Identifier.IsCanonical fun _ => False

section
variable {P : String → Prop} {s : Statement}

theorem namedBy_nodeStatement {clause : String × Bool} (h : nodeStatement clause = .ok s)
    (hname : ∀ n, canonicalName clause.1 = .ok n → P n) : s.NamedBy P fun _ => False := by
  unfold nodeStatement at h
  obtain ⟨n, hn, h⟩ := Run.except_bind_eq_ok_iff.mp h
  dsimp only at h
  rw [Run.ite_throw_eq_ok_iff, Run.ite_throw_eq_ok_iff] at h
  obtain ⟨-, -, h⟩ := h
  cases h
  exact hname n hn

theorem namedBy_edgeStatement {clause : (Endpoint × Endpoint) × Bool} (h : edgeStatement clause = .ok s)
    (hsource : ∀ n, clause.1.1.clean = .ok n → P n) (htarget : ∀ n, clause.1.2.clean = .ok n → P n) :
    s.NamedBy P fun _ => False := by
  unfold edgeStatement at h
  obtain ⟨source, hs, h⟩ := Run.except_bind_eq_ok_iff.mp h
  obtain ⟨target, ht, h⟩ := Run.except_bind_eq_ok_iff.mp h
  dsimp only at h
  rw [Run.ite_throw_eq_ok_iff] at h
  obtain ⟨-, h⟩ := h
  cases h
  refine ⟨fun r hr => ?_, fun step hstep => ?_⟩
  · have hends : r = { name := source } ∨ r = { name := target } := by
      simpa [Chain.nodeRefs, Chain.groups] using hr
    rcases hends with rfl | rfl
    · exact hsource source hs
    · exact htarget target ht
  · rw [List.mem_singleton.mp hstep]
    rintro _ ⟨⟩

end

/-- A machine of a digraph has a name and statements, and nothing else. -/
theorem eq_of_document {c : Contents} {defaultName : String} {d : Document}
    (h : c.document defaultName = .ok d) : ∃ name nodes edges,
      (c.name.isEmpty = true ∧ name = defaultName ∨ canonicalName c.name = .ok name) ∧
      c.nodes.mapM nodeStatement = .ok nodes ∧ c.edges.mapM edgeStatement = .ok edges ∧
      d = { name, statements := nodes ++ edges } := by
  unfold Contents.document at h
  dsimp only at h
  rw [Run.ite_throw_eq_ok_iff, Run.ite_throw_eq_ok_iff, Run.ite_throw_eq_ok_iff] at h
  obtain ⟨-, -, -, h⟩ := h
  by_cases hempty : c.name.isEmpty = true
  all_goals
    first | rw [if_pos hempty] at h | rw [if_neg hempty] at h
    obtain ⟨name, hname, h⟩ := Run.except_bind_eq_ok_iff.mp h
    obtain ⟨nodes, hnodes, h⟩ := Run.except_bind_eq_ok_iff.mp h
    obtain ⟨edges, hedges, h⟩ := Run.except_bind_eq_ok_iff.mp h
    cases h
    refine ⟨name, nodes, edges, ?_, hnodes, hedges, rfl⟩
  · exact Or.inl ⟨hempty, (Except.ok.inj hname).symm⟩
  · exact Or.inr hname

/-- The names in a machine are those that its nodes and edges give. -/
theorem namedBy_document {c : Contents} {defaultName : String} {d : Document} {P : String → Prop}
    (h : c.document defaultName = .ok d)
    (hnode : ∀ node ∈ c.nodes, ∀ n, canonicalName node.1 = .ok n → P n)
    (hedge : ∀ edge ∈ c.edges,
      (∀ n, edge.1.1.clean = .ok n → P n) ∧ ∀ n, edge.1.2.clean = .ok n → P n) :
    ∀ s ∈ d.statements, s.NamedBy P fun _ => False := by
  obtain ⟨name, nodes, edges, -, hnodes, hedges, rfl⟩ := eq_of_document h
  intro s hs
  rcases List.mem_append.mp hs with hs | hs
  · obtain ⟨node, hmem, hstatement⟩ := Run.exists_of_mem_mapM hnodes hs
    exact namedBy_nodeStatement hstatement (hnode node hmem)
  · obtain ⟨edge, hmem, hstatement⟩ := Run.exists_of_mem_mapM hedges hs
    obtain ⟨hsource, htarget⟩ := hedge edge hmem
    exact namedBy_edgeStatement hstatement hsource htarget

theorem canonical_document {c : Contents} {defaultName : String} {d : Document}
    (h : c.document defaultName = .ok d) : ∀ s ∈ d.statements, Canonical s :=
  namedBy_document h (fun _ _ _ => isCanonical_canonicalName) fun _ _ =>
    ⟨fun _ => isCanonical_clean, fun _ => isCanonical_clean⟩

end Digraph

section
variable {src : Source} {defaultName : String} {library : Digraph.Library} {d : Document}

/-- The only graph of a text decides what is read. -/
theorem Source.parseDigraph_eq {c : Digraph.Contents} (h : library.read src.text = .ok [c]) :
    src.parseDigraph defaultName library =
      (c.document defaultName).mapError fun cause => ⟨.digraph src.file cause, none⟩ := by
  unfold parseDigraph
  rw [h]
  rfl

variable (h : src.parseDigraph defaultName library = .ok d)
include h

/-- A machine is read from the only graph of a text. -/
theorem Source.exists_contents :
    ∃ c : Digraph.Contents, library.read src.text = .ok [c] ∧ c.document defaultName = .ok d := by
  unfold parseDigraph at h
  split at h
  · cases h
  · cases h
  · next graphs hgraphs =>
    have hdocument := Run.eq_ok_of_mapError h
    unfold Digraph.document at hdocument
    split at hdocument
    · cases hdocument
    · next c => exact ⟨c, hgraphs, hdocument⟩
    · cases hdocument

/-- **Names.** Whatever the library, all names of nodes in a machine that is written as a digraph are canonical, and
its arrows have no names. -/
theorem Source.parseDigraph_canonical : ∀ s ∈ d.statements, Digraph.Canonical s := by
  obtain ⟨c, -, hc⟩ := exists_contents h
  exact Digraph.canonical_document hc

/-- A machine that is written as a digraph has no parameters. -/
theorem Source.parseDigraph_generics : d.generics = "" := by
  obtain ⟨c, -, hc⟩ := exists_contents h
  obtain ⟨name, nodes, edges, -, -, -, rfl⟩ := Digraph.eq_of_document hc
  rfl

/-- A machine that is written as a digraph has the default name or a canonical one, and no settings. -/
theorem Source.parseDigraph_name :
    (d.name = defaultName ∨ Identifier.IsCanonical d.name) ∧ d.config = {} := by
  obtain ⟨c, -, hc⟩ := exists_contents h
  obtain ⟨name, nodes, edges, hname, -, -, rfl⟩ := Digraph.eq_of_document hc
  exact ⟨hname.imp And.right Digraph.isCanonical_canonicalName, rfl⟩

end

end Typestate
