import Typestate.Proofs.Code.Accessors
import Typestate.Proofs.Graph.Names
import Typestate.Proofs.Machine.Load

/-!
The names of the methods of a machine whose nodes and arrows have names in ASCII. All are names that a method
can have: those that arrows give, those derived from nodes, with a number or without, and those of the accessors
(`Machine.methodNames_legal`).
-/

namespace Typestate

open Identifier (IsName IsAscii IsAsciiName IsMethodName)

/-! ## Edges -/

/-- The method of an edge has the name that its mention gives it, or that one with a number. -/
theorem Built.isMethodName {statements : List Statement}
    (hnames : ∀ s ∈ statements, s.NamedBy IsAsciiName IsAsciiName) {renameMethods : Bool} {g : Graph}
    (h : Built renameMethods statements g) (honce : ((edgeMentions statements).map (·.key)).Nodup)
    {key : EdgeKey} {e : Edge} (he : g.edges.get? key = some e) : IsMethodName e.methodName :=
  h.methodNamedBy hnames (fun _ hname => hname.methodInto renameMethods) (fun _ hname => hname.escape)
    (fun _ used hname => hname.isAsciiName.numbered used) honce ((Graph.mem_leaving _ _ _ _).mpr he)

/-! ## Machines -/

namespace Machine

variable {m : Machine}

/-- **Methods.** If all nodes and arrows of a loaded machine have names in ASCII, the method of every edge has a
name that a method can have, and so have the accessors of every node. -/
theorem methodNames_legal {src : Source} {overrides : Overrides} {events events' : List Event}
    (h : load src .machine overrides events = .ok m events')
    (hascii : ∀ s ∈ m.document.statements, s.NamedBy IsAscii IsAscii) :
    (∀ key e, m.graph.edges.get? key = some e → IsMethodName e.methodName) ∧
    ∃ nodes, m.graph.placedNodes = .ok nodes ∧ ∀ c ∈ nodes,
      ∀ name ∈ (Code.accessorNames c.name c.neighborhood.methods).toList, IsMethodName name := by
  obtain ⟨d, hparse, hdocument, hdrawn⟩ := of_load h
  have hnames : ∀ s ∈ m.document.statements, s.NamedBy IsAsciiName IsAsciiName := by
    have hstatements : m.document.statements = d.statements := by
      rw [hdocument]
      rfl
    intro s hs
    have hwords : s.NamedBy IsName IsName := Source.parse_wordNames hparse s (hstatements ▸ hs)
    exact (hwords.and (hascii s hs)).imp (fun _ hname => hname.1.ascii hname.2) fun _ hname => hname.1.ascii hname.2
  refine ⟨fun key e he => hdrawn.built.isMethodName hnames hdrawn.buildable.edgesOnce he, m.graph.placed,
    Graph.placedNodes_eq hdrawn.built.closed, fun c hc => ?_⟩
  have hnode : IsAsciiName c.name := by
    refine hdrawn.built.namedBy hnames ?_
    rw [← Graph.placed_names]
    exact List.mem_map_of_mem hc
  exact Code.isMethodName_accessorNames hnode _

/-- Arrows with names that cannot be those of methods as they stand, two nodes from whose names one keyword is
derived, and an arrow with the name of an accessor. -/
def awkward : Source :=
  { text := "Plain: u8 -get-> A; Plain -self-> B; Plain -_-> C; Plain -> Type; Plain -> r#type;" }

theorem awkward_methodNames : ∃ m events nodes, load awkward .machine {} [] = .ok m events ∧
    (∀ s ∈ m.document.statements, s.NamedBy IsAscii IsAscii) ∧ m.graph.placedNodes = .ok nodes ∧
    m.graph.edges.entries.map (fun e => (e.1.target, e.2.methodName)) =
      [("A", "get"), ("B", "self_"), ("C", "__"), ("Type", "r#type"), ("r#type", "type_2")] ∧
    (∀ key e, m.graph.edges.get? key = some e → IsMethodName e.methodName) ∧
    ∃ c ∈ nodes, (Code.accessorNames c.name c.neighborhood.methods).toList = ["get_plain", "get_plain_mut"] ∧
      ∀ name ∈ ["get_plain", "get_plain_mut"], IsMethodName name := by
  obtain ⟨m, events, nodes, hload, hnodes, hcheck⟩ := exists_load_of_check awkward (fun m nodes =>
    decide (∀ s ∈ m.document.statements, s.NamedBy IsAscii IsAscii) &&
      m.graph.edges.entries.map (fun e => (e.1.target, e.2.methodName)) ==
        [("A", "get"), ("B", "self_"), ("C", "__"), ("Type", "r#type"), ("r#type", "type_2")] &&
      nodes.any fun c => (Code.accessorNames c.name c.neighborhood.methods).toList ==
        ["get_plain", "get_plain_mut"]) (by decide +kernel)
  simp only [Bool.and_eq_true, decide_eq_true_eq, beq_iff_eq] at hcheck
  obtain ⟨⟨hascii, hmethods⟩, hany⟩ := hcheck
  obtain ⟨hedges, nodes', hnodes', haccessors⟩ := methodNames_legal hload hascii
  rw [hnodes] at hnodes'
  cases hnodes'
  obtain ⟨c, hc, hnames⟩ := List.any_eq_true.mp hany
  have hnames := beq_iff_eq.mp hnames
  refine ⟨m, events, nodes, hload, hascii, hnodes, hmethods, hedges, c, hc, hnames, ?_⟩
  rw [← hnames]
  exact haccessors c hc

end Machine

end Typestate
