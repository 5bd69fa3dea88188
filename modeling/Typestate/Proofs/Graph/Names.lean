import Typestate.Proofs.Grammar.Names
import Typestate.Proofs.Graph.Contents
import Typestate.Proofs.Graph.Placing

/-!
The names in statements are those in their graph. What holds of every name in a list of statements holds
of every node of its graph (`Built.namedBy`), and every end of an edge is a node (`Built.closed`). What holds of
a name that is made a method, and of such a name with a number, holds of every method (`Built.methodNamedBy`).
-/

namespace Typestate

section
variable {node method : String → Prop} {statements : List Statement}

theorem mentions_namedBy (h : ∀ s ∈ statements, s.NamedBy node method) {r : NodeRef}
    (hr : r ∈ mentions statements) : node r.name := by
  rcases (mem_mentions statements r).mp hr with hr | ⟨c, hc, hr⟩
  · exact h _ hr
  · exact (h _ hc).1 r hr

theorem edgeMentions_namedBy (h : ∀ s ∈ statements, s.NamedBy node method) {m : EdgeMention}
    (hm : m ∈ edgeMentions statements) : node m.key.target ∧ m.arrow.NamedBy method := by
  constructor
  · obtain ⟨-, r, hr, hname⟩ := ends_mem_mentions hm
    rw [← hname]
    exact mentions_namedBy h hr
  · obtain ⟨c, hc, step, hstep, harrow⟩ := exists_step_of_mem_edgeMentions hm
    rw [← harrow]
    exact (h _ hc).2 step hstep

end

namespace Built

variable {renameMethods : Bool} {statements : List Statement} {g : Graph}
  (h : Built renameMethods statements g)
include h

theorem closed : g.Closed := fun _ hkey => h.ends_mem hkey

theorem namedBy {node method : String → Prop} (hnames : ∀ s ∈ statements, s.NamedBy node method)
    {name : String} (hname : name ∈ g.nodes.keys) : node name := by
  obtain ⟨r, hr, rfl⟩ := (h.mem_node_keys name).mp hname
  exact mentions_namedBy hnames hr

theorem methodNamedBy {node arrow method : String → Prop} (hnames : ∀ s ∈ statements, s.NamedBy node arrow)
    (hnode : ∀ name, node name → method (Identifier.methodInto name renameMethods))
    (harrow : ∀ name, arrow name → method (Identifier.escape name))
    (hnumbered : ∀ name used, method name → method (numbered name used))
    (honce : ((edgeMentions statements).map (·.key)).Nodup) {source target : String} {e : Edge}
    (he : (target, e) ∈ g.leaving source) : method e.methodName := by
  obtain ⟨m, hm, -, hmakes⟩ := h.exists_mention honce he
  obtain ⟨htarget, hnamed⟩ := edgeMentions_namedBy hnames hm
  have hdrafted : method (m.methodName renameMethods) := by
    unfold EdgeMention.methodName Arrow.methodName
    cases hmethod : m.arrow.method? with
    | none => exact hnode _ htarget
    | some name => exact harrow name (hnamed name hmethod)
  rcases hmakes with rfl | ⟨-, used, rfl⟩
  · exact hdrafted
  · exact hnumbered _ used hdrafted

end Built

end Typestate
