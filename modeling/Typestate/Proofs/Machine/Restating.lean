import Typestate.Proofs.Graph.Names
import Typestate.Proofs.Graph.Restating
import Typestate.Proofs.Machine.Complaints
import Typestate.Proofs.Machine.Decoration

/-!
Two ways of writing one machine. If what is read of two texts has the same frame and the same mentions, the
texts are loaded as machines whose graphs are the same but for places, and they are compiled to the same
source, or neither is (`Machine.tally_load`, `Source.tally_compile`).
-/

namespace Typestate

/-- The failures are of one kind. -/
def Failure.SameKind : Failure → Failure → Prop
  | .parse _, .parse _ => True
  | .validation _, .validation _ => True
  | .render _, .render _ => True
  | .general _, .general _ => True
  | .badName _, .badName _ => True
  | .badGenerics _, .badGenerics _ => True
  | .unknownNode _, .unknownNode _ => True
  | _, _ => False

theorem Failure.SameKind.refl (f : Failure) : f.SameKind f := by cases f <;> trivial

open Logged

variable {failing : Failure → Failure → Prop}

/-! ## Graphs -/

/-- Documents with the same frame and the same mentions have the same graph but for places, or none. -/
theorem Document.tally_buildGraph {d d' : Document} (hframe : d.frame = d'.frame)
    (hmentions : SameMentions d.statements d'.statements)
    (hfailing : ∀ e e', failing (.validation e) (.validation e')) (file file' : Option Path)
    (text text' : Option String) : Tally failing (d.buildGraph file text) (d'.buildGraph file' text')
      fun g g' => g.Closed ∧ g'.Closed ∧ g.SameUpToSpans g' := by
  have hconfig : d.config = d'.config := (congrArg Document.config hframe :)
  have hreserved : [d.name, d.entryName] = [d'.name, d'.entryName] :=
    (congrArg (fun d : Document => [d.name, d.entryName]) hframe :)
  intro events events'
  cases hrun : d.buildGraph file text events with
  | ok g noted =>
    obtain ⟨hbuildable, hbuilt⟩ := Graph.built_of_ofStatements (ofStatements_of_buildGraph hrun)
    have hbuildable' := hbuildable.restate hmentions
    rw [hconfig, hreserved] at hbuildable'
    rw [hconfig] at hbuilt
    cases hrun' : d'.buildGraph file' text' events' with
    | ok g' noted' =>
      obtain ⟨-, hbuilt'⟩ := Graph.built_of_ofStatements (ofStatements_of_buildGraph hrun')
      exact ⟨hbuilt.closed, hbuilt'.closed,
        Built.sameUpToSpans hmentions hbuilt hbuilt' hbuildable.edgesOnce⟩
    | error f' noted' =>
      obtain ⟨fault, hfault, -⟩ := exists_fault_of_buildGraph hrun'
      exact (Graph.invalid_of_ofStatements hfault).1 hbuildable'
  | error f noted =>
    obtain ⟨fault, hfault, rfl⟩ := exists_fault_of_buildGraph hrun
    obtain ⟨hnot, cause, span, rfl⟩ := Graph.invalid_of_ofStatements hfault
    cases hrun' : d'.buildGraph file' text' events' with
    | ok g' noted' =>
      obtain ⟨hbuildable', -⟩ := Graph.built_of_ofStatements (ofStatements_of_buildGraph hrun')
      have hbuildable := hbuildable'.restate hmentions.symm
      rw [← hconfig, ← hreserved] at hbuildable
      exact hnot hbuildable
    | error f' noted' =>
      obtain ⟨fault', hfault', rfl⟩ := exists_fault_of_buildGraph hrun'
      obtain ⟨-, cause', span', rfl⟩ := Graph.invalid_of_ofStatements hfault'
      exact hfailing _ _

/-! ## Machines -/

/-- The machines have the same frame and the same graph, but for places. -/
structure Machine.SameUpToSpans (m m' : Machine) : Prop where
  frame : m.document.frame = m'.document.frame
  closed : m.graph.Closed
  closed' : m'.graph.Closed
  graph : m.graph.SameUpToSpans m'.graph

section
variable {src src' : Source} {language language' : Language} {o o' : Overrides}
  (hread : Tally failing (src.read language) (src'.read language') fun d d' =>
    (o.apply d).frame = (o'.apply d').frame ∧ SameMentions d.statements d'.statements)
  (hfailing : ∀ e e', failing (.validation e) (.validation e'))
include hread hfailing

/-- **Loading.** Texts that hold the same statements up to spans are loaded as the same machine up to spans, or both
are not. -/
theorem Machine.tally_load :
    Tally failing (load src language o) (load src' language' o') Machine.SameUpToSpans := by
  refine hread.bind fun d d' hsame => ?_
  have hrun : Tally failing (o.run d) (o'.run d') fun d₁ d₁' => d₁ = o.apply d ∧ d₁' = o'.apply d' := by
    intro events events'
    obtain ⟨_, _, hrun, hd⟩ := yields_overrides o d events
    obtain ⟨_, _, hrun', hd'⟩ := yields_overrides o' d' events'
    rw [hrun, hrun']
    exact ⟨hd, hd'⟩
  refine hrun.bind ?_
  rintro _ _ ⟨rfl, rfl⟩
  refine (Document.tally_buildGraph hsame.1 hsame.2 hfailing _ _ _ _).bind fun g g' hg => ?_
  exact tally_pure ⟨hsame.1, hg.1, hg.2.1, hg.2.2⟩

/-- **Compiling.** Texts that hold the same statements up to spans are compiled to the same source, or both are not.
-/
theorem Source.tally_compile (hrefl : ∀ f, failing f f) (mermaid : Renderer) (svg : Option Renderer) :
    Tally failing (src.compile language o mermaid svg) (src'.compile language' o' mermaid svg) Eq := by
  refine (Machine.tally_load hread hfailing).bind fun m m' hm => ?_
  have hcompile : m.compile mermaid svg = m'.compile mermaid svg :=
    Machine.compile_congr hm.frame hm.closed hm.closed' hm.graph mermaid svg
  rw [hcompile]
  have hsteady : Steady (m'.compile mermaid svg) := by
    refine (Machine.steady_generate m' mermaid).bind fun unit => ?_
    cases svg with
    | none => exact steady_pure unit
    | some r => exact (Machine.steady_svgDocs m' r).bind fun _ => steady_pure _
  exact hsteady.tally hrefl

end

end Typestate
