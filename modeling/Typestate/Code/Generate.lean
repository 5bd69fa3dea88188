import Typestate.Diagram.Renderer
import Typestate.Graph.Diagram
import Typestate.Machine.Load
import Typestate.Code.EntryApi
import Typestate.Code.Printer

/-!
From a machine to its generated source, with diagrams in the documentation if they are wanted.
-/

namespace Typestate

/-- The fragments that a mermaid diagram adds to the documentation of the entry enum, if the machine
wants one and the renderer does not decline. -/
def Machine.mermaidDocs (m : Machine) (renderer : Renderer) : Logged (List String) := do
  if !m.document.config.mermaid then return []
  match ← renderer.render m.graph.toMermaid with
  | some markup => return ["", markup]
  | none => return []

/-- The source of a machine. -/
def Machine.generate (m : Machine) (mermaidRenderer : Renderer := .mermaid) :
    Logged Code.Listing := do
  let api ← Logged.ofExcept (Code.Api.ofDocument m.document)
  let nodes ← Logged.ofExcept m.graph.placedNodes
  let entryDocs := Code.entryDocs m.document.name ++ (← m.mermaidDocs mermaidRenderer)
  let declarations := Code.declarations m.document entryDocs nodes
  Logged.note (.generated declarations.length m.document.name)
  return ⟨declarations.map (Code.Declaration.item api)⟩

/-- The fragments that a drawing adds to the documentation of the state enum. -/
def Machine.svgDocs (m : Machine) (renderer : Renderer) : Logged (List String) := do
  match ← renderer.render (m.graph.toDot m.document.name) with
  | some svg => return ["<div>" ++ svg ++ "</div>"]
  | none => return []

/-- The source of a machine, with a drawing if a renderer for one is given. -/
def Machine.compile (m : Machine) (mermaidRenderer : Renderer := .mermaid)
    (svgRenderer : Option Renderer := none) : Logged Code.Listing := do
  let unit ← m.generate mermaidRenderer
  match svgRenderer with
  | none => return unit
  | some renderer => return unit.addDocs (← m.svgDocs renderer)

end Typestate
