import Typestate.Digraph.Document
import Typestate.Event
import Typestate.Grammar.Document
import Typestate.Graph.Draft
import Typestate.Machine.Overrides

/-!
From a text to a machine: the document that it holds and the graph of its statements.
-/

namespace Typestate

/-- The languages in which a machine can be written. A digraph is read by a library. -/
inductive Language where
  | machine
  | digraph (library : Digraph.Library := Digraph.reference)

structure Machine where
  document : Document
  graph : Graph
  deriving DecidableEq

/-- Read a document in the given language. -/
def Source.read (src : Source) : Language → Logged Document
  | .machine => do
    let d ← Logged.ofExcept (src.parse.mapError .parse)
    Logged.note (.parsedMachine d.name d.statements.length src.file)
    return d
  | .digraph library => do
    let d ← Logged.ofExcept ((src.parseDigraph defaultMachineName library).mapError .parse)
    Logged.note (.parsedDigraph d.name d.statements.length)
    return d

/-- Change a document as a caller wishes. -/
def Overrides.run (o : Overrides) (d : Document) : Logged Document := do
  if !o.isEmpty then Logged.note (.overridden o.fields)
  return o.apply d

/-- The graph of a document. Complaints show the text that the document was read from, if it is
known. -/
def Document.buildGraph (d : Document) (file : Option Path := none) (text : Option String := none) :
    Logged Graph := do
  let (result, renames) : Except DraftFault Graph × List Rename := match d.draft with
    | .ok g draft => (.ok g, draft.renames)
    | .error fault draft => (.error fault, draft.renames)
  renames.forM fun r => Logged.note (.renamed r.source r.target r.name)
  let g ← Logged.ofExcept (result.mapError (·.failure file text))
  Logged.note (.builtGraph g.nodes.size g.edges.size)
  return g

/-- Read a machine, change it, and build its graph. -/
def Machine.load (src : Source) (language : Language := .machine) (overrides : Overrides := {}) :
    Logged Machine := do
  let document ← overrides.run (← src.read language)
  return { document, graph := ← document.buildGraph src.file (some src.text) }

end Typestate
