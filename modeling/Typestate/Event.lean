import Typestate.Failure

/-!
What a run notes on its way, for a log. A run that fails keeps what it noted before.
-/

namespace Typestate

inductive Event where
  | parsedMachine (name : String) (statements : Nat) (file : Option Path)
  | parsedDigraph (name : String) (statements : Nat)
  | overridden (fields : List String)
  | renamed (source target method : String)
  | builtGraph (nodes edges : Nat)
  | generated (items : Nat) (name : String)
  | skippedDiagram (cause : RenderCause)
  deriving DecidableEq, Repr

namespace Event

/-- The name under which a log shows the event. -/
def logger : Event → String
  | parsedMachine .. => "fsmentry.core.dsl_parser_impl"
  | parsedDigraph .. => "fsmentry.core.dot_parser"
  | overridden .. => "fsmentry.core.pipeline"
  | renamed .. => "fsmentry.core.graph_builder"
  | builtGraph .. => "fsmentry.core.graph_builder"
  | generated .. => "fsmentry.codegen.generator"
  | skippedDiagram .. => "fsmentry.codegen.diagram"

def message : Event → String
  | parsedMachine name statements file =>
    "Parsed machine " ++ name ++ " with " ++ toString statements ++ " statement(s) from " ++
      (file.map Path.text).getD "<input>"
  | parsedDigraph name statements =>
    "Parsed DOT digraph " ++ name ++ " with " ++ toString statements ++ " statement(s)"
  | overridden fields => "Applying overrides: " ++ Text.quotedList fields
  | renamed source target method =>
    "Renamed transition " ++ source ++ " -> " ++ target ++ " to " ++ method ++ " to avoid a clash"
  | builtGraph nodes edges =>
    "Built graph with " ++ toString nodes ++ " node(s) and " ++ toString edges ++ " edge(s)"
  | generated items name => "Generated " ++ toString items ++ " item(s) for " ++ name
  | skippedDiagram cause => "Skipping SVG diagram: " ++ cause.message

end Event

/-- A run that may fail and notes events. -/
abbrev Logged := EStateM Failure (List Event)

namespace Logged

def note (event : Event) : Logged Unit := modify (· ++ [event])

def ofExcept {α : Type} : Except Failure α → Logged α
  | .ok a => return a
  | .error f => throw f

/-- The result of a run, and the events in order. -/
def outcome {α : Type} (run : Logged α) : Except Failure α × List Event :=
  match run [] with
  | .ok a events => (.ok a, events)
  | .error f events => (.error f, events)

end Logged

end Typestate
