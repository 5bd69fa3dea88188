import Typestate.Command.Arguments
import Typestate.Report.Summary
import Typestate.Report.Table
import Typestate.Code.Generate
import Typestate.Text.ControlSequence

/-!
What a request answers: the text on the standard output, the text on the standard error, the exit
code, and a file to be written.
-/

namespace Typestate.Command

/-- Where a request runs: the text of its input, if that exists, the wanted level of the log, the
mark in front of a log line, what becomes of a run of the drawing program, and the console. -/
structure Surroundings where
  input : Option String
  logLevel : Option String := none
  stamp : String := ""
  drawing : ProcessOutcome := .notFound
  console : Report.Console := Report.reference

structure Response where
  exitCode : Nat := 0
  output : String := ""
  complaints : String := ""
  file : Option (Path × String) := none
  deriving DecidableEq, Repr

/-- The text with each carriage return and line feed, and each carriage return by itself, made a
line feed. -/
def unifyLineEnds : List Char → List Char
  | [] => []
  | '\r' :: '\n' :: rest => '\n' :: unifyLineEnds rest
  | '\r' :: rest => '\n' :: unifyLineEnds rest
  | c :: rest => c :: unifyLineEnds rest

/-- Events are shown: the request or the level of the log asks for them. -/
def showsEvents (inv : Invocation) (s : Surroundings) : Bool :=
  inv.isVerbose || s.logLevel.any fun level =>
    ["debug", "notset"].any fun word => Unicode.sameWord word.toList level.toList

/-- A text as it is printed, without control sequences. The log, tables and what is printed about a
text without a digraph keep theirs, and so does a file. -/
def printed (s : String) : String := String.ofList (Text.withoutSequences s.toList)

def eventLine (stamp : String) (e : Event) : String :=
  stamp ++ " [DEBUG] " ++ e.logger ++ ": " ++ e.message ++ "\n"

/-- How a complaint names the kind of a failure. -/
def failureTitle : Failure → String
  | .parse _ => "Parse error"
  | .validation _ => "Validation error"
  | .render _ => "Render error"
  | _ => "Error"

/-- The renderer of drawings for a mode. -/
def svgRenderer (mode : SvgMode) (drawing : ProcessOutcome) : Option Renderer :=
  match mode with
  | .omit => none
  | .auto => some (.graphviz { outcome := drawing })
  | .force => some (.graphviz { isStrict := true, outcome := drawing })

/-- The answer of an action on a source. -/
def Action.run (src : Source) (language : Language) (drawing : ProcessOutcome) (console : Report.Console) :
    Action → Logged Response
  | .generate svg overrides output => do
    let machine ← Machine.load src language overrides
    let unit ← machine.compile .mermaid (svgRenderer svg drawing)
    match output with
    | none => return { output := printed unit.render }
    | some path =>
      return { file := some (path, unit.render)
               complaints := printed
                 ("Wrote " ++ toString unit.items.length ++ " item(s) to " ++ path.text ++ "\n") }
  | .check => do
    let machine ← Machine.load src language
    let nodes ← Logged.ofExcept machine.graph.placedNodes
    match Report.summary console machine.document.name nodes machine.graph.edges.size with
    | some output => return { output }
    | none => throw (.general "The markup of a cell is in error")
  | .diagram format => do
    let machine ← Machine.load src language
    match format with
    | .dot => return { output := printed (machine.graph.toDot machine.document.name) }
    | .mermaid => return { output := printed machine.graph.toMermaid }

/-- What is printed about a text that holds no digraph, although one is wanted. -/
def readingReport (src : Source) : Language → String
  | .machine => ""
  | .digraph library =>
    match library.read src.text with
    | .error (.reported lines) => String.join (lines.map (· ++ "\n"))
    | _ => ""

/-- The answer to a request. -/
def Invocation.run (inv : Invocation) (s : Surroundings) : Response :=
  match s.input with
  | none =>
    { exitCode := 1, complaints := printed ("Error: File not found: " ++ inv.file.getD "-" ++ "\n") }
  | some text =>
    let src : Source := { text := String.ofList (unifyLineEnds text.toList),
                          file := inv.file.map Path.ofString }
    let (result, events) := (inv.action.run src inv.language s.drawing s.console).outcome
    let log := if showsEvents inv s then String.join (events.map (eventLine s.stamp)) else ""
    match result with
    | .ok response => { response with complaints := log ++ response.complaints }
    | .error f =>
      { exitCode := 1, output := readingReport src inv.language
        complaints := log ++ printed (failureTitle f ++ ": " ++ f.message ++ "\n") }

/-- The answer to arguments that are no request. -/
def UsageError.response (e : UsageError) : Response :=
  { exitCode := 2, complaints := "Error: " ++ e.message ++ "\n" }

end Typestate.Command
