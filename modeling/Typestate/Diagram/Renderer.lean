import Typestate.Event

/-!
Renderers turn a diagram text into markup for the generated documentation, or decline to.
-/

namespace Typestate

/-- How a run of a drawing program ends. -/
inductive ProcessOutcome where
  | notFound
  | timedOut
  | notStarted (reason : String)
  | exited (code : Int) (output complaint : String)
  deriving DecidableEq, Repr

/-- A drawing program, what becomes of its run, and whether a run that draws nothing is a failure. -/
structure Graphviz where
  executable : String := "dot"
  isStrict : Bool := false
  timeout : Int := 30
  outcome : ProcessOutcome := .notFound
  deriving DecidableEq, Repr

namespace Graphviz

/-- The drawing, or why there is none. -/
def draw (g : Graphviz) : Except RenderCause String :=
  match g.outcome with
  | .notFound => .error (.notFound g.executable)
  | .timedOut => .error (.timedOut g.executable g.timeout)
  | .notStarted reason => .error (.notStarted g.executable reason)
  | .exited code output complaint =>
    if code = 0 then .ok output
    else .error (.exited g.executable code (String.ofList (Text.trim complaint.toList)))

/-- The drawing. A program that need not succeed is skipped when it does not. -/
def render (g : Graphviz) : Logged (Option String) := do
  match g.draw with
  | .ok drawing => return some drawing
  | .error cause =>
    if g.isStrict then throw (.render cause)
    Logged.note (.skippedDiagram cause)
    return none

end Graphviz

/-- The address of the script that draws mermaid diagrams. -/
def mermaidUrl : String := "https://cdn.jsdelivr.net/npm/mermaid@11/dist/mermaid.esm.min.mjs"

/-- The diagram with a script that draws it in a browser, in dark colours if the page is dark. -/
def mermaidMarkup (url diagram : String) : String :=
  "<pre class=\"mermaid\">\n" ++ diagram ++ "\n</pre>\n" ++
  "<script type=\"module\">\n" ++
  "  import mermaid from \"" ++ url ++ "\";\n" ++
  "  var doc_theme = localStorage.getItem(\"rustdoc-theme\");\n" ++
  "  if (doc_theme === \"dark\" || doc_theme === \"ayu\") " ++
  "mermaid.initialize(\x7btheme: \"dark\"\x7d);\n" ++
  "</script>"

/-- A renderer: one that always declines, any function of the diagram that may decline, one that
fails, mermaid markup, or a drawing program. -/
inductive Renderer where
  | null
  | function (draw : String → Option String)
  | failing (message : String)
  | mermaid (url : String := mermaidUrl)
  | graphviz (program : Graphviz)

namespace Renderer

/-- The same text for every diagram. -/
def constant (text : String) : Renderer := .function fun _ => some text

/-- The diagram with texts around it. -/
def wrapped (before after : String) : Renderer :=
  .function fun diagram => some (before ++ diagram ++ after)

def render (diagram : String) : Renderer → Logged (Option String)
  | null => return none
  | function draw => return draw diagram
  | failing message => throw (.render (.other message))
  | mermaid url => return some (mermaidMarkup url diagram)
  | graphviz program => program.render

end Renderer

end Typestate
