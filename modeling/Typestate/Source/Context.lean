import Typestate.Source.Span

/-!
Where something was found wrong, as a message shows it: the location, then the source lines around
it with a marker under the offending characters.

A context may come from outside, so its numbers are not assumed to lie in the text.
-/

namespace Typestate

/-- A location with the source lines around it, if they are known. -/
structure Context where
  file : Option Path
  line : Int
  column : Int
  length : Int := 1
  snippet : Option String := none
  deriving DecidableEq, Repr

namespace Source

/-- The elements from `start` up to `stop`, where a negative `stop` counts back from the end. -/
def sublist (xs : List String) (start stop : Int) : List String :=
  let last := if stop < 0 then stop + xs.length else stop
  (xs.take last.toNat).drop start.toNat

/-- The lines around `line`, `around` of them on each side as far as the text has them. -/
def snippet (text : String) (line : Int) (around : Int := 2) : String :=
  let ls := Text.lines text
  Text.unlines (sublist ls (max 1 (line - around) - 1) (min ls.length (line + around)))

end Source

namespace Context

/-- A number, right-aligned in four columns, and the bar after it. -/
def gutter (n : Nat) : String :=
  let digits := toString n
  String.ofList (List.replicate (4 - digits.length) ' ') ++ digits ++ " | "

/-- The line of carets: under the column, and at least one caret wide. -/
def marker (c : Context) (gutterWidth : Nat) : String :=
  String.ofList
    (List.replicate (gutterWidth + c.column - 1).toNat ' ' ++ List.replicate (max 1 c.length).toNat '^')

/-- The number of the first line of a snippet: two lines above, or the first line. -/
def firstLine (c : Context) : Nat := (max 1 (c.line - 2)).toNat

/-- The lines of a snippet from number `n` on, with the marker after the offending one. -/
def numbered (c : Context) : Nat → List String → List String
  | _, [] => []
  | n, l :: ls =>
    let shown := gutter n ++ l
    if (n : Int) = c.line then shown :: c.marker (gutter n).length :: c.numbered (n + 1) ls
    else shown :: c.numbered (n + 1) ls

/-- The snippet with line numbers and marker; nothing if there is no snippet or an empty one. -/
def formatSnippet (c : Context) : String :=
  match c.snippet with
  | none => ""
  | some "" => ""
  | some s => Text.unlines (c.numbered c.firstLine (Text.lines s))

/-- File, line and column, with colons between. -/
def location (c : Context) : String :=
  (c.file.map Path.text).getD "<input>" ++ ":" ++ toString c.line ++ ":" ++ toString c.column

/-- The location, and the snippet below it if there is one. -/
def format (c : Context) : String :=
  match c.snippet with
  | none => c.location
  | some "" => c.location
  | some _ => c.location ++ "\n" ++ c.formatSnippet

/-- The context of a span of a source text. -/
def ofSpan (file : Option Path) (span : Span) (snippet : Option String) : Context :=
  { file, line := span.line, column := span.column, length := span.length, snippet }

end Context

/-- The context of a span of this source. -/
def Source.context (src : Source) (span : Span) : Context :=
  .ofSpan src.file span (some (Source.snippet src.text span.line))

end Typestate
