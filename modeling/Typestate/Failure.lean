import Typestate.Identifier
import Typestate.Source.Context
import Typestate.Text.Quoted
import Typestate.Token

/-!
What can go wrong, by cause, and the message of each cause.
-/

namespace Typestate

/-- What a reader of the machine language wanted to see. -/
inductive Expected where
  | kind (k : TokenKind)
  | nodeName
  | truthValue
  | arrowOrSemicolon
  | arrowHead
  | text (what : String)
  deriving DecidableEq, Repr

def Expected.describe : Expected → String
  | kind .identifier => "identifier"
  | kind k => "`" ++ k.spelling ++ "`"
  | nodeName => "node name"
  | truthValue => "`true` or `false`"
  | arrowOrSemicolon => "`->` or `;`"
  | arrowHead => "`->` to close the arrow"
  | text what => what

/-- Why a digraph is not a machine. -/
inductive DigraphCause where
  | invalid (message : String)
  | noGraph
  | severalGraphs
  | undirected
  | subgraphs
  | graphAttributes
  | defaults (keyword : String)
  | nodeAttributes (node : String)
  | edgeAttributes (source target : String)
  | groupedEnd
  | port (raw : String)
  | notIdentifier (raw : String)
  | badName (cause : Identifier.NameCause)
  deriving DecidableEq, Repr

def DigraphCause.message : DigraphCause → String
  | invalid message => "Invalid DOT: " ++ message
  | noGraph => "No graph found in DOT input"
  | severalGraphs => "Expected exactly one digraph, found several"
  | undirected => "Only `digraph` is supported"
  | subgraphs => "Subgraphs are not supported"
  | graphAttributes => "Graph attributes are not supported"
  | defaults keyword => "Default `" ++ keyword ++ "` statements are not supported"
  | nodeAttributes node => "Attributes on node `" ++ node ++ "` are not supported"
  | edgeAttributes source target =>
    "Attributes on edge `" ++ source ++ " -> " ++ target ++ "` are not supported"
  | groupedEnd => "Subgraph edge endpoints are not supported"
  | port raw => "Ports are not supported: `" ++ raw ++ "`"
  | notIdentifier raw => "Node names must be identifiers: `" ++ raw ++ "`"
  | badName cause => cause.message

/-- The keys that the generator's own attribute knows, in order. -/
def settingKeys : List String := ["entry", "mermaid", "path_to_core", "rename_methods", "unsafe"]

/-- Why a text is not a machine. A reader is stalled if it goes on for ever without taking a token. -/
inductive ParseCause where
  | unterminatedComment
  | unterminatedString
  | unknownEscape (c : Char)
  | lifetimeName
  | unexpectedCharacter (c : Char)
  | expected (what : Expected) (found : Token)
  | endOfInputIn (what : String)
  | endOfInputBefore (k : TokenKind)
  | unbalanced (found : Token) (what : String)
  | statementAttribute
  | unterminatedAttribute
  | unknownSetting
  | repeatedSetting (key : String)
  | noPredicates
  | namedIntoGroup
  | loneGroup
  | badName (cause : Identifier.NameCause)
  | digraph (file : Option Path) (cause : DigraphCause)
  | stalled
  | other (message : String)
  deriving DecidableEq, Repr

def ParseCause.message : ParseCause → String
  | unterminatedComment => "Unterminated block comment"
  | unterminatedString => "Unterminated string literal"
  | unknownEscape c => "Unknown character escape: \\" ++ String.singleton c
  | lifetimeName => "Expected lifetime name after `'`"
  | unexpectedCharacter c => "Unexpected character: " ++ Text.quoted (String.singleton c)
  | expected what found => "Expected " ++ what.describe ++ ", got " ++ found.describe
  | endOfInputIn what => "Unexpected end of input in " ++ what
  | endOfInputBefore k => "Expected `" ++ k.spelling ++ "`, got end of input"
  | unbalanced found what => "Unbalanced " ++ found.describe ++ " in " ++ what
  | statementAttribute => "Only documentation attributes are allowed on statements"
  | unterminatedAttribute => "Unterminated attribute"
  | unknownSetting => "Expected one of " ++ Text.quotedList settingKeys
  | repeatedSetting key => "Duplicate value for key `" ++ key ++ "`"
  | noPredicates => "Expected where predicates"
  | namedIntoGroup => "Named transitions into a group of nodes are not supported"
  | loneGroup => "Expected `->` after a group of nodes"
  | badName cause => cause.message
  | digraph none cause => cause.message
  | digraph (some file) cause => file.text ++ ": " ++ cause.message
  | stalled => "Reading does not move on"
  | other message => message

/-- Why the statements of a machine do not form a graph. -/
inductive ValidationCause where
  | incompatible (node ty earlier : String)
  | duplicateEdge (source target : String)
  | duplicateMethod (name source : String)
  | methodClash (name source target rival : String)
  | reservedName (name : String)
  | noEdges
  | other (message : String)
  deriving DecidableEq, Repr

def ValidationCause.message : ValidationCause → String
  | incompatible node ty earlier =>
    "Incompatible redefinition of `" ++ node ++ "`: `" ++ ty ++
      "` does not match the earlier `" ++ earlier ++ "`"
  | duplicateEdge source target => "Duplicate edge definition `" ++ source ++ " -> " ++ target ++ "`"
  | duplicateMethod name source => "Duplicate method name `" ++ name ++ "` on `" ++ source ++ "`"
  | methodClash name source target rival =>
    "Duplicate method name `" ++ name ++ "` on `" ++ source ++ "`: the transition to `" ++ target ++
      "` clashes with the named transition to `" ++ rival ++ "`"
  | reservedName name => "Node name collides with generated type `" ++ name ++ "`"
  | noEdges => "Must define at least one edge `A -> B`"
  | other message => message

/-- Why a diagram could not be drawn. -/
inductive RenderCause where
  | notFound (executable : String)
  | timedOut (executable : String) (seconds : Int)
  | notStarted (executable reason : String)
  | exited (executable : String) (code : Int) (complaint : String)
  | other (message : String)
  deriving DecidableEq, Repr

def RenderCause.message : RenderCause → String
  | notFound executable =>
    "Could not find `" ++ executable ++ "`: is Graphviz installed and on the PATH?"
  | timedOut executable seconds => "`" ++ executable ++ "` timed out after " ++ toString seconds ++ "s"
  | notStarted executable reason => "Could not run `" ++ executable ++ "`: " ++ reason
  | exited executable code "" => "`" ++ executable ++ "` exited with code " ++ toString code
  | exited executable code complaint =>
    "`" ++ executable ++ "` exited with code " ++ toString code ++ ": " ++ complaint
  | other message => message

structure ParseError where
  cause : ParseCause
  context : Option Context
  deriving DecidableEq, Repr

structure ValidationError where
  cause : ValidationCause
  context : Option Context
  deriving DecidableEq, Repr

/-- The complaint about a span of a text, with a snippet if the text is known; without a span there
is no context at all. -/
def ValidationError.atSpan (file : Option Path) (text : Option String) (cause : ValidationCause)
    (span : Option Span) : ValidationError :=
  ⟨cause, span.map fun s => .ofSpan file s (text.map (Source.snippet · s.line))⟩

/-- Everything that a run can end with instead of a result. The last three are faults of a caller:
a name that no node can have, a parameter list that is none, and a node that is not in the graph. -/
inductive Failure where
  | parse (error : ParseError)
  | validation (error : ValidationError)
  | render (cause : RenderCause)
  | general (message : String)
  | badName (cause : Identifier.NameCause)
  | badGenerics (text : String)
  | unknownNode (name : String)
  deriving DecidableEq, Repr

namespace Failure

/-- The context of a failure that has one. -/
def context : Failure → Option Context
  | parse e => e.context
  | validation e => e.context
  | _ => none

/-- The message without its context. -/
def detail : Failure → String
  | parse e => e.cause.message
  | validation e => e.cause.message
  | render cause => cause.message
  | general message => message
  | badName cause => cause.message
  | badGenerics text => "not a generic parameter list: " ++ Text.quoted text
  | unknownNode name => Text.quoted name

/-- The context, if there is one, and the message below it. -/
def message (f : Failure) : String :=
  match f.context with
  | none => f.detail
  | some c => c.format ++ "\n" ++ f.detail

end Failure

end Typestate
