import Typestate.Machine.Load

/-!
The command line: what a user asks for, and how the arguments say it.
-/

namespace Typestate.Command

/-- Whether a drawing is put into the documentation: always, never, or if it can be made. -/
inductive SvgMode where
  | force
  | omit
  | auto
  deriving DecidableEq, Repr

inductive DiagramFormat where
  | dot
  | mermaid
  deriving DecidableEq, Repr

inductive Action where
  | generate (svg : SvgMode) (overrides : Overrides) (output : Option Path)
  | check
  | diagram (format : DiagramFormat)
  deriving DecidableEq, Repr

/-- A request: the action, and the file and the language of the machine. Without a file the machine
is read from the standard input. -/
structure Invocation where
  isVerbose : Bool := false
  file : Option String := none
  language : Language := .machine
  action : Action

/-- Why arguments are no request. -/
inductive UsageError where
  | missingCommand
  | unknownCommand (name : String)
  | unknownOption (spelling : String)
  | missingValue (spelling : String)
  | unexpectedValue (spelling : String)
  | badValue (value : String)
  | extraArgument (value : String)
  deriving DecidableEq, Repr

def UsageError.message : UsageError → String
  | missingCommand => "Missing command."
  | unknownCommand name => "No such command '" ++ name ++ "'."
  | unknownOption spelling => "No such option: " ++ spelling
  | missingValue spelling => "Option '" ++ spelling ++ "' requires an argument."
  | unexpectedValue spelling => "Option '" ++ spelling ++ "' does not take a value."
  | badValue value => "Invalid value '" ++ value ++ "'."
  | extraArgument value => "Got unexpected extra argument (" ++ value ++ ")"

inductive OptionKind where
  | language
  | svg
  | name
  | noRenameMethods
  | trusted
  | mermaid
  | output
  | format
  deriving DecidableEq, Repr

namespace OptionKind

/-- The option stands by itself. -/
def isFlag : OptionKind → Bool
  | noRenameMethods | trusted | mermaid => true
  | _ => false

def spellings : OptionKind → List String
  | language => ["--language", "--lang", "-l"]
  | svg => ["--svg"]
  | name => ["--name", "-n"]
  | noRenameMethods => ["--no-rename-methods"]
  | trusted => ["--trusted"]
  | mermaid => ["--mermaid"]
  | output => ["--output", "-o"]
  | format => ["--format", "-f"]

/-- The option with the given spelling. -/
def find? (options : List OptionKind) (spelling : String) : Option OptionKind :=
  options.find? fun o => o.spellings.contains spelling

end OptionKind

/-- The arguments of a command: options with their values, which are empty for flags, and the other
arguments. -/
structure Given where
  options : List (OptionKind × String) := []
  positional : List String := []
  deriving DecidableEq, Repr

namespace Given

def withOption (g : Given) (o : OptionKind) (value : String) : Given :=
  { g with options := (o, value) :: g.options }

/-- The value of an option; the last one counts. -/
def value? (g : Given) (o : OptionKind) : Option String :=
  (g.options.find? (·.1 = o)).map (·.2)

def has (g : Given) (o : OptionKind) : Bool := (g.value? o).isSome

end Given

/-- What the arguments before say about the next one. -/
inductive Expecting where
  | anything
  | value (o : OptionKind) (spelling : String)
  | positional

/-- Options of one letter each behind one dash. The rest behind an option with a value is its value,
and if there is no rest, the next argument is. -/
def readLetters (options : List OptionKind) (g : Given) :
    List Char → Except UsageError (Given × Expecting)
  | [] => .ok (g, .anything)
  | c :: rest =>
    let spelling := String.ofList ['-', c]
    match OptionKind.find? options spelling with
    | none => .error (.unknownOption spelling)
    | some o =>
      if o.isFlag then readLetters options (g.withOption o "") rest
      else if rest.isEmpty then .ok (g, .value o spelling)
      else .ok (g.withOption o (String.ofList rest), .anything)

/-- An option behind two dashes, whose value may follow an equals sign. -/
def readWord (options : List OptionKind) (g : Given) (arg : List Char) :
    Except UsageError (Given × Expecting) :=
  let spelling := String.ofList (arg.takeWhile (· != '='))
  match OptionKind.find? options spelling, arg.dropWhile (· != '=') with
  | none, _ => .error (.unknownOption spelling)
  | some o, [] => .ok (if o.isFlag then (g.withOption o "", .anything) else (g, .value o spelling))
  | some o, _ :: value =>
    if o.isFlag then .error (.unexpectedValue spelling)
    else .ok (g.withOption o (String.ofList value), .anything)

/-- The arguments of a command with the given options. Two dashes alone end the options, and one dash
alone is no option. -/
def readGiven (options : List OptionKind) (g : Given) :
    Expecting → List String → Except UsageError Given
  | .value _ spelling, [] => .error (.missingValue spelling)
  | _, [] => .ok { g with positional := g.positional.reverse }
  | .value o _, arg :: rest => readGiven options (g.withOption o arg) .anything rest
  | .positional, arg :: rest =>
    readGiven options { g with positional := arg :: g.positional } .positional rest
  | .anything, arg :: rest =>
    match arg.toList with
    | ['-', '-'] => readGiven options g .positional rest
    | '-' :: '-' :: _ =>
      match readWord options g arg.toList with
      | .ok (g, expecting) => readGiven options g expecting rest
      | .error e => .error e
    | '-' :: c :: cs =>
      match readLetters options g (c :: cs) with
      | .ok (g, expecting) => readGiven options g expecting rest
      | .error e => .error e
    | _ => readGiven options { g with positional := arg :: g.positional } .anything rest

/-- The value of an option that knows a few values, or its default. -/
def choice {α : Type} (g : Given) (o : OptionKind) (default : α) (values : List (String × α)) :
    Except UsageError α :=
  match g.value? o with
  | none => .ok default
  | some value =>
    match values.find? (·.1 == value) with
    | some (_, a) => .ok a
    | none => .error (.badValue value)

/-- What the options of code generation change in the machine. -/
def overridesOf (g : Given) : Overrides :=
  { name := g.value? .name
    settings :=
      (if g.has .noRenameMethods then [.renameMethods false] else []) ++
      (if g.has .trusted then [.trust .trusted] else []) ++
      if g.has .mermaid then [.mermaid true] else [] }

def optionsOf : String → Option (List OptionKind)
  | "generate" => some [.language, .svg, .name, .noRenameMethods, .trusted, .mermaid, .output]
  | "check" => some [.language]
  | "diagram" => some [.language, .format]
  | _ => none

def actionOf (command : String) (g : Given) : Except UsageError Action := do
  match command with
  | "generate" =>
    let svg ← choice g .svg .auto [("force", .force), ("omit", .omit), ("auto", .auto)]
    return .generate svg (overridesOf g) ((g.value? .output).map Path.ofString)
  | "check" => return .check
  | _ => return .diagram (← choice g .format .dot [("dot", .dot), ("mermaid", .mermaid)])

/-- A command with its arguments. The file `-` is the standard input. -/
def readCommand (isVerbose : Bool) (command : String) (args : List String) :
    Except UsageError Invocation := do
  let some options := optionsOf command | throw (.unknownCommand command)
  let g ← readGiven options {} .anything args
  let language ← choice g .language .machine [("dsl", .machine), ("dot", .digraph)]
  let action ← actionOf command g
  match g.positional with
  | [] | ["-"] => return { isVerbose, language, action }
  | [file] => return { isVerbose, file := some file, language, action }
  | _ :: extra :: _ => throw (.extraArgument extra)

/-- The argument asks for the log: as a word, or as letters behind one dash. -/
def asksForLog (arg : String) : Bool :=
  match arg.toList with
  | '-' :: 'V' :: letters => letters.all (· == 'V')
  | _ => arg == "--verbose"

/-- The request that arguments make. -/
def Invocation.ofArguments (isVerbose : Bool := false) :
    List String → Except UsageError Invocation
  | [] => .error .missingCommand
  | arg :: rest =>
    if asksForLog arg then ofArguments true rest
    else if arg == "--" then
      match rest with
      | [] => .error .missingCommand
      | command :: args => readCommand isVerbose command args
    else readCommand isVerbose arg rest

end Typestate.Command
