import Typestate.Grammar.Verbatim
import Typestate.Machine.Statement

/-!
What stands in front of statements and machines: documentation, attributes, the settings of the
generator, and visibilities.
-/

namespace Typestate

/-- The attribute that holds the generator's settings. -/
def settingsAttribute : String := "fsmentry"

/-- The lines of a documentation text, each a fragment. -/
def docFragments (text : String) : List String := Text.lines text

namespace TokenStream

/-- An attribute of this name is next. -/
def startsAttribute (s : TokenStream) (name : String) : Bool :=
  s.current.kind == .pound && (s.peek 1).kind == .leftBracket &&
    (s.peek 2).kind == .identifier && (s.peek 2).value == name

/-- Documentation written as an attribute is next. -/
def startsDocAttribute (s : TokenStream) : Bool :=
  s.startsAttribute "doc" && (s.peek 3).kind == .equals

end TokenStream

namespace Parser

/-- Documentation written as an attribute. -/
def docAttribute : Parser String := do
  let _ ← expect .pound
  let _ ← expect .leftBracket
  let _ ← expect .identifier
  let _ ← expect .equals
  let text ← expect .string
  let _ ← expect .rightBracket
  return text.value

/-- The documentation in front of a statement. No other attribute may stand there. -/
def docs : Parser (List String) :=
  rounds (fun docs => do
    let t ← current
    match t.kind with
    | .doc =>
      let t ← advance
      return .again (docs ++ docFragments t.value)
    | .pound =>
      if (← get).startsDocAttribute then
        return .again (docs ++ docFragments (← docAttribute))
      else fail t .statementAttribute
    | _ => return .done docs) []

/-- A path of modules, which may start at the root. -/
def modulePath : Parser String := do
  let root ← if ← isAt .pathSeparator then do
      let _ ← advance
      pure "::"
    else pure ""
  let first ← expect .identifier
  rounds (fun path => do
    if ← isAt .pathSeparator then
      let _ ← advance
      let next ← expect .identifier
      return .again (path ++ "::" ++ next.value)
    else return .done path) (root ++ first.value)

/-- The words that may restrict a visibility. -/
def restrictionWords : List String := ["crate", "super", "self", "in"]

/-- An optional visibility. A parenthesis after `pub` belongs to it only in front of one of the
words that restrict a visibility. -/
def visibility : Parser String := do
  if !(← isAt .pub) then return ""
  let _ ← advance
  if !(← isAt .leftParen) then return "pub"
  let restriction ← peek
  if restriction.kind != .identifier || restriction.value ∉ restrictionWords then return "pub"
  let _ ← advance
  let scope ← advance
  let scope ← if scope.value == "in" then do
      let path ← modulePath
      pure ("in " ++ path)
    else pure scope.value
  let _ ← expect .rightParen
  return "pub(" ++ scope ++ ")"

def truthValue : Parser Bool := do
  let t ← current
  match t.kind with
  | .trueWord =>
    let _ ← advance
    return true
  | .falseWord =>
    let _ ← advance
    return false
  | _ => fail t (.expected .truthValue t)

/-- How the value of a key is written, and what it sets. -/
def settingValue : String → Option (Parser (List Setting))
  | "entry" => some do
    let vis ← visibility
    let name ← expect .identifier
    return [.entryVis (some vis), .entryName (some name.value)]
  | "mermaid" => some do return [.mermaid (← truthValue)]
  | "path_to_core" => some do return [.pathToCore (← modulePath)]
  | "rename_methods" => some do return [.renameMethods (← truthValue)]
  | "unsafe" => some do return [.trust (if ← truthValue then .trusted else .checked)]
  | _ => none

/-- What stands in front of a machine, and the keys that have been set. -/
structure Preamble where
  docs : List String := []
  attrs : List String := []
  settings : List Setting := []
  seen : List String := []

/-- A key and its value, after an equals sign or in parentheses. -/
def setting (p : Preamble) : Parser Preamble := do
  let key ← expect .identifier
  match settingValue key.value with
  | none => fail key .unknownSetting
  | some value =>
    if p.seen.contains key.value then fail key (.repeatedSetting key.value)
    let set ← if ← isAt .equals then do
        let _ ← advance
        value
      else do
        let _ ← expect .leftParen
        let set ← value
        let _ ← expect .rightParen
        pure set
    return { p with settings := p.settings ++ set, seen := p.seen ++ [key.value] }

/-- The settings of the generator. A key may be set once in all attributes of a machine. -/
def settings (p : Preamble) : Parser Preamble := do
  let _ ← expect .pound
  let _ ← expect .leftBracket
  let _ ← expect .identifier
  let _ ← expect .leftParen
  let p ← rounds (fun p => do
    if ← isAt .rightParen then return .done p
    let p ← setting p
    if ← isAt .comma then
      let _ ← advance
      return .again p
    else return .done p) p
  let _ ← expect .rightParen
  let _ ← expect .rightBracket
  return p

/-- Everything in front of a machine's header. -/
def preamble : Parser Preamble :=
  rounds (fun p => do
    let t ← current
    match t.kind with
    | .doc =>
      let t ← advance
      return .again { p with docs := p.docs ++ docFragments t.value }
    | .pound =>
      let s ← get
      if s.startsDocAttribute then
        return .again { p with docs := p.docs ++ docFragments (← docAttribute) }
      else if s.startsAttribute settingsAttribute then
        return .again (← settings p)
      else
        return .again { p with attrs := p.attrs ++ [← verbatimAttribute] }
    | _ => return .done p) {}

/-- The options that the settings in front of a machine give. -/
def Preamble.config (p : Preamble) : Config := Config.update {} p.settings

end Parser

end Typestate
