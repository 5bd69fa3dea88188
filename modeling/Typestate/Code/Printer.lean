import Typestate.Code.Declaration
import Typestate.Code.Item

/-!
How declarations are written.
-/

namespace Typestate.Code

/-- The message of generated code that meets a state it was not made for. -/
def mismatchMessage : String := "entry struct was instantiated with a mismatched state"

/-- The attribute of items whose lifetimes a linter would call needless. -/
def needlessLifetimes : String := "#[allow(clippy::needless_lifetimes)]"

/-- A visibility with a space behind it, or nothing if there is none. -/
def visibility (vis : String) : String := if vis.isEmpty then "" else vis ++ " "

namespace Api

/-- What is done in a state that the code was not made for. -/
def mismatch (api : Api) : String :=
  match api.trust with
  | .trusted => "unsafe \x7b " ++ api.core ++ "::hint::unreachable_unchecked() \x7d"
  | .checked => api.core ++ "::panic!(\"" ++ mismatchMessage ++ "\")"

/-- A header with an opening brace, and the where clause between them if there is one. -/
def opening (api : Api) (header : String) : String :=
  if api.predicates.isEmpty then header ++ " \x7b"
  else header ++ whereClause api.predicates ++ "\n\x7b"

/-- The start of an `impl` block for a type that holds a reference to the state. -/
def openingImpl (api : Api) (target : String) : String :=
  api.opening ("impl" ++ declaredParameters api.entryParams ++ " " ++ target)

/-- The start of an `impl` block of a trait in the core library. -/
def openingTraitImpl (api : Api) (trait target : String) : String :=
  api.openingImpl (api.core ++ "::convert::" ++ trait ++ " for " ++ target)

/-- A reference to the state. -/
def stateReference (api : Api) : String := "&" ++ entryLifetime ++ " mut " ++ api.stateType

end Api

def StateVariant.lines (v : StateVariant) : List String :=
  docComments v.docs "    " ++
    match v.payload with
    | some ty => ["    " ++ v.node ++ "(" ++ ty ++ "),"]
    | none => ["    " ++ v.node ++ ","]

def EntryVariant.lines (api : Api) (v : EntryVariant) : List String :=
  docComments v.docs "    " ++
    match v.access with
    | .nothing => ["    " ++ v.node ++ ","]
    | .payload ty => ["    " ++ v.node ++ "(&" ++ entryLifetime ++ " mut " ++ ty ++ "),"]
    | .connector => ["    " ++ v.node ++ "(" ++ api.connectorType v.node ++ "),"]

def ConversionArm.line (api : Api) (a : ConversionArm) : String :=
  let pattern := match a.pattern with
    | .absent => ""
    | .ignored => "(_)"
    | .bound => "(it)"
  let argument := match a.argument with
    | .absent => ""
    | .bound => "(it)"
    | .connector => "(" ++ a.node ++ "(value))"
  "            " ++ api.variant a.node ++ pattern ++ " => " ++ api.entry ++ "::" ++ a.node ++
    argument ++ ","

/-- A match on the state that has one arm for the expected variant and one for all others. -/
def matchLines (api : Api) (indent scrutinee expected : String) : List String := [
  indent ++ "match " ++ scrutinee ++ " \x7b",
  indent ++ "    " ++ expected ++ ",",
  indent ++ "    _ => " ++ api.mismatch ++ ",",
  indent ++ "\x7d"]

/-- A method that gets at the payload of a node through the connector. -/
def accessorLines (api : Api) (node signature scrutinee : String) : List String :=
  ["    " ++ signature ++ " \x7b"] ++
    matchLines api "        " scrutinee (api.variant node ++ "(it) => it") ++ ["    \x7d"]

/-- The line that documents what an accessor does with the payload. -/
def accessorDoc (api : Api) (node verb : String) : String :=
  "    /// " ++ verb ++ " the data stored in [`" ++ api.variant node ++ "`]"

def Transition.lines (api : Api) (t : Transition) : List String :=
  let parameters := match t.takes with
    | some ty => "self, next: " ++ ty
    | none => "self"
  let result := match t.returns with
    | some ty => " -> " ++ ty
    | none => ""
  let replacement := match t.takes with
    | some _ => api.variant t.target ++ "(next)"
    | none => api.variant t.target
  let expected := match t.returns with
    | some _ => api.variant t.source ++ "(it) => it,"
    | none => api.variant t.source ++ " => \x7b\x7d"
  let docs := (if t.docs.isEmpty then [] else t.docs ++ [""]) ++
    [" Transition to [`" ++ api.variant t.target ++ "`]"]
  [api.openingImpl (api.connectorType t.source)] ++ docComments docs "    " ++ [
    "    pub fn " ++ t.method ++ "(" ++ parameters ++ ")" ++ result ++ " \x7b",
    "        match " ++ api.core ++ "::mem::replace(self.0, " ++ replacement ++ ") \x7b",
    "            " ++ expected,
    "            _ => " ++ api.mismatch ++ ",",
    "        \x7d",
    "    \x7d",
    "\x7d"]

namespace Declaration

/-- The lines of a declaration, below its documentation and attributes. -/
def lines (api : Api) : Declaration → List String
  | stateEnum _ _ variants =>
    [api.opening (visibility api.stateVis ++ "enum " ++ api.state ++ api.stateGenerics)] ++
      variants.flatMap StateVariant.lines ++ ["\x7d"]
  | entryEnum _ variants =>
    [api.opening (visibility api.entryVis ++ "enum " ++ api.entry ++
        declaredParameters api.entryParams)] ++
      variants.flatMap (EntryVariant.lines api) ++ ["\x7d"]
  | conversion arms =>
    [api.openingTraitImpl ("From<" ++ api.stateReference ++ ">") api.entryType,
      "    fn from(value: " ++ api.stateReference ++ ") -> Self \x7b",
      "        match value \x7b"] ++
      arms.map (ConversionArm.line api) ++ ["        \x7d", "    \x7d", "\x7d"]
  | entryMethod => [
      api.opening ("impl" ++ declaredParameters api.params ++ " " ++ api.stateType),
      "    " ++ needlessLifetimes,
      "    " ++ visibility api.entryVis ++ "fn entry<" ++ entryLifetime ++ ">(&" ++ entryLifetime ++
        " mut self) -> " ++ api.entryType ++ " \x7b",
      "        self.into()",
      "    \x7d",
      "\x7d"]
  | connector node => [
      visibility api.entryVis ++ "struct " ++ node ++ declaredParameters api.entryParams ++ "(",
      "    /// MUST match [`" ++ api.entry ++ "::" ++ node ++ "`]",
      "    " ++ api.stateReference ++ ",",
      ")" ++ trailing (whereClause api.predicates) ++ ";"]
  | accessors node ty names =>
    [api.openingImpl (api.connectorType node), accessorDoc api node "Borrow"] ++
      accessorLines api node ("pub fn " ++ names.get ++ "(&self) -> &" ++ ty) "&self.0" ++
      [accessorDoc api node "Mutably borrow"] ++
      accessorLines api node ("pub fn " ++ names.getMut ++ "(&mut self) -> &mut " ++ ty)
        "&mut self.0" ++ ["\x7d"]
  | asRef node ty =>
    [api.openingTraitImpl ("AsRef<" ++ ty ++ ">") (api.connectorType node)] ++
      accessorLines api node ("fn as_ref(&self) -> &" ++ ty) "&self.0" ++ ["\x7d"]
  | asMut node ty =>
    [api.openingTraitImpl ("AsMut<" ++ ty ++ ">") (api.connectorType node)] ++
      accessorLines api node ("fn as_mut(&mut self) -> &mut " ++ ty) "&mut self.0" ++ ["\x7d"]
  | transition t => t.lines api
where
  /-- The where clause of a tuple struct, which has no comma behind it. -/
  trailing (clause : String) : String :=
    String.ofList (clause.toList.reverse.dropWhile (· == ',')).reverse

/-- The documentation of a declaration. -/
def docs (api : Api) : Declaration → List String
  | stateEnum docs _ _ => docs
  | entryEnum docs _ => docs
  | connector node => [" See [`" ++ api.entry ++ "::" ++ node ++ "`]"]
  | _ => []

/-- The attributes of a declaration. -/
def attrs : Declaration → List String
  | stateEnum _ attrs _ => attrs
  | accessors .. | asRef .. | asMut .. | transition _ => [needlessLifetimes]
  | _ => []

/-- A declaration as a generated item. -/
def item (api : Api) (d : Declaration) : Item :=
  { body := String.intercalate "\n" (d.lines api), docs := d.docs api, attrs := d.attrs }

end Declaration

end Typestate.Code
