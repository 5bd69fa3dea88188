import Typestate.Code.Generics
import Typestate.Machine.Statement

/-!
What is generated for a machine, as data: the state enum, the entry enum and the conversion between
them, and connector types with accessors and transitions. How declarations are written is another
matter.
-/

namespace Typestate.Code

/-- The names and texts that all declarations of a machine share. -/
structure Api where
  state : String
  stateVis : String
  stateGenerics : String
  entry : String
  entryVis : String
  core : String
  trust : Trust
  params : List String
  predicates : List String
  deriving DecidableEq, Repr

namespace Api

def ofDocument (d : Document) : Except Failure Api := do
  return { state := d.name, stateVis := d.vis, stateGenerics := d.generics, entry := d.entryName,
           entryVis := d.entryVis, core := d.config.pathToCore, trust := d.config.trust,
           params := ← parametersOf d.generics, predicates := d.predicates }

/-- The parameters of the types that hold a reference to the state. -/
def entryParams (api : Api) : List String := entryLifetime :: api.params

def stateType (api : Api) : String := api.state ++ appliedParameters api.params

def entryType (api : Api) : String := api.entry ++ appliedParameters api.entryParams

/-- The type of the connector of a node. -/
def connectorType (api : Api) (node : String) : String := node ++ appliedParameters api.entryParams

/-- A variant of the state enum. -/
def variant (api : Api) (node : String) : String := api.state ++ "::" ++ node

end Api

/-- A variant of the state enum, with the payload type of its node. -/
structure StateVariant where
  node : String
  payload : Option String
  docs : List String
  deriving DecidableEq, Repr

/-- What an entry gives access to: nothing, the payload by reference, or the connector. -/
inductive Access where
  | nothing
  | payload (ty : String)
  | connector
  deriving DecidableEq, Repr

/-- A variant of the entry enum. -/
structure EntryVariant where
  node : String
  access : Access
  docs : List String
  deriving DecidableEq, Repr

/-- How an arm of the conversion looks at a payload: there is none, it is passed over, or it is
bound. -/
inductive PayloadPattern where
  | absent
  | ignored
  | bound
  deriving DecidableEq, Repr

/-- What an arm of the conversion gives to the entry variant: nothing, the payload that it bound, or
a new connector. -/
inductive EntryArgument where
  | absent
  | bound
  | connector
  deriving DecidableEq, Repr

/-- An arm of the conversion, from the state variant of a node to its entry variant. -/
structure ConversionArm where
  node : String
  pattern : PayloadPattern
  argument : EntryArgument
  deriving DecidableEq, Repr

/-- A transition method: it takes the payload of its target and returns that of its source. -/
structure Transition where
  source : String
  target : String
  method : String
  takes : Option String
  returns : Option String
  docs : List String
  deriving DecidableEq, Repr

/-- The names of the two accessors of a payload. -/
structure AccessorNames where
  get : String
  getMut : String
  deriving DecidableEq, Repr

inductive Declaration where
  | stateEnum (docs attrs : List String) (variants : List StateVariant)
  | entryEnum (docs : List String) (variants : List EntryVariant)
  | conversion (arms : List ConversionArm)
  | entryMethod
  | connector (node : String)
  | accessors (node ty : String) (names : AccessorNames)
  | asRef (node ty : String)
  | asMut (node ty : String)
  | transition (t : Transition)
  deriving DecidableEq, Repr

end Typestate.Code
