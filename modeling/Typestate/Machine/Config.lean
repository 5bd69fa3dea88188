/-!
The options of the generator. Each can be set by the machine's own attribute and by a caller.
-/

namespace Typestate

/-- What generated code does when a handle meets a state that it was not made for: stop with a
message, or trust the caller that it cannot happen. -/
inductive Trust where
  | checked
  | trusted
  deriving DecidableEq, Repr

structure Config where
  renameMethods : Bool := true
  entryVis : Option String := none
  entryName : Option String := none
  trust : Trust := .checked
  pathToCore : String := "::core"
  mermaid : Bool := false
  deriving DecidableEq, Repr

/-- One option and its value. -/
inductive Setting where
  | renameMethods (on : Bool)
  | entryVis (vis : Option String)
  | entryName (name : Option String)
  | trust (trust : Trust)
  | pathToCore (path : String)
  | mermaid (on : Bool)
  deriving DecidableEq, Repr

namespace Config

def set (c : Config) : Setting → Config
  | .renameMethods on => { c with renameMethods := on }
  | .entryVis vis => { c with entryVis := vis }
  | .entryName name => { c with entryName := name }
  | .trust trust => { c with trust := trust }
  | .pathToCore path => { c with pathToCore := path }
  | .mermaid on => { c with mermaid := on }

/-- The options after some settings, the later of which win. -/
def update (c : Config) (settings : List Setting) : Config := settings.foldl set c

/-- The name of the entry enum of a machine: as set, unless that is empty. -/
def entryNameOf (c : Config) (machine : String) : String :=
  match c.entryName with
  | none => machine ++ "Entry"
  | some "" => machine ++ "Entry"
  | some name => name

/-- The visibility of the entry enum: as set, or that of the machine. -/
def entryVisOf (c : Config) (machineVis : String) : String := c.entryVis.getD machineVis

end Config

end Typestate
