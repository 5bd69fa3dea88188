import Typestate.Machine.Statement

/-!
What a caller may change in a machine that was read: its name, its visibility and its options.
-/

namespace Typestate

/-- The name and the visibility that replace those of a machine, and options to be set. -/
structure Overrides where
  name : Option String := none
  vis : Option String := none
  settings : List Setting := []
  deriving DecidableEq, Repr

namespace Overrides

/-- The parts of a machine that are changed, in alphabetical order. -/
def fields (o : Overrides) : List String :=
  (if o.settings.isEmpty then [] else ["config"]) ++ (if o.name.isSome then ["name"] else []) ++
    if o.vis.isSome then ["vis"] else []

/-- Nothing is changed. -/
def isEmpty (o : Overrides) : Bool := o.fields.isEmpty

def apply (o : Overrides) (d : Document) : Document :=
  { d with name := o.name.getD d.name, vis := o.vis.getD d.vis,
           config := d.config.update o.settings }

end Overrides

end Typestate
