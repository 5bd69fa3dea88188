import Typestate.Source.Span
import Typestate.Machine.Config

/-!
Machines as they are written: node statements, chains of transitions, and the document around them.
-/

namespace Typestate

/-- A mention of a node, with a payload type and documentation if they are given there. -/
structure NodeRef where
  name : String
  ty : Option String := none
  docs : List String := []
  span : Option Span := none
  deriving DecidableEq, Repr

/-- The nodes at one position of a chain. -/
abbrev NodeGroup := List NodeRef

/-- More than one node stands at the position. -/
def NodeGroup.isMany (g : NodeGroup) : Bool := g.length > 1

def NodeGroup.names (g : NodeGroup) : List String := g.map (·.name)

/-- The spellings of an arrow: `->`, `-->`, `-"docs"->` and `-name "docs"->`. -/
inductive ArrowForm where
  | plain
  | long
  | documented (docs : List String)
  | named (method : String) (docs : List String)
  deriving DecidableEq, Repr

structure Arrow where
  form : ArrowForm := .plain
  span : Option Span := none
  deriving DecidableEq, Repr

namespace Arrow

/-- The method name of a named arrow. -/
def method? (a : Arrow) : Option String :=
  match a.form with
  | .named method _ => some method
  | _ => none

def isNamed (a : Arrow) : Bool := a.method?.isSome

/-- The documentation that the arrow carries. -/
def docs (a : Arrow) : List String :=
  match a.form with
  | .plain => []
  | .long => []
  | .documented docs => docs
  | .named _ docs => docs

end Arrow

/-- A chain of transitions: a first position, then arrows and further positions. -/
structure Chain where
  docs : List String := []
  first : NodeGroup
  rest : List (Arrow × NodeGroup) := []
  deriving DecidableEq, Repr

/-- One arrow of a chain with the positions on its two sides. -/
structure Hop where
  sources : NodeGroup
  arrow : Arrow
  targets : NodeGroup
  deriving DecidableEq, Repr

namespace Chain

/-- The positions in order. -/
def groups (c : Chain) : List NodeGroup := c.first :: c.rest.map (·.2)

/-- All mentions of nodes in order. -/
def nodeRefs (c : Chain) : List NodeRef := c.groups.flatten

def hopsFrom (sources : NodeGroup) : List (Arrow × NodeGroup) → List Hop
  | [] => []
  | (arrow, targets) :: rest => ⟨sources, arrow, targets⟩ :: hopsFrom targets rest

/-- The arrows in order. -/
def hops (c : Chain) : List Hop := hopsFrom c.first c.rest

end Chain

inductive Statement where
  | node (ref : NodeRef)
  | chain (chain : Chain)
  deriving DecidableEq, Repr

/-- The node references of the node statements, in order. -/
def nodeStatements : List Statement → List NodeRef
  | [] => []
  | .node ref :: rest => ref :: nodeStatements rest
  | .chain _ :: rest => nodeStatements rest

/-- The chains, in order. -/
def chains : List Statement → List Chain
  | [] => []
  | .node _ :: rest => chains rest
  | .chain chain :: rest => chain :: chains rest

/-- The name of a machine that gives none. -/
def defaultMachineName : String := "State"

/-- A whole machine as it is written. Generic parameters (with their angle brackets), where
predicates and attributes are kept as text. -/
structure Document where
  name : String := defaultMachineName
  vis : String := "pub"
  docs : List String := []
  attrs : List String := []
  generics : String := ""
  predicates : List String := []
  config : Config := {}
  statements : List Statement := []
  span : Option Span := none
  deriving DecidableEq, Repr

namespace Document

/-- The name of the entry enum. -/
def entryName (d : Document) : String := d.config.entryNameOf d.name

/-- The visibility of the entry enum. -/
def entryVis (d : Document) : String := d.config.entryVisOf d.vis

end Document

end Typestate
