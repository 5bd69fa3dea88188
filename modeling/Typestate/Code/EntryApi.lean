import Typestate.Graph.Neighborhood
import Typestate.Numbering
import Typestate.Code.Declaration

/-!
The declarations for a graph. The part that a node plays and its payload decide what it gets: every
node has a state variant, an entry variant and an arm of the conversion; every node with outgoing
edges has a connector, with accessors if there is a payload, and a transition for each such edge.
-/

namespace Typestate.Code

/-- The names of the payload accessors of a node: `get` and `get_mut`, or names made of the node's
own if a method out of the node has one of these. Then underscores are added until neither name is
taken by a method. -/
def accessorNames (node : String) (methods : List String) : AccessorNames :=
  let isFree (stem : String) : Bool :=
    !(methods.contains stem || methods.contains (stem ++ "_mut"))
  let padded (n : Nat) : String :=
    "get_" ++ Identifier.snakeCase node ++ String.ofList (List.replicate n '_')
  let stem := if isFree "get" then "get"
    else padded (firstFree (fun n => isFree (padded n)) (2 * methods.length) 0)
  { get := stem, getMut := stem ++ "_mut" }

/-- A list item that links to a neighbour and to the method that leads to or from it. -/
def linkDoc (state : String) (n : Neighbor) (owner : String) : String :=
  " - [`" ++ n.name ++ "`](" ++ state ++ "::" ++ n.name ++ ") via [`" ++ n.edge.methodName ++
    "`](" ++ owner ++ "::" ++ n.edge.methodName ++ ")"

/-- What an entry variant stands for, how its state is reached, and where it can go. -/
def variantDocs (state : String) (c : PlacedNode) : List String :=
  let into := c.neighborhood.incoming.map fun n => linkDoc state n n.name
  let out := c.neighborhood.outgoing.map fun n => linkDoc state n c.name
  [" Represents [`" ++ state ++ "::" ++ c.name ++ "`]"] ++
    (if into.isEmpty then []
      else ["", " This state is reachable from the following:"] ++ into) ++
    if out.isEmpty then []
    else ["", " This state can transition to the following:"] ++ out

/-- What the entry of a node gives access to. -/
def access (c : PlacedNode) : Access :=
  if c.neighborhood.hasConnector then .connector
  else match c.node.ty with
    | some ty => .payload ty
    | none => .nothing

def stateVariant (name : String) (n : Node) : StateVariant :=
  { node := name, payload := n.ty, docs := n.docs }

def entryVariant (state : String) (c : PlacedNode) : EntryVariant :=
  { node := c.name, access := access c, docs := variantDocs state c }

def conversionArm (c : PlacedNode) : ConversionArm :=
  let hasPayload := c.node.ty.isSome
  if c.neighborhood.hasConnector then
    { node := c.name, pattern := if hasPayload then .ignored else .absent, argument := .connector }
  else if hasPayload then { node := c.name, pattern := .bound, argument := .bound }
  else { node := c.name, pattern := .absent, argument := .absent }

/-- The accessors of the payload of a node, if it has one. -/
def accessorDeclarations (c : PlacedNode) : List Declaration :=
  match c.node.ty with
  | some ty =>
    [.accessors c.name ty (accessorNames c.name c.neighborhood.methods), .asRef c.name ty,
      .asMut c.name ty]
  | none => []

/-- The transitions out of a node. -/
def transitions (c : PlacedNode) : List Declaration :=
  c.neighborhood.outgoing.map fun n => .transition
    { source := c.name, target := n.name, method := n.edge.methodName, takes := n.node.ty,
      returns := c.node.ty, docs := n.edge.docs }

/-- The documentation of the entry enum, without a diagram. -/
def entryDocs (state : String) : List String :=
  [" Progress through variants of [`" ++ state ++ "`], created by its [`entry`](" ++ state ++
    "::entry) method."]

/-- All declarations, in the order in which they are written. -/
def declarations (d : Document) (entryDocs : List String) (nodes : List PlacedNode) :
    List Declaration :=
  let connectors := nodes.filter (·.neighborhood.hasConnector)
  [.stateEnum d.docs d.attrs (nodes.map fun c => stateVariant c.name c.node),
    .entryEnum entryDocs (nodes.map (entryVariant d.name)),
    .conversion (nodes.map conversionArm),
    .entryMethod] ++
    connectors.map (fun c => .connector c.name) ++
    connectors.flatMap accessorDeclarations ++
    connectors.flatMap transitions

end Typestate.Code
