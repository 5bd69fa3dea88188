import Typestate.Docs

/-!
Generated items: a body with documentation and attributes in front of it. Documentation is kept
apart from the body, so that a diagram can be attached to it afterwards without touching code.
-/

namespace Typestate.Code

/-- A character inside a string literal. -/
def escapeChar (c : Char) : List Char :=
  if c == '\\' then ['\\', '\\'] else if c == '"' then ['\\', '"'] else [c]

/-- A text as a string literal. -/
def stringLiteral (s : String) : String :=
  String.ofList ('"' :: (s.toList.flatMap escapeChar ++ ['"']))

/-- A fragment of documentation: a comment if it is one line, an attribute if it is several. -/
def docComment (indent fragment : String) : String :=
  if fragment.toList.contains '\n' then indent ++ "#[doc = " ++ stringLiteral fragment ++ "]"
  else indent ++ "///" ++ fragment

def docComments (docs : List String) (indent : String := "") : List String :=
  docs.map (docComment indent)

structure Item where
  body : String
  docs : List String := []
  attrs : List String := []
  deriving DecidableEq, Repr

namespace Item

def render (i : Item) : String :=
  String.intercalate "\n" (docComments i.docs ++ i.attrs ++ [i.body])

/-- The item with more documentation behind what it has. -/
def addDocs (i : Item) (docs : List String) : Item := { i with docs := joinDocs i.docs docs }

end Item

/-- Generated items in the order of their emission. -/
structure Listing where
  items : List Item
  deriving DecidableEq, Repr

namespace Listing

/-- All items, each with a line feed behind it. -/
def render (u : Listing) : String := String.join (u.items.map fun i => i.render ++ "\n")

/-- The unit with more documentation on the item at `index`. -/
def addDocs (u : Listing) (docs : List String) (index : Nat := 0) : Listing :=
  ⟨u.items.modify index (·.addDocs docs)⟩

end Listing

end Typestate.Code
