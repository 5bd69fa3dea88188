import Typestate.Text.Fields

/-!
File paths in their shortest plain form: no empty component and no `.` component. A component `..`
stays, since it cannot be resolved without the file system.
-/

namespace Typestate

/-- The root that a path starts with: exactly two slashes stay two, any other number is one. -/
def Text.pathRoot : List Char → List Char
  | '/' :: '/' :: '/' :: _ => ['/']
  | '/' :: '/' :: _ => ['/', '/']
  | '/' :: _ => ['/']
  | _ => []

/-- The components that matter. -/
def Text.pathParts (cs : List Char) : List (List Char) :=
  (fields '/' cs).filter fun part => !(part.isEmpty || part == ['.'])

/-- The path of a file, in plain form. -/
structure Path where
  text : String
  deriving DecidableEq, Repr

/-- The plain form of a path; the empty path is the current directory. -/
def Path.ofString (s : String) : Path :=
  match Text.pathRoot s.toList ++ List.intercalate ['/'] (Text.pathParts s.toList) with
  | [] => ⟨"."⟩
  | cs => ⟨String.ofList cs⟩

/-- The path of the directory that a file is in, if the path names one. -/
def Path.directory? (p : Path) : Option String :=
  match (p.text.toList.reverse.dropWhile (· != '/')).drop 1 with
  | [] => none
  | cs => some (String.ofList cs.reverse)

end Typestate
