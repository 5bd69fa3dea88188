import Typestate.Failure
import Typestate.Text.Fields

/-!
Generic parameters and where predicates, which are kept as text, in the forms that generated code
needs: with bounds and without defaults where they are declared, by name alone where they are used.
-/

namespace Typestate.Code

/-- The lifetime of the reference that a handle holds. -/
def entryLifetime : String := "'state"

/-- The parameters of a list in angle brackets, or none of an empty text. -/
def parametersOf (generics : String) : Except Failure (List String) :=
  match Text.trim generics.toList with
  | [] => .ok []
  | cs =>
    if cs.head? == some '<' && cs.getLast? == some '>' then
      .ok (Text.splitOutsideBrackets (String.ofList ((cs.drop 1).take (cs.length - 2))) (· == ','))
    else .error (.badGenerics (String.ofList cs))

/-- The text before the first occurrence of a character, or all of it. -/
def before (stop : Char) (cs : List Char) : List Char := cs.takeWhile (· != stop)

/-- A parameter without the keyword of a constant parameter. -/
def withoutConst (cs : List Char) : List Char :=
  match cs with
  | 'c' :: 'o' :: 'n' :: 's' :: 't' :: ' ' :: rest => Text.trim rest
  | _ => cs

/-- The name of a parameter, without its bounds and its default. -/
def parameterName (param : String) : String :=
  String.ofList
    (Text.trim (before '=' (before ':' (withoutConst (Text.trim param.toList)))))

/-- A parameter up to an equals sign outside of brackets. -/
def beforeDefault (depth : Int) (previous : Char) : List Char → List Char
  | [] => []
  | c :: rest =>
    if c == '=' && depth == 0 then []
    else c :: beforeDefault (depth + Text.nesting previous c) c rest

/-- A parameter with its bounds and without its default. -/
def withoutDefault (param : String) : String :=
  String.ofList (Text.normalize (beforeDefault 0 ' ' param.toList))

/-- Texts in angle brackets with commas between, or nothing if there are none. -/
def angled (texts : List String) : String :=
  if texts.isEmpty then "" else "<" ++ String.intercalate ", " texts ++ ">"

/-- The parameters as an `impl` or a type declares them. -/
def declaredParameters (params : List String) : String := angled (params.map withoutDefault)

/-- The parameters as a use of the type lists them. -/
def appliedParameters (params : List String) : String := angled (params.map parameterName)

/-- The where clause on its own lines, each after a line feed; nothing without predicates. -/
def whereClause (predicates : List String) (indent : String := "") : String :=
  if predicates.isEmpty then ""
  else "\n" ++ indent ++ "where" ++
    String.join (predicates.map fun p => "\n" ++ indent ++ "    " ++ Text.normalizeString p ++ ",")

end Typestate.Code
