import Typestate.Grammar.Parser

/-!
Text that is kept as it is written: the tokens up to a stop outside of brackets, and attributes.
-/

namespace Typestate

/-- How looking for a stop ends: at the stop, at the end of the input, or at a bracket that closes
none of those opened. The tokens taken and those left over come with it. -/
inductive Balanced where
  | stopped (taken rest : List Token)
  | endOfInput
  | unbalanced (found : Token) (rest : List Token)
  deriving DecidableEq, Repr

namespace Balanced

def prepend (t : Token) : Balanced → Balanced
  | stopped taken rest => stopped (t :: taken) rest
  | endOfInput => endOfInput
  | unbalanced found rest => unbalanced found rest

/-- Go on to a stop at depth zero. All brackets count alike, and the arrow directly after a closing
parenthesis, as in `fn(u8) -> u16`, is no stop. -/
def upTo (stops : List TokenKind) (depth : Nat) (previous : Option TokenKind) :
    List Token → Balanced
  | [] => endOfInput
  | t :: rest =>
    if depth == 0 && stops.contains t.kind &&
        !(t.kind == .arrow && previous == some .rightParen) then stopped [] (t :: rest)
    else if t.kind.isOpening then (upTo stops (depth + 1) (some t.kind) rest).prepend t
    else if t.kind.isClosing then
      if depth == 0 then unbalanced t rest
      else (upTo stops (depth - 1) (some t.kind) rest).prepend t
    else (upTo stops depth (some t.kind) rest).prepend t

end Balanced

/-- The text from the first of some tokens to the last, with its blanks made single spaces. -/
def Source.textOf (src : Source) (taken : List Token) : String :=
  match taken.head?, taken.getLast? with
  | some first, some last => String.ofList (Text.normalize (src.slice first.start last.stop))
  | _, _ => ""

namespace Parser

/-- The text up to a stop, which is not taken. At least one token must come before it. -/
def textUpTo (stops : List TokenKind) (what : String) : Parser String := do
  let s ← get
  match Balanced.upTo stops 0 none s.ahead with
  | .stopped [] _ => fail s.current (.expected (.text what) s.current)
  | .stopped taken rest =>
    set { s with ahead := rest }
    return (← read).textOf taken
  | .endOfInput =>
    set { s with ahead := [] }
    fail s.last (.endOfInputIn what)
  | .unbalanced found rest =>
    set { s with ahead := found :: rest }
    fail found (.unbalanced found what)

end Parser

/-- The tokens up to the square bracket that closes the outermost of `depth + 1` open ones, and
those after it. -/
def closeBracket (depth : Nat) : List Token → Option (List Token × List Token)
  | [] => none
  | t :: rest =>
    let after := match t.kind with
      | .leftBracket => closeBracket (depth + 1) rest
      | .rightBracket => if depth == 0 then some ([], rest) else closeBracket (depth - 1) rest
      | _ => closeBracket depth rest
    after.map fun (taken, rest) => (t :: taken, rest)

namespace Parser

/-- The text of an attribute, whatever it says. -/
def verbatimAttribute : Parser String := do
  let first ← expect .pound
  let opening ← expect .leftBracket
  let s ← get
  match closeBracket 0 s.ahead with
  | some (taken, rest) =>
    set { s with ahead := rest }
    return (← read).textOf (first :: opening :: taken)
  | none =>
    set { s with ahead := [] }
    fail first .unterminatedAttribute

end Parser

end Typestate
