/-!
Sets of code points, given by their boundaries: an increasing list that names in turn the first
code point inside the set and the first one outside again.
-/

namespace Typestate.Unicode

/-- Membership in a set given by its boundaries: a code point is inside if and only if an odd
number of boundaries are at most it. -/
def inBoundaries : List Nat → Nat → Bool
  | [], _ => false
  | b :: rest, n => if n < b then false else !inBoundaries rest n

end Typestate.Unicode
