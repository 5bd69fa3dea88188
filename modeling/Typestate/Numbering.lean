/-!
The least number from a start on that is free. The search is given as many steps as there are
names that could be in the way, so when the steps run out the number it stands at is free as well.
-/

namespace Typestate

/-- The first free number from `n` on, after at most `steps` that are not. -/
def firstFree (free : Nat → Bool) : (steps : Nat) → (n : Nat) → Nat
  | 0, n => n
  | steps + 1, n => if free n then n else firstFree free steps (n + 1)

end Typestate
