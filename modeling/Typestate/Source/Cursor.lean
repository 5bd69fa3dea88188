import Typestate.Source.Context

/-!
A place in a text that is being read: what is still ahead, and the offset, line and column reached.
-/

namespace Typestate

structure Cursor where
  rest : List Char
  offset : Nat
  line : Nat
  column : Nat
  deriving DecidableEq, Repr

namespace Cursor

/-- The start of a text. -/
def start (text : String) : Cursor := ⟨text.toList, 0, 1, 1⟩

/-- One character further. At the end of the text nothing moves. -/
def advance : Cursor → Cursor
  | ⟨[], offset, line, column⟩ => ⟨[], offset, line, column⟩
  | ⟨c :: rest, offset, line, column⟩ =>
    if c == '\n' then ⟨rest, offset + 1, line + 1, 1⟩ else ⟨rest, offset + 1, line, column + 1⟩

/-- Several characters further. -/
def advanceBy : Nat → Cursor → Cursor
  | 0, c => c
  | n + 1, c => advanceBy n c.advance

theorem rest_advance (c : Cursor) : c.advance.rest = c.rest.drop 1 := by
  unfold advance
  split
  · rfl
  · split <;> rfl

theorem rest_advanceBy (n : Nat) (c : Cursor) : (advanceBy n c).rest = c.rest.drop n := by
  induction n generalizing c with
  | zero => simp [advanceBy]
  | succ n ih => rw [advanceBy, ih, rest_advance, List.drop_drop, Nat.add_comm]

/-- The character at the cursor. -/
def current? (c : Cursor) : Option Char := c.rest.head?

/-- The place of the cursor, with a width. -/
def span (c : Cursor) (length : Nat := 1) : Span := ⟨c.line, c.column, length⟩

end Cursor

end Typestate
