/-!
Control sequences of a terminal, such as those that set a colour: an escape character, an opening
bracket, parameters and a letter. A text that goes elsewhere than to a terminal is shown without them.
-/

namespace Typestate.Text

/-- The character may stand between the bracket and the letter of a control sequence. -/
def isParameter (c : Char) : Bool := c.isDigit || c == ';' || c == '?'

/-- The text after the control sequence at its front. -/
def afterSequence? : List Char → Option (List Char)
  | '\x1b' :: '[' :: rest =>
    match rest.dropWhile isParameter with
    | [] => none
    | c :: behind => if c.isAlpha then some behind else none
  | _ => none

theorem length_afterSequence?_lt {cs behind : List Char} (h : afterSequence? cs = some behind) :
    behind.length < cs.length := by
  unfold afterSequence? at h
  split at h
  · rename_i rest
    have hle := (List.dropWhile_suffix (l := rest) isParameter).length_le
    split at h
    · exact absurd h (by simp)
    · rename_i hd
      simp only [Option.ite_none_right_eq_some, Option.some.injEq] at h
      obtain ⟨_, rfl⟩ := h
      rw [hd] at hle
      simp only [List.length_cons] at hle ⊢
      omega
  · exact absurd h (by simp)

/-- The text without its control sequences. -/
def withoutSequences (cs : List Char) : List Char :=
  match cs with
  | [] => []
  | c :: rest =>
    match _h : afterSequence? (c :: rest) with
    | some behind => withoutSequences behind
    | none => c :: withoutSequences rest
termination_by cs.length
decreasing_by
  · exact length_afterSequence?_lt _h
  · simp

end Typestate.Text
