import Mathlib.Data.List.Forall2
import Typestate.Proofs.Text.Fields

/-!
Texts whose lines end with a carriage return and a line feed. They have the same words as with line feeds
alone (`normalize_withReturns`), and where all line feeds of a text or some of them get a carriage return, its
lines are the same but for a carriage return at their ends (`Widened.lines`).
-/

namespace Typestate.Text

/-- The text with a carriage return in front of each line feed. -/
def withReturns (cs : List Char) : List Char := cs.flatMap fun c => if c = '\n' then ['\r', '\n'] else [c]

variable {c : Char} {cs ds : List Char}

@[simp] theorem withReturns_nil : withReturns [] = [] := rfl

@[simp] theorem withReturns_newline (cs : List Char) :
    withReturns ('\n' :: cs) = '\r' :: '\n' :: withReturns cs := rfl

theorem withReturns_cons (h : c ≠ '\n') (cs : List Char) : withReturns (c :: cs) = c :: withReturns cs := by
  rw [withReturns, List.flatMap_cons, if_neg h]
  rfl

@[simp] theorem withReturns_append (cs ds : List Char) :
    withReturns (cs ++ ds) = withReturns cs ++ withReturns ds := List.flatMap_append

theorem withReturns_of_not_mem (h : '\n' ∉ cs) : withReturns cs = cs := by
  induction cs with
  | nil => rfl
  | cons c cs ih =>
    obtain ⟨hc, hcs⟩ := not_or.mp (mt List.mem_cons.mpr h)
    rw [withReturns_cons (Ne.symm hc), ih hcs]

/-- A text starts with a character that ends no line if it does so with carriage returns. -/
theorem head?_withReturns_iff (hnewline : c ≠ '\n') (hreturn : c ≠ '\r') :
    (withReturns cs).head? = some c ↔ cs.head? = some c := by
  cases cs with
  | nil => exact Iff.rfl
  | cons d cs =>
    by_cases hd : d = '\n'
    · subst hd
      simp [hnewline.symm, hreturn.symm]
    · rw [withReturns_cons hd, List.head?_cons, List.head?_cons]

/-- Behind such a character the text goes on as it did. -/
theorem tail_withReturns (hnewline : c ≠ '\n') (h : cs.head? = some c) :
    (withReturns cs).tail = withReturns cs.tail := by
  obtain ⟨rest, rfl⟩ := List.head?_eq_some_iff.mp h
  rw [withReturns_cons hnewline]
  rfl

/-- A run of characters that end no line is the same with carriage returns. -/
theorem takeWhile_withReturns {p : Char → Bool} (hnewline : p '\n' = false) (hreturn : p '\r' = false)
    (cs : List Char) : (withReturns cs).takeWhile p = cs.takeWhile p := by
  induction cs with
  | nil => rfl
  | cons c cs ih =>
    by_cases hc : c = '\n'
    · subst hc
      rw [withReturns_newline, List.takeWhile_cons_of_neg (by simp [hreturn]),
        List.takeWhile_cons_of_neg (by simp [hnewline])]
    · rw [withReturns_cons hc, List.takeWhile_cons, List.takeWhile_cons, ih]

/-- Behind a run that takes line ends in, the text is the same with carriage returns. -/
theorem dropWhile_withReturns {p : Char → Bool} (hnewline : p '\n' = true) (hreturn : p '\r' = true)
    (cs : List Char) : (withReturns cs).dropWhile p = withReturns (cs.dropWhile p) := by
  induction cs with
  | nil => rfl
  | cons c cs ih =>
    by_cases hc : c = '\n'
    · subst hc
      rw [withReturns_newline, List.dropWhile_cons_of_pos hreturn, List.dropWhile_cons_of_pos hnewline,
        List.dropWhile_cons_of_pos hnewline, ih]
    · rw [withReturns_cons hc, List.dropWhile_cons, List.dropWhile_cons, ih]
      split
      · rfl
      · rw [withReturns_cons hc]

/-! ## Blanks -/

theorem squeeze_withReturns (pending : Bool) (cs : List Char) :
    squeeze pending (withReturns cs) = squeeze pending cs := by
  induction cs generalizing pending with
  | nil => rfl
  | cons c cs ih =>
    by_cases hnewline : c = '\n'
    · subst hnewline
      rw [withReturns_newline, squeeze_blank (by decide), squeeze_blank (by decide), squeeze_blank (by decide), ih]
    · rw [withReturns_cons hnewline]
      cases hc : isBlank c with
      | true => rw [squeeze_blank hc, squeeze_blank hc, ih]
      | false =>
        cases pending with
        | true => rw [squeeze_pending hc, squeeze_pending hc, ih]
        | false => rw [squeeze_cons hc, squeeze_cons hc, ih]

/-- **Words.** Carriage returns at the ends of lines do not change the words of a text. -/
theorem normalize_withReturns (cs : List Char) : normalize (withReturns cs) = normalize cs := by
  rw [← @normalize_squeeze false (withReturns cs), squeeze_withReturns, normalize_squeeze]

/-! ## Lines -/

/-- Some line feeds of the first text have a carriage return in front of them in the second. -/
inductive Widened : List Char → List Char → Prop
  | nil : Widened [] []
  | keep (c : Char) {cs cs' : List Char} (h : Widened cs cs') : Widened (c :: cs) (c :: cs')
  | newline {cs cs' : List Char} (h : Widened cs cs') : Widened ('\n' :: cs) ('\r' :: '\n' :: cs')

theorem widened_withReturns (cs : List Char) : Widened cs (withReturns cs) := by
  induction cs with
  | nil => exact .nil
  | cons c cs ih =>
    by_cases hnewline : c = '\n'
    · subst hnewline
      exact .newline ih
    · rw [withReturns_cons hnewline]
      exact .keep c ih

/-- The same line, or the line with a carriage return at its end. -/
def Returned (line line' : String) : Prop := line' = line ∨ line' = line ++ "\r"

theorem Returned.refl (line : String) : Returned line line := .inl rfl

theorem Returned.append_left {line line' : String} (h : Returned line line') (front : String) :
    Returned (front ++ line) (front ++ line') := by
  rcases h with rfl | rfl
  · exact .refl _
  · exact .inr String.append_assoc.symm

theorem Widened.fields {cs cs' : List Char} (h : Widened cs cs') :
    List.Forall₂ (fun line line' => line' = line ∨ line' = line ++ ['\r']) (fields '\n' cs) (fields '\n' cs') := by
  induction h with
  | nil => exact .cons (.inl rfl) .nil
  | @keep c cs cs' _ ih =>
    by_cases hnewline : c = '\n'
    · subst hnewline
      exact .cons (.inl rfl) ih
    · rw [Text.fields, Text.fields, if_neg (by simpa using hnewline), if_neg (by simpa using hnewline)]
      generalize Text.fields '\n' cs = lines at ih
      generalize Text.fields '\n' cs' = lines' at ih
      cases ih with
      | nil => exact .cons (.inl rfl) .nil
      | cons hline hlines =>
        refine .cons ?_ hlines
        rcases hline with rfl | rfl
        · exact .inl rfl
        · exact .inr rfl
  | newline _ ih => exact .cons (.inr rfl) ih

/-- **Lines.** The lines of a text with more carriage returns are its lines, some with a carriage return at the end.
-/
theorem Widened.lines {text text' : String} (h : Widened text.toList text'.toList) :
    List.Forall₂ Returned (lines text) (lines text') := by
  unfold Text.lines
  rw [List.forall₂_map_left_iff, List.forall₂_map_right_iff]
  refine h.fields.imp fun line line' hline => ?_
  rcases hline with rfl | rfl
  · exact .refl _
  · exact .inr String.ofList_append

end Typestate.Text
