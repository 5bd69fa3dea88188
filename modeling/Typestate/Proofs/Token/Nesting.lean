import Typestate.Proofs.Token.Shape
import Typestate.Token.Lexer

/-!
Where a block comment ends. Comments nest, and a delimiter is two characters, neither of which belongs to
another delimiter. The lexer takes only the first character of a delimiter inside a comment, so it sees
another one in `/*/` and in `*/*`. Both levels are kept side by side here: it ends a comment where the
comment ends exactly if they reach zero at the same delimiter (`Lexer.blockEnd_eq_iff`), as they do in a
text in which no two delimiters overlap (`inStep_of_separate`).
-/

namespace Typestate

namespace Lexeme

/-! ## Nested comments -/

/-- The text behind a block comment whose opening has been read, inside `depth` further comments. Every
delimiter is two characters, and the comment ends with the one that closes it. -/
def nestedEnd (depth : Nat) : List Char → Option (List Char)
  | [] => none
  | '/' :: '*' :: rest => nestedEnd (depth + 1) rest
  | '*' :: '/' :: rest => match depth with
    | 0 => some rest
    | depth + 1 => nestedEnd depth rest
  | _ :: rest => nestedEnd depth rest

/-- There are two levels that reach zero at the same closing of a comment: `depth`, to which every opening
adds and from which every closing takes, and `level`, for which an opening directly in front of a slash
and a closing directly in front of a star count for nothing. -/
def inStep (depth level : Nat) : List Char → Bool
  | [] => true
  | '/' :: '*' :: rest =>
    inStep (depth + 1) (if rest.head? = some '/' then level else level + 1) rest
  | '*' :: '/' :: rest => match depth, level with
    | 0, 0 => true
    | depth + 1, level + 1 =>
      inStep depth (if rest.head? = some '*' then level + 1 else level) rest
    | _, _ => false
  | _ :: rest => inStep depth level rest

theorem length_of_nestedEnd {depth : Nat} {cs rest : List Char} (h : nestedEnd depth cs = some rest) :
    rest.length < cs.length := by
  fun_induction nestedEnd depth cs with
  | case1 => cases h
  | case2 depth cs ih =>
    have hrest := ih h
    simp only [List.length_cons]
    omega
  | case3 cs =>
    cases h
    simp only [List.length_cons]
    omega
  | case4 cs depth ih =>
    have hrest := ih h
    simp only [List.length_cons]
    omega
  | case5 depth c cs _ _ ih =>
    have hrest := ih h
    simp only [List.length_cons]
    omega

/-! ## The level of the lexer -/

/-- Where the inside of a comment ends, whatever it says. -/
def bodyEnd (level : Nat) (cs : List Char) : Option (List Char) := (commentBody level cs).map Prod.snd

theorem map_snd_prepend (c : Char) (found : Option (List Char × List Char)) :
    (found.map (prepend c)).map Prod.snd = found.map Prod.snd := by
  rw [Option.map_map]
  rfl

theorem bodyEnd_other {level : Nat} {c : Char} {cs : List Char}
    (hopen : ¬(c = '/' ∧ cs.head? = some '*')) (hclose : ¬(c = '*' ∧ cs.head? = some '/')) :
    bodyEnd level (c :: cs) = bodyEnd level cs := by
  rw [bodyEnd, commentBody, if_neg (by simpa using hopen), if_neg (by simpa using hclose),
    map_snd_prepend, bodyEnd]

theorem bodyEnd_slash {level : Nat} {cs : List Char} (h : cs.head? = some '*') :
    bodyEnd level ('/' :: cs) = bodyEnd (level + 1) cs := by
  rw [bodyEnd, commentBody, if_pos (by simp [h]), map_snd_prepend, bodyEnd]

theorem bodyEnd_star {level : Nat} {cs : List Char} (h : cs.head? = some '/') :
    bodyEnd (level + 1) ('*' :: cs) = bodyEnd level cs := by
  rw [bodyEnd, commentBody, if_neg (by simp), if_pos (by simp [h]), if_neg (by simp),
    map_snd_prepend, bodyEnd, Nat.add_sub_cancel]

/-- The star of an opening closes again in front of a slash. -/
theorem bodyEnd_opening (level : Nat) (rest : List Char) : bodyEnd level ('/' :: '*' :: rest) =
    bodyEnd (if rest.head? = some '/' then level else level + 1) rest := by
  rw [bodyEnd_slash rfl]
  split
  · next hslash => exact bodyEnd_star hslash
  · next hslash => exact bodyEnd_other (by simp) (by simp [hslash])

/-- The slash of a closing opens again in front of a star. -/
theorem bodyEnd_closing (level : Nat) (rest : List Char) : bodyEnd (level + 1) ('*' :: '/' :: rest) =
    bodyEnd (if rest.head? = some '*' then level + 1 else level) rest := by
  rw [bodyEnd_star rfl]
  split
  · next hstar => exact bodyEnd_slash hstar
  · next hstar => exact bodyEnd_other (by simp [hstar]) (by simp)

theorem bodyEnd_last (rest : List Char) : bodyEnd 0 ('*' :: '/' :: rest) = some rest := rfl

theorem length_of_bodyEnd {level : Nat} {cs rest : List Char} (h : bodyEnd level cs = some rest) :
    rest.length < cs.length := by
  obtain ⟨⟨body, rest'⟩, hbody, rfl⟩ := Option.map_eq_some_iff.mp h
  rw [commentBody_append hbody]
  simp only [List.length_append, List.length_cons]
  omega

/-- The lexer finds the end of a comment exactly if its level is in step with the depth. -/
theorem bodyEnd_eq_nestedEnd_iff (depth level : Nat) (cs : List Char) :
    bodyEnd level cs = nestedEnd depth cs ↔ inStep depth level cs = true := by
  fun_induction inStep depth level cs with
  | case1 => exact ⟨fun _ => rfl, fun _ => rfl⟩
  | case2 depth level rest ih => rw [bodyEnd_opening, nestedEnd, ih]
  | case3 rest => exact ⟨fun _ => rfl, fun _ => rfl⟩
  | case4 rest depth level ih => rw [bodyEnd_closing, nestedEnd, ih]
  | case5 depth level rest hboth hneither =>
    -- One of the two ends here, and the other only behind it.
    refine ⟨fun h => ?_, nofun⟩
    rcases depth with _ | depth <;> rcases level with _ | level
    · exact absurd rfl (hboth rfl)
    · have hlater := length_of_bodyEnd ((bodyEnd_closing level rest).symm.trans h)
      omega
    · have hnested : nestedEnd depth rest = some rest := h.symm.trans (bodyEnd_last rest)
      have hlater := length_of_nestedEnd hnested
      omega
    · exact absurd rfl (hneither _ _ rfl)
  | case6 depth level c rest hopen hclose ih =>
    have hnotOpen : ¬(c = '/' ∧ rest.head? = some '*') := by
      rintro ⟨rfl, hhead⟩
      obtain ⟨rest, rfl⟩ := List.head?_eq_some_iff.mp hhead
      exact hopen rest rfl rfl
    have hnotClose : ¬(c = '*' ∧ rest.head? = some '/') := by
      rintro ⟨rfl, hhead⟩
      obtain ⟨rest, rfl⟩ := List.head?_eq_some_iff.mp hhead
      exact hclose rest rfl rfl
    rw [bodyEnd_other hnotOpen hnotClose, nestedEnd, ih]
    · exact hopen
    · exact hclose

/-- In a text in which no two delimiters overlap, levels that are the same stay the same. -/
theorem inStep_of_separate {depth level : Nat} {cs : List Char} (hopen : ¬['/', '*', '/'] <:+: cs)
    (hclose : ¬['*', '/', '*'] <:+: cs) (hlevel : depth = level) : inStep depth level cs = true := by
  fun_induction inStep depth level cs with
  | case1 => rfl
  | case2 depth level rest ih =>
    have hslash : rest.head? ≠ some '/' := by
      intro hhead
      obtain ⟨rest, rfl⟩ := List.head?_eq_some_iff.mp hhead
      exact hopen ⟨[], rest, rfl⟩
    have hinner : rest <:+: '/' :: '*' :: rest := (List.suffix_append ['/', '*'] rest).isInfix
    exact ih (fun h => hopen (h.trans hinner)) (fun h => hclose (h.trans hinner))
      (by rw [if_neg hslash, hlevel])
  | case3 rest => rfl
  | case4 rest depth level ih =>
    have hstar : rest.head? ≠ some '*' := by
      intro hhead
      obtain ⟨rest, rfl⟩ := List.head?_eq_some_iff.mp hhead
      exact hclose ⟨[], rest, rfl⟩
    have hinner : rest <:+: '*' :: '/' :: rest := (List.suffix_append ['*', '/'] rest).isInfix
    exact ih (fun h => hopen (h.trans hinner)) (fun h => hclose (h.trans hinner))
      (by rw [if_neg hstar]; omega)
  | case5 depth level rest hboth hneither =>
    subst hlevel
    rcases depth with _ | depth
    · exact absurd rfl (hboth rfl)
    · exact absurd rfl (hneither _ _ rfl)
  | case6 depth level c rest _ _ ih =>
    have hinner : rest <:+: c :: rest := (List.suffix_cons c rest).isInfix
    exact ih (fun h => hopen (h.trans hinner)) (fun h => hclose (h.trans hinner)) hlevel

end Lexeme

open Lexeme (nestedEnd inStep bodyEnd)

namespace Lexer

/-- The text behind the block comment at the cursor as the lexer reads it, unless it reports the comment
as unterminated. -/
def blockEnd (l : Lexer) : Option (List Char) :=
  match l.readBlock with
  | (.ok _, after) => some after.cursor.rest
  | (.error _, _) => none

theorem blockEnd_eq (l : Lexer) : l.blockEnd = bodyEnd 0 (l.cursor.rest.drop 2) := by
  unfold blockEnd readBlock read Lexeme.blockComment bodyEnd
  cases hbody : Lexeme.commentBody 0 (l.cursor.rest.drop 2) with
  | none => rfl
  | some found =>
    obtain ⟨body, rest⟩ := found
    have hsuffix : rest <:+ l.cursor.rest := by
      refine List.IsSuffix.trans ?_ (List.drop_suffix 2 l.cursor.rest)
      exact ⟨body ++ ['*', '/'], by rw [Lexeme.commentBody_append hbody]; simp⟩
    show some (l.cursor.advanceBy (l.cursor.rest.length - rest.length)).rest = some rest
    rw [Cursor.rest_advanceBy, ← List.suffix_iff_eq_drop.mp hsuffix]

/-- A comment in which no two delimiters overlap ends where it should. -/
theorem blockEnd_of_separate {l : Lexer} (hopen : ¬['/', '*', '/'] <:+: l.cursor.rest.drop 2)
    (hclose : ¬['*', '/', '*'] <:+: l.cursor.rest.drop 2) :
    l.blockEnd = nestedEnd 0 (l.cursor.rest.drop 2) := by
  rw [blockEnd_eq, Lexeme.bodyEnd_eq_nestedEnd_iff]
  exact Lexeme.inStep_of_separate hopen hclose rfl

/-- **Nesting.** At every place of every text, the comment whose opening is at the cursor ends for the
lexer where it ends, or is reported as unterminated if it does not, exactly if the level of the lexer is in
step with the depth of the comment. Nothing else is ever reported. -/
theorem blockEnd_eq_iff (l : Lexer) :
    (l.blockEnd = nestedEnd 0 (l.cursor.rest.drop 2) ↔
      inStep 0 0 (l.cursor.rest.drop 2) = true) ∧
    ∀ e, l.readBlock.1 = .error e → e.cause = .unterminatedComment := by
  constructor
  · rw [blockEnd_eq]
    exact Lexeme.bodyEnd_eq_nestedEnd_iff 0 0 _
  · intro e he
    unfold readBlock read Lexeme.blockComment at he
    cases hbody : Lexeme.commentBody 0 (l.cursor.rest.drop 2) with
    | none =>
      rw [hbody] at he
      cases he
      rfl
    | some found =>
      rw [hbody] at he
      cases he

end Lexer

/-- A comment with an opening directly in front of a slash, and one with a closing directly in front of a
star. -/
def slashedComment : Source := { text := "/* /*/ */ */ A" }

def starredComment : Source := { text := "/* /* */* */ A" }

/-- The lexer leaves the first comment too early, and does not find the end of the second. -/
theorem overlapping_blockEnd :
    (Lexer.ofSource slashedComment).blockEnd = some " */ A".toList ∧
    nestedEnd 0 ((Lexer.ofSource slashedComment).cursor.rest.drop 2) = some " A".toList ∧
    (Lexer.ofSource starredComment).blockEnd = none ∧
    nestedEnd 0 ((Lexer.ofSource starredComment).cursor.rest.drop 2) = some " A".toList := by
  decide +kernel

end Typestate
