import Typestate.Proofs.Text.Squeeze
import Typestate.Proofs.Token.Piece
import Typestate.Proofs.Token.Written

/-!
What the texts of lexemes look like, and what single spaces for blanks make of them. A word, a number or
punctuation has no blank. A block comment stays one (`EndsComment.squeeze`). A string that is changed is
no string any more, or one with another value (`stringBody_squeeze`).
-/

namespace Typestate

open Text (isBlank squeeze endsBlank)

namespace Lexeme

/-! ## Shapes -/

/-- What the text of a lexeme looks like, and what it is read as. -/
inductive Shape : List Char → Option Content → Prop
  | line {rest : List Char} (hrest : '\n' ∉ rest) :
    Shape ('/' :: '/' :: rest)
      (if isDocLine ('/' :: '/' :: rest) then some (.doc, dropReturns (rest.drop 1)) else none)
  | block {inner body : List Char} (hbody : commentBody 0 inner = some (body, [])) :
    Shape ('/' :: '*' :: inner)
      (if isDocBlock ('/' :: '*' :: inner) then some (.doc, body.drop 1) else none)
  | string {inner value : List Char} (hvalue : stringBody false inner = .closed value []) :
    Shape ('"' :: inner) (some (.string, value))
  | plain {text : List Char} {content : Content} (htext : ∀ c ∈ text, isBlank c = false)
    (hslash : text.head? ≠ some '/') : Shape text (some content)

section
variable {c : Char} {more : List Char} {token : Option Content}

/-- Nothing is left behind a lexeme that is the whole text. -/
theorem eq_nil_of_whole {rest : List Char} (hsuffix : rest <:+ more)
    (h : (c :: more).length - rest.length - 1 = more.length) : rest = [] := by
  have hlength := hsuffix.length_le
  rw [List.length_cons] at h
  exact List.eq_nil_of_length_eq_zero (by omega)

theorem shape_slashes {rest : List Char} (h : slashes ('/' :: '/' :: rest) = ⟨token, ('/' :: rest).length⟩) :
    Shape ('/' :: '/' :: rest) token := by
  have hsame : ('/' :: '/' :: lineComment rest).length - 1 = ('/' :: rest).length := by
    have hmore := congrArg Lexeme.more h
    unfold slashes at hmore
    split at hmore <;> exact hmore
  have hrest : lineComment rest = rest :=
    (List.takeWhile_prefix _).eq_of_length (by simpa [lineComment] using hsame)
  have hnewline : '\n' ∉ rest := by
    intro hmem
    rw [← hrest] at hmem
    exact absurd (List.mem_takeWhile_imp (p := (· != '\n')) hmem) (by decide)
  have htoken : (slashes ('/' :: '/' :: rest)).token = token := congrArg Lexeme.token h
  have hslashes : (slashes ('/' :: '/' :: rest)).token =
      if isDocLine ('/' :: '/' :: rest) then some (.doc, dropReturns (rest.drop 1)) else none := by
    have hall : lineComment ('/' :: '/' :: rest) = '/' :: '/' :: rest := by
      change '/' :: '/' :: lineComment rest = _
      rw [hrest]
    unfold slashes
    rw [hall]
    split <;> rfl
  rw [← htoken, hslashes]
  exact .line hnewline

theorem shape_slashStar {inner : List Char}
    (h : slashStar ('/' :: '*' :: inner) = .ok ⟨token, ('*' :: inner).length⟩) :
    Shape ('/' :: '*' :: inner) token := by
  unfold slashStar blockComment at h
  simp only [List.drop] at h
  cases hbody : commentBody 0 inner with
  | none =>
    rw [hbody] at h
    cases h
  | some found =>
    obtain ⟨body, rest⟩ := found
    rw [hbody] at h
    obtain ⟨inner', hinner, -, -⟩ := commentBody_local hbody
    obtain ⟨htoken, hmore⟩ := Lexeme.mk.inj (Except.ok.inj h)
    have hsuffix : rest <:+ inner := hinner ▸ List.suffix_append inner' rest
    rw [eq_nil_of_whole (hsuffix.trans (List.suffix_cons '*' inner)) hmore] at hbody
    rw [← htoken]
    exact .block hbody

theorem shape_slash (h : first '/' more = .ok ⟨token, more.length⟩) : Shape ('/' :: more) token := by
  rw [first_slash] at h
  split at h
  · next hline =>
    obtain ⟨rest, rfl⟩ := List.head?_eq_some_iff.mp hline
    exact shape_slashes (Except.ok.inj h)
  · split at h
    · next hblock =>
      obtain ⟨inner, rfl⟩ := List.head?_eq_some_iff.mp hblock
      exact shape_slashStar h
    · cases h

/-- What is read from a quote on is a string that ends with the text. -/
theorem exists_stringBody_of_first (h : first '"' more = .ok ⟨token, more.length⟩) :
    ∃ value, stringBody false more = .closed value [] ∧ token = some (.string, value) := by
  rw [first_quote] at h
  unfold quote stringLiteral at h
  simp only [List.drop] at h
  cases hbody : stringBody false more with
  | unterminated =>
    rw [hbody] at h
    cases h
  | unknownEscape e rest =>
    rw [hbody] at h
    cases h
  | closed value rest =>
    rw [hbody] at h
    obtain ⟨inner, hinner, hne, -⟩ := stringBody_local hbody
    obtain ⟨htoken, hmore⟩ := Lexeme.mk.inj (Except.ok.inj h)
    have hsuffix : rest <:+ more := hinner ▸ List.suffix_append inner rest
    exact ⟨value, by rw [eq_nil_of_whole hsuffix hmore], htoken.symm⟩

theorem shape_quote (h : first '"' more = .ok ⟨token, more.length⟩) : Shape ('"' :: more) token := by
  obtain ⟨value, hbody, rfl⟩ := exists_stringBody_of_first h
  exact .string hbody

/-- **Shapes.** A text that is one lexeme has the shape of its token. -/
theorem shape_of_first (h : first c more = .ok ⟨token, more.length⟩) : Shape (c :: more) token := by
  by_cases hslash : c = '/'
  · subst hslash
    exact shape_slash h
  by_cases hquote : c = '"'
  · subst hquote
    exact shape_quote h
  obtain ⟨kind, text, hplain, hprefix, hwritten⟩ := written_of_first h hslash hquote
  obtain ⟨rfl, hmore⟩ := Lexeme.mk.inj hplain
  have hall : text = c :: more := by
    have hpos := List.length_pos_of_ne_nil hwritten.ne_nil
    refine hprefix.eq_of_length ?_
    rw [List.length_cons]
    omega
  rw [← hall]
  refine .plain hwritten.not_blank fun hhead => ?_
  rw [hall] at hhead
  exact hslash (Option.some.inj hhead)

end

/-! ## Comments -/

/-- The inside of a comment is its text without the end. -/
theorem commentBody_append {depth : Nat} {cs body rest : List Char}
    (h : commentBody depth cs = some (body, rest)) : cs = body ++ '*' :: '/' :: rest := by
  induction cs generalizing depth body with
  | nil => cases h
  | cons c cs ih =>
    have hgo : ∀ {depth' : Nat}, (commentBody depth' cs).map (prepend c) = some (body, rest) →
        c :: cs = body ++ '*' :: '/' :: rest := by
      intro depth' h
      obtain ⟨⟨body', rest'⟩, hbody, heq⟩ := Option.map_eq_some_iff.mp h
      cases heq
      rw [ih hbody, List.cons_append]
    unfold commentBody at h
    split at h
    · exact hgo h
    · split at h
      · next hclose =>
        split at h
        · cases h
          obtain ⟨hstar, hslash⟩ := Bool.and_eq_true_iff.mp hclose
          obtain ⟨rest, rfl⟩ := List.head?_eq_some_iff.mp (beq_iff_eq.mp hslash)
          rw [beq_iff_eq.mp hstar]
          rfl
        · exact hgo h
      · exact hgo h

theorem commentBody_other {depth : Nat} {c : Char} {cs : List Char} (hslash : c ≠ '/') (hstar : c ≠ '*') :
    commentBody depth (c :: cs) = (commentBody depth cs).map (prepend c) := by
  rw [commentBody, if_neg (by simp [hslash]), if_neg (by simp [hstar])]

/-- The inside of a comment ends with the text. -/
def EndsComment (depth : Nat) (cs : List Char) : Prop := ∃ body, commentBody depth cs = some (body, [])

theorem endsComment_iff_of_map {depth deeper : Nat} {c : Char} {cs : List Char}
    (h : commentBody depth (c :: cs) = (commentBody deeper cs).map (prepend c)) :
    EndsComment depth (c :: cs) ↔ EndsComment deeper cs := by
  unfold EndsComment
  rw [h]
  constructor
  · rintro ⟨body, hbody⟩
    obtain ⟨⟨body', rest⟩, hfound, heq⟩ := Option.map_eq_some_iff.mp hbody
    cases heq
    exact ⟨body', hfound⟩
  · rintro ⟨body, hbody⟩
    exact ⟨c :: body, by rw [hbody]; rfl⟩

/-- One step in a comment. -/
theorem endsComment_cons_iff {depth : Nat} {c : Char} {cs : List Char} : EndsComment depth (c :: cs) ↔
    if c = '/' ∧ cs.head? = some '*' then EndsComment (depth + 1) cs
    else if c = '*' ∧ cs.head? = some '/' then if depth = 0 then cs = ['/'] else EndsComment (depth - 1) cs
    else EndsComment depth cs := by
  have hstep : commentBody depth (c :: cs) =
      if c = '/' ∧ cs.head? = some '*' then (commentBody (depth + 1) cs).map (prepend c)
      else if c = '*' ∧ cs.head? = some '/' then
        if depth = 0 then some ([], cs.tail) else (commentBody (depth - 1) cs).map (prepend c)
      else (commentBody depth cs).map (prepend c) := by
    simp only [commentBody, Bool.and_eq_true, beq_iff_eq]
  split
  · next hopen =>
    rw [if_pos hopen] at hstep
    exact endsComment_iff_of_map hstep
  · next hopen =>
    rw [if_neg hopen] at hstep
    split
    · next hclose =>
      rw [if_pos hclose] at hstep
      split
      · next hdepth =>
        rw [if_pos hdepth] at hstep
        obtain ⟨rest, rfl⟩ := List.head?_eq_some_iff.mp hclose.2
        simp [EndsComment, hstep]
      · next hdepth =>
        rw [if_neg hdepth] at hstep
        exact endsComment_iff_of_map hstep
    · next hclose =>
      rw [if_neg hclose] at hstep
      exact endsComment_iff_of_map hstep

/-- A comment is one with single spaces, too. -/
theorem EndsComment.squeeze {depth : Nat} {inner : List Char} (h : EndsComment depth inner) (pending : Bool) :
    EndsComment depth (squeeze pending inner) := by
  induction inner generalizing depth pending with
  | nil =>
    obtain ⟨_, ⟨⟩⟩ := h
  | cons c cs ih =>
    cases hc : isBlank c with
    | true =>
      have hslash : c ≠ '/' := by rintro rfl; cases hc
      have hstar : c ≠ '*' := by rintro rfl; cases hc
      rw [Text.squeeze_blank hc]
      exact ih ((endsComment_iff_of_map (commentBody_other hslash hstar)).mp h) true
    | false =>
      have hword : EndsComment depth (Text.squeeze false (c :: cs)) := by
        have hstar := @Text.head?_squeeze_iff cs '*' (by decide)
        have hslash := @Text.head?_squeeze_iff cs '/' (by decide)
        rw [endsComment_cons_iff] at h
        simp only [Text.squeeze_cons hc, endsComment_cons_iff, hstar, hslash]
        split_ifs at h ⊢
        · exact ih h false
        · rw [h]
          rfl
        · exact ih h false
        · exact ih h false
      cases pending with
      | false => exact hword
      | true =>
        -- A space in front is taken into the comment.
        rw [Text.squeeze_head hc, if_pos rfl, List.singleton_append]
        exact (endsComment_iff_of_map (commentBody_other (by decide) (by decide))).mpr hword

theorem isDocBlock_star (inner : List Char) : isDocBlock ('/' :: '*' :: '*' :: inner) =
    !(inner.head? == some '*' || inner.head? == some '/') := by
  cases inner with
  | nil => rfl
  | cons c inner =>
    by_cases hstar : c = '*'
    · subst hstar
      rfl
    · by_cases hslash : c = '/'
      · subst hslash
        rfl
      · simp [isDocBlock, hstar, hslash]

theorem isDocBlock_other {inner : List Char} (h : inner.head? ≠ some '*') :
    isDocBlock ('/' :: '*' :: inner) = false := by
  cases inner with
  | nil => rfl
  | cons c inner =>
    have hc : c ≠ '*' := fun hc => h (congrArg some hc)
    simp [isDocBlock, hc]

/-- A comment is documentation with single spaces if it is so without. -/
theorem isDocBlock_squeeze (inner : List Char) :
    isDocBlock ('/' :: '*' :: squeeze false inner) = isDocBlock ('/' :: '*' :: inner) := by
  by_cases hstar : inner.head? = some '*'
  · obtain ⟨rest, rfl⟩ := List.head?_eq_some_iff.mp hstar
    rw [Text.squeeze_cons (by decide), isDocBlock_star, isDocBlock_star, Bool.eq_iff_iff]
    simp [Text.head?_squeeze_iff (show isBlank '*' = false by decide),
      Text.head?_squeeze_iff (show isBlank '/' = false by decide)]
  · rw [isDocBlock_other hstar, isDocBlock_other]
    rwa [ne_eq, Text.head?_squeeze_iff (by decide)]

/-! ## Strings -/

/-- The inside of a string ends with a quote. -/
theorem stringBody_append {skipping : Bool} {cs value rest : List Char}
    (h : stringBody skipping cs = .closed value rest) : ∃ inner, cs = inner ++ '"' :: rest := by
  fun_induction stringBody skipping cs generalizing value with
  | case1 => cases h
  | case2 skipping c cs hskip ih =>
    obtain ⟨inner, rfl⟩ := ih h
    exact ⟨c :: inner, rfl⟩
  | case3 skipping c cs hskip hquote =>
    cases h
    rw [beq_iff_eq.mp hquote]
    exact ⟨[], rfl⟩
  | case4 => cases h
  | case5 skipping c _ _ hslash e cs hnewline ih =>
    obtain ⟨inner, rfl⟩ := ih h
    exact ⟨c :: e :: inner, rfl⟩
  | case6 skipping c _ _ hslash e cs hnewline v hv ih =>
    obtain ⟨value', hrest, rfl⟩ := stringEnd_of_prepend h
    obtain ⟨inner, rfl⟩ := ih hrest
    exact ⟨c :: e :: inner, rfl⟩
  | case7 => cases h
  | case8 skipping c cs hskip hquote hslash ih =>
    obtain ⟨value', hrest, rfl⟩ := stringEnd_of_prepend h
    obtain ⟨inner, rfl⟩ := ih hrest
    exact ⟨c :: inner, rfl⟩

/-- What comes of the inside of a string by single spaces: its value, if it is read at all, does not get
longer, and stays the same only if the text does. -/
structure Squeezed (inner value squeezed value' : List Char) : Prop where
  length : value'.length ≤ value.length
  eq : value' = value → squeezed = inner

/-- With single spaces the inside of a string that is closed is one with another value, or none. -/
def Squeezes (inner value : List Char) : Prop :=
  ∀ rest value' rest', stringBody false (squeeze false inner ++ rest) = .closed value' rest' →
    Squeezed inner value (squeeze false inner) value'

/-- Behind a blank, the space that is pending is a character of the value. -/
def SqueezesPending (inner value : List Char) : Prop :=
  ∀ rest value' rest', stringBody false (squeeze true inner ++ rest) = .closed value' rest' →
    ∃ value'', value' = ' ' :: value'' ∧ value''.length ≤ value.length ∧
      (value'' = value → squeeze true inner = ' ' :: inner)

section
variable {c : Char} {cs value : List Char}

/-- A blank makes a space pending, and only a single one stays as it is. -/
theorem squeezes_blank (hc : isBlank c = true) (h : SqueezesPending cs value) :
    Squeezes (c :: cs) (c :: value) ∧ SqueezesPending (c :: cs) (c :: value) := by
  unfold Squeezes SqueezesPending
  rw [Text.squeeze_blank hc, Text.squeeze_blank hc]
  refine ⟨fun rest value' rest' hread => ?_, fun rest value' rest' hread => ?_⟩
  · obtain ⟨value'', rfl, hlength, heq⟩ := h rest value' rest' hread
    refine ⟨Nat.succ_le_succ hlength, fun hsame => ?_⟩
    obtain ⟨rfl, hrest⟩ := List.cons.inj hsame
    exact heq hrest
  · obtain ⟨value'', rfl, hlength, -⟩ := h rest value' rest' hread
    refine ⟨value'', rfl, Nat.le_succ_of_le hlength, ?_⟩
    rintro rfl
    exact absurd hlength (Nat.not_succ_le_self _)

theorem Squeezes.pending (hc : isBlank c = false) (h : Squeezes (c :: cs) value) :
    SqueezesPending (c :: cs) value := by
  intro rest value' rest' hread
  have hspace : stringBody false (' ' :: (squeeze false (c :: cs) ++ rest)) =
      (stringBody false (squeeze false (c :: cs) ++ rest)).prepend ' ' :=
    stringBody_char rfl (by decide) (by decide)
  rw [Text.squeeze_head hc, if_pos rfl, List.singleton_append, List.cons_append, hspace] at hread
  obtain ⟨value'', hrest, rfl⟩ := stringEnd_of_prepend hread
  obtain ⟨hlength, heq⟩ := h rest value'' rest' hrest
  refine ⟨value'', rfl, hlength, fun hsame => ?_⟩
  rw [Text.squeeze_head hc, if_pos rfl, List.singleton_append, heq hsame]

/-- A character that stays is read before and after as itself. -/
theorem Squeezes.char (hc : isBlank c = false) (hquote : c ≠ '"') (hslash : c ≠ '\\') (h : Squeezes cs value) :
    Squeezes (c :: cs) (c :: value) := by
  intro rest value' rest' hread
  rw [Text.squeeze_cons hc, List.cons_append, stringBody_char rfl hquote hslash] at hread
  rw [Text.squeeze_cons hc]
  obtain ⟨value'', hrest, rfl⟩ := stringEnd_of_prepend hread
  obtain ⟨hlength, heq⟩ := h _ _ _ hrest
  refine ⟨Nat.succ_le_succ hlength, fun hsame => ?_⟩
  rw [heq (List.cons.inj hsame).2]

/-- An escape stays one, unless it is that of a line feed: then the backslash stands in front of a space, and nothing
is read any more. -/
theorem squeezes_escape {e : Char} (h : stringBody false ('\\' :: e :: cs) = .closed value [])
    (hbehind : ∀ {value}, stringBody false cs = .closed value [] → Squeezes cs value) :
    Squeezes ('\\' :: e :: cs) value := by
  intro rest value' rest' hread
  have hbackslash : isBlank '\\' = false := by decide
  rw [Text.squeeze_cons hbackslash, List.cons_append] at hread
  rw [Text.squeeze_cons hbackslash]
  by_cases hnewline : e = '\n'
  · subst hnewline
    rw [stringBody_continued] at h
    obtain ⟨init, rfl⟩ := stringBody_append h
    obtain ⟨d, ds, hds⟩ := List.exists_cons_of_ne_nil
      (show squeeze true (init ++ ['"']) ≠ [] from Text.squeeze_concat_ne_nil (by decide))
    obtain rfl : d = ' ' := Text.head?_squeeze_true _ d (by rw [hds]; rfl)
    rw [Text.squeeze_blank (by decide), hds, List.cons_append, stringBody_unknown (by decide) rfl] at hread
    cases hread
  · cases hv : unescape e with
    | none =>
      rw [stringBody_unknown hnewline hv] at h
      cases h
    | some v =>
      have he : isBlank e = false := by
        unfold unescape at hv
        split at hv <;> first | decide | cases hv
      rw [stringBody_escape hv] at h
      obtain ⟨w, hafter, rfl⟩ := stringEnd_of_prepend h
      rw [Text.squeeze_cons he, List.cons_append, stringBody_escape hv] at hread
      obtain ⟨w', hrest, rfl⟩ := stringEnd_of_prepend hread
      obtain ⟨hlength, heq⟩ := hbehind hafter _ _ _ hrest
      refine ⟨Nat.succ_le_succ hlength, fun hsame => ?_⟩
      rw [Text.squeeze_cons he, heq (List.cons.inj hsame).2]

end

/-- A string is changed into one with another value, or into none. -/
theorem stringBody_squeeze {inner value : List Char} (h : stringBody false inner = .closed value []) :
    Squeezes inner value := by
  suffices hboth : Squeezes inner value ∧ SqueezesPending inner value from hboth.1
  induction hn : inner.length using Nat.strongRecOn generalizing inner value with
  | ind n ih =>
    subst hn
    cases inner with
    | nil => cases h
    | cons c cs =>
      have hbehind : ∀ {value}, stringBody false cs = .closed value [] → Squeezes cs value ∧ SqueezesPending cs value :=
        fun hcs => ih cs.length (Nat.lt_succ_self _) hcs rfl
      cases hc : isBlank c with
      | true =>
        have hquote : c ≠ '"' := by rintro rfl; cases hc
        have hslash : c ≠ '\\' := by rintro rfl; cases hc
        rw [stringBody_char rfl hquote hslash] at h
        obtain ⟨v, hcs, rfl⟩ := stringEnd_of_prepend h
        exact squeezes_blank hc (hbehind hcs).2
      | false =>
        suffices hword : Squeezes (c :: cs) value from ⟨hword, hword.pending hc⟩
        by_cases hquote : c = '"'
        · subst hquote
          intro rest value' rest' hread
          rw [Text.squeeze_cons hc, List.cons_append, stringBody_quote] at hread
          rw [stringBody_quote] at h
          cases h
          cases hread
          exact ⟨Nat.le_refl 0, fun _ => rfl⟩
        by_cases hslash : c = '\\'
        · subst hslash
          cases cs with
          | nil => cases h
          | cons e after =>
            exact squeezes_escape h fun hafter => (ih after.length (Nat.lt_succ_of_lt (Nat.lt_succ_self _)) hafter rfl).1
        · rw [stringBody_char rfl hquote hslash] at h
          obtain ⟨w, hcs, rfl⟩ := stringEnd_of_prepend h
          exact (hbehind hcs).1.char hc hquote hslash

end Lexeme

end Typestate
