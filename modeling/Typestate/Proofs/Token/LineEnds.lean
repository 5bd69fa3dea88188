import Typestate.Proofs.Text.LineEnds
import Typestate.Proofs.Token.Behind
import Typestate.Proofs.Token.Cover

/-!
The tokens of a text whose lines end with a carriage return and a line feed. Each token or comment is read as
it is with line feeds alone, but that a line comment takes the carriage return at its end, that carriage
returns come into doc comments and strings, and that no line of a string can end with a backslash
(`Lexeme.first_withReturns`). So the text has tokens exactly if it has some with line feeds alone and no string
goes on that way, and then they correspond (`Source.tokenize_withReturns`).
-/

namespace Typestate

open Text (withReturns Widened)

namespace Lexeme

/-! ## Comments -/

/-- **Comments.** The body of a block comment with carriage returns is that body, with carriage returns. -/
theorem commentBody_withReturns (depth : Nat) (cs : List Char) : commentBody depth (withReturns cs) =
    (commentBody depth cs).map fun found => (withReturns found.1, withReturns found.2) := by
  induction cs generalizing depth with
  | nil => rfl
  | cons c cs ih =>
    by_cases hnewline : c = '\n'
    · subst hnewline
      rw [Text.withReturns_newline, commentBody_other (by decide) (by decide),
        commentBody_other (by decide) (by decide), commentBody_other (by decide) (by decide), ih, Option.map_map,
        Option.map_map, Option.map_map]
      rfl
    · have hgo : ∀ depth', (commentBody depth' (withReturns cs)).map (prepend c) =
          ((commentBody depth' cs).map (prepend c)).map fun found => (withReturns found.1, withReturns found.2) := by
        intro depth'
        rw [ih, Option.map_map, Option.map_map]
        congr 1
        funext found
        exact congrArg (fun cs' => (cs', withReturns found.2)) (Text.withReturns_cons hnewline found.1).symm
      have hhead : ∀ {d : Char}, d ≠ '\n' → d ≠ '\r' →
          ((withReturns cs).head? == some d) = (cs.head? == some d) := by
        intro d hd hd'
        rw [Bool.eq_iff_iff, beq_iff_eq, beq_iff_eq, Text.head?_withReturns_iff hd hd']
      rw [Text.withReturns_cons hnewline, commentBody, commentBody, hhead (by decide) (by decide),
        hhead (by decide) (by decide)]
      split
      · exact hgo _
      · split
        · next hclose =>
          split
          · have hslash : cs.head? = some '/' := beq_iff_eq.mp (Bool.and_eq_true_iff.mp hclose).2
            rw [Text.tail_withReturns (by decide) hslash]
            rfl
          · exact hgo _
        · exact hgo _

theorem isDocBlock_withReturns (inner : List Char) :
    isDocBlock ('/' :: '*' :: withReturns inner) = isDocBlock ('/' :: '*' :: inner) := by
  by_cases hstar : inner.head? = some '*'
  · obtain ⟨rest, rfl⟩ := List.head?_eq_some_iff.mp hstar
    rw [Text.withReturns_cons (by decide), isDocBlock_star, isDocBlock_star, Bool.eq_iff_iff]
    simp [Text.head?_withReturns_iff]
  · rw [isDocBlock_other hstar, isDocBlock_other]
    rwa [ne_eq, Text.head?_withReturns_iff (by decide) (by decide)]

/-- A carriage return at the end of a line does not make it documentation or keep it from being so. -/
theorem isDocLine_concat_return (rest : List Char) :
    isDocLine ('/' :: '/' :: (rest ++ ['\r'])) = isDocLine ('/' :: '/' :: rest) := by
  rcases rest with _ | ⟨c, rest⟩
  · rfl
  · by_cases hc : c = '/'
    · subst hc
      rw [List.cons_append, isDocLine_slash, isDocLine_slash]
      cases rest <;> rfl
    · rw [isDocLine_other (by simpa using hc), isDocLine_other (by simpa using hc)]

theorem dropReturns_concat_return (cs : List Char) : dropReturns (cs ++ ['\r']) = dropReturns cs := by
  simp [dropReturns]

/-! ## Strings -/

/-- The inside of a string from some place on has a line that ends with a backslash. -/
def continues : List Char → Bool
  | [] => false
  | c :: rest =>
    if c == '"' then false
    else if c == '\\' then
      match rest with
      | [] => false
      | e :: after => e == '\n' || continues after
    else continues rest

theorem StringEnd.prepend_ne_closed {e : StringEnd} {rest : List Char} (h : ∀ value, e ≠ .closed value rest)
    (c : Char) (value : List Char) : e.prepend c ≠ .closed value rest := by
  intro hclosed
  obtain ⟨value', hvalue, -⟩ := stringEnd_of_prepend hclosed
  exact h value' hvalue

/-- No string goes on behind a backslash and a carriage return. -/
theorem not_closed_of_continues {cs : List Char} (h : continues cs = true) (value rest : List Char) :
    stringBody false (withReturns cs) ≠ .closed value rest := by
  fun_induction continues cs generalizing value with
  | case1 => cases h
  | case2 => cases h
  | case3 => cases h
  | case4 c hquote hslash e after ih =>
    obtain rfl : c = '\\' := beq_iff_eq.mp hslash
    rw [Text.withReturns_cons (by decide)]
    by_cases hnewline : e = '\n'
    · subst hnewline
      rw [Text.withReturns_newline, stringBody_unknown (by decide) rfl]
      nofun
    · have hafter : continues after = true := by simpa [hnewline] using h
      rw [Text.withReturns_cons hnewline]
      cases he : unescape e with
      | none =>
        rw [stringBody_unknown hnewline he]
        nofun
      | some v =>
        rw [stringBody_escape he]
        exact StringEnd.prepend_ne_closed (ih hafter) v value
  | case5 c rest' hquote hslash ih =>
    by_cases hnewline : c = '\n'
    · subst hnewline
      rw [Text.withReturns_newline, stringBody_char rfl (by decide) (by decide),
        stringBody_char rfl (by decide) (by decide)]
      exact StringEnd.prepend_ne_closed (StringEnd.prepend_ne_closed (ih h) '\n') '\r' value
    · rw [Text.withReturns_cons hnewline, stringBody_char rfl (by simpa using hquote) (by simpa using hslash)]
      exact StringEnd.prepend_ne_closed (ih h) c value

/-- How the inside of a string ends, and how it does with carriage returns. -/
inductive StringEnd.Returned : StringEnd → StringEnd → Prop
  | closed {value value' rest : List Char} (h : Widened value value') :
    Returned (closed value rest) (closed value' (withReturns rest))
  | unterminated : Returned unterminated unterminated
  | unknownEscape (e : Char) (rest rest' : List Char) : Returned (unknownEscape e rest) (unknownEscape e rest')

theorem StringEnd.Returned.prepend {e e' : StringEnd} (h : e.Returned e') (c : Char) :
    (e.prepend c).Returned (e'.prepend c) := by
  cases h with
  | closed h => exact .closed (.keep c h)
  | unterminated => exact .unterminated
  | unknownEscape e rest rest' => exact .unknownEscape e rest rest'

theorem StringEnd.Returned.newline {e e' : StringEnd} (h : e.Returned e') :
    (e.prepend '\n').Returned ((e'.prepend '\n').prepend '\r') := by
  cases h with
  | closed h => exact .closed (.newline h)
  | unterminated => exact .unterminated
  | unknownEscape e rest rest' => exact .unknownEscape e rest rest'

/-- **Strings.** A string in which no line ends with a backslash is read to the same end with carriage returns. -/
theorem stringBody_withReturns {cs : List Char} (h : continues cs = false) :
    (stringBody false cs).Returned (stringBody false (withReturns cs)) := by
  fun_induction continues cs with
  | case1 => exact .unterminated
  | case2 c rest hquote =>
    obtain rfl : c = '"' := beq_iff_eq.mp hquote
    rw [Text.withReturns_cons (by decide), stringBody_quote, stringBody_quote]
    exact .closed .nil
  | case3 c hquote hslash =>
    obtain rfl : c = '\\' := beq_iff_eq.mp hslash
    exact .unterminated
  | case4 c hquote hslash e after ih =>
    obtain ⟨hnewline, hafter⟩ := Bool.or_eq_false_iff.mp h
    obtain rfl : c = '\\' := beq_iff_eq.mp hslash
    have he : e ≠ '\n' := by simpa using hnewline
    rw [Text.withReturns_cons (by decide), Text.withReturns_cons he]
    cases hv : unescape e with
    | none =>
      rw [stringBody_unknown he hv, stringBody_unknown he hv]
      exact .unknownEscape ..
    | some v =>
      rw [stringBody_escape hv, stringBody_escape hv]
      exact (ih hafter).prepend v
  | case5 c rest hquote hslash ih =>
    have hchar : ∀ {d : Char} (cs), d ≠ '"' → d ≠ '\\' →
        stringBody false (d :: cs) = (stringBody false cs).prepend d :=
      fun cs => stringBody_char rfl
    have hc : c ≠ '"' := by simpa using hquote
    have hc' : c ≠ '\\' := by simpa using hslash
    by_cases hnewline : c = '\n'
    · subst hnewline
      rw [Text.withReturns_newline, hchar _ hc hc', hchar _ (by decide) (by decide), hchar _ hc hc']
      exact (ih h).newline
    · rw [Text.withReturns_cons hnewline, hchar _ hc hc', hchar _ hc hc']
      exact (ih h).prepend c

/-! ## Lexemes -/

/-- The kind and the value of a token with some text, and those with carriage returns. -/
inductive ReturnedContent (text : List Char) : Content → Content → Prop
  | same (content : Content) : ReturnedContent text content content
  | widened {kind : TokenKind} {value value' : List Char} (hkind : kind = .doc ∨ kind = .string)
    (hline : '\n' ∈ text) (h : Widened value value') : ReturnedContent text (kind, value) (kind, value')

/-- What is read at a character and more characters in front of a tail, and what is with carriage returns. -/
structure Returned (c : Char) (more tail : List Char) (l l' : Lexeme) : Prop where
  size : l.more = more.length
  size' : l'.more = (withReturns more).length ∨
    l'.more = (withReturns more).length + 1 ∧ tail.head? = some '\n'
  token : Option.Rel (ReturnedContent (c :: more)) l.token l'.token

theorem rel_same (text : List Char) (token : Option Content) :
    Option.Rel (ReturnedContent text) token token := by
  cases token with
  | none => exact .none
  | some content => exact .some (.same content)

/-- A value in which the line feeds of the text get carriage returns. -/
theorem returnedContent_of_widened {kind : TokenKind} {text value value' : List Char}
    (hkind : kind = .doc ∨ kind = .string) (h : Widened value value') (hsame : '\n' ∉ text → value' = value) :
    ReturnedContent text (kind, value) (kind, value') := by
  by_cases hline : '\n' ∈ text
  · exact .widened hkind hline h
  · rw [hsame hline]
    exact .same _

theorem word_withReturns (cs : List Char) : word (withReturns cs) = word cs :=
  Text.takeWhile_withReturns (by decide) (by decide) cs

theorem startsWithWord_withReturns (cs : List Char) : startsWithWord (withReturns cs) = startsWithWord cs := by
  cases cs with
  | nil => rfl
  | cons c cs =>
    by_cases hc : c = '\n'
    · subst hc
      rfl
    · rw [Text.withReturns_cons hc]
      rfl

section
variable {c : Char} {rest : List Char}

theorem punctuation_withReturns (c : Char) (rest : List Char) :
    punctuation c (withReturns rest) = punctuation c rest := by
  have hhead : ∀ {d : Char}, d ≠ '\n' → d ≠ '\r' →
      ((withReturns rest).head? == some d) = (rest.head? == some d) := by
    intro d hd hd'
    rw [Bool.eq_iff_iff, beq_iff_eq, beq_iff_eq, Text.head?_withReturns_iff hd hd']
  unfold punctuation
  rw [hhead (by decide) (by decide), hhead (by decide) (by decide)]

/-- What is no comment and no string does not see line ends. -/
theorem first_withReturns_same (hnewline : c ≠ '\n') (hslash : c ≠ '/') (hquote : c ≠ '"') :
    first c (withReturns rest) = first c rest := by
  by_cases htick : c = '\''
  · subst htick
    rw [first_lifetime, first_lifetime, startsWithWord_withReturns, word_withReturns]
  have hraw : ∀ h : rest.head? = some '#', (withReturns rest).drop 1 = withReturns (rest.drop 1) := by
    intro h
    rw [List.drop_one, List.drop_one, Text.tail_withReturns (by decide) h]
  rw [first_other hslash hquote htick, first_other hslash hquote htick, ← Text.withReturns_cons hnewline,
    word_withReturns, punctuation_withReturns]
  by_cases hmark : rest.head? = some '#'
  · rw [hraw hmark, startsWithWord_withReturns, word_withReturns, hmark,
      (Text.head?_withReturns_iff (by decide) (by decide)).mpr hmark]
  · have hmark' : ¬ (withReturns rest).head? = some '#' := by
      rwa [Text.head?_withReturns_iff (by decide) (by decide)]
    simp only [hmark, hmark', false_and, and_false, if_false]

variable {l l' : Lexeme}

theorem exists_returned_line {line tail : List Char} (hline : '\n' ∉ line) (htail : ∀ d ∈ tail.head?, d = '\n')
    (h : first '/' (('/' :: line) ++ tail) = .ok l) :
    ∃ l', first '/' (withReturns (('/' :: line) ++ tail)) = .ok l' ∧ Returned '/' ('/' :: line) tail l l' := by
  have hapart : ∀ {text tail : List Char}, (∀ d ∈ tail.head?, d = '\n') → Apart ('/' :: '/' :: text) tail :=
    fun htail => ⟨fun _ => htail, nofun, nofun, fun c hc hlong => absurd hlong (by cases hc; decide), nofun⟩
  have hread : ∀ {line tail : List Char}, '\n' ∉ line → (∀ d ∈ tail.head?, d = '\n') →
      first '/' (('/' :: line) ++ tail) = .ok ⟨if isDocLine ('/' :: '/' :: line) then
        some (.doc, dropReturns (line.drop 1)) else none, ('/' :: line).length⟩ := by
    intro line tail hline htail
    have halone : first '/' (('/' :: line) ++ []) = _ :=
      (congrArg (first '/') (List.append_nil _)).trans (first_line hline)
    exact (first_of_apart halone).2 tail (hapart htail)
  rw [hread hline htail] at h
  cases h
  have hmore : withReturns ('/' :: line) = '/' :: line := by
    rw [Text.withReturns_cons (by decide), Text.withReturns_of_not_mem hline]
  rw [Text.withReturns_append, hmore]
  rcases tail with _ | ⟨d, tail⟩
  · exact ⟨_, hread hline nofun, rfl, .inl (by rw [hmore]), rel_same _ _⟩
  · -- The carriage return is the last character of the comment.
    obtain rfl : d = '\n' := htail d rfl
    have hline' : '\n' ∉ line ++ ['\r'] := by simp [hline]
    have hfirst := @hread (line ++ ['\r']) ('\n' :: withReturns tail) hline' (by simp)
    have hall : ('/' :: (line ++ ['\r'])) ++ '\n' :: withReturns tail =
        ('/' :: line) ++ withReturns ('\n' :: tail) := by simp
    rw [hall, isDocLine_concat_return] at hfirst
    refine ⟨_, hfirst, rfl, .inr ⟨by simp [hmore], rfl⟩, ?_⟩
    dsimp only
    split
    · next hdoc =>
      have hvalue : dropReturns ((line ++ ['\r']).drop 1) = dropReturns (line.drop 1) := by
        rcases line with _ | ⟨d, line⟩
        · rfl
        · exact dropReturns_concat_return line
      rw [hvalue]
      exact .some (.same _)
    · exact .none

theorem exists_returned_block {inner body tail : List Char} (hbody : commentBody 0 inner = some (body, []))
    (h : first '/' (('*' :: inner) ++ tail) = .ok l) :
    ∃ l', first '/' (withReturns (('*' :: inner) ++ tail)) = .ok l' ∧ Returned '/' ('*' :: inner) tail l l' := by
  have hbody' : commentBody 0 (withReturns inner) = some (withReturns body, []) := by
    rw [commentBody_withReturns, hbody]
    rfl
  rw [first_block hbody] at h
  cases h
  have hmore : withReturns ('*' :: inner) = '*' :: withReturns inner := Text.withReturns_cons (by decide) inner
  rw [Text.withReturns_append, hmore, first_block hbody', isDocBlock_withReturns]
  refine ⟨_, rfl, rfl, .inl (by rw [hmore]), ?_⟩
  dsimp only
  split
  · next hdoc =>
    have hstar : body = '*' :: body.drop 1 := eq_cons_drop_of_isDocBlock (commentBody_append hbody) hdoc
    have hvalue : (withReturns body).drop 1 = withReturns (body.drop 1) := by
      conv_lhs => rw [hstar, Text.withReturns_cons (by decide)]
      rfl
    rw [hvalue]
    refine .some (returnedContent_of_widened (.inl rfl) (Text.widened_withReturns _) fun hline => ?_)
    refine Text.withReturns_of_not_mem fun hmem => hline ?_
    rw [commentBody_append hbody]
    simp [List.mem_of_mem_drop hmem]
  · exact .none

theorem exists_returned_string {inner value tail : List Char} (hvalue : stringBody false inner = .closed value [])
    (hcontinues : continues (inner ++ tail) = false) (h : first '"' (inner ++ tail) = .ok l) :
    ∃ l', first '"' (withReturns (inner ++ tail)) = .ok l' ∧ Returned '"' inner tail l l' := by
  have hreturned := stringBody_withReturns hcontinues
  obtain ⟨inner', hinner, -, hlocal⟩ := stringBody_local hvalue
  obtain rfl : inner = inner' := by rwa [List.append_nil] at hinner
  rw [hlocal tail, Text.withReturns_append] at hreturned
  cases hbody : stringBody false (withReturns inner ++ withReturns tail) with
  | unterminated =>
    rw [hbody] at hreturned
    cases hreturned
  | unknownEscape e rest =>
    rw [hbody] at hreturned
    cases hreturned
  | closed value' rest' =>
    rw [hbody] at hreturned
    cases hreturned with
    | closed hwidened =>
      -- The string ends in front of the same tail, whatever that is.
      obtain ⟨inner', hinner', -, hlocal'⟩ := stringBody_local hbody
      obtain rfl := List.append_cancel_right hinner'
      have hvalue' : stringBody false (withReturns inner) = .closed value' [] := by
        have hempty := hlocal' []
        rwa [List.append_nil] at hempty
      rw [first_string hvalue] at h
      cases h
      rw [Text.withReturns_append, first_string hvalue']
      refine ⟨_, rfl, rfl, .inl rfl, .some (returnedContent_of_widened (.inr rfl) hwidened fun hline => ?_)⟩
      rw [Text.withReturns_of_not_mem fun hmem => hline (List.mem_cons_of_mem _ hmem), hvalue] at hvalue'
      cases hvalue'
      rfl

/-- **One lexeme.** The first lexeme of a text with carriage returns is that of the text, unless it is a string with a
line that ends with a backslash. -/
theorem first_withReturns (h : first c rest = .ok l) (hcontinues : c = '"' → continues rest = false) :
    ∃ more tail l', rest = more ++ tail ∧ first c (withReturns rest) = .ok l' ∧ Returned c more tail l l' := by
  obtain ⟨more, tail, rfl, hmore, hapart, hlocal⟩ := first_local h
  suffices hread : ∃ l', first c (withReturns (more ++ tail)) = .ok l' ∧ Returned c more tail l l' by
    obtain ⟨l', hl'⟩ := hread
    exact ⟨more, tail, l', rfl, hl'⟩
  have halone : first c more = .ok ⟨l.token, more.length⟩ := by
    have hread := hlocal [] (.nil _)
    rwa [List.append_nil, show l = ⟨l.token, more.length⟩ by rw [← hmore]] at hread
  by_cases hquote : c = '"'
  · subst hquote
    obtain ⟨value, hvalue, -⟩ := exists_stringBody_of_first halone
    exact exists_returned_string hvalue (hcontinues rfl) h
  have hshape : Shape (c :: more) l.token := shape_of_first halone
  generalize htext : c :: more = text at hshape hapart
  generalize l.token = token at hshape
  cases hshape with
  | @line line hline =>
    cases htext
    exact exists_returned_line hline (hapart.line ⟨line, rfl⟩) h
  | @block inner body hbody =>
    cases htext
    exact exists_returned_block hbody h
  | string =>
    cases htext
    exact absurd rfl hquote
  | plain hplain hslash =>
    subst htext
    have hnot : '\n' ∉ c :: more := fun hmem => absurd (hplain _ hmem) (by decide)
    obtain ⟨hc, hmem⟩ := not_or.mp (mt List.mem_cons.mpr hnot)
    have hsame : withReturns more = more := Text.withReturns_of_not_mem hmem
    rw [first_withReturns_same (Ne.symm hc) (fun hc => hslash (congrArg some hc)) hquote]
    exact ⟨l, h, hmore, .inl (by rw [hsame, hmore]), rel_same _ _⟩

/-- A comment is read only if it is one with line feeds alone. -/
theorem exists_first_slash (h : first '/' (withReturns rest) = .ok l') : ∃ l, first '/' rest = .ok l := by
  have hhead : ∀ {d : Char}, d ≠ '\n' → d ≠ '\r' →
      ((withReturns rest).head? = some d ↔ rest.head? = some d) := Text.head?_withReturns_iff
  simp only [first_slash, hhead (show '/' ≠ '\n' by decide) (by decide),
    hhead (show '*' ≠ '\n' by decide) (by decide)] at h
  rw [first_slash]
  split at h
  · exact ⟨_, if_pos ‹_›⟩
  split at h
  · next hline hblock =>
    obtain ⟨inner, rfl⟩ := List.head?_eq_some_iff.mp hblock
    rw [if_neg hline, if_pos hblock]
    unfold slashStar blockComment at h ⊢
    rw [Text.withReturns_cons (by decide)] at h
    simp only [List.drop] at h ⊢
    rw [commentBody_withReturns] at h
    cases hbody : commentBody 0 inner with
    | none =>
      rw [hbody] at h
      cases h
    | some found => exact ⟨_, rfl⟩
  · cases h

/-- A string is read only if it is one with line feeds alone and no line of it ends with a backslash. -/
theorem exists_first_quote (h : first '"' (withReturns rest) = .ok l') :
    (∃ l, first '"' rest = .ok l) ∧ continues rest = false := by
  rw [first_quote, quote, stringLiteral] at h
  simp only [List.drop] at h
  have hcontinues : continues rest = false := by
    refine Bool.eq_false_iff.mpr fun hcontinues => ?_
    cases hbody : stringBody false (withReturns rest) with
    | closed value rest' => exact not_closed_of_continues hcontinues value rest' hbody
    | unterminated =>
      rw [hbody] at h
      cases h
    | unknownEscape e rest' =>
      rw [hbody] at h
      cases h
  refine ⟨?_, hcontinues⟩
  have hreturned := stringBody_withReturns hcontinues
  rw [first_quote, quote, stringLiteral]
  simp only [List.drop]
  generalize stringBody false rest = found at hreturned
  generalize stringBody false (withReturns rest) = found' at hreturned h
  cases hreturned with
  | closed => exact ⟨_, rfl⟩
  | unterminated => cases h
  | unknownEscape => cases h

/-- Nothing else is read with carriage returns. -/
theorem first_of_withReturns (hnewline : c ≠ '\n') (h : first c (withReturns rest) = .ok l') :
    (∃ l, first c rest = .ok l) ∧ (c = '"' → continues rest = false) := by
  by_cases hslash : c = '/'
  · subst hslash
    exact ⟨exists_first_slash h, fun hquote => absurd hquote (by decide)⟩
  by_cases hquote : c = '"'
  · subst hquote
    obtain ⟨hfirst, hcontinues⟩ := exists_first_quote h
    exact ⟨hfirst, fun _ => hcontinues⟩
  · rw [first_withReturns_same hnewline hslash hquote] at h
    exact ⟨⟨l', h⟩, fun hc => absurd hc hquote⟩

end

end Lexeme

/-! ## Places -/

/-- Where an offset of the text is with carriage returns. -/
def Source.returnedOffset (src : Source) (offset : Nat) : Nat :=
  (withReturns (src.text.toList.take offset)).length

/-- A token of a text, and the one that stands for it with carriage returns, which may take in the carriage
return at its end. -/
structure Token.Returned (src : Source) (t t' : Token) : Prop where
  content : Lexeme.ReturnedContent (src.slice t.start t.stop) t.content t'.content
  start : t'.start = src.returnedOffset t.start
  stop : t'.stop = src.returnedOffset t.stop ∨
    t'.stop = src.returnedOffset t.stop + 1 ∧ (src.text.toList.drop t.stop).head? = some '\n'

/-- The token is a string with a line that ends with a backslash. -/
def Token.Continued (src : Source) (t : Token) : Prop :=
  t.kind = .string ∧ Lexeme.continues (src.text.toList.drop (t.start + 1)) = true

instance (src : Source) (t : Token) : Decidable (t.Continued src) := inferInstanceAs (Decidable (_ ∧ _))

theorem Source.returnedOffset_add {src : Source} {offset : Nat} {front back : List Char}
    (h : src.text.toList.drop offset = front ++ back) :
    src.returnedOffset (offset + front.length) = src.returnedOffset offset + (withReturns front).length := by
  rw [returnedOffset, List.take_add, h, List.take_left, Text.withReturns_append, List.length_append]
  rfl

theorem Cursor.rest_skipSpaces (c : Cursor) : c.skipSpaces.rest = c.rest.dropWhile Lexeme.isSpace := by
  have hall := rest_eq_spaces_append c
  conv at hall => lhs; rw [← @List.takeWhile_append_dropWhile _ Lexeme.isSpace c.rest]
  exact (List.append_cancel_left hall).symm

theorem Cursor.not_newline_of_skipSpaces {c : Cursor} {ch : Char} {rest : List Char}
    (h : c.skipSpaces.rest = ch :: rest) : ch ≠ '\n' := by
  have hhead := @Lexeme.head?_dropWhile Lexeme.isSpace c.rest
  rw [← rest_skipSpaces, h] at hhead
  rintro rfl
  exact absurd (hhead '\n' rfl) (by decide)

/-- The second cursor is ahead of the first text with carriage returns, or behind the first of them. -/
def Cursor.Returned (c c' : Cursor) : Prop :=
  c'.rest = withReturns c.rest ∨ '\r' :: c'.rest = withReturns c.rest

section
variable {src src' : Source} {c c' : Cursor} {ch : Char} {rest : List Char}

theorem Cursor.Returned.skipSpaces (h : c.Returned c') : c'.skipSpaces.rest = withReturns c.skipSpaces.rest := by
  rw [rest_skipSpaces, rest_skipSpaces, ← Text.dropWhile_withReturns rfl rfl]
  rcases h with h | h
  · rw [h]
  · rw [← h, List.dropWhile_cons_of_pos rfl]

theorem Cursor.InPlace.offset_returned (htext : src'.text.toList = withReturns src.text.toList)
    (hc : c.InPlace src) (hc' : c'.InPlace src') (h : c'.rest = withReturns c.rest) :
    c'.offset = src.returnedOffset c.offset := by
  have hsplit : withReturns src.text.toList =
      withReturns (src.text.toList.take c.offset) ++ withReturns c.rest := by
    rw [← Text.withReturns_append, hc.rest, List.take_append_drop]
  have hlength := congrArg List.length (h.symm.trans hc'.rest)
  have hoffset := hc'.offset
  rw [List.length_drop, htext, hsplit, List.length_append] at hlength
  rw [htext, hsplit, List.length_append] at hoffset
  unfold Source.returnedOffset
  omega

/-- Nothing is read behind a complaint. -/
theorem run_of_fault (src : Source) {fault : Lexeme.Fault} (h : c.skipSpaces.rest = ch :: rest)
    (hfirst : Lexeme.first ch rest = .error fault) : (Lexing.run src c).error ≠ none := by
  rw [Lexing.run]
  split
  · next heq =>
    rw [h] at heq
    cases heq
  · next heq =>
    rw [h] at heq
    cases heq
    rw [hfirst]
    nofun

/-- Reading with carriage returns ends where nothing is read without, and at a string that goes on behind a
backslash. -/
theorem run_of_unread (src' : Source) (hnewline : ch ≠ '\n')
    (hrest' : c'.skipSpaces.rest = ch :: withReturns rest)
    (h : ¬ ((∃ l, Lexeme.first ch rest = .ok l) ∧ (ch = '"' → Lexeme.continues rest = false))) :
    (Lexing.run src' c').error ≠ none := by
  cases hfirst' : Lexeme.first ch (withReturns rest) with
  | error fault' => exact run_of_fault src' hrest' hfirst'
  | ok l' => exact absurd (Lexeme.first_of_withReturns hnewline hfirst') h

/-- Behind a lexeme a text goes on as it does with carriage returns. -/
theorem Cursor.Returned.behind {more tail : List Char} {l l' : Lexeme} (hrest : c.rest = ch :: (more ++ tail))
    (hrest' : c'.rest = ch :: withReturns (more ++ tail)) (h : Lexeme.Returned ch more tail l l') :
    (c.advanceBy (l.more + 1)).Returned (c'.advanceBy (l'.more + 1)) := by
  unfold Cursor.Returned
  rw [rest_advanceBy, rest_advanceBy, hrest, hrest', h.size, List.drop_succ_cons, List.drop_succ_cons,
    List.drop_left, Text.withReturns_append]
  rcases h.size' with hsize | ⟨hsize, hline⟩
  · rw [hsize, List.drop_left]
    exact .inl rfl
  · obtain ⟨tail, rfl⟩ := List.head?_eq_some_iff.mp hline
    rw [hsize, List.drop_append]
    exact .inr (by simp)

/-- **One token.** The token of a lexeme is the same with carriage returns, at the place to which it moves. -/
theorem token_returned (htext : src'.text.toList = withReturns src.text.toList) (hc : c.InPlace src)
    (hc' : c'.InPlace src') (hnewline : ch ≠ '\n') {more tail : List Char} {l l' : Lexeme}
    (hrest : c.rest = ch :: (more ++ tail)) (hrest' : c'.rest = ch :: withReturns (more ++ tail))
    (h : Lexeme.Returned ch more tail l l') :
    Option.Rel (Token.Returned src) (l.token.map fun (kind, value) => c.token (l.more + 1) kind value)
      (l'.token.map fun (kind, value) => c'.token (l'.more + 1) kind value) := by
  have hsplit : src.text.toList.drop c.offset = (ch :: more) ++ tail := by
    rw [← hc.rest, hrest]
    rfl
  have hslice : src.slice c.offset (c.offset + (l.more + 1)) = ch :: more := by
    rw [Source.slice, hsplit, Nat.add_sub_cancel_left, h.size]
    exact @List.take_left _ (ch :: more) tail
  have hstart : c'.offset = src.returnedOffset c.offset := by
    refine hc.offset_returned htext hc' ?_
    rw [hrest', hrest, Text.withReturns_cons hnewline]
  have hstop : src.returnedOffset (c.offset + (l.more + 1)) =
      src.returnedOffset c.offset + ((withReturns more).length + 1) := by
    rw [h.size]
    have hadd := Source.returnedOffset_add hsplit
    rwa [Text.withReturns_cons hnewline] at hadd
  have hafter : src.text.toList.drop (c.offset + (l.more + 1)) = tail := by
    rw [← List.drop_drop, hsplit, h.size]
    exact @List.drop_left _ (ch :: more) tail
  have hcontent : ∀ (c : Cursor) length (content : Content),
      (c.token length content.1 content.2).content = content := by
    rintro c length ⟨kind, value⟩
    simp [Token.content, Cursor.token]
  have hend : c'.offset + (l'.more + 1) = src.returnedOffset (c.offset + (l.more + 1)) ∨
      c'.offset + (l'.more + 1) = src.returnedOffset (c.offset + (l.more + 1)) + 1 ∧
        (src.text.toList.drop (c.offset + (l.more + 1))).head? = some '\n' := by
    rw [hstart, hstop, hafter]
    rcases h.size' with hsize | ⟨hsize, hline⟩
    · exact .inl (by omega)
    · exact .inr ⟨by omega, hline⟩
  have htoken := h.token
  generalize l.token = token at htoken
  generalize l'.token = token' at htoken
  cases htoken with
  | none => exact .none
  | @some content content' hreturned =>
    refine .some ⟨?_, hstart, hend⟩
    rw [hcontent, hcontent]
    exact hslice.symm ▸ hreturned

/-- The token read is no string that goes on behind a backslash if the text from the quote on does not. -/
theorem not_continued_iff (hc : c.InPlace src) (hrest : c.rest = ch :: rest) {l : Lexeme}
    (hfirst : Lexeme.first ch rest = .ok l) :
    (∀ t ∈ (l.token.map fun (kind, value) => c.token (l.more + 1) kind value).toList, ¬ t.Continued src) ↔
      (ch = '"' → Lexeme.continues rest = false) := by
  have hafter : src.text.toList.drop (c.offset + 1) = rest := by
    rw [← List.drop_drop, ← hc.rest, hrest]
    rfl
  obtain ⟨token, size⟩ := l
  constructor
  · rintro h rfl
    have htoken : ∃ value, token = some (.string, value) := by
      rw [Lexeme.first_quote, Lexeme.quote] at hfirst
      split at hfirst <;> cases hfirst
      exact ⟨_, rfl⟩
    obtain ⟨value, rfl⟩ := htoken
    have hnot := h (c.token (size + 1) .string value) (List.mem_singleton_self _)
    refine Bool.eq_false_iff.mpr fun hcontinues => hnot ⟨rfl, ?_⟩
    rwa [← hafter] at hcontinues
  · rintro hcontinues t ht ⟨hkind, hcontinued⟩
    rw [Option.mem_toList, Option.map_eq_some_iff] at ht
    obtain ⟨⟨kind, value⟩, rfl, rfl⟩ := ht
    obtain ⟨more, after, rfl, hsize, -, -⟩ := Lexeme.first_local hfirst
    obtain rfl : size = more.length := hsize
    obtain rfl : kind = .string := hkind
    have hquote : ch = '"' := by
      obtain ⟨hvalued, -⟩ := Lexeme.valued_of_first hfirst
      cases hvalued with
      | string => rfl
      | same _ hstring => exact absurd rfl hstring
    have hnone := hcontinues hquote
    rw [← hafter] at hnone
    rw [show (c.token (more.length + 1) .string value).start = c.offset from rfl, hnone] at hcontinued
    cases hcontinued

theorem forall₂_toList {α β : Type} {related : α → β → Prop} {a : Option α} {b : Option β}
    (h : Option.Rel related a b) : List.Forall₂ related a.toList b.toList := by
  cases h with
  | none => exact .nil
  | some h => exact .cons h .nil

/-- **Running.** From places that correspond, a run over a text with carriage returns ends without an error if and
only if one over the text does and meets no string with a line that ends with a backslash, and then their tokens
correspond. -/
theorem run_withReturns (htext : src'.text.toList = withReturns src.text.toList) (hc : c.InPlace src)
    (hc' : c'.InPlace src') (h : c.Returned c') :
    ((Lexing.run src' c').error = none ↔ (Lexing.run src c).error = none ∧
        ∀ t ∈ (Lexing.run src c).tokens, ¬ t.Continued src) ∧
      ((Lexing.run src' c').error = none →
        List.Forall₂ (Token.Returned src) (Lexing.run src c).tokens (Lexing.run src' c').tokens) := by
  fun_induction Lexing.run src c generalizing c' with
  | case1 c hrest =>
    have hrest' : c'.skipSpaces.rest = [] := by rw [h.skipSpaces, hrest, Text.withReturns_nil]
    rw [run_of_end src' hrest']
    refine ⟨iff_of_true rfl ⟨rfl, ?_⟩, fun _ => .cons ⟨.same _, ?_, .inl ?_⟩ .nil⟩
    · intro t ht hcontinued
      rw [List.mem_singleton.mp ht] at hcontinued
      exact absurd hcontinued.1 (show TokenKind.endOfInput ≠ .string by decide)
    all_goals exact hc.skipSpaces.offset_returned htext hc'.skipSpaces h.skipSpaces
  | case2 c ch rest hrest fault hfirst error stopped hcomplain =>
    have hnewline : ch ≠ '\n' := Cursor.not_newline_of_skipSpaces hrest
    have hrest' : c'.skipSpaces.rest = ch :: withReturns rest := by
      rw [h.skipSpaces, hrest, Text.withReturns_cons hnewline]
    have hfault : (Lexing.run src' c').error ≠ none := by
      refine run_of_unread src' hnewline hrest' ?_
      rintro ⟨⟨l, hl⟩, -⟩
      rw [hfirst] at hl
      cases hl
    exact ⟨iff_of_false hfault fun hall => Option.some_ne_none _ hall.1, fun herror => absurd herror hfault⟩
  | case3 c ch rest hrest lexeme hfirst ih =>
    have hnewline : ch ≠ '\n' := Cursor.not_newline_of_skipSpaces hrest
    have hrest' : c'.skipSpaces.rest = ch :: withReturns rest := by
      rw [h.skipSpaces, hrest, Text.withReturns_cons hnewline]
    have hiff := not_continued_iff hc.skipSpaces hrest hfirst
    have htokens : ∀ {ts ts' : List Token}, (∀ t ∈ ts ++ ts', ¬ t.Continued src) ↔
        (∀ t ∈ ts, ¬ t.Continued src) ∧ ∀ t ∈ ts', ¬ t.Continued src := List.forall_mem_append
    by_cases hcontinues : ch = '"' → Lexeme.continues rest = false
    · obtain ⟨more, tail, l', rfl, hfirst', hl⟩ := Lexeme.first_withReturns hfirst hcontinues
      obtain ⟨herror, hlater⟩ := ih (hc.skipSpaces.advanceBy _) (hc'.skipSpaces.advanceBy (l'.more + 1))
        (Cursor.Returned.behind hrest hrest' hl)
      have htoken := token_returned htext hc.skipSpaces hc'.skipSpaces hnewline hrest hrest' hl
      rw [run_of_first src' hrest' hfirst']
      refine ⟨?_, fun hnone => List.rel_append (forall₂_toList htoken) (hlater hnone)⟩
      change _ ↔ _ ∧ ∀ t ∈ _ ++ _, _
      rw [htokens, and_iff_right (hiff.mpr hcontinues)]
      exact herror
    · have hfault : (Lexing.run src' c').error ≠ none :=
        run_of_unread src' hnewline hrest' fun hread => hcontinues hread.2
      refine ⟨iff_of_false hfault fun hall => ?_, fun herror => absurd herror hfault⟩
      exact hcontinues (hiff.mp (htokens.mp hall.2).1)

namespace Source

/-- **Tokens.** With carriage returns, a text has tokens if and only if it has tokens without and none is a string
with a line that ends with a backslash, and then they correspond. -/
theorem tokenize_withReturns (htext : src'.text.toList = withReturns src.text.toList) :
    ((∃ tokens', src'.tokenize = .ok tokens') ↔
        ∃ tokens, src.tokenize = .ok tokens ∧ ∀ t ∈ tokens, ¬ t.Continued src) ∧
      ∀ tokens tokens', src.tokenize = .ok tokens → src'.tokenize = .ok tokens' →
        List.Forall₂ (Token.Returned src) tokens tokens' := by
  obtain ⟨herror, htokens⟩ := run_withReturns htext (Cursor.inPlace_start src) (Cursor.inPlace_start src')
    (.inl htext)
  simp only [tokenize_eq_ok_iff]
  refine ⟨⟨?_, ?_⟩, ?_⟩
  · rintro ⟨-, hnone, -⟩
    obtain ⟨hnone, hcontinued⟩ := herror.mp hnone
    exact ⟨_, ⟨hnone, rfl⟩, hcontinued⟩
  · rintro ⟨_, ⟨hnone, rfl⟩, hcontinued⟩
    exact ⟨_, herror.mpr ⟨hnone, hcontinued⟩, rfl⟩
  · rintro _ _ ⟨-, rfl⟩ ⟨hnone, rfl⟩
    exact htokens hnone

end Source

end

end Typestate
