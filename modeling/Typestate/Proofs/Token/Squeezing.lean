import Typestate.Proofs.Token.Shape

/-!
Pieces after their blanks have been made single spaces. The text is read as the same tokens exactly if
nothing but the last piece goes to the end of its line, and no token has blanks in it that change
(`spells_squeeze_iff`).
-/

namespace Typestate

open Piece
open Text (isBlank squeeze endsBlank normalize)

/-- The text is read as these tokens, comments left aside. -/
def Spells (text : List Char) (cs : List Content) : Prop :=
  ∃ ps tail, Reads ps tail ∧ (∀ c ∈ tail, Lexeme.isSpace c = true) ∧ text = spell ps ++ tail ∧
    contents ps = cs

/-- The tokens of a text are these, their places left aside. -/
def ReadAs (text : String) (cs : List Content) : Prop :=
  ∃ tokens, ({ text } : Source).tokenize = .ok tokens ∧ tokens.dropLast.map Token.content = cs

instance (text : String) (cs : List Content) : Decidable (ReadAs text cs) :=
  match h : ({ text } : Source).tokenize with
  | .ok tokens => decidable_of_iff (tokens.dropLast.map Token.content = cs)
      ⟨fun hcs => ⟨tokens, h, hcs⟩, fun ⟨_, htokens, hcs⟩ => by
        rw [h] at htokens
        cases htokens
        exact hcs⟩
  | .error _ => isFalse fun ⟨_, htokens, _⟩ => by
      rw [h] at htokens
      cases htokens

/-- What is read as tokens is what the lexer gives. -/
theorem readAs_iff_spells {text : String} {cs : List Content} :
    ReadAs text cs ↔ Spells text.toList cs := by
  constructor
  · rintro ⟨tokens, htokens, rfl⟩
    obtain ⟨ps, tail, hps, htail, htext, mark, -, rfl⟩ := Source.reads_of_tokenize htokens
    exact ⟨ps, tail, hps, htail, htext, by rw [List.dropLast_concat, contents_placed]⟩
  · rintro ⟨ps, tail, hps, htail, htext, rfl⟩
    obtain ⟨mark, -, htokens⟩ := Source.tokenize_of_reads { text } hps htail htext
    exact ⟨_, htokens, by rw [List.dropLast_concat, contents_placed]⟩

namespace Lexeme

/-- Where the spaces in front of a text end. -/
theorem gap_unique {gap gap' rest rest' : List Char} {c c' : Char}
    (hgap : ∀ d ∈ gap, isSpace d = true) (hgap' : ∀ d ∈ gap', isSpace d = true)
    (hc : isSpace c = false) (hc' : isSpace c' = false)
    (h : gap ++ c :: rest = gap' ++ c' :: rest') : gap = gap' ∧ c = c' ∧ rest = rest' := by
  have hspan : ∀ {gap rest : List Char} {c : Char}, (∀ d ∈ gap, isSpace d = true) →
      isSpace c = false → (gap ++ c :: rest).takeWhile isSpace = gap := by
    intro gap rest c hgap hc
    refine takeWhile_append_of_head hgap fun d hd => ?_
    cases hd
    exact hc
  have hsame : gap = gap' := by rw [← hspan hgap hc, h, hspan hgap' hc']
  subst hsame
  obtain ⟨rfl, rfl⟩ := List.cons.inj (List.append_cancel_left h)
  exact ⟨rfl, rfl, rfl⟩

/-- What a lexeme does not run into does not change how it is read. -/
theorem first_of_apart {c : Char} {more after : List Char} {token : Option Content}
    (h : first c (more ++ after) = .ok ⟨token, more.length⟩) : Apart (c :: more) after ∧
      ∀ after', Apart (c :: more) after' → first c (more ++ after') = .ok ⟨token, more.length⟩ := by
  obtain ⟨more', after', hrest, hlength, hapart, hlocal⟩ := first_local h
  obtain ⟨rfl, rfl⟩ := List.append_inj hrest hlength
  exact ⟨hapart, hlocal⟩

end Lexeme

section
variable {gap more after : List Char} {c : Char} {token : Option Content} {cs : List Content}

theorem spells_of_spaces (hgap : ∀ d ∈ gap, Lexeme.isSpace d = true) : Spells gap [] :=
  ⟨[], gap, trivial, hgap, rfl, rfl⟩

theorem spells_nil_iff : Spells [] cs ↔ cs = [] := by
  constructor
  · rintro ⟨ps, tail, hps, -, htext, rfl⟩
    cases ps with
    | nil => rfl
    | cons p ps =>
      obtain ⟨-, c, more, hc, -⟩ := hps.1
      rw [spell_cons, hc] at htext
      simp at htext
  · rintro rfl
    exact spells_of_spaces nofun

/-- A text that is read as tokens is read from its front. -/
theorem exists_of_spells {rest : List Char} (hgap : ∀ d ∈ gap, Lexeme.isSpace d = true)
    (hc : Lexeme.isSpace c = false) (h : Spells (gap ++ c :: rest) cs) : ∃ token more after cs',
      rest = more ++ after ∧ Lexeme.first c rest = .ok ⟨token, more.length⟩ ∧
        cs = token.toList ++ cs' ∧ Spells after cs' := by
  obtain ⟨ps, tail, hps, htail, htext, rfl⟩ := h
  cases ps with
  | nil =>
    have hmem : c ∈ gap ++ c :: rest := by simp
    rw [htext] at hmem
    rw [htail c hmem] at hc
    cases hc
  | cons p ps =>
    obtain ⟨⟨hgap', c', more, hptext, hfirst⟩, hps⟩ := hps
    rw [spell_cons, hptext, List.append_assoc, List.append_assoc, List.cons_append] at htext
    obtain ⟨-, rfl, rfl⟩ :=
      Lexeme.gap_unique hgap hgap' hc (Lexeme.not_isSpace_of_first hfirst) htext
    exact ⟨p.token, more, _, contents ps, rfl, hfirst, contents_cons p ps, ps, tail, hps, htail, rfl, rfl⟩

theorem spells_cons_iff (hgap : ∀ d ∈ gap, Lexeme.isSpace d = true)
    (hfirst : Lexeme.first c (more ++ after) = .ok ⟨token, more.length⟩) :
    Spells (gap ++ c :: (more ++ after)) cs ↔ ∃ cs', cs = token.toList ++ cs' ∧ Spells after cs' := by
  constructor
  · intro h
    obtain ⟨token', more', after', cs', hrest, hfirst', hcs, hspells⟩ :=
      exists_of_spells hgap (Lexeme.not_isSpace_of_first hfirst) h
    rw [hfirst] at hfirst'
    obtain ⟨rfl, hlength⟩ := Lexeme.mk.inj (Except.ok.inj hfirst')
    obtain ⟨-, rfl⟩ := List.append_inj hrest hlength
    exact ⟨cs', hcs, hspells⟩
  · rintro ⟨cs', rfl, ps, tail, hps, htail, rfl, rfl⟩
    refine ⟨⟨gap, c :: more, token⟩ :: ps, tail, ⟨⟨hgap, c, more, rfl, hfirst⟩, hps⟩, htail, ?_, ?_⟩
    · simp
    · rw [contents_cons]

end

/-! ## Pieces -/

namespace Piece

/-- The text goes on to the end of its line. -/
def IsLine (p : Piece) : Prop := ['/', '/'] <+: p.text

/-- If there is a token, its blanks are single spaces, carriage returns at its end left aside. -/
def Steady (p : Piece) : Prop :=
  p.token.isSome = true → normalize p.text = Lexeme.dropReturns p.text

end Piece

/-- Every token keeps its blanks, and no piece but the last goes on to the end of its line. -/
structure Kept (ps : List Piece) : Prop where
  steady : ∀ p ∈ ps, p.Steady
  line : ∀ p ∈ ps.dropLast, ¬ p.IsLine

theorem kept_nil : Kept [] := ⟨nofun, nofun⟩

theorem kept_cons_iff {p : Piece} {ps : List Piece} :
    Kept (p :: ps) ↔ p.Steady ∧ (ps ≠ [] → ¬ p.IsLine) ∧ Kept ps := by
  have hline : (∀ q ∈ (p :: ps).dropLast, ¬ q.IsLine) ↔
      (ps ≠ [] → ¬ p.IsLine) ∧ ∀ q ∈ ps.dropLast, ¬ q.IsLine := by
    cases ps with
    | nil => simp
    | cons q ps => simp [List.dropLast_cons_of_ne_nil]
  constructor
  · rintro ⟨hsteady, hlines⟩
    obtain ⟨hp, hps⟩ := hline.mp hlines
    exact ⟨hsteady p (List.mem_cons_self ..), hp,
      fun q hq => hsteady q (List.mem_cons_of_mem _ hq), hps⟩
  · rintro ⟨hp, hpline, hps⟩
    refine ⟨fun q hq => ?_, hline.mpr ⟨hpline, hps.line⟩⟩
    rcases List.mem_cons.mp hq with rfl | hq
    · exact hp
    · exact hps.steady q hq

namespace Lexeme

variable {c : Char} {more after : List Char} {token : Option Content}

theorem shape_of_first_append (h : first c (more ++ after) = .ok ⟨token, more.length⟩) :
    Shape (c :: more) token := by
  refine shape_of_first ?_
  have hread := (first_of_apart h).2 [] (.nil _)
  rwa [List.append_nil] at hread

theorem Shape.not_blank {text : List Char} (h : Shape text token) :
    ∀ c ∈ text.head?, isBlank c = false := by
  cases h with
  | line => rintro _ ⟨⟩; decide
  | block => rintro _ ⟨⟩; decide
  | string => rintro _ ⟨⟩; decide
  | plain htext _ => exact fun c hc => htext c (List.mem_of_mem_head? hc)

/-- Only a line can end with a blank. -/
theorem Shape.endsBlank {text : List Char} (h : Shape text token) (hline : ¬ ['/', '/'] <+: text) :
    endsBlank false text = false := by
  have hlast : ∀ (front : List Char) {d : Char}, isBlank d = false →
      Text.endsBlank false (front ++ [d]) = false := by
    intro front d hd
    rw [Text.endsBlank_append (List.cons_ne_nil _ _)]
    exact hd
  cases h with
  | @line rest hrest => exact absurd ⟨rest, rfl⟩ hline
  | @block inner body hbody =>
    have hend : '/' :: '*' :: inner = ('/' :: '*' :: (body ++ ['*'])) ++ ['/'] := by
      rw [commentBody_append hbody]
      simp
    rw [hend]
    exact hlast _ (by decide)
  | @string inner value hvalue =>
    obtain ⟨init, rfl⟩ := stringBody_append hvalue
    exact hlast ('"' :: init) (by decide)
  | plain htext hslash =>
    rcases List.eq_nil_or_concat text with rfl | ⟨front, d, rfl⟩
    · rfl
    · rw [List.concat_eq_append] at htext ⊢
      exact hlast _ (htext d (by simp))

/-- What is apart from a text is so with single spaces, if it is not a line. -/
theorem Apart.squeeze {text cs tail : List Char} (h : Apart text (cs ++ tail))
    (hline : ¬ ['/', '/'] <+: text) : Apart text (squeeze false cs) := by
  have hhead : ∀ {d : Char}, isBlank d = false → (Text.squeeze false cs).head? = some d →
      (cs ++ tail).head? = some d := by
    intro d hd hsome
    obtain ⟨rest, rfl⟩ := List.head?_eq_some_iff.mp ((Text.head?_squeeze_iff hd).mp hsome)
    rfl
  refine ⟨fun hslashes => absurd hslashes hline, fun htext => ?_, fun htext => ?_, ?_, ?_⟩
  · exact fun hcolon => h.colon htext (hhead (by decide) hcolon)
  · exact fun hminus => h.minus htext (hhead (by decide) hminus)
  · intro c hc hlong d hd
    rcases Text.mem_squeeze d (List.mem_of_mem_head? hd) with hblank | rfl
    · exact h.word c hc hlong d (hhead hblank hd)
    · decide
  · intro htext hmark
    obtain ⟨rest, rfl⟩ := List.head?_eq_some_iff.mp ((Text.head?_squeeze_iff (by decide)).mp hmark)
    have hafter : startsWithWord (rest ++ tail) = false := h.raw htext rfl
    rw [Text.squeeze_cons (by decide)]
    refine Bool.eq_false_iff.mpr fun hstart => ?_
    cases hsqueezed : Text.squeeze false rest with
    | nil =>
      rw [hsqueezed] at hstart
      cases hstart
    | cons d ds =>
      rw [hsqueezed] at hstart
      have hd : isBlank d = false := isBlank_of_wordChar (isWordChar_of_isWordStart hstart)
      obtain ⟨rest', rfl⟩ := List.head?_eq_some_iff.mp
        ((Text.head?_squeeze_iff hd).mp (by rw [hsqueezed]; rfl))
      have hword : Identifier.isWordStart d = true := hstart
      rw [show startsWithWord (d :: rest' ++ tail) = Identifier.isWordStart d from rfl, hword] at hafter
      cases hafter

/-! ### What is read of a shape -/

theorem first_block {inner body : List Char} (h : commentBody 0 inner = some (body, []))
    (after : List Char) : first '/' (('*' :: inner) ++ after) =
      .ok ⟨if isDocBlock ('/' :: '*' :: inner) then some (.doc, body.drop 1) else none,
        ('*' :: inner).length⟩ := by
  have halone : first '/' (('*' :: inner) ++ []) =
      .ok ⟨if isDocBlock ('/' :: '*' :: inner) then some (.doc, body.drop 1) else none,
        ('*' :: inner).length⟩ := by
    rw [List.append_nil, first_slash, if_neg (by simp), if_pos List.head?_cons]
    simp [slashStar, blockComment, h]
  exact (first_of_apart halone).2 after
    (.of_closed (by decide) (fun _ => by simp) (List.cons_ne_nil _ _))

theorem first_string {inner value : List Char} (h : stringBody false inner = .closed value [])
    (after : List Char) :
    first '"' (inner ++ after) = .ok ⟨some (.string, value), inner.length⟩ := by
  have halone : first '"' (inner ++ []) = .ok ⟨some (.string, value), inner.length⟩ := by
    rw [List.append_nil, first_quote]
    simp [quote, stringLiteral, h]
  have hne : inner ≠ [] := by
    rintro rfl
    cases h
  exact (first_of_apart halone).2 after (.of_closed (by decide) (fun h => absurd h (by decide)) hne)

theorem first_line {rest : List Char} (h : '\n' ∉ rest) : first '/' ('/' :: rest) =
    .ok ⟨if isDocLine ('/' :: '/' :: rest) then some (.doc, dropReturns (rest.drop 1)) else none,
      ('/' :: rest).length⟩ := by
  have hall : lineComment ('/' :: '/' :: rest) = '/' :: '/' :: rest := by
    have hrest : lineComment rest = rest :=
      List.takeWhile_eq_self_iff.mpr fun d hd => by
        rw [bne_iff_ne]
        rintro rfl
        exact h hd
    change '/' :: '/' :: lineComment rest = _
    rw [hrest]
  rw [first_slash, if_pos List.head?_cons, slashes, hall]
  split <;> rfl

end Lexeme

/-! ## Single spaces -/

section
variable {p : Piece} {ps : List Piece} {tail : List Char}

/-- Single spaces in pieces, from the text of the first of them on. -/
theorem squeeze_spell_cons (hp : p.ReadsBefore (spell ps ++ tail)) (pending : Bool) :
    ∃ gap : List Char, (∀ d ∈ gap, Lexeme.isSpace d = true) ∧
      squeeze pending (spell (p :: ps)) = gap ++ squeeze false (p.text ++ spell ps) := by
  obtain ⟨hgap, c, more, htext, hfirst⟩ := hp
  have hc : isBlank c = false := (Lexeme.shape_of_first_append hfirst).not_blank c rfl
  refine ⟨if pending || !p.gap.isEmpty then [' '] else [], fun d hd => ?_, ?_⟩
  · split at hd
    · rw [List.mem_singleton.mp hd]
      rfl
    · cases hd
  · rw [spell_cons, Text.squeeze_blanks fun d hd => Lexeme.isBlank_of_space (hgap d hd), htext,
      List.cons_append, Text.squeeze_head hc]

/-- A piece that is not changed is read as before. -/
theorem spells_squeeze_same (hp : p.ReadsBefore (spell ps ++ tail)) (hline : ¬ p.IsLine)
    (hsame : squeeze false p.text = p.text) (pending : Bool) :
    Spells (squeeze pending (spell (p :: ps))) (contents (p :: ps)) ↔
      Spells (squeeze false (spell ps)) (contents ps) := by
  obtain ⟨gap, hgap, hall⟩ := squeeze_spell_cons hp pending
  obtain ⟨-, c, more, htext, hfirst⟩ := hp
  obtain ⟨hapart, hlocal⟩ := Lexeme.first_of_apart hfirst
  unfold IsLine at hline
  rw [htext] at hline hsame
  rw [hall, Text.squeeze_append, htext, hsame, (Lexeme.shape_of_first_append hfirst).endsBlank hline,
    List.cons_append, contents_cons]
  rw [spells_cons_iff hgap (hlocal _ (hapart.squeeze hline))]
  constructor
  · rintro ⟨cs', hcs, hspells⟩
    rwa [List.append_cancel_left hcs]
  · exact fun hspells => ⟨_, rfl, hspells⟩

theorem dropReturns_of_last {text : List Char} (h : ∀ d ∈ text.getLast?, d ≠ '\r') :
    Lexeme.dropReturns text = text := by
  unfold Lexeme.dropReturns
  rw [← List.head?_reverse] at h
  cases hrev : text.reverse with
  | nil => rw [← List.reverse_reverse text, hrev]; rfl
  | cons d ds =>
    have hd : d ≠ '\r' := h d (by rw [hrev]; rfl)
    rw [List.dropWhile_cons_of_neg (by simpa using hd), ← hrev, List.reverse_reverse]

/-- A token that does not end with a carriage return is steady if its text stays the same. -/
theorem steady_iff {p : Piece} (hp : p.ReadsBefore tail) (htoken : p.token.isSome = true)
    (hlast : ∀ d ∈ p.text.getLast?, d ≠ '\r') : p.Steady ↔ squeeze false p.text = p.text := by
  obtain ⟨-, c, more, htext, hfirst⟩ := hp
  have hc : isBlank c = false := (Lexeme.shape_of_first_append hfirst).not_blank c rfl
  unfold Steady
  rw [dropReturns_of_last hlast, htext, Text.normalize_eq_squeeze hc]
  exact ⟨fun h => h htoken, fun h _ => h⟩

/-- A string that is changed is read as something else. -/
theorem not_spells_of_string {gap inner value after : List Char} {cs : List Content}
    (hgap : ∀ d ∈ gap, Lexeme.isSpace d = true)
    (hvalue : Lexeme.stringBody false inner = .closed value []) (hchanged : squeeze false inner ≠ inner) :
    ¬ Spells (gap ++ '"' :: (squeeze false inner ++ after)) ((.string, value) :: cs) := by
  intro h
  obtain ⟨token, more, after', cs', hrest, hfirst, hcs, -⟩ := exists_of_spells hgap (by decide) h
  rw [Lexeme.first_quote] at hfirst
  unfold Lexeme.quote Lexeme.stringLiteral at hfirst
  simp only [List.drop] at hfirst
  cases hbody : Lexeme.stringBody false (squeeze false inner ++ after) with
  | unterminated =>
    rw [hbody] at hfirst
    cases hfirst
  | unknownEscape e rest =>
    rw [hbody] at hfirst
    cases hfirst
  | closed value' rest' =>
    rw [hbody] at hfirst
    obtain ⟨rfl, -⟩ := Lexeme.mk.inj (Except.ok.inj hfirst)
    obtain ⟨hcontent, -⟩ := List.cons.inj hcs
    have hsame : value' = value := (Prod.mk.inj hcontent).2.symm
    exact hchanged ((Lexeme.stringBody_squeeze hvalue after value' rest' hbody).eq hsame)

theorem dropReturns_cons {c : Char} {cs : List Char} (h : c ≠ '\r') :
    Lexeme.dropReturns (c :: cs) = c :: Lexeme.dropReturns cs := by
  unfold Lexeme.dropReturns
  rw [List.reverse_cons, List.dropWhile_append]
  split
  · next hall =>
    rw [List.isEmpty_iff.mp hall, List.dropWhile_cons_of_neg (by simpa using h)]
    rfl
  · rw [List.reverse_append]
    rfl

namespace Lexeme

theorem isDocLine_slash (rest : List Char) :
    isDocLine ('/' :: '/' :: '/' :: rest) = !(rest.head? == some '/') := by
  cases rest with
  | nil => rfl
  | cons c rest =>
    by_cases hc : c = '/'
    · subst hc
      rfl
    · simp [isDocLine, hc]

theorem isDocLine_other {rest : List Char} (h : rest.head? ≠ some '/') :
    isDocLine ('/' :: '/' :: rest) = false := by
  cases rest with
  | nil => rfl
  | cons c rest =>
    have hc : c ≠ '/' := fun hc => h (congrArg some hc)
    simp [isDocLine, hc]

/-- A line is documentation with single spaces if it is so without, whatever is taken in behind it. -/
theorem isDocLine_squeeze {rest after : List Char} (hafter : after.head? ≠ some '/') :
    isDocLine ('/' :: '/' :: squeeze false (rest ++ after)) = isDocLine ('/' :: '/' :: rest) := by
  have hslash : isBlank '/' = false := by decide
  have hhead : ∀ {cs : List Char},
      (squeeze false (cs ++ after)).head? = some '/' ↔ cs.head? = some '/' := by
    intro cs
    rw [Text.head?_squeeze_iff hslash]
    cases cs with
    | nil => exact iff_of_false hafter nofun
    | cons c cs => exact Iff.rfl
  by_cases h : rest.head? = some '/'
  · obtain ⟨rest', rfl⟩ := List.head?_eq_some_iff.mp h
    rw [List.cons_append, Text.squeeze_cons hslash, isDocLine_slash, isDocLine_slash, Bool.eq_iff_iff]
    simp [hhead]
  · rw [isDocLine_other h, isDocLine_other fun h' => h (hhead.mp h')]

/-- With single spaces everything is on one line. -/
theorem not_mem_squeeze (cs : List Char) : '\n' ∉ squeeze false cs := by
  intro h
  rcases Text.mem_squeeze _ h with hblank | hspace
  · cases hblank
  · cases hspace

end Lexeme

theorem last_squeeze_ne {cs : List Char} : ∀ d ∈ (squeeze false cs).getLast?, d ≠ '\r' := by
  rintro d hd rfl
  cases Text.getLast?_squeeze _ hd

/-- A line that is the last piece is read as before if its text stays the same, but for carriage returns
at its end. -/
theorem spells_line_iff {gap rest : List Char} {content : Content}
    (hgap : ∀ d ∈ gap, Lexeme.isSpace d = true)
    (htoken : (if Lexeme.isDocLine ('/' :: '/' :: rest) then
      some (TokenKind.doc, Lexeme.dropReturns (rest.drop 1)) else none) = some content) :
    Spells (gap ++ squeeze false ('/' :: '/' :: rest)) [content] ↔
      normalize ('/' :: '/' :: rest) = Lexeme.dropReturns ('/' :: '/' :: rest) := by
  have hslash : isBlank '/' = false := by decide
  have hdoc : Lexeme.isDocLine ('/' :: '/' :: rest) = true := by
    by_contra hno
    rw [if_neg hno] at htoken
    cases htoken
  rw [if_pos hdoc] at htoken
  cases htoken
  obtain ⟨x, rfl⟩ : ∃ x, rest = '/' :: x := by
    by_contra hno
    have hhead : rest.head? ≠ some '/' := fun h => hno (List.head?_eq_some_iff.mp h)
    rw [Lexeme.isDocLine_other hhead] at hdoc
    cases hdoc
  have hfirst := Lexeme.first_line (Lexeme.not_mem_squeeze ('/' :: x))
  rw [← List.append_nil ('/' :: x), Lexeme.isDocLine_squeeze (by simp), List.append_nil, if_pos hdoc,
    Text.squeeze_cons hslash] at hfirst
  rw [Text.normalize_eq_squeeze hslash, Text.squeeze_cons hslash, Text.squeeze_cons hslash,
    Text.squeeze_cons hslash]
  rw [dropReturns_cons (by decide), dropReturns_cons (by decide), dropReturns_cons (by decide)]
  have hvalue : Lexeme.dropReturns (squeeze false x) = squeeze false x :=
    dropReturns_of_last last_squeeze_ne
  rw [List.drop_succ_cons, List.drop_zero, hvalue] at hfirst
  rw [List.drop_succ_cons, List.drop_zero]
  constructor
  · intro h
    obtain ⟨token, more, after, cs', -, hfirst', hcs, -⟩ := exists_of_spells hgap (by decide) h
    rw [hfirst] at hfirst'
    obtain ⟨rfl, -⟩ := Lexeme.mk.inj (Except.ok.inj hfirst')
    rw [(Prod.mk.inj (List.cons.inj hcs).1).2]
  · intro h
    have hsame : Lexeme.dropReturns x = squeeze false x := by simpa using h.symm
    have hread : Lexeme.first '/' (('/' :: '/' :: squeeze false x) ++ []) =
        .ok ⟨some (.doc, squeeze false x), ('/' :: '/' :: squeeze false x).length⟩ := by
      rwa [List.append_nil]
    rw [← List.append_nil ('/' :: '/' :: squeeze false x), hsame, spells_cons_iff hgap hread]
    exact ⟨[], rfl, spells_of_spaces nofun⟩

/-- A line takes everything behind it. -/
theorem not_spells_of_line {gap rest after : List Char} {token : Option Content} {cs : List Content}
    (hgap : ∀ d ∈ gap, Lexeme.isSpace d = true)
    (htoken : (if Lexeme.isDocLine ('/' :: '/' :: rest) then
      some (TokenKind.doc, Lexeme.dropReturns (rest.drop 1)) else none) = token) (hcs : cs ≠ [])
    (hafter : after.head? ≠ some '/') :
    ¬ Spells (gap ++ squeeze false ('/' :: '/' :: (rest ++ after))) (token.toList ++ cs) := by
  have hslash : isBlank '/' = false := by decide
  rw [Text.squeeze_cons hslash, Text.squeeze_cons hslash]
  intro h
  obtain ⟨token', more, after', cs', hrest, hfirst, hcontents, hspells⟩ :=
    exists_of_spells hgap (by decide) h
  rw [Lexeme.first_line (Lexeme.not_mem_squeeze _), Lexeme.isDocLine_squeeze hafter] at hfirst
  obtain ⟨htoken', hlength⟩ := Lexeme.mk.inj (Except.ok.inj hfirst)
  have hnone : after' = [] := by
    have htotal := congrArg List.length hrest
    rw [List.length_append, hlength] at htotal
    exact List.eq_nil_of_length_eq_zero (by omega)
  rw [hnone] at hspells
  rw [spells_nil_iff.mp hspells, List.append_nil] at hcontents
  have hsame : token.toList.length = token'.toList.length := by
    rw [← htoken, ← htoken']
    split <;> rfl
  have htotal := congrArg List.length hcontents
  have hpos : 0 < cs.length := List.length_pos_iff.mpr hcs
  rw [List.length_append] at htotal
  omega

/-- Documentation in a block has a star in front of its text. -/
theorem eq_cons_drop_of_isDocBlock {inner body : List Char}
    (hinner : inner = body ++ ['*', '/']) (h : Lexeme.isDocBlock ('/' :: '*' :: inner) = true) :
    body = '*' :: body.drop 1 := by
  cases body with
  | nil =>
    rw [hinner] at h
    cases h
  | cons c body =>
    by_cases hc : c = '*'
    · rw [hc]
      rfl
    · rw [Lexeme.isDocBlock_other (by rw [hinner]; simpa using hc)] at h
      cases h

/-- Documentation in a block that is changed is read as something else. -/
theorem not_spells_of_block {gap inner body after : List Char} {cs : List Content}
    (hgap : ∀ d ∈ gap, Lexeme.isSpace d = true) (hbody : Lexeme.commentBody 0 inner = some (body, []))
    (hdoc : Lexeme.isDocBlock ('/' :: '*' :: inner) = true) (hchanged : squeeze false inner ≠ inner) :
    ¬ Spells (gap ++ '/' :: (('*' :: squeeze false inner) ++ after)) ((.doc, body.drop 1) :: cs) := by
  intro h
  obtain ⟨body', hbody'⟩ := Lexeme.EndsComment.squeeze ⟨_, hbody⟩ false
  have hfirst := Lexeme.first_block hbody' after
  rw [Lexeme.isDocBlock_squeeze, if_pos hdoc] at hfirst
  obtain ⟨cs', hcs, -⟩ := (spells_cons_iff hgap hfirst).mp h
  have hsame : body.drop 1 = body'.drop 1 := (Prod.mk.inj (List.cons.inj hcs).1).2
  have hinner := Lexeme.commentBody_append hbody
  have hinner' := Lexeme.commentBody_append hbody'
  have hstar := eq_cons_drop_of_isDocBlock hinner hdoc
  have hstar' := eq_cons_drop_of_isDocBlock hinner' (by rw [Lexeme.isDocBlock_squeeze, hdoc])
  exact hchanged (by rw [hinner', hinner, hstar', hstar, hsame])

/-! ### One piece after the other -/

section
variable {gap : List Char} {token : Option Content}

/-- A piece that stays the same, and is no line, leaves the rest to be kept. -/
theorem spells_squeeze_unchanged (hp : p.ReadsBefore (spell ps ++ tail))
    (hrest : ∀ pending, Spells (squeeze pending (spell ps)) (contents ps) ↔ Kept ps)
    (hkeep : squeeze false p.text = p.text) (hline : ¬ p.IsLine) (hsteady : p.Steady) (pending : Bool) :
    Spells (squeeze pending (spell (p :: ps))) (contents (p :: ps)) ↔ Kept (p :: ps) := by
  rw [spells_squeeze_same hp hline hkeep, hrest, kept_cons_iff]
  exact ⟨fun h => ⟨hsteady, fun _ => hline, h⟩, fun h => h.2.2⟩

theorem spells_squeeze_plain (hp : p.ReadsBefore (spell ps ++ tail))
    (hrest : ∀ pending, Spells (squeeze pending (spell ps)) (contents ps) ↔ Kept ps)
    (htoken : p.token.isSome = true) (hplain : ∀ c ∈ p.text, isBlank c = false)
    (hhead : p.text.head? ≠ some '/') (pending : Bool) :
    Spells (squeeze pending (spell (p :: ps))) (contents (p :: ps)) ↔ Kept (p :: ps) := by
  have hkeep : squeeze false p.text = p.text := Text.squeeze_of_not_blank hplain
  refine spells_squeeze_unchanged hp hrest hkeep ?_ ((steady_iff hp htoken ?_).mpr hkeep) pending
  · rintro ⟨rest, hrest⟩
    rw [← hrest] at hhead
    exact hhead rfl
  · rintro d hd rfl
    cases hplain _ (List.mem_of_mem_getLast? hd)

theorem spells_squeeze_string {inner value : List Char}
    (hp : ReadsBefore ⟨gap, '"' :: inner, some (.string, value)⟩ (spell ps ++ tail))
    (hrest : ∀ pending, Spells (squeeze pending (spell ps)) (contents ps) ↔ Kept ps)
    (hvalue : Lexeme.stringBody false inner = .closed value []) (pending : Bool) :
    Spells (squeeze pending (spell (⟨gap, '"' :: inner, some (.string, value)⟩ :: ps)))
      (contents (⟨gap, '"' :: inner, some (.string, value)⟩ :: ps)) ↔
        Kept (⟨gap, '"' :: inner, some (.string, value)⟩ :: ps) := by
  have hquote : squeeze false ('"' :: inner) = '"' :: squeeze false inner :=
    Text.squeeze_cons (by decide)
  obtain ⟨init, hinit⟩ := Lexeme.stringBody_append hvalue
  have hsteady := steady_iff hp rfl fun d hd => by
    rw [hinit, ← List.cons_append, List.getLast?_concat] at hd
    cases hd
    decide
  by_cases hkeep : squeeze false ('"' :: inner) = '"' :: inner
  · exact spells_squeeze_unchanged hp hrest hkeep (by rintro ⟨rest, ⟨⟩⟩) (hsteady.mpr hkeep) pending
  · obtain ⟨gap', hgap', hall⟩ := squeeze_spell_cons hp pending
    refine iff_of_false ?_ fun hkept => hkeep (hsteady.mp (kept_cons_iff.mp hkept).1)
    rw [hall, Text.squeeze_append, hquote, List.cons_append, contents_cons]
    exact not_spells_of_string hgap' hvalue fun h => hkeep (by rw [hquote, h])

theorem spells_squeeze_block {inner body : List Char}
    (hp : ReadsBefore ⟨gap, '/' :: '*' :: inner, token⟩ (spell ps ++ tail))
    (hrest : ∀ pending, Spells (squeeze pending (spell ps)) (contents ps) ↔ Kept ps)
    (hbody : Lexeme.commentBody 0 inner = some (body, []))
    (htoken : token = if Lexeme.isDocBlock ('/' :: '*' :: inner) then some (.doc, body.drop 1) else none)
    (pending : Bool) : Spells (squeeze pending (spell (⟨gap, '/' :: '*' :: inner, token⟩ :: ps)))
      (contents (⟨gap, '/' :: '*' :: inner, token⟩ :: ps)) ↔
        Kept (⟨gap, '/' :: '*' :: inner, token⟩ :: ps) := by
  have hopen : squeeze false ('/' :: '*' :: inner) = '/' :: '*' :: squeeze false inner := by
    rw [Text.squeeze_cons (by decide), Text.squeeze_cons (by decide)]
  have hline : ¬ IsLine ⟨gap, '/' :: '*' :: inner, token⟩ := by rintro ⟨rest, ⟨⟩⟩
  obtain ⟨gap', hgap', hall⟩ := squeeze_spell_cons hp pending
  by_cases hdoc : Lexeme.isDocBlock ('/' :: '*' :: inner) = true
  · rw [if_pos hdoc] at htoken
    subst htoken
    have hsteady := steady_iff hp rfl fun d hd => by
      have hend : '/' :: '*' :: inner = ('/' :: '*' :: (body ++ ['*'])) ++ ['/'] := by
        rw [Lexeme.commentBody_append hbody]
        simp
      rw [hend, List.getLast?_concat] at hd
      cases hd
      decide
    by_cases hkeep : squeeze false ('/' :: '*' :: inner) = '/' :: '*' :: inner
    · exact spells_squeeze_unchanged hp hrest hkeep hline (hsteady.mpr hkeep) pending
    · refine iff_of_false ?_ fun hkept => hkeep (hsteady.mp (kept_cons_iff.mp hkept).1)
      rw [hall, Text.squeeze_append, hopen, contents_cons]
      exact not_spells_of_block hgap' hbody hdoc fun h => hkeep (by rw [hopen, h])
  · -- A comment may be changed without harm.
    rw [if_neg hdoc] at htoken
    subst htoken
    obtain ⟨body', hbody'⟩ := Lexeme.EndsComment.squeeze ⟨_, hbody⟩ false
    have hfirst := Lexeme.first_block hbody'
      (squeeze (endsBlank false ('/' :: '*' :: inner)) (spell ps))
    rw [Lexeme.isDocBlock_squeeze, if_neg hdoc] at hfirst
    rw [hall, Text.squeeze_append, hopen, List.cons_append, spells_cons_iff hgap' hfirst,
      contents_cons, kept_cons_iff]
    constructor
    · rintro ⟨cs', hcs, hspells⟩
      rw [← List.append_cancel_left hcs] at hspells
      exact ⟨nofun, fun _ => hline, (hrest _).mp hspells⟩
    · exact fun h => ⟨_, rfl, (hrest _).mpr h.2.2⟩

theorem spells_squeeze_line {rest : List Char}
    (hp : ReadsBefore ⟨gap, '/' :: '/' :: rest, token⟩ (spell ps ++ tail))
    (hlast : ∀ p ∈ (⟨gap, '/' :: '/' :: rest, token⟩ :: ps).getLast?, p.token.isSome = true)
    (htoken : token = if Lexeme.isDocLine ('/' :: '/' :: rest) then
      some (.doc, Lexeme.dropReturns (rest.drop 1)) else none) (pending : Bool) :
    Spells (squeeze pending (spell (⟨gap, '/' :: '/' :: rest, token⟩ :: ps)))
      (contents (⟨gap, '/' :: '/' :: rest, token⟩ :: ps)) ↔
        Kept (⟨gap, '/' :: '/' :: rest, token⟩ :: ps) := by
  obtain ⟨gap', hgap', hall⟩ := squeeze_spell_cons hp pending
  have hline : IsLine ⟨gap, '/' :: '/' :: rest, token⟩ := ⟨rest, rfl⟩
  rw [hall]
  cases ps with
  | nil =>
    obtain ⟨content, rfl⟩ := Option.isSome_iff_exists.mp (hlast _ rfl)
    rw [spell_nil, List.append_nil, kept_cons_iff]
    exact (spells_line_iff hgap' htoken.symm).trans
      ⟨fun h => ⟨fun _ => h, fun h => absurd rfl h, kept_nil⟩, fun h => h.1 rfl⟩
  | cons q qs =>
    refine iff_of_false ?_ fun hkept => (kept_cons_iff.mp hkept).2.1 (List.cons_ne_nil q qs) hline
    obtain ⟨-, c, more, htext, hfirst⟩ := hp
    have hapart : Lexeme.Apart ('/' :: '/' :: rest) (spell (q :: qs) ++ tail) := by
      dsimp only at htext
      rw [htext]
      exact (Lexeme.first_of_apart hfirst).1
    have hafter : (spell (q :: qs)).head? ≠ some '/' := by
      intro h
      obtain ⟨after, hafter⟩ := List.head?_eq_some_iff.mp h
      have hnewline := hapart.line ⟨rest, rfl⟩ '/' (by rw [hafter]; rfl)
      exact absurd hnewline (by decide)
    have hcontents : contents (q :: qs) ≠ [] := by
      have hend := List.getLast?_eq_some_getLast (List.cons_ne_nil q qs)
      have hsome := hlast ((q :: qs).getLast (List.cons_ne_nil q qs))
        (by rw [List.getLast?_cons_cons]; exact hend)
      obtain ⟨content, hcontent⟩ := Option.isSome_iff_exists.mp hsome
      exact List.ne_nil_of_mem (List.mem_filterMap.mpr ⟨_, List.getLast_mem _, hcontent⟩)
    rw [contents_cons]
    exact not_spells_of_line hgap' htoken.symm hcontents hafter

end

/-- **Single spaces.** With single spaces for the blanks in it, a text is read as the same tokens if and only if all
of its pieces are kept by that. -/
theorem spells_squeeze_iff (hps : Reads ps tail)
    (hlast : (∀ p ∈ ps.getLast?, p.token.isSome = true) ∨ ∀ p ∈ ps, ¬ p.IsLine) (pending : Bool) :
    Spells (squeeze pending (spell ps)) (contents ps) ↔ Kept ps := by
  induction ps generalizing pending with
  | nil => exact iff_of_true (spells_of_spaces nofun) kept_nil
  | cons p ps ih =>
    obtain ⟨hp, hps⟩ := hps
    have hrest : ∀ pending, Spells (squeeze pending (spell ps)) (contents ps) ↔ Kept ps := by
      refine ih hps (hlast.imp (fun hlast q hq => hlast q ?_) ?_)
      · exact fun hline q hq => hline q (List.mem_cons_of_mem p hq)
      · rw [List.getLast?_cons, hq]
        rfl
    have hread := hp
    obtain ⟨-, c, more, htext, hfirst⟩ := hread
    have hshape := Lexeme.shape_of_first_append hfirst
    rw [← htext] at hshape
    rcases p with ⟨gap, text, token⟩
    dsimp only at hshape
    cases hshape with
    | plain hplain hhead => exact spells_squeeze_plain hp hrest rfl hplain hhead pending
    | string hvalue => exact spells_squeeze_string hp hrest hvalue pending
    | block hbody => exact spells_squeeze_block hp hrest hbody rfl pending
    | @line rest hnewline =>
      rcases hlast with hlast | hline
      · exact spells_squeeze_line hp hlast rfl pending
      · exact absurd ⟨rest, rfl⟩ (hline _ (List.mem_cons_self ..))

end

end Typestate
