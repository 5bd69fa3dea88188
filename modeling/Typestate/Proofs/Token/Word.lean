import Typestate.Proofs.Token.Parting

/-!
Written words. A text that has some words in a row, with white space between that keeps them apart, has
the tokens of the words, one word after the other (`LaidOut.tokenize`).
-/

namespace Typestate

open Piece

/-- A word of a written text and what it is to be read as: a lexeme, or a block of several. -/
inductive Word
  | lexeme (text : List Char) (content : Content)
  | block (text : List Char) (contents : List Content)

namespace Word

def text : Word → List Char
  | lexeme text _ => text
  | block text _ => text

def contents : Word → List Content
  | lexeme _ content => [content]
  | block _ contents => contents

/-- The word does not run into what follows it. A block stands in front of a space or a semicolon. -/
def Apart : Word → List Char → Prop
  | lexeme text _, after => Lexeme.Apart text after
  | block _ _, after => ∀ c ∈ after.head?, Lexeme.isSpace c = true ∨ c = ';'

/-- The word alone is read as it is to be. No space stands around a block, and no string or comment in
it. -/
def Legible : Word → Prop
  | lexeme text content => ∃ c more, text = c :: more ∧
      Lexeme.first c more = .ok ⟨some content, more.length⟩
  | block text contents => Text.normalize text = text ∧ '"' ∉ text ∧ '/' ∉ text ∧ contents ≠ [] ∧
      Spells text contents

end Word

/-- A text that has the words in a row, each with white space in front of it that keeps it apart. -/
inductive LaidOut : List Word → List Char → Prop
  | nil {gap : List Char} (hgap : ∀ c ∈ gap, Lexeme.isSpace c = true) : LaidOut [] gap
  | cons {gap rest : List Char} {w : Word} {ws : List Word}
    (hgap : ∀ c ∈ gap, Lexeme.isSpace c = true) (hapart : w.Apart rest) (hrest : LaidOut ws rest) :
    LaidOut (w :: ws) (gap ++ (w.text ++ rest))

/-- The words, each on a line of its own. -/
def onLines : List Word → List Char
  | [] => ['\n']
  | w :: ws => '\n' :: (w.text ++ onLines ws)

theorem Word.apart_newline (w : Word) (rest : List Char) : w.Apart ('\n' :: rest) := by
  cases w with
  | lexeme text content =>
    by_cases hline : ['/', '/'] <+: text
    · refine ⟨?_, nofun, nofun, ?_, nofun⟩
      · rintro _ _ ⟨⟩
        rfl
      · rintro _ _ _ _ ⟨⟩
        decide
    · exact .of_space hline (by decide)
  | block text contents =>
    rintro _ ⟨⟩
    exact Or.inl rfl

/-- Words on lines of their own are kept apart. -/
theorem laidOut_onLines (ws : List Word) : LaidOut ws (onLines ws) := by
  have hgap : ∀ c ∈ ['\n'], Lexeme.isSpace c = true := List.forall_mem_singleton.mpr rfl
  induction ws with
  | nil => exact .nil hgap
  | cons w ws ih =>
    refine LaidOut.cons hgap ?_ ih
    cases ws <;> exact w.apart_newline _

/-! ## Looking for words -/

/-- The text of a lexeme does not run into what follows it, as far as the next character shows. -/
def Lexeme.standsApart (text tail : List Char) : Bool :=
  (!(['/', '/'].isPrefixOf text) || tail.head?.all (· == '\n')) &&
    (text != [':'] || tail.head? != some ':') && (text != ['-'] || tail.head? != some '>') &&
    (!text.head?.any isLongStart || tail.head?.all (!Identifier.isWordChar ·)) &&
    (text != ['r'] || tail.head? != some '#')

theorem Lexeme.apart_of_standsApart {text tail : List Char} (h : standsApart text tail = true) :
    Apart text tail := by
  simp only [standsApart, Bool.and_eq_true, Bool.or_eq_true, Bool.not_eq_true', bne_iff_ne,
    Option.all_eq_true, beq_iff_eq] at h
  obtain ⟨⟨⟨⟨hline, hcolon⟩, hminus⟩, hword⟩, hraw⟩ := h
  refine ⟨fun htext => ?_, fun htext => ?_, fun htext => ?_, ?_, fun htext hmark => ?_⟩
  · refine hline.resolve_left fun hno => ?_
    rw [List.isPrefixOf_iff_prefix.mpr htext] at hno
    cases hno
  · exact hcolon.resolve_left (not_not_intro htext)
  · exact hminus.resolve_left (not_not_intro htext)
  · intro c hc hlong
    refine hword.resolve_left fun hno => ?_
    rw [Option.mem_def.mp hc, Option.any_some, hlong] at hno
    cases hno
  · exact absurd hmark (hraw.resolve_left (not_not_intro htext))

/-- What follows a word keeps it apart. -/
def Word.standsApart : Word → List Char → Bool
  | lexeme text _, after => Lexeme.standsApart text after
  | block _ _, after => after.head?.all fun c => Lexeme.isSpace c || c == ';'

theorem Word.apart_of_standsApart {w : Word} {after : List Char} (h : w.standsApart after = true) :
    w.Apart after := by
  cases w with
  | lexeme text content => exact Lexeme.apart_of_standsApart h
  | block text contents => simpa [Word.standsApart, Word.Apart, Option.all_eq_true] using h

/-- Look for the words one after the other. -/
def findsWords : List Word → List Char → Bool
  | [], text => text.all Lexeme.isSpace
  | w :: ws, text =>
    match w.text.isPrefixOf? (text.dropWhile Lexeme.isSpace) with
    | some after => w.standsApart after && findsWords ws after
    | none => false

theorem laidOut_of_findsWords {ws : List Word} {text : List Char} (h : findsWords ws text = true) :
    LaidOut ws text := by
  induction ws generalizing text with
  | nil => exact .nil (List.all_eq_true.mp h)
  | cons w ws ih =>
    rw [findsWords] at h
    split at h
    · next after hafter =>
      rw [Bool.and_eq_true] at h
      rw [← List.takeWhile_append_dropWhile (p := Lexeme.isSpace) (l := text),
        ← List.isPrefixOf?_eq_some_iff_append_eq.mp hafter]
      exact .cons (fun c hc => List.mem_takeWhile_imp hc) (Word.apart_of_standsApart h.1) (ih h.2)
    · cases h

/-! ## Pieces of words -/

/-- The pieces of a word. -/
structure Word.Pieces (w : Word) (ps : List Piece) : Prop where
  nonempty : ps ≠ []
  spell : spell ps = w.text
  flush : setGap [] ps = ps
  contents : Piece.contents ps = w.contents
  tokens : ∀ p ∈ ps, p.token.isSome = true
  reads : ∀ after, w.Apart after → Reads ps after

theorem pieces_lexeme {text : List Char} {content : Content} (h : (Word.lexeme text content).Legible) :
    (Word.lexeme text content).Pieces [⟨[], text, some content⟩] := by
  obtain ⟨c, more, rfl, hfirst⟩ := h
  have hread : Lexeme.first c (more ++ []) = .ok ⟨some content, more.length⟩ := by
    rwa [List.append_nil]
  refine ⟨List.cons_ne_nil _ _, ?_, rfl, rfl, ?_, fun after hafter => ?_⟩
  · rw [spell_cons, spell_nil, List.append_nil]
    rfl
  · intro p hp
    rw [List.mem_singleton.mp hp]
    rfl
  · exact ⟨⟨List.forall_mem_nil _, c, more, rfl, (Lexeme.first_of_apart hread).2 after hafter⟩, trivial⟩

/-- A text without slashes and quotes has no comments and no strings. -/
theorem isSome_and_not_isLine {ps : List Piece} {tail : List Char} (hps : Reads ps tail)
    (hquote : '"' ∉ spell ps) (hslash : '/' ∉ spell ps) :
    ∀ p ∈ ps, p.token.isSome = true ∧ ¬ p.IsLine := by
  induction ps with
  | nil => nofun
  | cons p ps ih =>
    obtain ⟨⟨-, c, more, htext, hfirst⟩, hps⟩ := hps
    have hshape := Lexeme.shape_of_first_append hfirst
    rw [← htext] at hshape
    simp only [spell_cons, List.mem_append, not_or] at hquote hslash
    refine List.forall_mem_cons.mpr ⟨?_, ih hps hquote.2.2 hslash.2.2⟩
    rcases p with ⟨gap, text, token⟩
    dsimp only at hshape hquote hslash
    cases hshape with
    | line => exact absurd (List.mem_cons_self ..) hslash.2.1
    | block => exact absurd (List.mem_cons_self ..) hslash.2.1
    | string => exact absurd (List.mem_cons_self ..) hquote.2.1
    | plain hplain hhead =>
      refine ⟨rfl, ?_⟩
      rintro ⟨rest, rfl⟩
      exact hhead rfl

theorem pieces_block {text : List Char} {cs : List Content} (h : (Word.block text cs).Legible) :
    ∃ ps, (Word.block text cs).Pieces ps := by
  obtain ⟨hnormal, hquote, hslash, hne, ps, tail, hps, htail, rfl, rfl⟩ := h
  rw [Text.normalize_append_blanks fun d hd => Lexeme.isBlank_of_space (htail d hd), normalize_spell hps]
    at hnormal
  have hnone : tail = [] := by
    rcases List.eq_nil_or_concat tail with rfl | ⟨init, d, rfl⟩
    · rfl
    · rw [List.concat_eq_append] at hnormal htail
      have hlast := Text.getLast?_squeeze d (by
        rw [hnormal, ← List.append_assoc, List.getLast?_concat]
        rfl)
      rw [Lexeme.isBlank_of_space (htail d (by simp))] at hlast
      cases hlast
  subst hnone
  rw [List.append_nil] at hnormal hquote hslash
  have hpieces := isSome_and_not_isLine hps hquote hslash
  obtain ⟨p, ps, rfl⟩ : ∃ p ps', ps = p :: ps' := List.exists_cons_of_ne_nil (by rintro rfl; exact hne rfl)
  have hgap : p.gap = [] := by
    obtain ⟨c, cs, hc, hflush, hspell⟩ := head_spell_setGap hps
    rw [hflush, hspell, Text.squeeze_cons hc] at hnormal
    cases hgap : p.gap with
    | nil => rfl
    | cons d gap =>
      rw [hgap] at hnormal
      obtain ⟨rfl, -⟩ := List.cons.inj hnormal
      have hblank := Lexeme.isBlank_of_space (hps.1.gap c (by rw [hgap]; exact List.mem_cons_self ..))
      rw [hc] at hblank
      cases hblank
  refine ⟨p :: ps, List.cons_ne_nil _ _, (List.append_nil _).symm, ?_, rfl,
    fun q hq => (hpieces q hq).1, ?_⟩
  · rcases p with ⟨gap, text, token⟩
    obtain rfl : gap = [] := hgap
    rfl
  · intro after hafter
    refine hps.change (fun q hq => ?_) ?_
    · have hline := (hpieces q (List.mem_of_mem_getLast? hq)).2
      cases after with
      | nil => exact .nil _
      | cons c after =>
        rcases hafter c rfl with hspace | rfl
        · exact .of_space hline hspace
        · exact .of_head hline (by decide) nofun (by decide) (by decide)
    · cases after with
      | nil => rfl
      | cons c after =>
        rcases hafter c rfl with hspace | rfl
        · exact Lexeme.startsWithWord_of_head (Lexeme.isWordChar_of_isSpace hspace)
        · exact Lexeme.startsWithWord_of_head (by decide)

theorem Word.Legible.exists_pieces {w : Word} (h : w.Legible) : ∃ ps, w.Pieces ps := by
  cases w with
  | lexeme text content => exact ⟨_, pieces_lexeme h⟩
  | block text contents => exact pieces_block h

/-! ## Pieces of texts -/

/-- The pieces of a word as they stand in a text, with white space in front of them. -/
def Word.StandsAs (w : Word) (qs : List Piece) : Prop := ∃ ps gap, w.Pieces ps ∧ qs = setGap gap ps

theorem spell_setGap {ps : List Piece} (gap : List Char) (hne : ps ≠ []) (hflush : setGap [] ps = ps) :
    spell (setGap gap ps) = gap ++ spell ps := by
  obtain ⟨p, ps, rfl⟩ := List.exists_cons_of_ne_nil hne
  have hgap : p.gap = [] := by rw [← (List.cons.inj hflush).1]
  rw [setGap, spell_cons, spell_cons, hgap]
  rfl

/-- A text that has legible words in a row is read as their pieces, in front of any text that keeps apart what
is apart without it. -/
theorem LaidOut.exists_pieces {ws : List Word} {text after : List Char} (h : LaidOut ws text)
    (hws : ∀ w ∈ ws, w.Legible) (hafter : ∀ (w : Word) rest, w.Apart rest → w.Apart (rest ++ after)) :
    ∃ pss tail, List.Forall₂ Word.StandsAs ws pss ∧ Reads pss.flatten (tail ++ after) ∧
      (∀ c ∈ tail, Lexeme.isSpace c = true) ∧ text = spell pss.flatten ++ tail := by
  induction h with
  | @nil gap hgap => exact ⟨[], gap, .nil, trivial, hgap, rfl⟩
  | @cons gap rest w ws hgap hapart hrest ih =>
    obtain ⟨hw, hws⟩ := List.forall_mem_cons.mp hws
    obtain ⟨ps, hps⟩ := hw.exists_pieces
    obtain ⟨pss, tail, hpss, hreads, htail, rfl⟩ := ih hws
    refine ⟨setGap gap ps :: pss, tail, .cons ⟨ps, gap, hps, rfl⟩ hpss, ?_, htail, ?_⟩
    · rw [List.flatten_cons, reads_append, ← List.append_assoc]
      exact ⟨(hps.reads _ (hafter w _ hapart)).setGap hgap, hreads⟩
    · rw [List.flatten_cons, spell_append, spell_setGap gap hps.nonempty hps.flush, hps.spell,
        List.append_assoc, List.append_assoc]

/-! ## Tokens of texts -/

/-- The tokens of a word in a source. -/
structure Word.TakenAs (src : Source) (w : Word) (taken : List Token) : Prop where
  contents : taken.map Token.content = w.contents
  text : src.textOf taken = String.ofList (Text.normalize w.text)

/-- A lexeme is one token. -/
theorem Word.TakenAs.exists_token {src : Source} {text : List Char} {content : Content} {taken : List Token}
    (h : (Word.lexeme text content).TakenAs src taken) : ∃ t, taken = [t] ∧ t.content = content :=
  List.map_eq_singleton_iff.mp h.contents

/-- The tokens of words in a row. -/
inductive TokensOf (src : Source) : List Word → List Token → Prop
  | nil : TokensOf src [] []
  | cons {w : Word} {ws : List Word} {taken rest : List Token} (hw : w.TakenAs src taken)
    (hrest : TokensOf src ws rest) : TokensOf src (w :: ws) (taken ++ rest)

theorem TokensOf.contents {src : Source} {ws : List Word} {ts : List Token} (h : TokensOf src ws ts) :
    ts.map Token.content = ws.flatMap Word.contents := by
  induction h with
  | nil => rfl
  | cons hw hrest ih => rw [List.map_append, hw.contents, ih, List.flatMap_cons]

/-- The tokens of one row of words in front of another. -/
theorem TokensOf.exists_append {src : Source} {ws ws' : List Word} {ts : List Token}
    (h : TokensOf src (ws ++ ws') ts) :
    ∃ front back, ts = front ++ back ∧ TokensOf src ws front ∧ TokensOf src ws' back := by
  induction ws generalizing ts with
  | nil => exact ⟨[], ts, rfl, .nil, h⟩
  | cons w ws ih =>
    cases h with
    | cons hw hrest =>
      obtain ⟨front, back, rfl, hfront, hback⟩ := ih hrest
      exact ⟨_, back, (List.append_assoc ..).symm, .cons hw hfront, hback⟩

theorem setGap_setGap (gap gap' : List Char) (ps : List Piece) :
    setGap gap (setGap gap' ps) = setGap gap ps := by
  cases ps <;> rfl

theorem tokensOf_placed {src : Source} {ws : List Word} {pss : List (List Piece)} {front : List Piece}
    {tail : List Char} (hpss : List.Forall₂ Word.StandsAs ws pss) (hreads : Reads pss.flatten tail)
    (htext : src.text.toList = spell (front ++ pss.flatten) ++ tail) :
    TokensOf src ws (placed ((Cursor.start src.text).advanceBy (spell front).length) pss.flatten) := by
  induction hpss generalizing front with
  | nil => exact .nil
  | @cons w qs ws pss hw hpss ih =>
    obtain ⟨ps, gap, hps, rfl⟩ := hw
    rw [List.flatten_cons] at hreads htext ⊢
    obtain ⟨hqs, hreads⟩ := reads_append.mp hreads
    have hrest := ih hreads (by rw [htext, List.append_assoc])
    have htokens : ∀ p ∈ setGap gap ps, p.token.isSome = true :=
      forall_setGap (fun _ _ => id) gap hps.tokens
    have hfragment := Source.fragment_placed htext ⟨_, hqs⟩
      (fun p hp => htokens p (List.mem_of_mem_head? hp)) fun p hp => htokens p (List.mem_of_mem_getLast? hp)
    rw [setGap_setGap, hps.flush] at hfragment
    rw [placed_append, ← Cursor.advanceBy_add, ← List.length_append, ← spell_append]
    refine .cons ⟨hfragment.contents.symm.trans hps.contents, ?_⟩ hrest
    have hne : contents ps ≠ [] := by
      obtain ⟨p, ps, rfl⟩ := List.exists_cons_of_ne_nil hps.nonempty
      obtain ⟨content, htoken⟩ := Option.isSome_iff_exists.mp (hps.tokens p (List.mem_cons_self ..))
      rw [contents_cons, htoken]
      exact List.cons_ne_nil _ _
    rw [hfragment.textOf fun hnone => hne (by rw [hfragment.contents, hnone]; rfl), hps.spell]

/-- **Layout.** A text that has legible words in a row has their tokens. -/
theorem LaidOut.tokenize {src : Source} {ws : List Word} (h : LaidOut ws src.text.toList)
    (hws : ∀ w ∈ ws, w.Legible) : ∃ ts mark, TokensOf src ws ts ∧ mark.kind = .endOfInput ∧
      src.tokenize = .ok (ts ++ [mark]) := by
  obtain ⟨pss, tail, hpss, hreads, htail, htext⟩ := h.exists_pieces hws fun w rest hw =>
    (List.append_nil rest).symm ▸ hw
  rw [List.append_nil] at hreads
  obtain ⟨mark, hmark, htokens⟩ := Source.tokenize_of_reads src hreads htail htext
  have hplaced := tokensOf_placed hpss hreads (by rwa [List.nil_append])
  exact ⟨_, mark, hplaced, hmark, htokens⟩

end Typestate
