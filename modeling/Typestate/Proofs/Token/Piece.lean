import Typestate.Proofs.Token.Locality
import Typestate.Token.Lexer

/-!
A text as it is read: a list of pieces, each a token or comment with the spaces in front of it. A text
has tokens exactly if it is read as some pieces, and then its tokens are those of the pieces, each at the
place where it stands, and the mark of the end (`Source.tokenize_of_reads`, `Source.reads_of_tokenize`).
-/

namespace Typestate

/-- The kind and the value of a token. -/
abbrev Content := TokenKind × List Char

/-- The kind and the value of a token, without its place. -/
def Token.content (t : Token) : Content := (t.kind, t.value.toList)

/-- A token or comment as it stands in a text, with the spaces in front of it. -/
structure Piece where
  gap : List Char
  text : List Char
  token : Option Content

namespace Piece

/-- The spaces and the text. -/
def whole (p : Piece) : List Char := p.gap ++ p.text

/-- The characters of some pieces. -/
def spell (ps : List Piece) : List Char := ps.flatMap whole

/-- The kinds and values of the tokens among some pieces. -/
def contents (ps : List Piece) : List Content := ps.filterMap (·.token)

@[simp] theorem spell_nil : spell [] = [] := rfl

@[simp] theorem spell_cons (p : Piece) (ps : List Piece) :
    spell (p :: ps) = p.gap ++ (p.text ++ spell ps) := by
  rw [spell, List.flatMap_cons, whole, List.append_assoc]
  rfl

@[simp] theorem spell_append (ps qs : List Piece) : spell (ps ++ qs) = spell ps ++ spell qs :=
  List.flatMap_append

@[simp] theorem contents_nil : contents [] = [] := rfl

theorem contents_cons (p : Piece) (ps : List Piece) :
    contents (p :: ps) = p.token.toList ++ contents ps := by
  unfold contents
  rw [List.filterMap_cons]
  cases p.token <;> rfl

@[simp] theorem contents_append (ps qs : List Piece) :
    contents (ps ++ qs) = contents ps ++ contents qs := List.filterMap_append

end Piece

open Piece

/-- The piece is read in front of a text: the spaces, and then its token or comment. -/
structure Piece.ReadsBefore (p : Piece) (after : List Char) : Prop where
  gap : ∀ c ∈ p.gap, Lexeme.isSpace c = true
  text : ∃ c more, p.text = c :: more ∧
    Lexeme.first c (more ++ after) = .ok ⟨p.token, more.length⟩

/-- The pieces are read one after the other in front of a text. -/
def Reads : List Piece → List Char → Prop
  | [], _ => True
  | p :: ps, tail => p.ReadsBefore (spell ps ++ tail) ∧ Reads ps tail

theorem reads_append {ps qs : List Piece} {tail : List Char} :
    Reads (ps ++ qs) tail ↔ Reads ps (spell qs ++ tail) ∧ Reads qs tail := by
  induction ps with
  | nil => exact (and_iff_right trivial).symm
  | cons p ps ih =>
    rw [List.cons_append, Reads, Reads, ih, and_assoc, spell_append, List.append_assoc]

namespace Lexeme

/-- Nothing starts with a space. -/
theorem not_isSpace_of_first {c : Char} {rest : List Char} {l : Lexeme} (h : first c rest = .ok l) :
    isSpace c = false := by
  by_contra hspace
  rw [Bool.not_eq_false] at hspace
  rcases eq_of_isSpace hspace with rfl | rfl | rfl | rfl
  all_goals
    rw [first_other (by decide) (by decide) (by decide), if_neg (by decide), if_neg (by simp),
      if_neg (by decide)] at h
    cases h

/-- No complaint about a lexeme is one of standing still. -/
theorem first_ne_stalled {c : Char} {rest : List Char} {fault : Fault}
    (h : first c rest = .error fault) : fault.cause ≠ .stalled := by
  have hcomment : ∀ {cs fault}, slashStar cs = .error fault → fault.cause ≠ .stalled := by
    intro cs fault h
    unfold slashStar blockComment at h
    cases hbody : commentBody 0 (cs.drop 2) with
    | none =>
      rw [hbody] at h
      cases h
      nofun
    | some found =>
      rw [hbody] at h
      cases h
  have hliteral : ∀ {cs fault}, quote cs = .error fault → fault.cause ≠ .stalled := by
    intro cs fault h
    unfold quote stringLiteral at h
    cases hbody : stringBody false (cs.drop 1) with
    | closed value rest =>
      rw [hbody] at h
      cases h
    | unterminated =>
      rw [hbody] at h
      cases h
      nofun
    | unknownEscape e rest =>
      rw [hbody] at h
      cases h
      nofun
  have hpunctuation : ∀ {c rest fault}, punctuation c rest = .error fault → fault.cause ≠ .stalled := by
    intro c rest fault h
    unfold punctuation at h
    split at h
    · cases h
    split at h
    · cases h
    split at h <;> cases h
    nofun
  unfold first at h
  split at h
  · cases h
  split at h
  · exact hcomment h
  split at h
  · exact hliteral h
  split at h
  · split at h <;> cases h
    nofun
  split at h
  · cases h
  split at h
  · cases h
  split at h
  · cases h
  · exact hpunctuation h

end Lexeme

/-! ## Places -/

namespace Cursor

theorem advanceBy_add (m n : Nat) (c : Cursor) : advanceBy (m + n) c = advanceBy n (advanceBy m c) := by
  induction m generalizing c with
  | zero => rw [Nat.zero_add, advanceBy]
  | succ m ih => rw [Nat.succ_add, advanceBy, ih, advanceBy]

theorem offset_advance (c : Cursor) (h : c.rest ≠ []) : c.advance.offset = c.offset + 1 := by
  rcases c with ⟨_ | ⟨ch, rest⟩, offset, line, column⟩
  · exact absurd rfl h
  · unfold advance
    dsimp only
    split <;> rfl

theorem offset_advanceBy {n : Nat} {c : Cursor} (h : n ≤ c.rest.length) :
    (advanceBy n c).offset = c.offset + n := by
  induction n generalizing c with
  | zero => rfl
  | succ n ih =>
    have hne : c.rest ≠ [] := by
      intro hnil
      rw [hnil] at h
      cases h
    rw [advanceBy, ih, offset_advance c hne, Nat.add_assoc, Nat.add_comm 1 n]
    rw [rest_advance, List.length_drop]
    omega

theorem rest_advanceBy_append {front back : List Char} {c : Cursor} (h : c.rest = front ++ back) :
    (advanceBy front.length c).rest = back := by
  rw [rest_advanceBy, h, List.drop_left]

end Cursor

namespace Piece

/-- The tokens of pieces that stand at a cursor. -/
def placed (c : Cursor) : List Piece → List Token
  | [] => []
  | p :: ps =>
    (p.token.map fun (kind, value) =>
      (c.advanceBy p.gap.length).token p.text.length kind value).toList ++
        placed (c.advanceBy p.whole.length) ps

theorem contents_placed (c : Cursor) (ps : List Piece) :
    (placed c ps).map Token.content = contents ps := by
  induction ps generalizing c with
  | nil => rfl
  | cons p ps ih =>
    rw [placed, List.map_append, ih, contents_cons]
    congr 1
    cases p.token with
    | none => rfl
    | some content => simp [Token.content, Cursor.token]

theorem placed_append (c : Cursor) (ps qs : List Piece) :
    placed c (ps ++ qs) = placed c ps ++ placed (c.advanceBy (spell ps).length) qs := by
  induction ps generalizing c with
  | nil => rfl
  | cons p ps ih =>
    rw [List.cons_append, placed, placed, ih, List.append_assoc, ← Cursor.advanceBy_add]
    simp [whole, Nat.add_assoc]

end Piece

/-! ## Running -/

theorem skipSpaces_of_gap {c : Cursor} {gap rest : List Char} (h : c.rest = gap ++ rest)
    (hgap : ∀ c ∈ gap, Lexeme.isSpace c = true)
    (hrest : ∀ c ∈ rest.head?, Lexeme.isSpace c = false) :
    c.skipSpaces = c.advanceBy gap.length := by
  rw [Cursor.skipSpaces, h, Lexeme.takeWhile_append_of_head hgap hrest]

section
variable (src : Source) {c : Cursor}

theorem run_of_end (h : c.skipSpaces.rest = []) :
    Lexing.run src c = ⟨[c.skipSpaces.endToken], c.skipSpaces, none⟩ := by
  rw [Lexing.run]
  split
  · rfl
  · next heq =>
    rw [h] at heq
    cases heq

theorem run_of_first {ch : Char} {rest : List Char} {l : Lexeme} (h : c.skipSpaces.rest = ch :: rest)
    (hfirst : Lexeme.first ch rest = .ok l) :
    Lexing.run src c = (Lexing.run src (c.skipSpaces.advanceBy (l.more + 1))).prepend
      (l.token.map fun (kind, value) => c.skipSpaces.token (l.more + 1) kind value) := by
  rw [Lexing.run]
  split
  · next heq =>
    rw [h] at heq
    cases heq
  · next heq =>
    rw [h] at heq
    cases heq
    rw [hfirst]

/-- The spaces at a cursor do not matter to what is read from it on. -/
theorem run_congr {c' : Cursor} (h : c.skipSpaces = c'.skipSpaces) :
    Lexing.run src c = Lexing.run src c' := by
  rw [Lexing.run, Lexing.run, h]

/-- What is read as pieces gives their tokens, and reading goes on behind them. -/
theorem run_append {ps : List Piece} {rest : List Char} (h : Reads ps rest) (c : Cursor)
    (hc : c.rest = spell ps ++ rest) :
    Lexing.run src c = { Lexing.run src (c.advanceBy (spell ps).length) with
      tokens := placed c ps ++ (Lexing.run src (c.advanceBy (spell ps).length)).tokens } := by
  induction ps generalizing c with
  | nil => rfl
  | cons p ps ih =>
    obtain ⟨⟨hgap, ch, more, htext, hfirst⟩, hps⟩ := h
    have hall : c.rest = p.gap ++ ch :: (more ++ (spell ps ++ rest)) := by
      rw [hc, spell_cons, htext]
      simp
    have hskip : c.skipSpaces = c.advanceBy p.gap.length := by
      refine skipSpaces_of_gap hall hgap fun d hd => ?_
      cases hd
      exact Lexeme.not_isSpace_of_first hfirst
    have hrest : c.skipSpaces.rest = ch :: (more ++ (spell ps ++ rest)) := by
      rw [hskip, Cursor.rest_advanceBy_append hall]
    have hplace : c.skipSpaces.advanceBy (more.length + 1) = c.advanceBy p.whole.length := by
      rw [hskip, ← Cursor.advanceBy_add, whole, htext, List.length_append, List.length_cons]
    have hafter : (c.advanceBy p.whole.length).rest = spell ps ++ rest := by
      refine Cursor.rest_advanceBy_append ?_
      rw [hc, spell_cons, whole, List.append_assoc, List.append_assoc, List.append_assoc]
    have hlength : (spell (p :: ps)).length = p.whole.length + (spell ps).length := by
      rw [spell_cons, whole, ← List.append_assoc, List.length_append]
    rw [run_of_first src hrest hfirst, hplace, ih hps _ hafter, hlength, Cursor.advanceBy_add, Lexing.prepend,
      placed, hskip, htext, List.append_assoc]
    rfl

/-- What is read as pieces to the end gives their tokens and the mark of the end. -/
theorem run_of_reads {ps : List Piece} {tail : List Char} (h : Reads ps tail)
    (htail : ∀ c ∈ tail, Lexeme.isSpace c = true) (c : Cursor) (hc : c.rest = spell ps ++ tail) :
    ∃ final : Cursor, Lexing.run src c = ⟨placed c ps ++ [final.endToken], final, none⟩ := by
  have hrest : (c.advanceBy (spell ps).length).rest = tail := Cursor.rest_advanceBy_append hc
  have hend : (c.advanceBy (spell ps).length).skipSpaces.rest = [] := by
    rw [skipSpaces_of_gap (hrest.trans (List.append_nil tail).symm) htail nofun, Cursor.rest_advanceBy, hrest,
      List.drop_length]
  rw [run_append src h c hc, run_of_end src hend]
  exact ⟨_, rfl⟩

theorem rest_eq_spaces_append (c : Cursor) :
    c.rest = c.rest.takeWhile Lexeme.isSpace ++ c.skipSpaces.rest := by
  rw [Cursor.skipSpaces, Cursor.rest_advanceBy]
  exact (List.prefix_iff_eq_append.mp (List.takeWhile_prefix _)).symm

/-- What runs to the end is read as pieces with spaces behind them. -/
theorem reads_of_run (c : Cursor) (h : (Lexing.run src c).error = none) :
    ∃ ps tail, Reads ps tail ∧ (∀ d ∈ tail, Lexeme.isSpace d = true) ∧ c.rest = spell ps ++ tail := by
  have hspaces : ∀ {c : Cursor}, ∀ d ∈ c.rest.takeWhile Lexeme.isSpace, Lexeme.isSpace d = true :=
    fun d hd => List.mem_takeWhile_imp hd
  fun_induction Lexing.run src c with
  | case1 c hrest =>
    have hall := rest_eq_spaces_append c
    rw [hrest, List.append_nil] at hall
    exact ⟨[], _, trivial, hspaces, hall⟩
  | case2 c ch rest hrest fault hfirst => cases h
  | case3 c ch rest hrest lexeme hfirst ih =>
    obtain ⟨ps, tail, hps, htail, hafter⟩ := ih h
    obtain ⟨more, after, rfl, hmore, -, -⟩ := Lexeme.first_local hfirst
    have hsame : after = spell ps ++ tail := by
      rw [← hafter, Cursor.rest_advanceBy, hrest, hmore, List.drop_succ_cons, List.drop_left]
    subst hsame
    rcases lexeme with ⟨token, _⟩
    cases hmore
    refine ⟨⟨c.rest.takeWhile Lexeme.isSpace, ch :: more, token⟩ :: ps, tail,
      ⟨⟨hspaces, ch, more, rfl, hfirst⟩, hps⟩, htail, ?_⟩
    have hall := rest_eq_spaces_append c
    rw [hrest] at hall
    simpa using hall

/-- No complaint about a text is one of standing still. -/
theorem run_ne_stalled (c : Cursor) :
    ∀ e, (Lexing.run src c).error = some e → e.cause ≠ .stalled := by
  fun_induction Lexing.run src c with
  | case1 =>
    intro e he
    cases he
  | case2 c ch rest hrest fault hfirst error stopped hcomplain =>
    intro e he
    obtain rfl : error = e := Option.some.inj he
    obtain rfl : (c.skipSpaces.complain src fault).1 = error := by rw [hcomplain]
    exact Lexeme.first_ne_stalled hfirst
  | case3 c ch rest hrest lexeme hfirst ih => exact ih

end

theorem Source.tokenize_eq_ok_iff {src : Source} {tokens : List Token} : src.tokenize = .ok tokens ↔
    (Lexing.run src (Cursor.start src.text)).error = none ∧
      (Lexing.run src (Cursor.start src.text)).tokens = tokens := by
  unfold tokenize
  split <;> next heq => rw [heq]; simp

/-- **Reading.** A text that is read as pieces has their tokens, and the mark of the end behind them. -/
theorem Source.tokenize_of_reads (src : Source) {ps : List Piece} {tail : List Char}
    (h : Reads ps tail) (htail : ∀ c ∈ tail, Lexeme.isSpace c = true)
    (htext : src.text.toList = spell ps ++ tail) : ∃ mark : Token, mark.kind = .endOfInput ∧
      src.tokenize = .ok (placed (Cursor.start src.text) ps ++ [mark]) := by
  obtain ⟨final, hrun⟩ := run_of_reads src h htail (Cursor.start src.text) htext
  refine ⟨final.endToken, rfl, ?_⟩
  rw [tokenize, hrun]

/-- A text that has tokens is read as pieces, and the tokens are those of the pieces. -/
theorem Source.reads_of_tokenize {src : Source} {tokens : List Token}
    (h : src.tokenize = .ok tokens) : ∃ ps tail, Reads ps tail ∧
      (∀ c ∈ tail, Lexeme.isSpace c = true) ∧ src.text.toList = spell ps ++ tail ∧
      ∃ mark : Token, mark.kind = .endOfInput ∧
        tokens = placed (Cursor.start src.text) ps ++ [mark] := by
  obtain ⟨ps, tail, hps, htail, htext⟩ := reads_of_run src _ (tokenize_eq_ok_iff.mp h).1
  obtain ⟨mark, hmark, htokens⟩ := tokenize_of_reads src hps htail htext
  rw [h] at htokens
  exact ⟨ps, tail, hps, htail, htext, mark, hmark, Except.ok.inj htokens⟩

theorem Source.tokenize_ne_stalled {src : Source} {e : ParseError} (h : src.tokenize = .error e) :
    e.cause ≠ .stalled := by
  unfold tokenize at h
  split at h
  · cases h
  · next heq =>
    cases h
    exact run_ne_stalled src _ e (by rw [heq])

end Typestate
