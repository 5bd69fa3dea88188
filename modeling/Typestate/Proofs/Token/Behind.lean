import Typestate.Proofs.Token.Place
import Typestate.Proofs.Token.Word

/-!
A text behind others. If a line of words is put in front of a text, its tokens are those of the words and,
behind them, those that it had, as many characters and lines further on (`LaidOut.tokenize_behind`).
-/

namespace Typestate

open Piece

/-- The place behind some characters. -/
def Cursor.behind (front : List Char) (c : Cursor) : Cursor :=
  { c with offset := front.length + c.offset, line := front.count '\n' + c.line }

/-- The token as it stands behind some characters that end with a line feed. -/
def Token.behind (front : List Char) (t : Token) : Token :=
  { t with line := front.count '\n' + t.line, start := front.length + t.start, stop := front.length + t.stop }

variable {front : List Char}

namespace Cursor

theorem rest_behind (c : Cursor) : (c.behind front).rest = c.rest := rfl

theorem advance_behind (c : Cursor) : (c.behind front).advance = c.advance.behind front := by
  rcases c with ⟨_ | ⟨ch, rest⟩, offset, line, column⟩
  · rfl
  · unfold advance behind
    dsimp only
    split <;> rfl

theorem advanceBy_behind (n : Nat) (c : Cursor) : (c.behind front).advanceBy n = (c.advanceBy n).behind front := by
  induction n generalizing c with
  | zero => rfl
  | succ n ih => rw [advanceBy, advanceBy, advance_behind, ih]

theorem skipSpaces_behind (c : Cursor) : (c.behind front).skipSpaces = c.skipSpaces.behind front :=
  advanceBy_behind _ c

theorem token_behind (c : Cursor) (length : Nat) (kind : TokenKind) (value : List Char) :
    (c.behind front).token length kind value = (c.token length kind value).behind front := by
  simp [token, behind, Token.behind, Nat.add_assoc]

/-- Spaces are skipped in one go or in two. -/
theorem skipSpaces_advanceBy {c : Cursor} {gap rest : List Char} (h : c.rest = gap ++ rest)
    (hgap : ∀ d ∈ gap, Lexeme.isSpace d = true) : (c.advanceBy gap.length).skipSpaces = c.skipSpaces := by
  rw [skipSpaces, skipSpaces, rest_advanceBy_append h, h, List.takeWhile_append_of_pos hgap, List.length_append,
    advanceBy_add]

/-- Behind a line stands the start of what is behind it. -/
theorem advanceBy_line {line rest : List Char} {text : String}
    (h : text.toList = line ++ '\n' :: rest) :
    (start text).advanceBy (line ++ ['\n']).length =
      (start (String.ofList rest)).behind (line ++ ['\n']) := by
  have htext : text.toList = (line ++ ['\n']) ++ rest := by simpa using h
  have hplace := (inPlace_start { text }).advanceBy (line ++ ['\n']).length
  have hrest : ((start text).advanceBy (line ++ ['\n']).length).rest = rest :=
    rest_advanceBy_append htext
  have hoffset : ((start text).advanceBy (line ++ ['\n']).length).offset = (line ++ ['\n']).length := by
    rw [offset_advanceBy (by rw [start, htext]; simp)]
    exact Nat.zero_add _
  have hfront : text.toList.take (line ++ ['\n']).length = line ++ ['\n'] := by rw [htext, List.take_left]
  have hline := hplace.line
  have hcolumn := hplace.column
  rw [hoffset, Source.lineAt, hfront] at hline
  rw [hoffset, Source.columnAt, hfront] at hcolumn
  generalize (start text).advanceBy (line ++ ['\n']).length = c at hrest hoffset hline hcolumn
  rcases c with ⟨rest', offset, line', column⟩
  obtain rfl : rest' = rest := hrest
  obtain rfl : offset = _ := hoffset
  obtain rfl : line' = _ := hline
  obtain rfl : column = _ := hcolumn
  simp [start, behind, Nat.add_comm]

end Cursor

/-- What is read behind some characters is what is read without them, behind them. -/
theorem run_behind (front : List Char) (src src' : Source) {c : Cursor} (h : (Lexing.run src c).error = none) :
    (Lexing.run src' (c.behind front)).error = none ∧
      (Lexing.run src' (c.behind front)).tokens = (Lexing.run src c).tokens.map (Token.behind front) := by
  fun_induction Lexing.run src c with
  | case1 c hrest =>
    have hend : (c.behind front).skipSpaces.rest = [] := by rwa [Cursor.skipSpaces_behind, Cursor.rest_behind]
    rw [run_of_end src' hend, Cursor.skipSpaces_behind]
    exact ⟨rfl, congrArg (fun t => [t]) (Cursor.token_behind c.skipSpaces 0 .endOfInput [])⟩
  | case2 c ch rest hrest fault hfirst => cases h
  | case3 c ch rest hrest lexeme hfirst ih =>
    have hnext : (c.behind front).skipSpaces.rest = ch :: rest := by
      rwa [Cursor.skipSpaces_behind, Cursor.rest_behind]
    obtain ⟨herror, htokens⟩ := ih h
    rw [run_of_first src' hnext hfirst, Cursor.skipSpaces_behind, Cursor.advanceBy_behind]
    refine ⟨herror, ?_⟩
    simp only [Lexing.prepend, htokens, List.map_append]
    congr 1
    cases lexeme.token with
    | none => rfl
    | some content => exact congrArg (fun t => [t]) (Cursor.token_behind _ _ _ _)

/-- A word that does not run into what follows it does not run into a line feed behind that. -/
theorem Word.Apart.append_newline {w : Word} {rest : List Char} (h : w.Apart rest) (after : List Char) :
    w.Apart (rest ++ '\n' :: after) := by
  cases rest with
  | nil => exact w.apart_newline after
  | cons c rest =>
    cases w with
    | lexeme text content =>
      have hrest : Lexeme.Apart text (c :: rest ++ []) := by rwa [List.append_nil]
      exact hrest.change (List.cons_ne_nil c rest) (Lexeme.startsWithWord_of_head (by decide))
    | block text contents => exact h

/-- **A line in front.** With a line of legible words in front, the tokens of a text are those of the words and then
its own, moved behind the line. -/
theorem LaidOut.tokenize_behind {src src' : Source} {line : String} {ws : List Word} {tokens : List Token}
    (h : LaidOut ws line.toList) (hws : ∀ w ∈ ws, w.Legible) (htokens : src.tokenize = .ok tokens)
    (htext : src'.text = line ++ "\n" ++ src.text) :
    ∃ ts, TokensOf src' ws ts ∧
      src'.tokenize = .ok (ts ++ tokens.map (Token.behind (line.toList ++ ['\n']))) := by
  obtain ⟨pss, tail, hpss, hreads, htail, hline⟩ :=
    h.exists_pieces hws fun w rest hw => hw.append_newline src.text.toList
  have hchars : src'.text.toList = spell pss.flatten ++ (tail ++ '\n' :: src.text.toList) := by
    rw [htext, String.toList_append, String.toList_append, hline]
    simp
  refine ⟨_, @tokensOf_placed src' ws pss [] _ hpss hreads hchars, ?_⟩
  -- The white space behind the words ends the line.
  have hskip : ((Cursor.start src'.text).advanceBy (spell pss.flatten).length).skipSpaces =
      ((Cursor.start src.text).behind (line.toList ++ ['\n'])).skipSpaces := by
    have hspaces : ∀ d ∈ tail ++ ['\n'], Lexeme.isSpace d = true :=
      List.forall_mem_append.mpr ⟨htail, List.forall_mem_singleton.mpr rfl⟩
    have hrest : ((Cursor.start src'.text).advanceBy (spell pss.flatten).length).rest =
        (tail ++ ['\n']) ++ src.text.toList := by
      rw [Cursor.rest_advanceBy_append hchars, List.append_assoc]
      rfl
    have hwhole : src'.text.toList = line.toList ++ '\n' :: src.text.toList := by
      rw [hchars, hline, List.append_assoc]
    rw [← Cursor.skipSpaces_advanceBy hrest hspaces, ← Cursor.advanceBy_add, ← List.length_append,
      ← List.append_assoc, ← hline, Cursor.advanceBy_line hwhole, String.ofList_toList]
  obtain ⟨herror, hrun⟩ := Source.tokenize_eq_ok_iff.mp htokens
  obtain ⟨herror', hrun'⟩ := run_behind (line.toList ++ ['\n']) src src' herror
  rw [← run_congr src' hskip] at herror' hrun'
  rw [Source.tokenize_eq_ok_iff, run_append src' hreads _ hchars]
  exact ⟨herror', by rw [hrun', hrun]; rfl⟩

end Typestate
