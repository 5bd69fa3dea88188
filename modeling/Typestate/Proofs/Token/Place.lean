import Typestate.Token.Lexer

/-!
Places in a text. However a lexer is driven, and whatever it complains about, its line and its column are
those of its offset, which lies in the text; and the line and the column of every token are those of the
offset where the token starts (`Lexer.inPlace_calls`).
-/

namespace Typestate

namespace Source

/-- The line of an offset: one more than the number of line feeds in front of it. -/
def lineAt (src : Source) (offset : Nat) : Nat := 1 + (src.text.toList.take offset).count '\n'

/-- The column of an offset: one more than the number of characters behind the last line feed in front
of it. -/
def columnAt (src : Source) (offset : Nat) : Nat :=
  1 + ((src.text.toList.take offset).reverse.takeWhile (· != '\n')).length

/-- The span starts at an offset of the text. -/
def Places (src : Source) (span : Span) : Prop :=
  ∃ offset, span.line = src.lineAt offset ∧ span.column = src.columnAt offset

/-- The context is that of a span that starts at an offset of the text. -/
def Marks (src : Source) (context : Option Context) : Prop :=
  ∃ span, src.Places span ∧ context = some (src.context span)

end Source

theorem marks_context {src : Source} {span : Span} (h : src.Places span) :
    src.Marks (some (src.context span)) := ⟨span, h, rfl⟩

/-- A token of a text in one line, which starts behind as many characters. -/
def lineToken (kind : TokenKind) (value : String) (start : Nat) : Token :=
  ⟨kind, value, 1, start + 1, start, start + value.length⟩

/-! ## Cursors -/

/-- The cursor stands in the text: its offset is one of the text, the text behind that is ahead, and the
line and the column are those of the offset. -/
structure Cursor.InPlace (src : Source) (c : Cursor) : Prop where
  rest : c.rest = src.text.toList.drop c.offset
  offset : c.offset ≤ src.text.toList.length
  line : c.line = src.lineAt c.offset
  column : c.column = src.columnAt c.offset

/-- The token starts in the text, and its line and its column are those of its start. -/
structure Token.InPlace (src : Source) (t : Token) : Prop where
  start : t.start ≤ src.text.toList.length
  line : t.line = src.lineAt t.start
  column : t.column = src.columnAt t.start

namespace Cursor

variable {src : Source} {c : Cursor}

theorem inPlace_start (src : Source) : (start src.text).InPlace src where
  rest := rfl
  offset := Nat.zero_le _
  line := by simp [start, Source.lineAt]
  column := by simp [start, Source.columnAt]

/-- **One step.** A cursor in place is still in place behind the next character. -/
theorem InPlace.advance (h : c.InPlace src) : c.advance.InPlace src := by
  obtain ⟨rest, offset, line, column⟩ := c
  obtain ⟨hrest, hoffset, hline, hcolumn⟩ := h
  dsimp only at hrest hoffset hline hcolumn
  cases rest with
  | nil => exact ⟨hrest, hoffset, hline, hcolumn⟩
  | cons ch rest =>
    have htake : src.text.toList.take (offset + 1) = src.text.toList.take offset ++ [ch] := by
      rw [List.take_add_one, ← List.head?_drop, ← hrest]
      rfl
    have hdrop : rest = src.text.toList.drop (offset + 1) := by
      rw [← List.drop_drop, ← hrest]
      rfl
    have hlength : offset + 1 ≤ src.text.toList.length := by
      have hahead := congrArg List.length hrest
      rw [List.length_cons, List.length_drop] at hahead
      omega
    unfold Cursor.advance
    dsimp only
    split
    · next hnewline =>
      rw [beq_iff_eq] at hnewline
      subst hnewline
      refine ⟨hdrop, hlength, ?_, ?_⟩
      · simp [Source.lineAt, htake, hline, Nat.add_assoc]
      · simp [Source.columnAt, htake]
    · next hother =>
      have hne : ch ≠ '\n' := by simpa using hother
      refine ⟨hdrop, hlength, ?_, ?_⟩
      · simp [Source.lineAt, htake, hline, hne]
      · simp [Source.columnAt, htake, hcolumn, hne, Nat.add_assoc]

theorem InPlace.advanceBy (h : c.InPlace src) (n : Nat) : (c.advanceBy n).InPlace src := by
  induction n generalizing c with
  | zero => exact h
  | succ n ih => exact ih h.advance

theorem InPlace.skipSpaces (h : c.InPlace src) : c.skipSpaces.InPlace src := h.advanceBy _

theorem InPlace.complain (h : c.InPlace src) (fault : Lexeme.Fault) :
    (c.complain src fault).2.InPlace src := h.advanceBy fault.stop

theorem InPlace.token (h : c.InPlace src) (length : Nat) (kind : TokenKind) (value : List Char) :
    (c.token length kind value).InPlace src := ⟨h.offset, h.line, h.column⟩

theorem InPlace.places_span (h : c.InPlace src) (length : Nat) : src.Places (c.span length) :=
  ⟨c.offset, congrArg Nat.cast h.line, congrArg Nat.cast h.column⟩

end Cursor

/-- What reading all tokens leaves behind is in place, if it ends well or not. -/
theorem inPlace_run {src : Source} {c : Cursor} (h : c.InPlace src) :
    (Lexing.run src c).cursor.InPlace src ∧ ∀ t ∈ (Lexing.run src c).tokens, t.InPlace src := by
  fun_induction Lexing.run src c with
  | case1 c hrest =>
    refine ⟨h.skipSpaces, fun t ht => ?_⟩
    rw [List.mem_singleton.mp ht]
    exact h.skipSpaces.token 0 .endOfInput []
  | case2 c ch rest hrest fault hfirst error stopped hcomplain =>
    have hstopped := h.skipSpaces.complain fault
    rw [hcomplain] at hstopped
    exact ⟨hstopped, nofun⟩
  | case3 c ch rest hrest lexeme hfirst ih =>
    obtain ⟨hcursor, htokens⟩ := ih (h.skipSpaces.advanceBy _)
    refine ⟨hcursor, fun t ht => ?_⟩
    rcases List.mem_append.mp ht with hnew | hlater
    · rw [Option.mem_toList, Option.map_eq_some_iff] at hnew
      obtain ⟨⟨kind, value⟩, -, rfl⟩ := hnew
      exact h.skipSpaces.token _ kind value
    · exact htokens t hlater

/-- What ends the reading of all tokens is shown at a place in the text. -/
theorem marks_run {src : Source} {c : Cursor} (h : c.InPlace src) {e : ParseError}
    (he : (Lexing.run src c).error = some e) : src.Marks e.context := by
  fun_induction Lexing.run src c with
  | case1 => cases he
  | case2 c ch rest hrest fault hfirst error stopped hcomplain =>
    obtain rfl : error = e := Option.some.inj he
    obtain rfl : (c.skipSpaces.complain src fault).1 = error := by rw [hcomplain]
    exact marks_context ((h.skipSpaces.advanceBy fault.place).places_span fault.width)
  | case3 c ch rest hrest lexeme hfirst ih => exact ih (h.skipSpaces.advanceBy _) he

theorem Source.marks_of_tokenize {src : Source} {e : ParseError} (h : src.tokenize = .error e) :
    src.Marks e.context := by
  unfold tokenize at h
  split at h
  · cases h
  · next heq =>
    cases h
    exact marks_run (Cursor.inPlace_start src) (by rw [heq])

theorem Source.inPlace_of_tokenize {src : Source} {tokens : List Token} (h : src.tokenize = .ok tokens) :
    ∀ t ∈ tokens, t.InPlace src := by
  have htokens := (inPlace_run (Cursor.inPlace_start src)).2
  unfold tokenize at h
  split at h
  · next heq =>
    cases h
    rwa [heq] at htokens
  · cases h

/-! ## Lexers -/

namespace Lexer

/-- The calls that move a lexer. A number and a word are read in the same way. -/
inductive Call where
  | advance
  | skipSpaces
  | readLine
  | readBlock
  | readString
  | readWord
  | tokenize
  deriving DecidableEq, Repr

/-- The lexer after a call, which may have ended with a complaint. -/
def call (l : Lexer) : Call → Lexer
  | .advance => l.advance
  | .skipSpaces => l.skipSpaces
  | .readLine => l.readLine.2
  | .readBlock => l.readBlock.2
  | .readString => l.readString.2
  | .readWord => l.readWord.2
  | .tokenize => l.tokenize.2

/-- The lexer after several calls. -/
def calls (l : Lexer) (cs : List Call) : Lexer := cs.foldl call l

/-- The lexer reads the source, and it and its tokens are in place there. -/
structure InPlace (src : Source) (l : Lexer) : Prop where
  source : l.source = src
  cursor : l.cursor.InPlace src
  tokens : ∀ t ∈ l.tokens, t.InPlace src

variable {src : Source} {l : Lexer}

theorem InPlace.read (h : l.InPlace src) (rule : List Char → Except Lexeme.Fault (List Char × Nat)) :
    (l.read rule).2.InPlace src := by
  unfold Lexer.read
  split
  · exact ⟨h.source, h.cursor.advanceBy _, h.tokens⟩
  · next fault _ =>
    have hstopped := h.cursor.complain fault
    rw [← h.source] at hstopped
    exact ⟨h.source, h.source ▸ hstopped, h.tokens⟩

theorem InPlace.tokenize (h : l.InPlace src) : l.tokenize.2.InPlace src := by
  have hstart : l.cursor.InPlace l.source := h.source ▸ h.cursor
  obtain ⟨hcursor, htokens⟩ := inPlace_run hstart
  have hall : ∀ t ∈ l.tokens ++ (Lexing.run l.source l.cursor).tokens, t.InPlace src := by
    intro t ht
    rcases List.mem_append.mp ht with hold | hnew
    · exact h.tokens t hold
    · exact h.source ▸ htokens t hnew
  have hlexer : l.tokenize.2 = { l with
      cursor := (Lexing.run l.source l.cursor).cursor,
      tokens := l.tokens ++ (Lexing.run l.source l.cursor).tokens } := by
    unfold Lexer.tokenize
    split <;> next heq => rw [heq]
  rw [hlexer]
  exact ⟨h.source, h.source ▸ hcursor, hall⟩

/-- The tokens that a lexer gives back are all those that it has made. -/
theorem tokens_tokenize {tokens : List Token} (h : l.tokenize.1 = .ok tokens) :
    l.tokenize.2.tokens = tokens := by
  unfold Lexer.tokenize at h ⊢
  split at h
  · exact Except.ok.inj h
  · cases h

/-- **One call.** A lexer in place is still in place after a call, even after one that fails. -/
theorem InPlace.call (h : l.InPlace src) (c : Call) : (l.call c).InPlace src := by
  cases c with
  | advance => exact ⟨h.source, h.cursor.advance, h.tokens⟩
  | skipSpaces => exact ⟨h.source, h.cursor.skipSpaces, h.tokens⟩
  | readLine => exact h.read _
  | readBlock => exact h.read _
  | readString => exact h.read _
  | readWord => exact h.read _
  | tokenize => exact h.tokenize

theorem InPlace.calls (h : l.InPlace src) (cs : List Call) : (l.calls cs).InPlace src := by
  induction cs generalizing l with
  | nil => exact h
  | cons c cs ih => exact ih (h.call c)

theorem inPlace_ofSource (src : Source) : (ofSource src).InPlace src :=
  ⟨rfl, Cursor.inPlace_start src, nofun⟩

/-- **Places.** Whatever is called on a lexer, and in whatever order, it stands in its text with the line
and the column of its offset, and so does every token that it has made or gives back. -/
theorem inPlace_calls (src : Source) (cs : List Call) :
    let l := (ofSource src).calls cs
    l.cursor.InPlace src ∧ (∀ t ∈ l.tokens, t.InPlace src) ∧
      ∀ tokens, l.tokenize.1 = .ok tokens → ∀ t ∈ tokens, t.InPlace src := by
  intro l
  have hl : l.InPlace src := (inPlace_ofSource src).calls cs
  refine ⟨hl.cursor, hl.tokens, fun tokens htokens t ht => ?_⟩
  refine hl.tokenize.tokens t ?_
  rw [tokens_tokenize htokens]
  exact ht

/-- An arrow with its target on the next line. -/
def brokenArrow : Source := { text := "A ->\n B" }

/-- A word is read, then all tokens behind it, and then there is a complaint about a missing string. -/
theorem brokenArrow_inPlace :
    let l := (ofSource brokenArrow).calls [.readWord, .tokenize, .readString]
    l.tokens.map (fun t => (t.start, t.line, t.column)) = [(2, 1, 3), (6, 2, 2), (7, 2, 3)] ∧
      l.cursor.InPlace brokenArrow ∧ (∀ t ∈ l.tokens, t.InPlace brokenArrow) ∧
      ∃ tokens, l.tokenize.1 = .ok tokens ∧ tokens.length = 4 ∧ ∀ t ∈ tokens, t.InPlace brokenArrow := by
  intro l
  have hplaces : l.tokens.map (fun t => (t.start, t.line, t.column)) =
      [(2, 1, 3), (6, 2, 2), (7, 2, 3)] := by decide +kernel
  have hlength : l.tokenize.1.toOption.map List.length = some 4 := by decide +kernel
  obtain ⟨hcursor, hmade, hgiven⟩ := inPlace_calls brokenArrow [.readWord, .tokenize, .readString]
  refine ⟨hplaces, hcursor, hmade, ?_⟩
  cases htokens : l.tokenize.1 with
  | error e =>
    rw [htokens] at hlength
    cases hlength
  | ok tokens =>
    rw [htokens] at hlength
    exact ⟨tokens, rfl, Option.some.inj hlength, hgiven tokens htokens⟩

end Lexer

end Typestate
