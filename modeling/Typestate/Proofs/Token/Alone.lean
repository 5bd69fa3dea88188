import Typestate.Proofs.Token.Place
import Typestate.Proofs.Token.Piece

/-!
Tokens by themselves. What a token is depends on its own text alone: that text has this one token, and two
tokens with the same text are of one kind and have one value, whatever stands around them
(`Source.tokenize_alone`).
-/

namespace Typestate

/-- A cursor in front of something else than a space stands where it is. -/
theorem skipSpaces_of_head {c : Cursor} (h : ∀ d ∈ c.rest.head?, Lexeme.isSpace d = false) : c.skipSpaces = c :=
  skipSpaces_of_gap (List.nil_append _).symm nofun h

/-- A token is made at the place where it starts, of what is read off the front of the text from there on;
only the mark of the end is not. -/
theorem first_of_mem_run {src : Source} {c : Cursor} (h : c.InPlace src) {t : Token}
    (ht : t ∈ (Lexing.run src c).tokens) :
    (t.kind = .endOfInput ∧ t.start = src.text.toList.length) ∨
      ∃ ch rest kind value more, src.text.toList.drop t.start = ch :: rest ∧
        Lexeme.first ch rest = .ok ⟨some (kind, value), more⟩ ∧
        t.kind = kind ∧ t.value = String.ofList value ∧ t.stop = t.start + (more + 1) := by
  fun_induction Lexing.run src c with
  | case1 c hrest =>
    rw [List.mem_singleton.mp ht]
    left
    have hend := h.skipSpaces.rest
    rw [hrest, eq_comm, List.drop_eq_nil_iff] at hend
    exact ⟨rfl, Nat.le_antisymm h.skipSpaces.offset hend⟩
  | case2 => cases ht
  | case3 c ch rest hrest lexeme hfirst ih =>
    rcases List.mem_append.mp ht with hnew | hlater
    · rw [Option.mem_toList, Option.map_eq_some_iff] at hnew
      obtain ⟨⟨kind, value⟩, htoken, rfl⟩ := hnew
      obtain ⟨token, more⟩ := lexeme
      obtain rfl : token = some (kind, value) := htoken
      exact Or.inr ⟨ch, rest, kind, value, more, h.skipSpaces.rest.symm.trans hrest, hfirst, rfl, rfl, rfl⟩
    · exact ih (h.skipSpaces.advanceBy _) hlater

namespace Source

/-- A text that is one lexeme has its token, and the mark of the end. -/
theorem tokenize_lexeme {text : String} {c : Char} {more value : List Char} {kind : TokenKind}
    (htext : text.toList = c :: more)
    (hfirst : Lexeme.first c more = .ok ⟨some (kind, value), more.length⟩) (file : Option Path) :
    ∃ mark : Token, mark.kind = .endOfInput ∧ mark.start = text.length ∧
      ({ text, file } : Source).tokenize =
        .ok [⟨kind, String.ofList value, 1, 1, 0, text.length⟩, mark] := by
  have hlength : more.length + 1 = text.length := by
    rw [← String.length_toList, htext, List.length_cons]
  obtain ⟨start, hstart⟩ : ∃ start, Cursor.start text = start := ⟨_, rfl⟩
  have hrest : start.rest = c :: more := by rw [← hstart, Cursor.start, htext]
  have hskip : start.skipSpaces = start := by
    refine skipSpaces_of_head ?_
    rw [hrest]
    rintro _ ⟨⟩
    exact Lexeme.not_isSpace_of_first hfirst
  obtain ⟨final, hfinal⟩ : ∃ final, start.advanceBy text.length = final := ⟨_, rfl⟩
  -- Behind the lexeme nothing is left, not even a space.
  have hbehind : final.rest = [] := by
    rw [← hfinal, Cursor.rest_advanceBy, hrest, ← hlength, ← List.length_cons, List.drop_length]
  have hend : final.skipSpaces = final := skipSpaces_of_head (by rw [hbehind]; rintro _ ⟨⟩)
  have hoffset : final.offset = text.length := by
    rw [← hfinal, Cursor.offset_advanceBy (by rw [hrest, List.length_cons, hlength]), ← hstart, Cursor.start,
      Nat.zero_add]
  refine ⟨final.endToken, rfl, hoffset, ?_⟩
  unfold tokenize
  dsimp only
  rw [hstart, run_of_first _ (hskip.symm ▸ hrest) hfirst, hskip, hlength, hfinal,
    run_of_end _ (hend.symm ▸ hbehind), hend, ← hstart]
  simp [Lexing.prepend, Cursor.token, Cursor.start]

/-- The text of a token is a lexeme, from which the token is made. -/
theorem exists_lexeme {src : Source} {tokens : List Token} (h : src.tokenize = .ok tokens) {t : Token}
    (ht : t ∈ tokens) (hend : t.kind ≠ .endOfInput) :
    ∃ c more value, src.slice t.start t.stop = c :: more ∧ t.stop - t.start = more.length + 1 ∧
      t.value = String.ofList value ∧ Lexeme.first c more = .ok ⟨some (t.kind, value), more.length⟩ := by
  rw [← (tokenize_eq_ok_iff.mp h).2] at ht
  rcases first_of_mem_run (Cursor.inPlace_start src) ht with
    ⟨hmark, -⟩ | ⟨c, rest, kind, value, length, hhere, hfirst, rfl, hvalue, hstop⟩
  · exact absurd hmark hend
  · obtain ⟨more, tail, rfl, hmore, -, halone⟩ := Lexeme.first_local hfirst
    obtain rfl : length = more.length := hmore
    have hread := halone [] (.nil _)
    rw [List.append_nil] at hread
    have hwidth : t.stop - t.start = more.length + 1 := by omega
    refine ⟨c, more, value, ?_, hwidth, hvalue, hread⟩
    rw [slice, hwidth, hhere, List.take_succ_cons, List.take_left]

/-- A token is the only token of its own text. -/
theorem tokenize_slice {src : Source} {tokens : List Token} (h : src.tokenize = .ok tokens) {t : Token}
    (ht : t ∈ tokens) (hend : t.kind ≠ .endOfInput) (file : Option Path) :
    ∃ mark : Token, mark.kind = .endOfInput ∧ mark.start = t.stop - t.start ∧
      ({ text := String.ofList (src.slice t.start t.stop), file } : Source).tokenize =
        .ok [⟨t.kind, t.value, 1, 1, 0, t.stop - t.start⟩, mark] := by
  obtain ⟨c, more, value, hslice, hwidth, hvalue, hfirst⟩ := exists_lexeme h ht hend
  have htext : (String.ofList (src.slice t.start t.stop)).toList = c :: more := by
    rw [String.toList_ofList, hslice]
  have hlength : (String.ofList (src.slice t.start t.stop)).length = t.stop - t.start := by
    rw [← String.length_toList, htext, List.length_cons, hwidth]
  have halone := tokenize_lexeme htext hfirst file
  rwa [hlength, ← hvalue] at halone

/-- **Tokens by themselves.** If the text of a token is a text of its own, that has one token of the same kind
and with the same value, and the mark of the end. So tokens with the same text, in whatever texts they stand,
are of one kind and have one value. -/
theorem tokenize_alone {src : Source} {tokens : List Token} (h : src.tokenize = .ok tokens) {t : Token}
    (ht : t ∈ tokens) (hend : t.kind ≠ .endOfInput) :
    (∀ file : Option Path, ∃ mark : Token, mark.kind = .endOfInput ∧ mark.start = t.stop - t.start ∧
      ({ text := String.ofList (src.slice t.start t.stop), file } : Source).tokenize =
        .ok [⟨t.kind, t.value, 1, 1, 0, t.stop - t.start⟩, mark]) ∧
    ∀ (src' : Source) (tokens' : List Token), src'.tokenize = .ok tokens' → ∀ t' ∈ tokens',
      t'.kind ≠ .endOfInput → src'.slice t'.start t'.stop = src.slice t.start t.stop →
        t'.kind = t.kind ∧ t'.value = t.value := by
  refine ⟨tokenize_slice h ht hend, fun src' tokens' h' t' ht' hend' hsame => ?_⟩
  obtain ⟨mark, -, -, htokens⟩ := tokenize_slice h ht hend none
  obtain ⟨mark', -, -, htokens'⟩ := tokenize_slice h' ht' hend' none
  rw [hsame, htokens] at htokens'
  obtain ⟨heq, -⟩ := List.cons.inj (Except.ok.inj htokens')
  exact ⟨(congrArg Token.kind heq).symm, (congrArg Token.value heq).symm⟩

end Source

/-- Tokens that stand close: documentation with a comment in it between a name with a marker and an arrow. -/
def crowded : Source := { text := "r#A/** x\n/* y */ */->'a" }

theorem crowded_alone : ∃ tokens mark, crowded.tokenize = .ok tokens ∧
    (⟨.doc, " x\n/* y */ ", 1, 4, 3, 19⟩ : Token) ∈ tokens ∧
    crowded.slice 3 19 = "/** x\n/* y */ */".toList ∧ mark.kind = .endOfInput ∧
    ({ text := "/** x\n/* y */ */" } : Source).tokenize =
      .ok [⟨.doc, " x\n/* y */ ", 1, 1, 0, 16⟩, mark] := by
  have htokens : crowded.tokenize = .ok [⟨.identifier, "r#A", 1, 1, 0, 3⟩,
      ⟨.doc, " x\n/* y */ ", 1, 4, 3, 19⟩, ⟨.arrow, "->", 2, 11, 19, 21⟩, ⟨.lifetime, "'a", 2, 13, 21, 23⟩,
      ⟨.endOfInput, "", 2, 15, 23, 23⟩] := by decide +kernel
  have hmem : (⟨.doc, " x\n/* y */ ", 1, 4, 3, 19⟩ : Token) ∈ [⟨.identifier, "r#A", 1, 1, 0, 3⟩,
      ⟨.doc, " x\n/* y */ ", 1, 4, 3, 19⟩, ⟨.arrow, "->", 2, 11, 19, 21⟩, ⟨.lifetime, "'a", 2, 13, 21, 23⟩,
      ⟨.endOfInput, "", 2, 15, 23, 23⟩] := List.mem_cons_of_mem _ List.mem_cons_self
  have hslice : crowded.slice 3 19 = "/** x\n/* y */ */".toList := by decide +kernel
  obtain ⟨mark, hmark, -, halone⟩ := (Source.tokenize_alone htokens hmem nofun).1 none
  rw [hslice, String.ofList_toList] at halone
  exact ⟨_, mark, htokens, hmem, hslice, hmark, halone⟩

end Typestate
