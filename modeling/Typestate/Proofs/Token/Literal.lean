import Typestate.Proofs.Grammar.Spelling
import Typestate.Proofs.Token.Alone

/-!
String literals. A text that is written as a literal is read back as it is: the literal alone is one token,
and wherever a literal stands in a text, the string that is read from its opening quote on ends at its closing
quote, whatever the text and what follows (`Code.stringLiteral_reads`).
-/

namespace Typestate

namespace Code

/-! ## Literals -/

/-- What stands in a literal behind its opening quote. -/
def literalTail (value : String) : List Char := value.toList.flatMap escapeChar ++ ['"']

theorem toList_stringLiteral (value : String) : (stringLiteral value).toList = '"' :: literalTail value :=
  String.toList_ofList

/-- A text is escaped by putting a backslash in front of every backslash, and after that in front of every
quote. -/
theorem flatMap_escapeChar (cs : List Char) : cs.flatMap escapeChar =
    (cs.flatMap fun c => if c = '\\' then ['\\', '\\'] else [c]).flatMap
      fun c => if c = '"' then ['\\', '"'] else [c] := by
  rw [List.flatMap_assoc]
  refine List.flatMap_congr fun c _ => ?_
  unfold escapeChar
  by_cases hslash : c = '\\'
  · simp [hslash]
  · simp [hslash]

theorem stringBody_literalTail (value : String) :
    Lexeme.stringBody false (literalTail value) = .closed value.toList [] :=
  Word.stringBody_of_escaped (escaped_flatMap value.toList)

/-- The literal is a token, whatever follows it. -/
theorem first_literal (value : String) (after : List Char) :
    Lexeme.first '"' (literalTail value ++ after) =
      .ok ⟨some (.string, value.toList), (literalTail value).length⟩ :=
  Lexeme.first_string (stringBody_literalTail value) after

theorem stringLiteral_literal (value : String) (after : List Char) :
    Lexeme.stringLiteral ((stringLiteral value).toList ++ after) =
      .ok (value.toList, (stringLiteral value).length) := by
  have hbody : Lexeme.stringBody false (literalTail value ++ after) = .closed value.toList after := by
    obtain ⟨inner, hinner, -, hlocal⟩ := Lexeme.stringBody_local (stringBody_literalTail value)
    rw [List.append_nil] at hinner
    rw [hinner]
    exact hlocal after
  rw [← String.length_toList, toList_stringLiteral]
  simp only [Lexeme.stringLiteral, List.cons_append, List.drop_succ_cons, List.drop_zero, hbody,
    List.length_cons, List.length_append]
  congr 2
  omega

/-! ## Tokens of a text -/

variable {src : Source} {value : String} {before after : List Char}

theorem tokenize_stringLiteral (value : String) (file : Option Path) : ∃ mark : Token,
    mark.kind = .endOfInput ∧ mark.start = (stringLiteral value).length ∧
    ({ text := stringLiteral value, file } : Source).tokenize =
      .ok [⟨.string, value, 1, 1, 0, (stringLiteral value).length⟩, mark] := by
  have hfirst : Lexeme.first '"' (literalTail value) =
      .ok ⟨some (.string, value.toList), (literalTail value).length⟩ := by
    simpa using first_literal value []
  obtain ⟨mark, hmark, hstart, htokens⟩ :=
    Source.tokenize_lexeme (toList_stringLiteral value) hfirst file
  rw [String.ofList_toList] at htokens
  exact ⟨mark, hmark, hstart, htokens⟩

theorem readString_stringLiteral {l : Lexer} (h : l.cursor.rest = (stringLiteral value).toList ++ after) :
    l.readString = (.ok value, { l with cursor := l.cursor.advanceBy (stringLiteral value).length }) := by
  rw [Lexer.readString, Lexer.read, h, stringLiteral_literal]
  simp only [String.ofList_toList]

/-- **Literals.** For every text, its literal alone is one token with the text as its value, and the mark of
the end. In every text in which the literal stands at some place, whatever stands in front of it and behind it,
the string that is read from that place on is the text and ends with the literal; so does a token that starts
there, which is a string. -/
theorem stringLiteral_reads (value : String) (file : Option Path) :
    (∃ mark : Token, mark.kind = .endOfInput ∧ mark.start = (stringLiteral value).length ∧
      ({ text := stringLiteral value, file } : Source).tokenize =
        .ok [⟨.string, value, 1, 1, 0, (stringLiteral value).length⟩, mark]) ∧
    ∀ (src : Source) (before after : List Char),
      src.text.toList = before ++ ((stringLiteral value).toList ++ after) →
      (∀ l : Lexer, l.source = src → l.cursor.InPlace src → l.cursor.offset = before.length →
        l.readString.1 = .ok value ∧ l.readString.2.cursor.InPlace src ∧
        l.readString.2.cursor.offset = before.length + (stringLiteral value).length ∧
        l.readString.2.cursor.rest = after) ∧
      ∀ t ∈ (Lexing.run src (Cursor.start src.text)).tokens, t.start = before.length →
        t.kind = .string ∧ t.value = value ∧ t.stop = before.length + (stringLiteral value).length := by
  refine ⟨tokenize_stringLiteral value file, fun src before after htext => ⟨?_, ?_⟩⟩
  · intro l hsource hplace hoffset
    have hrest : l.cursor.rest = (stringLiteral value).toList ++ after := by
      rw [hplace.rest, hoffset, htext, List.drop_left]
    have hlength : (stringLiteral value).length ≤ l.cursor.rest.length := by
      rw [hrest, List.length_append, String.length_toList]
      omega
    rw [readString_stringLiteral hrest]
    refine ⟨rfl, hplace.advanceBy _, ?_, ?_⟩
    · rw [← hoffset]
      exact Cursor.offset_advanceBy hlength
    · rw [← String.length_toList]
      exact Cursor.rest_advanceBy_append hrest
  · intro t ht hstart
    have hdrop : src.text.toList.drop t.start = '"' :: (literalTail value ++ after) := by
      rw [hstart, htext, List.drop_left, toList_stringLiteral, List.cons_append]
    rcases first_of_mem_run (Cursor.inPlace_start src) ht with ⟨-, hend⟩ | ⟨c, rest, kind, text, more, hhere, hfirst, hread⟩
    · rw [hend, List.drop_length] at hdrop
      cases hdrop
    · rw [hhere] at hdrop
      cases hdrop
      rw [first_literal] at hfirst
      cases hfirst
      obtain ⟨hkind, hvalue, hstop⟩ := hread
      refine ⟨hkind, hvalue.trans (String.ofList_toList ..), ?_⟩
      rw [hstop, hstart, ← String.length_toList, toList_stringLiteral, List.length_cons]

/-- A backslash in front of a quote, one in front of a line feed, and one at the end. -/
def backslashes : String := "\\\"\\\n\\"

/-- The literal of it in an attribute, with a quote behind that opens another string. -/
def attributed : Source := { text := "#[doc = " ++ stringLiteral backslashes ++ "\"] A" }

theorem backslashes_reads :
    let l := (Lexer.ofSource attributed).calls (List.replicate 8 .advance)
    stringLiteral backslashes = "\"\\\\\\\"\\\\\n\\\\\"" ∧
    (∃ mark : Token, mark.kind = .endOfInput ∧ mark.start = 11 ∧
      ({ text := stringLiteral backslashes } : Source).tokenize = .ok [⟨.string, backslashes, 1, 1, 0, 11⟩, mark]) ∧
    (l.readString.1 = .ok backslashes ∧ l.readString.2.cursor.rest = "\"] A".toList) ∧
    ∃ t ∈ (Lexing.run attributed (Cursor.start attributed.text)).tokens, t.start = 8 ∧
      t.kind = .string ∧ t.value = backslashes ∧ t.stop = 19 := by
  intro l
  obtain ⟨halone, hwithin⟩ := stringLiteral_reads backslashes none
  obtain ⟨hread, htoken⟩ := hwithin attributed "#[doc = ".toList "\"] A".toList (by decide +kernel)
  refine ⟨by decide +kernel, halone, ?_, ?_⟩
  · have hplace := (Lexer.inPlace_ofSource attributed).calls (List.replicate 8 .advance)
    obtain ⟨hvalue, -, -, hrest⟩ := hread l hplace.source hplace.cursor (by decide +kernel)
    exact ⟨hvalue, hrest⟩
  · have hany : (Lexing.run attributed (Cursor.start attributed.text)).tokens.any (·.start == 8) = true := by
      decide +kernel
    obtain ⟨t, ht, hstart⟩ := List.any_eq_true.mp hany
    have hstart := beq_iff_eq.mp hstart
    exact ⟨t, ht, hstart, htoken t ht hstart⟩

end Code

end Typestate
