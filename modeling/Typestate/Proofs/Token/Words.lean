import Mathlib.Data.List.TakeWhile
import Typestate.Proofs.AsciiName
import Typestate.Proofs.Token.Piece

/-!
The words among the tokens. Every token that may stand for a name is a word, with a marker in front of
it or without (`Source.tokenize_names`), and it is made of characters of the text
(`Source.subset_of_tokenize`).
-/

namespace Typestate

/-- A token that may stand for a name has the value of one. -/
def Token.HasName (t : Token) : Prop := t.kind.isName = true → Identifier.IsName t.value

namespace TokenKind

theorem isName_ofPunctuation {c : Char} {kind : TokenKind} (h : ofPunctuation c = some kind) :
    kind.isName = false := by
  unfold ofPunctuation at h
  split at h <;> cases h <;> rfl

theorem isName_ofWord (word : List Char) : (ofWord word).isName = true := by
  unfold ofWord
  split_ifs <;> rfl

end TokenKind

namespace Lexeme

theorem not_mem_word (cs : List Char) : '#' ∉ word cs := by
  intro h
  have hchar : Identifier.isWordChar '#' = true := List.mem_takeWhile_imp h
  exact absurd hchar (by decide)

theorem wordOf_word {cs : List Char} (h : startsWithWord cs = true) :
    Identifier.WordOf Identifier.isWordStart Identifier.isWordChar (word cs) := by
  cases cs with
  | nil => cases h
  | cons c cs =>
    have hstart : Identifier.isWordStart c = true := h
    rw [word_cons_of_pos (isWordChar_of_isWordStart hstart)]
    exact .cons hstart fun d hd => List.mem_takeWhile_imp hd

/-- What a lexeme may stand for as a name is a word, with a marker in front of it or without. -/
def HasName (l : Lexeme) : Prop :=
  ∀ kind value, l.token = some (kind, value) → kind.isName = true →
    Identifier.WordOf Identifier.isWordStart Identifier.isWordChar (Identifier.bareChars value)

/-- What a lexeme may stand for as a name is a word that its text starts with, raw or not. -/
inductive Named (cs : List Char) : Lexeme → Prop
  | no {l : Lexeme} (h : ∀ kind value, l.token = some (kind, value) → kind.isName = false) : Named cs l
  | raw {rest : List Char} (hcs : cs = 'r' :: '#' :: rest) :
    Named cs (plain .identifier ('r' :: '#' :: word rest))
  | word (hcs : startsWithWord cs = true) : Named cs (plain (.ofWord (word cs)) (word cs))

theorem named_plain {kind : TokenKind} (h : kind.isName = false) (cs text : List Char) :
    Named cs (plain kind text) := by
  apply Named.no
  rintro _ _ ⟨⟩
  exact h

theorem named_punctuation {c : Char} {cs rest : List Char} {l : Lexeme}
    (h : punctuation c rest = .ok l) : Named cs l := by
  unfold punctuation at h
  split at h
  · cases h
    split <;> exact named_plain rfl _ _
  · split at h
    · cases h
      split <;> exact named_plain rfl _ _
    · split at h
      · next kind hkind =>
        cases h
        exact named_plain (TokenKind.isName_ofPunctuation hkind) _ _
      · cases h

theorem named_first {c : Char} {rest : List Char} {l : Lexeme} (h : first c rest = .ok l) :
    Named (c :: rest) l := by
  unfold first at h
  split at h
  · cases h
    unfold slashes
    apply Named.no
    rintro _ _ htoken
    split at htoken <;> cases htoken
    rfl
  split at h
  · unfold slashStar at h
    split at h
    · cases h
    · cases h
      apply Named.no
      rintro _ _ htoken
      split at htoken <;> cases htoken
      rfl
  split at h
  · unfold quote at h
    split at h
    · cases h
    · cases h
      apply Named.no
      rintro _ _ ⟨⟩
      rfl
  split at h
  · split at h
    · cases h
      exact named_plain rfl _ _
    · cases h
  split at h
  · cases h
    exact named_plain rfl _ _
  split at h
  · next hraw =>
    simp only [Bool.and_eq_true, beq_iff_eq] at hraw
    obtain ⟨⟨rfl, hmark⟩, -⟩ := hraw
    obtain ⟨rest, rfl⟩ := List.head?_eq_some_iff.mp hmark
    cases h
    exact .raw rfl
  split at h
  · next hstart =>
    cases h
    exact .word hstart
  · exact named_punctuation h

/-- Without a word behind it, a marker is not read as one. -/
theorem startsWithWord_of_raw {rest : List Char}
    (h : first 'r' ('#' :: rest) = .ok (plain .identifier ('r' :: '#' :: word rest))) :
    startsWithWord rest = true := by
  by_contra hno
  have hother : first 'r' ('#' :: rest) = .ok (plain .identifier ['r']) := by
    rw [first_other (by decide) (by decide) (by decide), if_neg (by decide), if_neg (by simp [hno]),
      if_pos (by decide)]
    rfl
  rw [hother] at h
  cases h

theorem hasName_first {c : Char} {rest : List Char} {l : Lexeme} (h : first c rest = .ok l) :
    l.HasName := by
  intro kind value htoken hname
  cases named_first h with
  | no hno =>
    rw [hno kind value htoken] at hname
    cases hname
  | raw hcs =>
    -- The marker stands in front of a word.
    cases htoken
    cases hcs
    exact wordOf_word (startsWithWord_of_raw h)
  | word hcs =>
    cases htoken
    rw [Identifier.bareChars_of_not_raw (Identifier.not_raw_of_not_mem (not_mem_word _))]
    exact wordOf_word hcs

/-- What is read as a name is the name itself. -/
theorem value_of_first {c : Char} {more after value : List Char} {kind : TokenKind}
    (h : first c (more ++ after) = .ok ⟨some (kind, value), more.length⟩) (hname : kind.isName = true) :
    value = c :: more ∧ kind = .ofWord value := by
  have hwhole : ∀ {text : List Char}, text <+: c :: (more ++ after) → text.length = more.length + 1 →
      text = c :: more := by
    rintro text ⟨rest, hrest⟩ hlength
    exact (List.append_inj (hrest.trans (List.cons_append ..).symm) hlength).1
  generalize hl : (⟨some (kind, value), more.length⟩ : Lexeme) = l at h
  cases named_first h with
  | no hno =>
    rw [hno kind value (by rw [← hl])] at hname
    cases hname
  | @raw rest hcs =>
    obtain ⟨⟨⟩, hmore⟩ := Lexeme.mk.inj hl
    refine ⟨hwhole ?_ ?_, rfl⟩
    · rw [hcs]
      exact List.cons_prefix_cons.mpr ⟨rfl, List.cons_prefix_cons.mpr ⟨rfl, List.takeWhile_prefix _⟩⟩
    · rw [hmore]
      rfl
  | word hcs =>
    obtain ⟨⟨⟩, hmore⟩ := Lexeme.mk.inj hl
    refine ⟨hwhole (List.takeWhile_prefix _) ?_, rfl⟩
    rw [hmore, word_cons_of_pos (isWordChar_of_isWordStart hcs)]
    rfl

end Lexeme

theorem hasName_run (src : Source) (c : Cursor) : ∀ t ∈ (Lexing.run src c).tokens, t.HasName := by
  fun_induction Lexing.run src c with
  | case1 c hrest =>
    intro t ht
    rw [List.mem_singleton.mp ht]
    rintro ⟨⟩
  | case2 c first rest hrest fault hfirst =>
    intro t ht
    cases ht
  | case3 c first rest hrest lexeme hfirst ih =>
    intro t ht
    rcases List.mem_append.mp ht with hnew | hlater
    · -- The token made here has the value of the lexeme.
      rw [Option.mem_toList, Option.map_eq_some_iff] at hnew
      obtain ⟨⟨kind, value⟩, htoken, rfl⟩ := hnew
      intro hname
      unfold Identifier.IsName Cursor.token
      rw [String.toList_ofList]
      exact Lexeme.hasName_first hfirst kind value htoken hname
    · exact ih t hlater

/-- **Names.** Every token that may stand for a name has a word for its value, with a marker in front or without. -/
theorem Source.tokenize_names {src : Source} {tokens : List Token} (h : src.tokenize = .ok tokens) :
    ∀ t ∈ tokens, t.HasName := by
  have hrun := hasName_run src (Cursor.start src.text)
  unfold tokenize at h
  split at h
  · next heq =>
    cases h
    rwa [heq] at hrun
  · cases h

/-- An identifier is not empty. -/
theorem Source.ne_empty_of_tokenize {src : Source} {tokens : List Token} (h : src.tokenize = .ok tokens)
    {t : Token} (ht : t ∈ tokens) (hkind : t.kind = .identifier) : t.value ≠ "" := by
  have hname := tokenize_names h t ht (by rw [hkind]; rfl)
  intro hempty
  rw [hempty] at hname
  cases hname

/-- A token that may stand for a name is a part of the text. -/
theorem Source.subset_of_tokenize {src : Source} {tokens : List Token} (h : src.tokenize = .ok tokens)
    {t : Token} (ht : t ∈ tokens) (hname : t.kind.isName = true) : t.value.toList ⊆ src.text.toList := by
  obtain ⟨ps, tail, hps, -, htext, mark, hmark, rfl⟩ := reads_of_tokenize h
  have hplaced : t ∈ Piece.placed (Cursor.start src.text) ps := by
    rcases List.mem_append.mp ht with ht | ht
    · exact ht
    · rw [List.mem_singleton.mp ht, hmark] at hname
      cases hname
  have hcontent : t.content ∈ Piece.contents ps := by
    rw [← Piece.contents_placed (Cursor.start src.text) ps]
    exact List.mem_map_of_mem hplaced
  obtain ⟨p, hp, htoken⟩ := List.mem_filterMap.mp hcontent
  obtain ⟨front, back, rfl⟩ := List.append_of_mem hp
  obtain ⟨-, ⟨-, ch, more, hchars, hfirst⟩, -⟩ := reads_append.mp hps
  rw [htoken] at hfirst
  obtain ⟨hvalue, -⟩ := Lexeme.value_of_first hfirst hname
  rw [hvalue, ← hchars, htext, Piece.spell_append, Piece.spell_cons]
  intro c hc
  simp [hc]

/-- In a text in ASCII the tokens that may stand for names are in ASCII. -/
theorem Source.ascii_of_tokenize {src : Source} {tokens : List Token} (h : src.tokenize = .ok tokens)
    (hascii : Identifier.IsAscii src.text) {t : Token} (ht : t ∈ tokens) (hname : t.kind.isName = true) :
    Identifier.IsAsciiName t.value :=
  (tokenize_names h t ht hname).ascii fun c hc => hascii c (subset_of_tokenize h ht hname hc)

end Typestate
