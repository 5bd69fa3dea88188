import Typestate.Proofs.Text.Brackets
import Typestate.Proofs.Token.Cover
import Typestate.Proofs.Token.Word
import Typestate.Proofs.Token.Words

/-!
Brackets in the texts of tokens. Without strings and comments the brackets of a text are those of its tokens,
so that going through the text character by character finds the depths that the tokens have
(`walks_of_spells`).
-/

namespace Typestate

open Piece
open Text (Walks Level nesting walks_of_level)

/-- How much deeper in brackets one is behind some tokens than in front of them. -/
def TokenKind.level (kinds : List TokenKind) : Int :=
  (kinds.countP TokenKind.isOpening : Int) - kinds.countP TokenKind.isClosing

theorem TokenKind.level_cons (kind : TokenKind) (kinds : List TokenKind) :
    level (kind :: kinds) = level [kind] + level kinds := by
  simp only [level, List.countP_cons, List.countP_nil]
  omega

/-! ## Tokens -/

/-- A character that separates texts, and the kind of its token. -/
inductive Separates : Char → TokenKind → Prop
  | comma : Separates ',' .comma
  | equals : Separates '=' .equals

variable {mark : Char} {sep : TokenKind}

theorem Separates.sign (h : Separates mark sep) : TokenKind.ofPunctuation mark = some sep := by
  cases h <;> rfl

theorem Separates.nesting (h : Separates mark sep) (previous : Char) : nesting previous mark = 0 := by
  cases h <;> rfl

namespace Lexeme

variable {depth : Int} {previous : Char}

theorem nesting_of_wordChar {c : Char} (h : Identifier.isWordChar c = true) : nesting previous c = 0 := by
  have hother : ∀ {d : Char}, Identifier.isWordChar d = false → (c == d) = false := by
    intro d hd
    rw [beq_eq_false_iff_ne]
    rintro rfl
    rw [hd] at h
    cases h
  unfold Text.nesting
  simp [hother (by decide : Identifier.isWordChar '<' = false),
    hother (by decide : Identifier.isWordChar '(' = false),
    hother (by decide : Identifier.isWordChar '[' = false),
    hother (by decide : Identifier.isWordChar '\x7b' = false),
    hother (by decide : Identifier.isWordChar ')' = false),
    hother (by decide : Identifier.isWordChar ']' = false),
    hother (by decide : Identifier.isWordChar '\x7d' = false),
    hother (by decide : Identifier.isWordChar '>' = false)]

/-- A bracket counts as its token does, the angle bracket that closes unless it belongs to an arrow. -/
theorem nesting_of_sign {c : Char} {kind : TokenKind} (h : TokenKind.ofPunctuation c = some kind)
    (hprevious : previous = '-' → c ≠ '>') : nesting previous c = TokenKind.level [kind] := by
  unfold TokenKind.ofPunctuation at h
  split at h <;> cases h
  case h_13 =>
    have hminus : previous ≠ '-' := fun hsame => hprevious hsame rfl
    simp [Text.nesting, hminus, TokenKind.level, TokenKind.isOpening, TokenKind.isClosing]
  all_goals rfl

theorem isWordChar_of_sign {c : Char} {kind : TokenKind} (h : TokenKind.ofPunctuation c = some kind) :
    Identifier.isWordChar c = false := by
  unfold TokenKind.ofPunctuation at h
  split at h <;> first | decide | cases h

/-- A name starts with a letter, a number or an underscore. -/
theorem Written.exists_wordChar {kind : TokenKind} {text : List Char} (h : Written kind text)
    (hname : kind.isName = true) : ∃ c cs, text = c :: cs ∧ Identifier.isWordChar c = true := by
  cases h with
  | raw => exact ⟨'r', _, rfl, by decide⟩
  | word hne hcs =>
    obtain ⟨c, cs, rfl⟩ := List.exists_cons_of_ne_nil hne
    exact ⟨c, cs, rfl, hcs c (List.mem_cons_self ..)⟩
  | sign hsign =>
    rw [TokenKind.isName_ofPunctuation hsign] at hname
    cases hname
  | _ => cases hname

theorem ofWord_ne {kind : TokenKind} (h : kind.isName = false) (cs : List Char) : TokenKind.ofWord cs ≠ kind := by
  rintro rfl
  rw [TokenKind.isName_ofWord] at h
  cases h

/-- A comma, an equals sign and a colon are written in one way. -/
theorem Written.eq_sign {kind : TokenKind} {text : List Char} (h : Written kind text) :
    (kind = .comma → text = [',']) ∧ (kind = .equals → text = ['=']) ∧ (kind = .colon → text = [':']) := by
  cases h with
  | word =>
    exact ⟨fun h => absurd h (ofWord_ne rfl _), fun h => absurd h (ofWord_ne rfl _),
      fun h => absurd h (ofWord_ne rfl _)⟩
  | sign hsign =>
    unfold TokenKind.ofPunctuation at hsign
    split at hsign <;> cases hsign <;> decide
  | _ => simp

/-- A lifetime starts with a mark of its own. -/
theorem Written.head_lifetime {kind : TokenKind} {text : List Char} (h : Written kind text)
    (hkind : kind = .lifetime) : text.head? = some '\'' := by
  cases h with
  | lifetime => rfl
  | word => exact absurd hkind (ofWord_ne rfl _)
  | sign hsign =>
    rw [hkind] at hsign
    unfold TokenKind.ofPunctuation at hsign
    split at hsign <;> cases hsign
  | _ => cases hkind

/-- A text without brackets, separators and minus signs. -/
structure Even (text : List Char) : Prop where
  level : Level text
  separator : ∀ mark sep, Separates mark sep → mark ∉ text
  minus : '-' ∉ text

theorem even_of_wordChars {cs : List Char} (h : ∀ c ∈ cs, Identifier.isWordChar c = true) : Even cs := by
  have hnone : ∀ {c : Char}, Identifier.isWordChar c = false → c ∉ cs := by
    intro c hc hmem
    rw [h c hmem] at hc
    cases hc
  exact ⟨fun c hc previous => nesting_of_wordChar (h c hc),
    fun mark sep hsep => hnone (isWordChar_of_sign hsep.sign), hnone (by decide)⟩

theorem Even.cons {c : Char} {cs : List Char} (h : Even cs) (hc : c = '\'' ∨ c = 'r' ∨ c = '#' ∨ c = ':') :
    Even (c :: cs) where
  level := List.forall_mem_cons.mpr ⟨fun _ => by rcases hc with rfl | rfl | rfl | rfl <;> rfl, h.level⟩
  separator mark sep hsep hmem := by
    rcases List.mem_cons.mp hmem with rfl | hmem
    · rcases hc with rfl | rfl | rfl | rfl <;> cases hsep
    · exact h.separator mark sep hsep hmem
  minus hmem := by
    rcases List.mem_cons.mp hmem with rfl | hmem
    · rcases hc with hc | hc | hc | hc <;> cases hc
    · exact h.minus hmem

theorem Even.walks {text : List Char} (h : Even text) (hne : text ≠ []) (hsep : Separates mark sep) :
    ∃ last, Walks mark depth previous text depth last ∧ last ≠ '-' := by
  obtain ⟨last, hwalk, ⟨hnone, -⟩ | hlast⟩ :=
    @walks_of_level mark previous depth text h.level (h.separator mark sep hsep)
  · exact absurd hnone hne
  · exact ⟨last, hwalk, fun hminus => h.minus (hminus ▸ hlast)⟩

theorem level_ofWord (cs : List Char) : TokenKind.level [TokenKind.ofWord cs] = 0 := by
  unfold TokenKind.ofWord
  split_ifs <;> rfl

/-- The text of a token leads as much deeper in brackets as its kind says. -/
theorem Written.walks {kind : TokenKind} {text : List Char} (h : Written kind text) (hsep : Separates mark sep)
    (hdepth : kind = sep → depth ≠ 0) (hprevious : previous = '-' → text ≠ ['>']) :
    ∃ last, Walks mark depth previous text (depth + TokenKind.level [kind]) last ∧
      (last = '-' → text = ['-']) := by
  have heven : Even text → TokenKind.level [kind] = 0 → ∃ last,
      Walks mark depth previous text (depth + TokenKind.level [kind]) last ∧ (last = '-' → text = ['-']) := by
    intro heven hlevel
    obtain ⟨last, hwalk, hlast⟩ := heven.walks h.ne_nil hsep
    exact ⟨last, by rwa [hlevel, Int.add_zero], fun hminus => absurd hminus hlast⟩
  cases h with
  | lifetime hcs => exact heven ((even_of_wordChars hcs).cons (Or.inl rfl)) rfl
  | number hne hcs => exact heven (even_of_wordChars hcs) rfl
  | raw hcs =>
    exact heven (((even_of_wordChars hcs).cons (Or.inr (Or.inr (Or.inl rfl)))).cons (Or.inr (Or.inl rfl))) rfl
  | word hne hcs => exact heven (even_of_wordChars hcs) (level_ofWord _)
  | colon =>
    have hnone : Even [] := even_of_wordChars (List.forall_mem_nil _)
    exact heven (hnone.cons (by simp)) rfl
  | pathSeparator =>
    have hnone : Even [] := even_of_wordChars (List.forall_mem_nil _)
    exact heven ((hnone.cons (by simp)).cons (by simp)) rfl
  | @sign c _ hsign =>
    have hnesting : nesting previous c = TokenKind.level [kind] :=
      nesting_of_sign hsign fun hminus hc => hprevious hminus (by rw [hc])
    refine ⟨c, .cons ?_ (by rw [hnesting]; exact .nil), fun hc => by rw [hc]⟩
    rintro rfl
    have hkind : kind = sep := Option.some.inj (hsign.symm.trans hsep.sign)
    rw [hsep.nesting, Int.add_zero]
    exact hdepth hkind
  | minus =>
    refine ⟨'-', .cons ?_ .nil, fun _ => rfl⟩
    rintro rfl
    cases hsep
  | arrow =>
    -- The angle bracket of an arrow closes nothing.
    refine ⟨'>', .cons ?_ (.cons ?_ ?_), fun hc => absurd hc (by decide)⟩
    · rintro rfl
      cases hsep
    · rintro rfl
      cases hsep
    · have hsame : depth + nesting previous '-' + nesting '-' '>' = depth + TokenKind.level [.arrow] :=
        Int.add_zero _
      rw [hsame]
      exact .nil

end Lexeme

/-! ## Texts -/

/-- No token of the kind stands outside of brackets, as many of which are open in front as `depth` says. -/
def Inside (sep : TokenKind) (depth : Int) (kinds : List TokenKind) : Prop :=
  ∀ front, front ++ [sep] <+: kinds → depth + TokenKind.level front ≠ 0

theorem Inside.head {depth : Int} {kind : TokenKind} {kinds : List TokenKind}
    (h : Inside sep depth (kind :: kinds)) (hkind : kind = sep) : depth ≠ 0 := by
  have hfront := h [] (List.cons_prefix_cons.mpr ⟨hkind.symm, List.nil_prefix⟩)
  simpa [TokenKind.level] using hfront

theorem Inside.tail {depth : Int} {kind : TokenKind} {kinds : List TokenKind}
    (h : Inside sep depth (kind :: kinds)) : Inside sep (depth + TokenKind.level [kind]) kinds := by
  intro front hfront
  have hbehind := h (kind :: front) (List.cons_prefix_cons.mpr ⟨rfl, hfront⟩)
  rwa [TokenKind.level_cons, ← Int.add_assoc] at hbehind

theorem Inside.cons {depth : Int} {kind : TokenKind} {kinds : List TokenKind} (hkind : kind = sep → depth ≠ 0)
    (h : Inside sep (depth + TokenKind.level [kind]) kinds) : Inside sep depth (kind :: kinds) := by
  intro front hfront
  cases front with
  | nil =>
    have hsame : sep = kind := (List.cons_prefix_cons.mp hfront).1
    simpa [TokenKind.level] using hkind hsame.symm
  | cons first front =>
    obtain ⟨rfl, hbehind⟩ := List.cons_prefix_cons.mp hfront
    rw [TokenKind.level_cons, ← Int.add_assoc]
    exact h front hbehind

theorem Inside.append {depth : Int} {front back : List TokenKind} (hfront : Inside sep depth front)
    (hback : Inside sep (depth + TokenKind.level front) back) : Inside sep depth (front ++ back) := by
  induction front generalizing depth with
  | nil => simpa [TokenKind.level] using hback
  | cons kind front ih =>
    rw [TokenKind.level_cons, ← Int.add_assoc] at hback
    exact .cons hfront.head (ih hfront.tail hback)

/-- The kinds of the tokens of some pieces. -/
def Piece.kinds (ps : List Piece) : List TokenKind := (contents ps).map Prod.fst

theorem level_of_gap {gap : List Char} (h : ∀ c ∈ gap, Lexeme.isSpace c = true) : Level gap := by
  intro c hc previous
  rcases Lexeme.eq_of_isSpace (h c hc) with rfl | rfl | rfl | rfl <;> rfl

theorem not_mem_gap {gap : List Char} (h : ∀ c ∈ gap, Lexeme.isSpace c = true) {c : Char}
    (hc : Lexeme.isSpace c = false) : c ∉ gap := by
  intro hmem
  rw [h c hmem] at hc
  cases hc

/-- The piece of a token that is written as itself. -/
theorem Piece.ReadsBefore.exists_written {p : Piece} {after : List Char} (h : p.ReadsBefore after)
    (htoken : p.token.isSome = true) (hquote : '"' ∉ p.text) (hslash : '/' ∉ p.text) :
    ∃ kind, p.token = some (kind, p.text) ∧ Lexeme.Written kind p.text := by
  obtain ⟨-, c, more, htext, hfirst⟩ := h
  obtain ⟨⟨kind, value⟩, hcontent⟩ := Option.isSome_iff_exists.mp htoken
  rw [htext, List.mem_cons, not_or] at hquote hslash
  rw [hcontent] at hfirst
  obtain ⟨rfl, hwritten⟩ := Lexeme.written_of_token hfirst (Ne.symm hslash.1) (Ne.symm hquote.1)
  exact ⟨kind, by rw [hcontent, htext], by rwa [htext]⟩

/-- Pieces lead as much deeper in brackets as their tokens say. The induction is on the pieces; that no
closing angle bracket is taken for the end of an arrow is known from what each piece stands apart from. -/
theorem walks_spell {ps : List Piece} {tail : List Char} {depth : Int} {previous : Char} (hps : Reads ps tail)
    (hquote : '"' ∉ spell ps) (hslash : '/' ∉ spell ps) (hsep : Separates mark sep)
    (hinside : Inside sep depth (kinds ps)) (hprevious : previous = '-' → (spell ps ++ tail).head? ≠ some '>') :
    ∃ last, Walks mark depth previous (spell ps) (depth + TokenKind.level (kinds ps)) last := by
  induction ps generalizing depth previous with
  | nil =>
    refine ⟨previous, ?_⟩
    have hsame : depth + TokenKind.level (kinds []) = depth := Int.add_zero depth
    rw [hsame]
    exact .nil
  | cons p ps ih =>
    have htoken := (isSome_and_not_isLine hps hquote hslash p (List.mem_cons_self ..)).1
    obtain ⟨hp, hps⟩ := hps
    simp only [spell_cons, List.mem_append, not_or] at hquote hslash
    obtain ⟨kind, hcontent, hwritten⟩ := hp.exists_written htoken hquote.2.1 hslash.2.1
    have hkinds : kinds (p :: ps) = kind :: kinds ps := by simp [kinds, contents_cons, hcontent]
    rw [hkinds] at hinside ⊢
    have hmark : mark ∉ p.gap := not_mem_gap hp.gap (by cases hsep <;> decide)
    obtain ⟨space, hspaces, hspace⟩ := @walks_of_level mark previous depth p.gap (level_of_gap hp.gap) hmark
    have hbehind : space = '-' → p.text ≠ ['>'] := by
      rintro rfl htext
      rcases hspace with ⟨hnone, hsame⟩ | hmem
      · refine hprevious hsame.symm ?_
        rw [spell_cons, hnone, htext]
        rfl
      · exact not_mem_gap hp.gap (by decide) hmem
    obtain ⟨last, hwalk, hlast⟩ := hwritten.walks hsep hinside.head hbehind
    have happart : last = '-' → (spell ps ++ tail).head? ≠ some '>' := by
      intro hminus
      obtain ⟨-, c, more, htext, hfirst⟩ := hp
      have hminus' := hlast hminus
      rw [htext] at hminus'
      exact (Lexeme.first_of_apart hfirst).1.minus hminus'
    obtain ⟨last', hrest⟩ := ih hps hquote.2.2 hslash.2.2 hinside.tail happart
    refine ⟨last', ?_⟩
    rw [spell_cons, TokenKind.level_cons, ← Int.add_assoc]
    exact hspaces.append (hwalk.append hrest)

/-- **Depths.** A text without strings and comments leads to the depth that its tokens have. -/
theorem walks_of_spells {text : List Char} {cs : List Content} {depth : Int} {previous : Char}
    (h : Spells text cs) (hquote : '"' ∉ text) (hslash : '/' ∉ text) (hsep : Separates mark sep)
    (hinside : Inside sep depth (cs.map Prod.fst)) (hprevious : previous ≠ '-') :
    ∃ last, Walks mark depth previous text (depth + TokenKind.level (cs.map Prod.fst)) last := by
  obtain ⟨ps, tail, hps, htail, rfl, rfl⟩ := h
  rw [List.mem_append, not_or] at hquote hslash
  obtain ⟨last, hwalk⟩ := walks_spell hps hquote.1 hslash.1 hsep hinside fun h => absurd h hprevious
  have hmark : mark ∉ tail := not_mem_gap htail (by cases hsep <;> decide)
  obtain ⟨last', hspaces, -⟩ := walks_of_level (level_of_gap htail) hmark
  exact ⟨last', hwalk.append hspaces⟩

end Typestate
