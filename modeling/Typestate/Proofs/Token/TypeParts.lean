import Mathlib.Data.List.SplitBy
import Typestate.Proofs.AsciiName
import Typestate.Proofs.Token.Plain
import Typestate.TypeText

/-!
Payload types compared by their words, and the same types as the lexer reads them. A type is compared as the
parts of its tokens, each cut around the characters of words that are not ASCII. So two types whose tokens have
the same parts are the same type, and for types in ASCII the converse holds, but not for all others
(`TypeText.same_exact`).
-/

namespace Typestate.TypeText

open Identifier (isPlainChar isWordChar)
open Piece

/-- The parts of the text of a token. A path separator and an arrow are two signs, a raw identifier is two
characters and a word, and every other token is a part by itself. -/
def parts : List Char → List (List Char)
  | [':', ':'] => [[':'], [':']]
  | ['-', '>'] => [['-'], ['>']]
  | 'r' :: '#' :: word => [['r'], ['#'], word]
  | text => [text]

/-- The characters belong to one word of ASCII characters, or to one lifetime. -/
def joins (c d : Char) : Bool := (isPlainChar c || c == '\'') && isPlainChar d

/-- A text cut between any two characters that do not belong to one ASCII word. -/
def cuts (text : List Char) : List (List Char) := text.splitBy joins

variable {c d : Char} {cs ds : List Char}

/-! ## Words of a type -/

theorem joins_eq_false (h : isPlainChar d = false) : joins c d = false := by
  rw [joins, h, Bool.and_false]

theorem tokenChars_cons (h : Text.isBlank c = false) : tokenChars (c :: cs) =
    if (isPlainChar c || c == '\'') && startsWord cs then Text.extendFirst c (tokenChars cs)
    else [c] :: tokenChars cs := by
  rw [tokenChars, h]
  rfl

theorem tokenChars_blank (h : Text.isBlank c = true) : tokenChars (c :: cs) = tokenChars cs := by
  have hplain : isPlainChar c = false := by
    rw [Bool.eq_false_iff]
    intro hplain
    rw [Lexeme.isBlank_of_wordChar (Identifier.isWordChar_of_isPlainChar hplain)] at h
    cases h
  have htick : (c == '\'') = false := by
    rw [beq_eq_false_iff_ne]
    rintro rfl
    cases h
  rw [tokenChars, hplain, htick, h]
  rfl

theorem tokenChars_blanks (h : ∀ c ∈ cs, Text.isBlank c = true) : tokenChars (cs ++ ds) = tokenChars ds := by
  induction cs with
  | nil => rfl
  | cons c cs ih =>
    obtain ⟨hc, hcs⟩ := List.forall_mem_cons.mp h
    rw [List.cons_append, tokenChars_blank hc, ih hcs]

/-- Cutting goes on behind a character as it does behind the text in front of which it is put. -/
theorem cuts_cons_joined (h : joins c d = true) :
    cuts (c :: d :: cs) = Text.extendFirst c (cuts (d :: cs)) := by
  obtain ⟨hflat, hne, hchains, hends⟩ :=
    List.splitBy_eq_iff.mp (rfl : (d :: cs).splitBy joins = (d :: cs).splitBy joins)
  unfold cuts
  cases hcuts : (d :: cs).splitBy joins with
  | nil => exact absurd hcuts (List.splitBy_ne_nil.mpr (List.cons_ne_nil d cs))
  | cons p ps =>
    rw [hcuts] at hflat hne hchains hends
    obtain ⟨hp, hps⟩ := List.forall_mem_cons.mp hchains
    cases p with
    | nil => exact absurd (List.mem_cons_self ..) hne
    | cons e p =>
      obtain ⟨rfl, -⟩ := List.cons.inj hflat
      refine List.splitBy_eq_iff.mpr ⟨?_, ?_, ?_, ?_⟩
      · rw [hflat]
        rfl
      · intro hmem
        exact hne (List.mem_cons_of_mem _ ((List.mem_cons.mp hmem).resolve_left (List.cons_ne_nil _ _).symm))
      · exact List.forall_mem_cons.mpr ⟨List.isChain_cons_cons.mpr ⟨h, hp⟩, hps⟩
      · cases ps with
        | nil => exact List.isChain_singleton _
        | cons q ps =>
          obtain ⟨⟨ha, hb, hends'⟩, hrest⟩ := List.isChain_cons_cons.mp hends
          refine List.isChain_cons_cons.mpr ⟨⟨List.cons_ne_nil _ _, hb, ?_⟩, hrest⟩
          rwa [List.getLast_cons]

theorem cuts_singleton (c : Char) : cuts [c] = [[c]] :=
  List.splitBy_of_isChain (List.cons_ne_nil c []) (List.isChain_singleton c)

/-- The words of a type without blanks are its cuts. -/
theorem tokenChars_eq_cuts (h : ∀ c ∈ cs, Text.isBlank c = false) : tokenChars cs = cuts cs := by
  induction cs with
  | nil => rfl
  | cons c cs ih =>
    obtain ⟨hc, hcs⟩ := List.forall_mem_cons.mp h
    rw [tokenChars_cons hc, ih hcs]
    cases cs with
    | nil =>
      have hnone : startsWord [] = false := rfl
      rw [hnone, Bool.and_false, if_neg Bool.false_ne_true, cuts_singleton]
      rfl
    | cons d cs =>
      change (if joins c d = true then _ else _) = _
      split
      · next hjoins => rw [cuts_cons_joined hjoins]
      · next hjoins =>
        have hcut : cuts ([c] ++ d :: cs) = cuts [c] ++ cuts (d :: cs) :=
          List.splitBy_append_cons cs (by simpa using hjoins)
        rw [cuts_singleton] at hcut
        exact hcut.symm

/-- The words of two texts, if no word goes on from one to the other. -/
theorem tokenChars_append (h : ∀ c ∈ cs.getLast?, ∀ d ∈ ds.head?, joins c d = false) :
    tokenChars (cs ++ ds) = tokenChars cs ++ tokenChars ds := by
  induction cs with
  | nil => rfl
  | cons c cs ih =>
    have htail : tokenChars (cs ++ ds) = tokenChars cs ++ tokenChars ds := by
      refine ih fun e he => h e ?_
      cases cs with
      | nil => cases he
      | cons f cs => rwa [List.getLast?_cons_cons]
    cases hc : Text.isBlank c with
    | true => rw [List.cons_append, tokenChars_blank hc, tokenChars_blank hc, htail]
    | false =>
      rw [List.cons_append, tokenChars_cons hc, tokenChars_cons hc, htail]
      cases cs with
      | nil =>
        have hno : ((isPlainChar c || c == '\'') && startsWord ds) = false := by
          cases ds with
          | nil => exact Bool.and_false _
          | cons d ds => exact h c rfl d rfl
        have hnone : startsWord [] = false := rfl
        rw [List.nil_append, hno, hnone, Bool.and_false]
        rfl
      | cons d cs =>
        rw [List.cons_append, startsWord, startsWord]
        split
        · next hword =>
          -- A word starts with `d`, so that there is a first word to be longer by `c`.
          have hplain := (Bool.and_eq_true_iff.mp hword).2
          have hne : tokenChars (d :: cs) ≠ [] := by
            rw [tokenChars_cons (Lexeme.isBlank_of_wordChar (Identifier.isWordChar_of_isPlainChar hplain))]
            split
            · unfold Text.extendFirst
              split <;> exact List.cons_ne_nil _ _
            · exact List.cons_ne_nil _ _
          obtain ⟨w, ws, hws⟩ := List.exists_cons_of_ne_nil hne
          rw [hws]
          rfl
        · rfl

/-! ## Tokens -/

/-- The text of a token that is not long ends with a sign. -/
theorem joins_eq_false_of_short {kind : TokenKind} {text : List Char} (h : Lexeme.Written kind text)
    (hshort : ∀ c ∈ text.head?, ¬ Lexeme.isLongStart c = true) :
    ∀ c ∈ text.getLast?, joins c d = false := by
  have hword : ∀ {c : Char} {cs : List Char}, isWordChar c = true → text ≠ c :: cs := by
    rintro c cs hc rfl
    exact hshort c rfl (by rw [Lexeme.isLongStart, hc, Bool.or_true])
  have hfirst : ∀ {cs : List Char}, cs ≠ [] → (∀ c ∈ cs, isWordChar c = true) → text ≠ cs := by
    intro cs hne hcs
    obtain ⟨c, cs, rfl⟩ := List.exists_cons_of_ne_nil hne
    exact hword (hcs c (List.mem_cons_self ..))
  have hsign : ∀ {c : Char}, ¬ Lexeme.isLongStart c = true → joins c d = false := by
    intro c hc
    simp only [Lexeme.isLongStart, Bool.or_eq_true, not_or, Bool.not_eq_true] at hc
    have hplain : isPlainChar c = false := by
      rw [Bool.eq_false_iff]
      intro hplain
      rw [Identifier.isWordChar_of_isPlainChar hplain] at hc
      exact Bool.noConfusion hc.2
    rw [joins, hplain, hc.1]
    rfl
  cases h with
  | lifetime => exact absurd rfl (hshort '\'' rfl)
  | number hne hcs => exact absurd rfl (hfirst hne hcs)
  | raw => exact absurd rfl (hword (c := 'r') (by decide))
  | word hne hcs => exact absurd rfl (hfirst hne hcs)
  | sign hsign' =>
    rintro _ ⟨⟩
    exact hsign (Lexeme.isLong_ofPunctuation hsign')
  | colon | pathSeparator | minus | arrow =>
    rintro _ ⟨⟩
    exact hsign (by decide)

/-- No word goes on from a token to what follows it. -/
theorem joins_eq_false_of_apart {kind : TokenKind} {text after : List Char} (h : Lexeme.Written kind text)
    (happart : Lexeme.Apart text after) : ∀ c ∈ text.getLast?, ∀ d ∈ after.head?, joins c d = false := by
  intro c hc d hd
  by_cases hlong : ∃ e ∈ text.head?, Lexeme.isLongStart e = true
  · obtain ⟨e, he, hlong⟩ := hlong
    have hword := happart.word e he hlong d hd
    refine joins_eq_false ?_
    rw [Bool.eq_false_iff]
    intro hplain
    rw [Identifier.isWordChar_of_isPlainChar hplain] at hword
    cases hword
  · exact joins_eq_false_of_short h (fun e he hlong' => hlong ⟨e, he, hlong'⟩) c hc

theorem flatMap_parts (text : List Char) : (parts text).flatMap cuts = cuts text := by
  unfold parts
  split
  · rfl
  · rfl
  · next word =>
    have hraw : cuts ('r' :: '#' :: word) = cuts ['r'] ++ (cuts ['#'] ++ cuts word) := by
      have hmark : ∀ x ∈ ['#'].getLast?, ∀ y ∈ word.head?, joins x y = false := by
        rintro _ ⟨⟩ y -
        rfl
      have hletter : ∀ x ∈ ['r'].getLast?, ∀ y ∈ (['#'] ++ word).head?, joins x y = false := by
        rintro _ ⟨⟩ _ ⟨⟩
        rfl
      rw [cuts, cuts, cuts, cuts, ← List.splitBy_append hmark, ← List.splitBy_append hletter]
      rfl
    rw [hraw]
    simp
  · simp

/-- The words of the pieces of a type are the cuts of their tokens. -/
theorem tokenChars_spell {ps : List Piece} {tail : List Char} (hps : Reads ps tail)
    (hquote : '"' ∉ spell ps) (hslash : '/' ∉ spell ps) (htail : ∀ c ∈ tail, Lexeme.isSpace c = true) :
    tokenChars (spell ps ++ tail) = (contents ps).flatMap fun content => cuts content.2 := by
  induction ps with
  | nil =>
    rw [spell_nil, List.nil_append, ← List.append_nil tail,
      tokenChars_blanks fun c hc => Lexeme.isBlank_of_space (htail c hc)]
    rfl
  | cons p ps ih =>
    have htoken := (isSome_and_not_isLine hps hquote hslash p (List.mem_cons_self ..)).1
    obtain ⟨hp, hps⟩ := hps
    simp only [spell_cons, List.mem_append, not_or] at hquote hslash
    obtain ⟨kind, hcontent, hwritten⟩ := hp.exists_written htoken hquote.2.1 hslash.2.1
    have happart : Lexeme.Apart p.text (spell ps ++ tail) := by
      obtain ⟨-, c, more, htext, hfirst⟩ := hp
      rw [htext]
      exact (Lexeme.first_of_apart hfirst).1
    rw [spell_cons, List.append_assoc, List.append_assoc,
      tokenChars_blanks fun c hc => Lexeme.isBlank_of_space (hp.gap c hc),
      tokenChars_append (joins_eq_false_of_apart hwritten happart), ih hps hquote.2.2 hslash.2.2,
      tokenChars_eq_cuts hwritten.not_blank, contents_cons, hcontent]
    rfl

/-- A type as the lexer reads it, without strings and comments: outside of these there are no quotation marks
and no slashes. -/
structure Plain (ty : String) (cs : List Content) : Prop where
  reads : ReadAs ty cs
  quote : '"' ∉ ty.toList
  slash : '/' ∉ ty.toList

/-- The parts of the tokens of a type. -/
def partsOf (cs : List Content) : List (List Char) := cs.flatMap fun content => parts content.2

theorem Plain.tokenChars {ty : String} {cs : List Content} (h : Plain ty cs) :
    TypeText.tokenChars ty.toList = (partsOf cs).flatMap cuts := by
  obtain ⟨hreads, hquote, hslash⟩ := h
  obtain ⟨ps, tail, hps, htail, htext, rfl⟩ := readAs_iff_spells.mp hreads
  rw [htext, List.mem_append, not_or] at hquote hslash
  rw [htext, tokenChars_spell hps hquote.1 hslash.1 htail, partsOf, List.flatMap_assoc]
  exact congrArg (List.flatMap · _) (funext fun content => (flatMap_parts content.2).symm)

/-! ## ASCII -/

/-- A part of a token: a sign, or a word with the quote of a lifetime or without it. -/
inductive IsPart : List Char → Prop
  | sign (c : Char) : IsPart [c]
  | word {cs : List Char} (hne : cs ≠ []) (hcs : ∀ c ∈ cs, isWordChar c = true) : IsPart cs
  | lifetime {cs : List Char} (hcs : ∀ c ∈ cs, isWordChar c = true) : IsPart ('\'' :: cs)

/-- The word of a raw identifier is not empty. -/
theorem ne_nil_of_raw {p : Piece} {after word : List Char} {kind : TokenKind} (h : p.ReadsBefore after)
    (htoken : p.token = some (kind, p.text)) (htext : p.text = 'r' :: '#' :: word) : word ≠ [] := by
  rintro rfl
  obtain ⟨-, c, more, hmore, hfirst⟩ := h
  rw [htoken, htext] at hfirst
  obtain ⟨rfl, rfl⟩ := List.cons.inj (htext.symm.trans hmore)
  rw [List.singleton_append, Lexeme.first_other (by decide) (by decide) (by decide), if_neg (by decide)] at hfirst
  split at hfirst
  · next hraw =>
    have hword : Lexeme.word after = [] := by
      have hvalue := congrArg Prod.snd (Option.some.inj (congrArg Lexeme.token (Except.ok.inj hfirst)))
      simpa using hvalue
    have hstart : Lexeme.startsWithWord after = true := hraw.2.2
    cases after with
    | nil => cases hstart
    | cons d after =>
      have hd := Lexeme.isWordChar_of_isWordStart (hstart : Identifier.isWordStart d = true)
      rw [Lexeme.word_cons_of_pos hd] at hword
      cases hword
  · have hvalue : Lexeme.word ('r' :: '#' :: after) = ['r', '#'] := by
      rw [if_pos (by decide)] at hfirst
      exact congrArg Prod.snd (Option.some.inj (congrArg Lexeme.token (Except.ok.inj hfirst)))
    rw [Lexeme.word_cons_of_pos (by decide)] at hvalue
    cases (List.cons.inj hvalue).2

theorem isPart_of_mem_parts {kind : TokenKind} {text : List Char} (h : Lexeme.Written kind text)
    (hraw : ∀ word, text = 'r' :: '#' :: word → word ≠ []) : ∀ p ∈ parts text, IsPart p := by
  cases h with
  | lifetime hcs => exact List.forall_mem_singleton.mpr (.lifetime hcs)
  | number hne hcs | word hne hcs =>
    unfold parts
    split
    · exact absurd (hcs ':' (List.mem_cons_self ..)) (by decide)
    · exact absurd (hcs '-' (List.mem_cons_self ..)) (by decide)
    · exact absurd (hcs '#' (by simp)) (by decide)
    · exact List.forall_mem_singleton.mpr (.word hne hcs)
  | raw hcs =>
    refine List.forall_mem_cons.mpr ⟨.sign _, List.forall_mem_cons.mpr ⟨.sign _, ?_⟩⟩
    exact List.forall_mem_singleton.mpr (.word (hraw _ rfl) hcs)
  | @sign c =>
    have hparts : parts [c] = [[c]] := by
      unfold parts
      split <;> simp_all
    rw [hparts]
    exact List.forall_mem_singleton.mpr (IsPart.sign c)
  | colon => exact List.forall_mem_singleton.mpr (IsPart.sign ':')
  | minus => exact List.forall_mem_singleton.mpr (IsPart.sign '-')
  | pathSeparator =>
    exact List.forall_mem_cons.mpr ⟨IsPart.sign ':', List.forall_mem_singleton.mpr (IsPart.sign ':')⟩
  | arrow => exact List.forall_mem_cons.mpr ⟨IsPart.sign '-', List.forall_mem_singleton.mpr (IsPart.sign '>')⟩

/-- The characters of the parts are those of the token. -/
theorem flatten_parts (text : List Char) : (parts text).flatten = text := by
  unfold parts
  split
  · rfl
  · rfl
  · simp
  · simp

/-- Every token of a type has a piece of its own, and the text of the piece is its value. -/
theorem Plain.exists_piece {ty : String} {cs : List Content} (h : Plain ty cs) {content : Content}
    (hcontent : content ∈ cs) : ∃ (p : Piece) (after : List Char), p.ReadsBefore after ∧
      p.token = some (content.1, p.text) ∧ content.2 = p.text ∧ Lexeme.Written content.1 p.text ∧
      p.text ⊆ ty.toList := by
  obtain ⟨hreads, hquote, hslash⟩ := h
  obtain ⟨ps, tail, hps, -, htext, rfl⟩ := readAs_iff_spells.mp hreads
  rw [htext, List.mem_append, not_or] at hquote hslash
  obtain ⟨p, hp, htoken⟩ := List.mem_filterMap.mp hcontent
  obtain ⟨after, hbefore⟩ := readsBefore_of_mem hps hp
  have hsubset : p.text ⊆ spell ps := fun c hc => List.mem_flatMap.mpr ⟨p, hp, List.mem_append_right p.gap hc⟩
  obtain ⟨kind, hsame, hwritten⟩ := hbefore.exists_written (Option.isSome_iff_exists.mpr ⟨content, htoken⟩)
    (fun hmem => hquote.1 (hsubset hmem)) fun hmem => hslash.1 (hsubset hmem)
  rw [hsame] at htoken
  obtain rfl := Option.some.inj htoken
  exact ⟨p, after, hbefore, hsame, rfl, hwritten, fun c hc => htext ▸ List.mem_append_left tail (hsubset hc)⟩

theorem Plain.isPart {ty : String} {cs : List Content} (h : Plain ty cs) : ∀ part ∈ partsOf cs, IsPart part := by
  intro part hpart
  obtain ⟨content, hcontent, hpart⟩ := List.mem_flatMap.mp hpart
  obtain ⟨p, after, hbefore, htoken, hvalue, hwritten, -⟩ := h.exists_piece hcontent
  rw [hvalue] at hpart
  exact isPart_of_mem_parts hwritten (fun word htext => ne_nil_of_raw hbefore htoken htext) part hpart

theorem Plain.mem_of_mem_partsOf {ty : String} {cs : List Content} (h : Plain ty cs) :
    ∀ c ∈ (partsOf cs).flatten, c ∈ ty.toList := by
  intro c hc
  obtain ⟨part, hpart, hc⟩ := List.mem_flatten.mp hc
  obtain ⟨content, hcontent, hpart⟩ := List.mem_flatMap.mp hpart
  obtain ⟨p, -, -, -, hvalue, -, hsubset⟩ := h.exists_piece hcontent
  refine hsubset ?_
  rw [← hvalue, ← flatten_parts content.2]
  exact List.mem_flatten.mpr ⟨part, hpart, hc⟩

/-- A part in ASCII is not cut. -/
theorem IsPart.cuts_eq {part : List Char} (h : IsPart part) (hascii : ∀ c ∈ part, c.toNat < 128) :
    cuts part = [part] := by
  have hplain : ∀ {cs : List Char}, (∀ c ∈ cs, isWordChar c = true) → (∀ c ∈ cs, c.toNat < 128) →
      ∀ c ∈ cs, isPlainChar c = true := by
    intro cs hcs hascii c hc
    rw [← Identifier.isWordChar_of_ascii (hascii c hc)]
    exact hcs c hc
  -- Behind its first character a part has only characters that join what stands in front of them.
  have hchain : ∀ {c : Char} {cs : List Char}, (isPlainChar c || c == '\'') = true →
      (∀ d ∈ cs, isPlainChar d = true) → (c :: cs).IsChain fun x y => joins x y := by
    intro c cs hc hcs
    induction cs generalizing c with
    | nil => exact List.isChain_singleton c
    | cons d cs ih =>
      obtain ⟨hd, hcs⟩ := List.forall_mem_cons.mp hcs
      refine List.isChain_cons_cons.mpr ⟨?_, ih (by rw [hd, Bool.true_or]) hcs⟩
      rw [joins, hc, hd]
      rfl
  cases h with
  | sign c => exact cuts_singleton c
  | word hne hcs =>
    obtain ⟨c, cs, rfl⟩ := List.exists_cons_of_ne_nil hne
    obtain ⟨hc, hcs⟩ := List.forall_mem_cons.mp (hplain hcs hascii)
    exact List.splitBy_of_isChain (List.cons_ne_nil c cs) (hchain (by rw [hc, Bool.true_or]) hcs)
  | lifetime hcs =>
    refine List.splitBy_of_isChain (List.cons_ne_nil _ _) (hchain rfl ?_)
    exact hplain hcs fun c hc => hascii c (List.mem_cons_of_mem _ hc)

theorem flatMap_cuts {ps : List (List Char)} (hps : ∀ p ∈ ps, IsPart p)
    (hascii : ∀ c ∈ ps.flatten, c.toNat < 128) : ps.flatMap cuts = ps := by
  have hcuts : ∀ p ∈ ps, cuts p = [p] := fun p hp =>
    (hps p hp).cuts_eq fun c hc => hascii c (List.mem_flatten.mpr ⟨p, hp, hc⟩)
  calc ps.flatMap cuts = ps.flatMap fun p => [p] := List.flatMap_congr hcuts
    _ = ps := List.flatMap_singleton' ps

theorem flatten_flatMap_cuts (ps : List (List Char)) : (ps.flatMap cuts).flatten = ps.flatten := by
  induction ps with
  | nil => rfl
  | cons p ps ih => rw [List.flatMap_cons, List.flatten_append, ih, cuts, List.flatten_splitBy, List.flatten_cons]

/-- **Types.** Two types without strings and comments are the same if their tokens have the same parts. In general
they are the same if and only if the parts, cut around the characters of words that are not ASCII, are the same,
so that for a type in ASCII and any other the converse holds. -/
theorem same_exact {a b : String} {left right : List Content} (ha : Plain a left) (hb : Plain b right) :
    (partsOf left = partsOf right → same a b = true) ∧
    (same a b = true ↔ (partsOf left).flatMap cuts = (partsOf right).flatMap cuts) ∧
    ((∀ c ∈ a.toList, c.toNat < 128) → (same a b = true ↔ partsOf left = partsOf right)) := by
  have hsame : same a b = true ↔ (partsOf left).flatMap cuts = (partsOf right).flatMap cuts := by
    rw [same, beq_iff_eq, ha.tokenChars, hb.tokenChars]
  refine ⟨fun hparts => ?_, hsame, fun hascii => ⟨fun h => ?_, fun hparts => ?_⟩⟩
  · rw [hsame, hparts]
  · have hcuts := hsame.mp h
    have hleft : ∀ c ∈ (partsOf left).flatten, c.toNat < 128 := fun c hc => hascii c (ha.mem_of_mem_partsOf c hc)
    have hright : ∀ c ∈ (partsOf right).flatten, c.toNat < 128 := by
      rw [← flatten_flatMap_cuts, ← hcuts, flatten_flatMap_cuts]
      exact hleft
    rwa [flatMap_cuts ha.isPart hleft, flatMap_cuts hb.isPart hright] at hcuts
  · rw [hsame, hparts]

/-- The tokens of a path to a name of a function. -/
def pathTokens : List Content :=
  [(.identifier, "r#fn".toList), (.pathSeparator, "::".toList), (.identifier, "A".toList), (.lessThan, ['<']),
    (.lifetime, "'a".toList), (.greaterThan, ['>'])]

theorem same_path :
    (Plain "r#fn::A<'a>" pathTokens ∧ Plain "r#fn :: A < 'a >" pathTokens ∧
      ∀ c ∈ "r#fn::A<'a>".toList, c.toNat < 128) ∧
    (same "r#fn::A<'a>" "r#fn :: A < 'a >" = true ↔ partsOf pathTokens = partsOf pathTokens) := by
  have hleft : Plain "r#fn::A<'a>" pathTokens := ⟨by decide +kernel, by decide, by decide⟩
  have hright : Plain "r#fn :: A < 'a >" pathTokens := ⟨by decide +kernel, by decide, by decide⟩
  have hascii : ∀ c ∈ "r#fn::A<'a>".toList, c.toNat < 128 := by simp
  exact ⟨⟨hleft, hright, hascii⟩, (same_exact hleft hright).2.2 hascii⟩

/-- A word that goes on with a letter outside ASCII is the same type as its two halves, which are two words. -/
theorem same_words_apart :
    Plain "aé" [(.identifier, ['a', 'é'])] ∧ Plain "a é" [(.identifier, ['a']), (.identifier, ['é'])] ∧
    same "aé" "a é" = true ∧
    partsOf [(.identifier, ['a', 'é'])] ≠ partsOf [(.identifier, ['a']), (.identifier, ['é'])] :=
  ⟨⟨by decide +kernel, by decide, by decide⟩, ⟨by decide +kernel, by decide, by decide⟩, by decide +kernel,
    by decide⟩

end Typestate.TypeText
