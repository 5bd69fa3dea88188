import Typestate.Proofs.Text.Fields
import Typestate.Proofs.Token.Fragment
import Typestate.Proofs.Token.Squeezing

/-!
Texts that are taken apart at commas and put together again. If a comma stands in no string and in no
comment, the parts are those between comma tokens. Each is read as its own tokens, and so are all of
them in angle brackets with commas between (`spells_parts`, `spells_listed`).
-/

namespace Typestate

open Piece
open Text (isBlank squeeze endsBlank normalize)

/-! ## Texts with single spaces -/

section
variable {ps : List Piece} {tail : List Char}

theorem kept_setGap_iff (gap : List Char) : Kept (setGap gap ps) ↔ Kept ps := by
  cases ps with
  | nil => exact Iff.rfl
  | cons p ps =>
    rw [setGap, kept_cons_iff, kept_cons_iff]
    exact Iff.rfl

/-- What is true of pieces whatever the spaces in front of them. -/
theorem forall_setGap {good : Piece → Prop} (hgood : ∀ p gap, good p → good { p with gap })
    (gap : List Char) (h : ∀ p ∈ ps, good p) : ∀ p ∈ setGap gap ps, good p := by
  cases ps with
  | nil => exact h
  | cons p ps =>
    intro q hq
    rcases List.mem_cons.mp hq with rfl | hq
    · exact hgood p gap (h p (List.mem_cons_self ..))
    · exact h q (List.mem_cons_of_mem p hq)

/-- The first character of some pieces without the spaces in front. -/
theorem head_spell_setGap {p : Piece} (hps : Reads (p :: ps) tail) :
    ∃ c cs, isBlank c = false ∧ spell (setGap [] (p :: ps)) = c :: cs ∧
      spell (p :: ps) = p.gap ++ c :: cs := by
  obtain ⟨⟨-, c, more, htext, hfirst⟩, -⟩ := hps
  refine ⟨c, more ++ spell ps, (Lexeme.shape_of_first_append hfirst).not_blank c rfl, ?_, ?_⟩
  · rw [setGap, spell_cons, List.nil_append, htext, List.cons_append]
  · rw [spell_cons, htext, List.cons_append]

theorem normalize_spell (hps : Reads ps tail) :
    normalize (spell ps) = squeeze false (spell (setGap [] ps)) := by
  cases ps with
  | nil => rfl
  | cons p ps =>
    obtain ⟨c, cs, hc, hflush, hspell⟩ := head_spell_setGap hps
    rw [hflush, hspell, Text.normalize_blanks_append fun d hd => Lexeme.isBlank_of_space (hps.1.gap d hd),
      Text.normalize_eq_squeeze hc]

/-- No text ends with a blank that has no lines. -/
theorem endsBlank_spell (hps : Reads ps tail) (hline : ∀ p ∈ ps, ¬ p.IsLine) :
    endsBlank false (spell ps) = false := by
  induction ps with
  | nil => rfl
  | cons p ps ih =>
    obtain ⟨⟨-, c, more, htext, hfirst⟩, hrest⟩ := hps
    have hshape := Lexeme.shape_of_first_append hfirst
    rw [← htext] at hshape
    rw [spell_cons, Text.endsBlank_append (by rw [htext]; simp)]
    cases ps with
    | nil =>
      rw [spell_nil, List.append_nil]
      exact hshape.endsBlank (hline p (List.mem_cons_self ..))
    | cons q qs =>
      obtain ⟨d, cs, -, -, hspell⟩ := head_spell_setGap hrest
      rw [Text.endsBlank_append (by rw [hspell]; simp)]
      exact ih hrest fun r hr => hline r (List.mem_cons_of_mem p hr)

/-- The words of some pieces, with single spaces, are read as before exactly if the pieces are kept. -/
theorem spells_normalize_iff (hps : Reads ps tail)
    (hlast : (∀ p ∈ ps.getLast?, p.token.isSome = true) ∨ ∀ p ∈ ps, ¬ p.IsLine) :
    Spells (normalize (spell ps)) (contents ps) ↔ Kept ps := by
  rw [normalize_spell hps, ← contents_setGap [] ps, ← kept_setGap_iff []]
  exact spells_squeeze_iff (hps.setGap (List.forall_mem_nil _))
    (hlast.imp (getLast_setGap (fun _ _ => id) []) (forall_setGap (fun _ _ => id) [])) false

theorem normalize_spell_eq_nil_iff (hps : Reads ps tail) : normalize (spell ps) = [] ↔ ps = [] := by
  constructor
  · intro h
    cases ps with
    | nil => rfl
    | cons p ps =>
      obtain ⟨c, cs, hc, -, hspell⟩ := head_spell_setGap hps
      have hblank := Text.normalize_eq_nil_iff.mp h c (by rw [hspell]; simp)
      rw [hc] at hblank
      cases hblank
  · rintro rfl
    rfl

end

/-! ## Parts -/

/-- The pieces between some of the commas. -/
inductive Parted : List Piece → List (List Piece) → Prop
  | whole (ps : List Piece) : Parted ps [ps]
  | comma {ps rest : List Piece} {p : Piece} {parts : List (List Piece)} (hp : p.text = [','])
    (hrest : Parted rest parts) : Parted (ps ++ p :: rest) (ps :: parts)

/-- No piece but a comma has a comma in it. -/
def Piece.CommaOnly (p : Piece) : Prop := ',' ∈ p.text → p.text = [',']

section
variable {ps : List Piece} {tail : List Char}

/-- The comma at a place of a text is a piece of it. -/
theorem exists_comma (hps : Reads ps tail) (hcomma : ∀ p ∈ ps, p.CommaOnly) {x y : List Char}
    (h : spell ps = x ++ ',' :: y) : ∃ front p back, ps = front ++ p :: back ∧ p.text = [','] ∧
      x = spell front ++ p.gap ∧ y = spell back := by
  induction ps generalizing x with
  | nil => simp at h
  | cons p ps ih =>
    obtain ⟨⟨hgap, -⟩, hps⟩ := hps
    have hlater : ∀ {x'}, x = p.whole ++ x' → spell ps = x' ++ ',' :: y →
        ∃ front q back, p :: ps = front ++ q :: back ∧ q.text = [','] ∧
          x = spell front ++ q.gap ∧ y = spell back := by
      rintro x' rfl hx
      obtain ⟨front, q, back, rfl, hq, rfl, hy⟩ :=
        ih hps (fun q hq => hcomma q (List.mem_cons_of_mem p hq)) hx
      refine ⟨p :: front, q, back, rfl, hq, ?_, hy⟩
      rw [spell_cons, whole, List.append_assoc, List.append_assoc, List.append_assoc]
    rw [spell_cons, ← List.append_assoc] at h
    rcases List.append_eq_append_iff.mp h with ⟨x', hx, hrest⟩ | ⟨text, hwhole, hrest⟩
    · exact hlater hx hrest
    · cases text with
      | nil =>
        rw [List.append_nil] at hwhole
        have hx : x = p.whole ++ [] := by rw [List.append_nil, whole, hwhole]
        exact hlater hx hrest.symm
      | cons c text =>
        obtain ⟨rfl, rfl⟩ := List.cons.inj hrest
        have hspaces : ',' ∉ p.gap := fun hmem => absurd (hgap _ hmem) (by decide)
        have hmem : ',' ∈ p.gap ++ p.text := by
          rw [hwhole]
          exact List.mem_append_right x (List.mem_cons_self ..)
        have htext : p.text = [','] := hcomma p (List.mem_cons_self ..)
          ((List.mem_append.mp hmem).resolve_left hspaces)
        rw [htext] at hwhole
        rcases List.eq_nil_or_concat text with rfl | ⟨init, d, rfl⟩
        · refine ⟨[], p, ps, rfl, htext, ?_, by simp⟩
          exact (List.append_inj' hwhole rfl).1.symm
        · rw [List.concat_eq_append, ← List.cons_append, ← List.append_assoc] at hwhole
          have hinit := (List.append_inj' hwhole rfl).1
          rw [hinit] at hspaces
          exact absurd (List.mem_append_right x (List.mem_cons_self ..)) hspaces

/-- A text with single spaces that is taken apart at commas. -/
theorem exists_parted (hps : Reads ps tail) (hcomma : ∀ p ∈ ps, p.CommaOnly) {pending : Bool}
    {texts : List (List Char)} (hne : texts ≠ [])
    (h : squeeze pending (spell ps) = List.intercalate [','] texts) :
    ∃ parts, Parted ps parts ∧ texts.map normalize = parts.map fun part => normalize (spell part) := by
  induction texts generalizing ps pending with
  | nil => exact absurd rfl hne
  | cons text texts ih =>
    cases texts with
    | nil =>
      rw [List.intercalate_singleton] at h
      refine ⟨[ps], .whole ps, ?_⟩
      rw [List.map_singleton, List.map_singleton, ← h, Text.normalize_squeeze]
    | cons text' texts =>
      rw [List.intercalate_cons_cons, List.append_assoc, List.singleton_append] at h
      obtain ⟨x, y, hspell, hrest, htext⟩ := Text.exists_of_squeeze_eq (by decide) h
      obtain ⟨front, p, back, rfl, hp, rfl, rfl⟩ := exists_comma hps hcomma hspell
      obtain ⟨-, ⟨hgap, -⟩, hback⟩ := reads_append.mp hps
      obtain ⟨parts, hparts, htexts⟩ := ih hback
        (fun q hq => hcomma q (List.mem_append_right _ (List.mem_cons_of_mem p hq)))
        (List.cons_ne_nil _ _) hrest.symm
      refine ⟨front :: parts, .comma hp hparts, ?_⟩
      rw [List.map_cons, htexts, htext, List.map_cons,
        Text.normalize_append_blanks fun d hd => Lexeme.isBlank_of_space (hgap d hd)]

end

/-- A part is read in the place where it stands. -/
theorem Parted.reads {ps : List Piece} {parts : List (List Piece)} (h : Parted ps parts) {tail : List Char}
    (hps : Reads ps tail) : ∀ part ∈ parts, part <:+: ps ∧ ∃ tail, Reads part tail := by
  induction h with
  | whole ps =>
    intro part hpart
    rw [List.mem_singleton.mp hpart]
    exact ⟨List.infix_rfl, tail, hps⟩
  | @comma ps rest p parts hp hrest ih =>
    obtain ⟨hfront, -, hback⟩ := reads_append.mp hps
    intro part hpart
    rcases List.mem_cons.mp hpart with rfl | hpart
    · exact ⟨(List.prefix_append ..).isInfix, _, hfront⟩
    · obtain ⟨hwithin, hreads⟩ := ih hback part hpart
      exact ⟨hwithin.trans ((List.suffix_cons p rest).isInfix.trans (List.suffix_append ..).isInfix), hreads⟩

/-- What comes after a part is a comma or nothing. -/
theorem Parted.next {ps : List Piece} {parts : List (List Piece)} (h : Parted ps parts) :
    ∀ part ∈ parts, ∃ front back, ps = front ++ (part ++ back) ∧ ∀ p ∈ back.head?, p.text = [','] := by
  induction h with
  | whole ps =>
    intro part hpart
    rw [List.mem_singleton.mp hpart]
    exact ⟨[], [], by simp, nofun⟩
  | @comma ps rest p parts hp hrest ih =>
    intro part hpart
    rcases List.mem_cons.mp hpart with rfl | hpart
    · refine ⟨[], p :: rest, rfl, ?_⟩
      rintro _ ⟨⟩
      exact hp
    · obtain ⟨front, back, rfl, hback⟩ := ih part hpart
      exact ⟨ps ++ p :: front, back, by simp, hback⟩

/-! ## Lists -/

/-- Tokens with the commas left out that separate groups of them. No comma need stand between groups that
are left out themselves. -/
inductive Separated : List (List Content) → List Content → Prop
  | none : Separated [] []
  | last (group : List Content) : Separated [group] group
  | next {groups : List (List Content)} {cs : List Content} (group : List Content)
    (hrest : Separated groups cs) : Separated (group :: groups) (group ++ (.comma, [',']) :: cs)
  | skip {groups : List (List Content)} {cs : List Content} (hrest : Separated groups cs) :
    Separated groups ((.comma, [',']) :: cs)

/-- The parts that are more than spaces. -/
def filled (parts : List (List Piece)) : List (List Piece) := parts.filter (!·.isEmpty)

theorem token_of_text {p : Piece} {tail : List Char} {c : Char} {kind : TokenKind}
    (hp : p.ReadsBefore tail) (hkind : TokenKind.ofPunctuation c = some kind) (htext : p.text = [c]) :
    p.token = some (kind, [c]) := by
  obtain ⟨-, c', more, hp, hfirst⟩ := hp
  rw [htext] at hp
  obtain ⟨rfl, rfl⟩ := List.cons.inj hp
  rw [Lexeme.first_punctuation hkind] at hfirst
  exact (Lexeme.mk.inj (Except.ok.inj hfirst)).1.symm

theorem Parted.separated {ps : List Piece} {parts : List (List Piece)} (h : Parted ps parts)
    {tail : List Char} (hps : Reads ps tail) : Separated ((filled parts).map contents) (contents ps) := by
  unfold filled
  induction h with
  | whole ps =>
    cases ps with
    | nil => exact .none
    | cons p ps => exact .last _
  | @comma ps rest p parts hp hrest ih =>
    obtain ⟨-, hcomma, hback⟩ := reads_append.mp hps
    have htoken : p.token = some (.comma, [',']) := token_of_text hcomma rfl hp
    rw [contents_append, contents_cons, htoken]
    cases ps with
    | nil => exact .skip (ih hback)
    | cons q ps => exact .next _ (ih hback)

/-- What can be said of the pieces of a text that is taken apart at its commas: all can be read with single
spaces, none goes on to the end of its line, and no comma stands in a string or a comment. -/
structure Listed (ps : List Piece) : Prop where
  steady : ∀ p ∈ ps, p.Steady
  line : ∀ p ∈ ps, ¬ p.IsLine
  comma : ∀ p ∈ ps, p.CommaOnly

theorem Listed.kept {ps : List Piece} (h : Listed ps) : Kept ps :=
  ⟨h.steady, fun p hp => h.line p (List.dropLast_subset ps hp)⟩

theorem Listed.of_isInfix {ps qs : List Piece} (h : Listed ps) (hqs : qs <:+: ps) : Listed qs :=
  ⟨fun p hp => h.steady p (hqs.subset hp), fun p hp => h.line p (hqs.subset hp),
    fun p hp => h.comma p (hqs.subset hp)⟩

/-- The texts between the commas, those left out that have nothing but spaces. -/
theorem splitOutsideBrackets_spell {ps : List Piece} {tail : List Char} (hps : Reads ps tail)
    (hflush : setGap [] ps = ps) (hlisted : Listed ps) : ∃ parts, Parted ps parts ∧
      Text.splitOutsideBrackets (String.ofList (normalize (spell ps))) (· == ',') =
        (filled parts).map fun part => String.ofList (normalize (spell part)) := by
  have hsplit : squeeze false (spell ps) = List.intercalate [',']
      (Text.pieces (· == ',') 0 ' ' (normalize (spell ps))) := by
    rw [Text.intercalate_pieces, normalize_spell hps, hflush]
  obtain ⟨parts, hparts, htexts⟩ := exists_parted hps hlisted.comma (Text.pieces_ne_nil _) hsplit
  refine ⟨parts, hparts, ?_⟩
  have hfilled : ∀ part ∈ parts, (!(normalize (spell part)).isEmpty) = !part.isEmpty := by
    intro part hpart
    obtain ⟨-, tail', hreads⟩ := hparts.reads hps part hpart
    rw [Bool.eq_iff_iff]
    simp [normalize_spell_eq_nil_iff hreads]
  unfold Text.splitOutsideBrackets filled
  rw [String.toList_ofList, htexts, List.filter_map, List.map_map]
  congr 1
  exact List.filter_congr hfilled

/-! ## Angle brackets -/

namespace Lexeme

/-- What follows behind the next characters does not matter if it is no word. -/
theorem Apart.change {text front tail tail' : List Char} (h : Apart text (front ++ tail))
    (hfront : front ≠ []) (htail' : startsWithWord tail' = false) : Apart text (front ++ tail') := by
  obtain ⟨c, more, rfl⟩ := List.exists_cons_of_ne_nil hfront
  refine ⟨h.line, h.colon, h.minus, h.word, fun htext hmark => ?_⟩
  cases more with
  | nil => exact htail'
  | cons d more => exact h.raw htext hmark

end Lexeme

/-- Pieces are read in front of another text, too. -/
theorem Reads.change {ps : List Piece} {tail tail' : List Char} (h : Reads ps tail)
    (hlast : ∀ p ∈ ps.getLast?, Lexeme.Apart p.text tail') (htail' : Lexeme.startsWithWord tail' = false) :
    Reads ps tail' := by
  induction ps with
  | nil => trivial
  | cons p ps ih =>
    obtain ⟨⟨hgap, c, more, htext, hfirst⟩, hps⟩ := h
    obtain ⟨hapart, hlocal⟩ := Lexeme.first_of_apart hfirst
    cases ps with
    | nil =>
      refine ⟨⟨hgap, c, more, htext, hlocal _ ?_⟩, trivial⟩
      rw [← htext]
      exact hlast p rfl
    | cons q qs =>
      have hrest : Reads (q :: qs) tail' := ih hps fun r hr => hlast r (by rwa [List.getLast?_cons_cons])
      obtain ⟨d, cs, -, -, hspell⟩ := head_spell_setGap hps
      exact ⟨⟨hgap, c, more, htext, hlocal _ (hapart.change (by rw [hspell]; simp) htail')⟩, hrest⟩

/-- Pieces that can be put in a list: a comma or an angle bracket may stand behind them. -/
structure Listable (part : List Piece) : Prop where
  nonempty : part ≠ []
  reads : ∃ tail, Reads part tail
  steady : ∀ p ∈ part, p.Steady
  line : ∀ p ∈ part, ¬ p.IsLine
  minus : ∀ p ∈ part.getLast?, p.text ≠ ['-']

/-- A piece of one character. -/
def Piece.mark (kind : TokenKind) (c : Char) : Piece := ⟨[], [c], some (kind, [c])⟩

theorem readsBefore_mark {kind : TokenKind} {c : Char} (h : TokenKind.ofPunctuation c = some kind)
    (tail : List Char) : (mark kind c).ReadsBefore tail :=
  ⟨List.forall_mem_nil _, c, [], rfl, Lexeme.first_punctuation h⟩

/-- More parts of a list, each after a comma and a space, and the bracket that closes it. -/
def closing : List (List Piece) → List Piece
  | [] => [mark .greaterThan '>']
  | part :: parts => mark .comma ',' :: (setGap [' '] part ++ closing parts)

theorem head_spell_closing (parts : List (List Piece)) :
    ∃ c cs, (c = ',' ∨ c = '>') ∧ spell (closing parts) = c :: cs := by
  cases parts with
  | nil => exact ⟨'>', [], Or.inr rfl, rfl⟩
  | cons part parts => exact ⟨',', _, Or.inl rfl, rfl⟩

section
variable {part : List Piece} {parts : List (List Piece)} {gap : List Char}

theorem Listable.reads_append_closing (h : Listable part) (hgap : ∀ c ∈ gap, Lexeme.isSpace c = true)
    (hparts : Reads (closing parts) []) : Reads (setGap gap part ++ closing parts) [] := by
  obtain ⟨tail, hreads⟩ := h.reads
  obtain ⟨c, cs, hc, hspell⟩ := head_spell_closing parts
  rw [reads_append, List.append_nil, hspell]
  refine ⟨(hreads.setGap hgap).change (getLast_setGap (fun _ _ => id) gap fun p hp => ?_) ?_, hparts⟩
  · have hline := h.line p (List.mem_of_mem_getLast? hp)
    rcases hc with rfl | rfl
    · exact .of_head hline (by decide) nofun (by decide) (by decide)
    · exact .of_head hline (by decide) (fun _ => h.minus p hp) (by decide) (by decide)
  · rcases hc with rfl | rfl
    · exact Lexeme.startsWithWord_of_head (by decide)
    · exact Lexeme.startsWithWord_of_head (by decide)

theorem reads_closing (h : ∀ part ∈ parts, Listable part) : Reads (closing parts) [] := by
  induction parts with
  | nil => exact ⟨readsBefore_mark rfl _, trivial⟩
  | cons part parts ih =>
    obtain ⟨hpart, hparts⟩ := List.forall_mem_cons.mp h
    exact ⟨readsBefore_mark rfl _, hpart.reads_append_closing (by simp; decide) (ih hparts)⟩

theorem Listable.squeeze_append (h : Listable part) (rest : List Char) :
    squeeze false (spell (setGap [] part) ++ rest) = normalize (spell part) ++ squeeze false rest := by
  obtain ⟨tail, hreads⟩ := h.reads
  rw [Text.squeeze_append, normalize_spell hreads,
    endsBlank_spell (hreads.setGap (List.forall_mem_nil _)) (forall_setGap (fun _ _ => id) [] h.line)]

theorem squeeze_closing (h : ∀ part ∈ parts, Listable part) : squeeze false (spell (closing parts)) =
    (parts.flatMap fun part => ',' :: ' ' :: normalize (spell part)) ++ ['>'] := by
  induction parts with
  | nil => rfl
  | cons part parts ih =>
    obtain ⟨hpart, hparts⟩ := List.forall_mem_cons.mp h
    obtain ⟨p, ps, rfl⟩ := List.exists_cons_of_ne_nil hpart.nonempty
    obtain ⟨tail, hreads⟩ := hpart.reads
    obtain ⟨c, cs, hc, hflush, -⟩ := head_spell_setGap hreads
    have hspaced : spell (setGap [' '] (p :: ps)) = ' ' :: spell (setGap [] (p :: ps)) := rfl
    have hbody : squeeze true (spell (setGap [] (p :: ps)) ++ spell (closing parts)) =
        ' ' :: squeeze false (spell (setGap [] (p :: ps)) ++ spell (closing parts)) := by
      rw [hflush, List.cons_append, Text.squeeze_pending hc, Text.squeeze_cons hc]
    rw [closing, spell_cons, spell_append, hspaced]
    change squeeze false (',' :: ' ' :: (spell (setGap [] (p :: ps)) ++ spell (closing parts))) = _
    rw [Text.squeeze_cons (by decide), Text.squeeze_blank (by decide), hbody, hpart.squeeze_append,
      ih hparts]
    simp

theorem contents_closing : contents (closing parts) =
    (parts.flatMap fun part => (.comma, [',']) :: contents part) ++ [(.greaterThan, ['>'])] := by
  induction parts with
  | nil => rfl
  | cons part parts ih =>
    rw [closing, contents_cons, contents_append, contents_setGap, ih]
    simp [mark]

/-- A piece that is no line and keeps its blanks. -/
def Piece.Sound (p : Piece) : Prop := p.Steady ∧ ¬ p.IsLine

theorem sound_mark {kind : TokenKind} {c : Char} (hblank : isBlank c = false) : (mark kind c).Sound := by
  refine ⟨fun _ => ?_, ?_⟩
  · have hreturn : c ≠ '\r' := by
      rintro rfl
      cases hblank
    change normalize [c] = Lexeme.dropReturns [c]
    rw [Text.normalize_eq_squeeze hblank, Text.squeeze_cons hblank, dropReturns_cons hreturn]
    rfl
  · intro h
    have hlength : 2 ≤ 1 := h.length_le
    omega

theorem Listable.sound (h : Listable part) : ∀ p ∈ setGap gap part, p.Sound :=
  forall_setGap (fun _ _ => id) gap fun p hp => ⟨h.steady p hp, h.line p hp⟩

theorem sound_closing (h : ∀ part ∈ parts, Listable part) : ∀ p ∈ closing parts, p.Sound := by
  induction parts with
  | nil =>
    intro p hp
    rw [List.mem_singleton.mp hp]
    exact sound_mark (by decide)
  | cons part parts ih =>
    obtain ⟨hpart, hparts⟩ := List.forall_mem_cons.mp h
    refine List.forall_mem_cons.mpr ⟨sound_mark (by decide), fun p hp => ?_⟩
    exact (List.mem_append.mp hp).elim (hpart.sound p) (ih hparts p)

/-- A list of parts in angle brackets. -/
def angled : List (List Piece) → List Piece
  | [] => mark .lessThan '<' :: closing []
  | part :: parts => mark .lessThan '<' :: (setGap [] part ++ closing parts)

theorem reads_angled (h : ∀ part ∈ parts, Listable part) : Reads (angled parts) [] := by
  cases parts with
  | nil => exact ⟨readsBefore_mark rfl _, reads_closing h⟩
  | cons part parts =>
    obtain ⟨hpart, hparts⟩ := List.forall_mem_cons.mp h
    exact ⟨readsBefore_mark rfl _,
      hpart.reads_append_closing (List.forall_mem_nil _) (reads_closing hparts)⟩

theorem sound_angled (h : ∀ part ∈ parts, Listable part) : ∀ p ∈ angled parts, p.Sound := by
  cases parts with
  | nil => exact List.forall_mem_cons.mpr ⟨sound_mark (by decide), sound_closing h⟩
  | cons part parts =>
    obtain ⟨hpart, hparts⟩ := List.forall_mem_cons.mp h
    refine List.forall_mem_cons.mpr ⟨sound_mark (by decide), fun p hp => ?_⟩
    exact (List.mem_append.mp hp).elim (hpart.sound p) (sound_closing hparts p)

theorem intercalate_cons_eq_flatMap {α : Type} (sep l : List α) (ls : List (List α)) :
    List.intercalate sep (l :: ls) = l ++ ls.flatMap (sep ++ ·) := by
  induction ls generalizing l with
  | nil => simp
  | cons l' ls ih =>
    rw [List.intercalate_cons_cons, ih, List.flatMap_cons, List.append_assoc, List.append_assoc]

theorem squeeze_angled (h : ∀ part ∈ parts, Listable part) : squeeze false (spell (angled parts)) =
    '<' :: (List.intercalate [',', ' '] (parts.map fun part => normalize (spell part)) ++ ['>']) := by
  cases parts with
  | nil => rfl
  | cons part parts =>
    obtain ⟨hpart, hparts⟩ := List.forall_mem_cons.mp h
    rw [angled, spell_cons, spell_append]
    change squeeze false ('<' :: (spell (setGap [] part) ++ spell (closing parts))) = _
    rw [Text.squeeze_cons (by decide), hpart.squeeze_append, squeeze_closing hparts, List.map_cons,
      intercalate_cons_eq_flatMap, List.flatMap_map, List.append_assoc]
    rfl

theorem contents_angled : contents (angled parts) = (.lessThan, ['<']) ::
    (List.intercalate [(.comma, [','])] (parts.map contents) ++ [(.greaterThan, ['>'])]) := by
  cases parts with
  | nil => rfl
  | cons part parts =>
    rw [angled, contents_cons, contents_append, contents_setGap, contents_closing, List.map_cons,
      intercalate_cons_eq_flatMap, List.flatMap_map, List.append_assoc]
    rfl

end

/-- **Lists.** Parts in angle brackets, with a comma and a space between, are read as their own tokens. -/
theorem spells_angled {parts : List (List Piece)} (h : ∀ part ∈ parts, Listable part) :
    Spells ('<' :: (List.intercalate [',', ' '] (parts.map fun part => normalize (spell part)) ++ ['>']))
      ((.lessThan, ['<']) ::
        (List.intercalate [(.comma, [','])] (parts.map contents) ++ [(.greaterThan, ['>'])])) := by
  have hsound := sound_angled h
  rw [← squeeze_angled h, ← contents_angled]
  refine (spells_squeeze_iff (reads_angled h) (Or.inr fun p hp => (hsound p hp).2) false).mpr ?_
  exact ⟨fun p hp => (hsound p hp).1, fun p hp => (hsound p (List.dropLast_subset _ hp)).2⟩

/-- No minus stands in front of a comma or at the end. -/
structure MinusFree (ps : List Piece) : Prop where
  comma : ∀ front p q back, ps = front ++ p :: q :: back → q.text = [','] → p.text ≠ ['-']
  last : ∀ p ∈ ps.getLast?, p.text ≠ ['-']

/-- The parts of a text that is taken apart at its commas can be put in a list. -/
theorem Parted.listable {ps : List Piece} {parts : List (List Piece)} (h : Parted ps parts)
    {tail : List Char} (hps : Reads ps tail) (hlisted : Listed ps) (hminus : MinusFree ps) :
    ∀ part ∈ filled parts, Listable part := by
  intro part hpart
  obtain ⟨hmem, hne⟩ := List.mem_filter.mp hpart
  obtain ⟨hwithin, hreads⟩ := h.reads hps part hmem
  obtain ⟨hsteady, hline, -⟩ := hlisted.of_isInfix hwithin
  refine ⟨by simpa using hne, hreads, hsteady, hline, fun p hp => ?_⟩
  obtain ⟨init, rfl⟩ := List.getLast?_eq_some_iff.mp hp
  obtain ⟨front, back, rfl, hback⟩ := h.next _ hmem
  cases back with
  | nil =>
    refine hminus.last p ?_
    rw [List.append_nil, ← List.append_assoc]
    exact List.getLast?_concat ..
  | cons q back => exact hminus.comma (front ++ init) p q back (by simp) (hback q rfl)

end Typestate
