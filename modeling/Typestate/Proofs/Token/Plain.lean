import Typestate.Proofs.Token.Brackets

/-!
Plain tokens. Where the text of some tokens has neither strings nor comments, each comes from a piece of its
own with nothing but spaces between, and the text is that of its parts, one behind the other, with single
spaces between or none (`PlainPieces.textOf_append`).
-/

namespace Typestate

open Piece
open Text (isBlank squeeze endsBlank normalize)

/-! ## Pieces -/

/-- What stands for the spaces in front of a piece when every run of them is made one. -/
def Piece.space (p : Piece) : List Char := if p.gap.isEmpty then [] else [' ']

theorem Piece.space_eq (p : Piece) : ∀ c ∈ p.space, c = ' ' := by
  unfold space
  split <;> simp

/-- The words of some pieces are those of the first and those of the others. -/
theorem normalize_spell_append {qs rs : List Piece} {r : Piece} {tail : List Char}
    (hps : Reads (qs ++ r :: rs) tail) (hqs : qs ≠ []) (hline : ∀ p ∈ qs, ¬ p.IsLine) :
    normalize (spell (qs ++ r :: rs)) = normalize (spell qs) ++ (r.space ++ normalize (spell (r :: rs))) := by
  obtain ⟨q, qs, rfl⟩ := List.exists_cons_of_ne_nil hqs
  obtain ⟨hfront, hback⟩ := reads_append.mp hps
  have hspell : spell (setGap [] (q :: qs ++ r :: rs)) = spell (setGap [] (q :: qs)) ++ spell (r :: rs) := by
    rw [List.cons_append, setGap, ← List.cons_append, spell_append]
    rfl
  have hflush : endsBlank false (spell (setGap [] (q :: qs))) = false :=
    endsBlank_spell (hfront.setGap (List.forall_mem_nil _)) (forall_setGap (fun _ _ => id) [] hline)
  have hbehind : squeeze false (spell (r :: rs)) = r.space ++ normalize (spell (r :: rs)) := by
    obtain ⟨c, cs, hc, hcs, hrs⟩ := head_spell_setGap hback
    rw [normalize_spell hback, hcs, hrs, Text.squeeze_blanks fun d hd => Lexeme.isBlank_of_space (hback.1.gap d hd),
      Text.squeeze_head hc, space]
    cases r.gap <;> rfl
  rw [normalize_spell hps, hspell, Text.squeeze_append, hflush, hbehind, normalize_spell hfront]

/-- The spaces in front of some pieces are none of their words. -/
theorem normalize_spell_setGap {ps : List Piece} {tail : List Char} (hps : Reads ps tail) :
    normalize (spell (setGap [] ps)) = normalize (spell ps) := by
  rw [normalize_spell (hps.setGap (List.forall_mem_nil _)), setGap_setGap, normalize_spell hps]

theorem readsBefore_of_mem {ps : List Piece} {tail : List Char} (hps : Reads ps tail) {p : Piece} (hp : p ∈ ps) :
    ∃ after, p.ReadsBefore after := by
  obtain ⟨front, back, rfl⟩ := List.append_of_mem hp
  exact ⟨_, (reads_append.mp hps).2.1⟩

/-- Tokens in a row come from pieces in a row. -/
theorem exists_append_of_placed {c : Cursor} {ps : List Piece} {ts us : List Token}
    (h : placed c ps = ts ++ us) (htokens : ∀ p ∈ ps, p.token.isSome = true) :
    ∃ qs rs, ps = qs ++ rs ∧ placed c qs = ts ∧ placed (c.advanceBy (spell qs).length) rs = us := by
  induction ts generalizing c ps with
  | nil => exact ⟨[], ps, rfl, rfl, h⟩
  | cons t ts ih =>
    cases ps with
    | nil => cases h
    | cons p ps =>
      obtain ⟨htoken, htokens⟩ := List.forall_mem_cons.mp htokens
      obtain ⟨content, hcontent⟩ := Option.isSome_iff_exists.mp htoken
      rw [placed_cons_of_token hcontent] at h
      obtain ⟨ht, hrest⟩ := List.cons.inj h
      obtain ⟨qs, rs, rfl, hqs, hrs⟩ := ih hrest htokens
      refine ⟨p :: qs, rs, rfl, by rw [placed_cons_of_token hcontent, ht, hqs], ?_⟩
      have hlength : (spell (p :: qs)).length = p.whole.length + (spell qs).length := by
        rw [spell_cons, whole, ← List.append_assoc, List.length_append]
      rw [hlength, Cursor.advanceBy_add]
      exact hrs

/-! ## Tokens -/

/-- The pieces of some tokens of a source, one for each. Their text has neither strings nor comments: outside of
these there are no quotation marks and no slashes. -/
structure PlainPieces (src : Source) (ts : List Token) (ps : List Piece) : Prop where
  place : ∃ front back tail, Reads (ps ++ back) tail ∧
    src.text.toList = spell (front ++ (ps ++ back)) ++ tail ∧
    ts = placed ((Cursor.start src.text).advanceBy (spell front).length) ps
  quote : '"' ∉ spell ps
  slash : '/' ∉ spell ps

namespace PlainPieces

variable {src : Source} {ts us : List Token} {ps : List Piece}

theorem reads (h : PlainPieces src ts ps) : ∃ tail, Reads ps tail := by
  obtain ⟨front, back, tail, hreads, -, -⟩ := h.place
  exact ⟨_, (reads_append.mp hreads).1⟩

theorem pieces (h : PlainPieces src ts ps) : ∀ p ∈ ps, p.token.isSome = true ∧ ¬ p.IsLine := by
  obtain ⟨tail, hreads⟩ := h.reads
  exact isSome_and_not_isLine hreads h.quote h.slash

theorem contents_eq (h : PlainPieces src ts ps) : contents ps = ts.map Token.content := by
  obtain ⟨front, back, tail, -, -, rfl⟩ := h.place
  exact (contents_placed _ _).symm

theorem eq_nil_iff (h : PlainPieces src ts ps) : ps = [] ↔ ts = [] := by
  obtain ⟨front, back, tail, -, -, rfl⟩ := h.place
  constructor
  · rintro rfl
    rfl
  · intro hnone
    cases ps with
    | nil => rfl
    | cons p ps =>
      obtain ⟨content, hcontent⟩ := Option.isSome_iff_exists.mp (h.pieces p (List.mem_cons_self ..)).1
      rw [placed_cons_of_token hcontent] at hnone
      cases hnone

theorem textOf (h : PlainPieces src ts ps) : (src.textOf ts).toList = normalize (spell ps) := by
  by_cases hne : ts = []
  · rw [h.eq_nil_iff.mpr hne, hne]
    rfl
  have htokens := h.pieces
  obtain ⟨front, back, tail, hreads, htext, rfl⟩ := h.place
  have hps := (reads_append.mp hreads).1
  have hfragment := Source.fragment_placed htext ⟨_, hps⟩
    (fun p hp => (htokens p (List.mem_of_mem_head? hp)).1) fun p hp => (htokens p (List.mem_of_mem_getLast? hp)).1
  rw [hfragment.textOf hne, String.toList_ofList, normalize_spell_setGap hps]

/-- The pieces of tokens in a row. -/
theorem split (h : PlainPieces src (ts ++ us) ps) :
    ∃ qs rs, ps = qs ++ rs ∧ PlainPieces src ts qs ∧ PlainPieces src us rs := by
  have htokens := h.pieces
  obtain ⟨⟨front, back, tail, hreads, htext, hplaced⟩, hquote, hslash⟩ := h
  obtain ⟨qs, rs, rfl, rfl, rfl⟩ := exists_append_of_placed hplaced.symm fun p hp => (htokens p hp).1
  rw [spell_append, List.mem_append, not_or] at hquote hslash
  refine ⟨qs, rs, rfl, ⟨⟨front, rs ++ back, tail, ?_, ?_, rfl⟩, hquote.1, hslash.1⟩,
    ⟨⟨front ++ qs, back, tail, ?_, ?_, ?_⟩, hquote.2, hslash.2⟩⟩
  · rwa [← List.append_assoc]
  · rw [htext, List.append_assoc]
  · rw [List.append_assoc] at hreads
    exact (reads_append.mp hreads).2
  · rw [htext]
    simp
  · rw [spell_append, List.length_append, Cursor.advanceBy_add]

/-- **Parts.** The text of two rows of plain tokens is those of both, with spaces between or none. -/
theorem textOf_append (h : PlainPieces src (ts ++ us) ps) : ∃ gap, (∀ c ∈ gap, c = ' ') ∧
    (src.textOf (ts ++ us)).toList = (src.textOf ts).toList ++ (gap ++ (src.textOf us).toList) := by
  have htext := h.textOf
  have hpieces := h.pieces
  obtain ⟨tail, hreads⟩ := h.reads
  obtain ⟨qs, rs, rfl, hqs, hrs⟩ := h.split
  rw [htext, hqs.textOf, hrs.textOf]
  cases rs with
  | nil =>
    have hnone : normalize (spell []) = [] := rfl
    exact ⟨[], List.forall_mem_nil _, by rw [hnone, List.append_nil, List.append_nil, List.append_nil]⟩
  | cons r rs =>
    by_cases hne : qs = []
    · exact ⟨[], List.forall_mem_nil _, by rw [hne]; rfl⟩
    · refine ⟨r.space, r.space_eq, normalize_spell_append hreads hne fun p hp => ?_⟩
      exact (hpieces p (List.mem_append_left _ hp)).2

/-- Every piece is that of a token whose value is the text of the piece. -/
theorem written (h : PlainPieces src ts ps) : ∀ p ∈ ps, ∃ kind, p.token = some (kind, p.text) ∧
    Lexeme.Written kind p.text := by
  intro p hp
  obtain ⟨tail, hreads⟩ := h.reads
  obtain ⟨after, hbefore⟩ := readsBefore_of_mem hreads hp
  have hsubset : p.text ⊆ spell ps := fun c hc =>
    List.mem_flatMap.mpr ⟨p, hp, List.mem_append_right p.gap hc⟩
  exact hbefore.exists_written (h.pieces p hp).1 (fun hmem => h.quote (hsubset hmem))
    fun hmem => h.slash (hsubset hmem)

theorem kept (h : PlainPieces src ts ps) : Kept ps where
  steady p hp _ := by
    obtain ⟨kind, -, hwritten⟩ := h.written p hp
    obtain ⟨c, cs, htext⟩ := List.exists_cons_of_ne_nil hwritten.ne_nil
    have hblank := hwritten.not_blank
    have hreturn : ∀ d ∈ p.text.getLast?, d ≠ '\r' := by
      rintro d hd rfl
      exact absurd (hblank _ (List.mem_of_mem_getLast? hd)) (by decide)
    rw [dropReturns_of_last hreturn]
    exact Text.normalize_of_not_blank hblank
  line p hp := (h.pieces p (List.dropLast_subset ps hp)).2

/-- **Tokens.** The text is read as the tokens again. -/
theorem spells (h : PlainPieces src ts ps) : Spells (src.textOf ts).toList (ts.map Token.content) := by
  obtain ⟨tail, hreads⟩ := h.reads
  rw [h.textOf, ← h.contents_eq, spells_normalize_iff hreads (Or.inr fun p hp => (h.pieces p hp).2)]
  exact h.kept

theorem not_mem_textOf (h : PlainPieces src ts ps) :
    '"' ∉ (src.textOf ts).toList ∧ '/' ∉ (src.textOf ts).toList := by
  rw [h.textOf, Text.mem_normalize_iff (by decide), Text.mem_normalize_iff (by decide)]
  exact ⟨h.quote, h.slash⟩

theorem normalize_textOf (h : PlainPieces src ts ps) :
    normalize (src.textOf ts).toList = (src.textOf ts).toList := by
  obtain ⟨tail, hreads⟩ := h.reads
  rw [h.textOf, normalize_spell hreads, Text.normalize_squeeze, normalize_spell_setGap hreads,
    normalize_spell hreads]

/-- The text leads to the depth that its tokens have. -/
theorem walks {mark : Char} {sep : TokenKind} {previous : Char} (h : PlainPieces src ts ps)
    (hsep : Separates mark sep) (hlevel : TokenKind.level (ts.map Token.kind) = 0)
    (hinside : Inside sep 0 (ts.map Token.kind)) (hprevious : previous ≠ '-') :
    ∃ last, Text.Walks mark 0 previous (src.textOf ts).toList 0 last := by
  have hkinds : (ts.map Token.content).map Prod.fst = ts.map Token.kind := by
    rw [List.map_map]
    rfl
  obtain ⟨hquote, hslash⟩ := h.not_mem_textOf
  rw [← hkinds] at hlevel hinside
  obtain ⟨last, hwalk⟩ := walks_of_spells h.spells hquote hslash hsep hinside hprevious
  rw [hlevel] at hwalk
  exact ⟨last, hwalk⟩

/-- The piece of a single token. -/
theorem exists_piece {t : Token} (h : PlainPieces src [t] ps) :
    ∃ p, ps = [p] ∧ p.text = t.value.toList ∧ Lexeme.Written t.kind p.text := by
  have hcontents := h.contents_eq
  rcases ps with _ | ⟨p, ps⟩
  · cases hcontents
  obtain ⟨kind, hcontent, hwritten⟩ := h.written p (List.mem_cons_self ..)
  rw [contents_cons, hcontent] at hcontents
  obtain ⟨hsame, hrest⟩ := List.cons.inj hcontents
  obtain ⟨rfl, hvalue⟩ := Prod.mk.inj hsame
  refine ⟨p, ?_, hvalue, hwritten⟩
  rcases ps with _ | ⟨q, ps⟩
  · rfl
  · obtain ⟨kind', hcontent', -⟩ := h.written q (by simp)
    rw [contents_cons, hcontent'] at hrest
    cases hrest

theorem written_value {t : Token} (h : PlainPieces src [t] ps) : Lexeme.Written t.kind t.value.toList := by
  obtain ⟨p, -, hvalue, hwritten⟩ := h.exists_piece
  rwa [← hvalue]

theorem textOf_singleton {t : Token} (h : PlainPieces src [t] ps) : src.textOf [t] = t.value := by
  obtain ⟨p, rfl, hvalue, hwritten⟩ := h.exists_piece
  have htext := h.textOf
  obtain ⟨tail, hreads⟩ := h.reads
  have hspell : spell [p] = p.gap ++ p.text := by rw [spell_cons, spell_nil, List.append_nil]
  rw [hspell, Text.normalize_blanks_append fun d hd => Lexeme.isBlank_of_space (hreads.1.gap d hd),
    Text.normalize_of_not_blank hwritten.not_blank, hvalue] at htext
  exact String.toList_injective htext

/-- The text of the first token, and that of the others. -/
theorem textOf_cons {t : Token} (h : PlainPieces src (t :: ts) ps) :
    Lexeme.Written t.kind t.value.toList ∧ (∃ qs, PlainPieces src ts qs) ∧ ∃ gap, (∀ c ∈ gap, c = ' ') ∧
      (src.textOf (t :: ts)).toList = t.value.toList ++ (gap ++ (src.textOf ts).toList) := by
  rw [← List.singleton_append] at h ⊢
  obtain ⟨gap, hgap, htext⟩ := h.textOf_append
  obtain ⟨qs, rs, -, hqs, hrs⟩ := h.split
  exact ⟨hqs.written_value, ⟨rs, hrs⟩, gap, hgap, by rw [htext, hqs.textOf_singleton]⟩

/-- A space stands between two names. -/
theorem textOf_names {t u : Token} (h : PlainPieces src ([t] ++ [u]) ps) (ht : t.kind.isName = true)
    (hu : u.kind.isName = true) :
    (src.textOf ([t] ++ [u])).toList = t.value.toList ++ ' ' :: u.value.toList := by
  have htext := h.textOf
  have hpieces := h.pieces
  obtain ⟨tail, hreads⟩ := h.reads
  obtain ⟨qs, rs, rfl, hqs, hrs⟩ := h.split
  obtain ⟨q, rfl, -, hq⟩ := hqs.exists_piece
  obtain ⟨r, rfl, -, hr⟩ := hrs.exists_piece
  have hspace : r.space = [' '] := by
    obtain ⟨c, cs, hctext, hc⟩ := hq.exists_wordChar ht
    obtain ⟨d, ds, hdtext, hd⟩ := hr.exists_wordChar hu
    obtain ⟨-, c', more, hqtext, hfirst⟩ := hreads.1
    have happart := (Lexeme.first_of_apart hfirst).1
    rw [← hqtext, hctext] at happart
    have hlong : Lexeme.isLongStart c = true := by simp [Lexeme.isLongStart, hc]
    unfold space
    cases hgap : r.gap with
    | cons e gap => rfl
    | nil =>
      have hno := happart.word c rfl hlong d (by simp [hgap, hdtext])
      rw [hd] at hno
      cases hno
  have hline : ∀ p ∈ [q], ¬ p.IsLine := fun p hp => (hpieces p (List.mem_append_left _ hp)).2
  rw [htext, normalize_spell_append hreads (List.cons_ne_nil q []) hline, ← hqs.textOf, ← hrs.textOf,
    hqs.textOf_singleton, hrs.textOf_singleton, hspace]
  rfl

end PlainPieces

/-- Tokens whose text has no quotation marks and no slashes are plain. -/
theorem Source.exists_plainPieces {src : Source} {tokens taken : List Token} (h : src.tokenize = .ok tokens)
    (htaken : taken <:+: tokens.dropLast) (hquote : '"' ∉ (src.textOf taken).toList)
    (hslash : '/' ∉ (src.textOf taken).toList) : ∃ ps, PlainPieces src taken ps := by
  by_cases hne : taken = []
  · obtain ⟨all, tail, hreads, -, htext, -⟩ := reads_of_tokenize h
    exact ⟨[], ⟨[], all, tail, hreads, htext, hne⟩, List.not_mem_nil, List.not_mem_nil⟩
  · obtain ⟨front, ps, back, tail, hreads, htext, hhead, hlast, rfl⟩ := exists_placed h htaken hne
    have hps := (reads_append.mp hreads).1
    have hfragment := fragment_placed htext ⟨_, hps⟩ hhead hlast
    rw [hfragment.textOf hne, String.toList_ofList, normalize_spell_setGap hps,
      Text.mem_normalize_iff (by decide)] at hquote hslash
    exact ⟨ps, ⟨front, back, tail, hreads, htext, rfl⟩, hquote, hslash⟩

end Typestate
