import Typestate.Proofs.Text.Fields

/-!
Texts with brackets. Going through a text in which no separator stands outside of brackets takes nothing
apart, so that such texts with separators between are taken apart into them (`splitOutsideBrackets_joined`),
also if they are joined as a list is written (`splitOutsideBrackets_intercalate`).
-/

namespace Typestate.Text

/-- Going through a text leads from one depth in brackets and the character in front to others, and no mark
stands at depth zero. -/
inductive Walks (mark : Char) : Int → Char → List Char → Int → Char → Prop
  | nil {depth : Int} {previous : Char} : Walks mark depth previous [] depth previous
  | cons {depth depth' : Int} {previous last c : Char} {cs : List Char}
    (hmark : c = mark → depth + nesting previous c ≠ 0)
    (hrest : Walks mark (depth + nesting previous c) c cs depth' last) :
    Walks mark depth previous (c :: cs) depth' last

variable {mark sep previous last : Char} {depth depth' : Int} {cs rest : List Char}

theorem Walks.append {depth'' : Int} {last' : Char} (h : Walks mark depth previous cs depth' last)
    (hrest : Walks mark depth' last rest depth'' last') :
    Walks mark depth previous (cs ++ rest) depth'' last' := by
  induction h with
  | nil => exact hrest
  | cons hmark _ ih => exact .cons hmark (ih hrest)

/-- The first of the pieces is longer by what is passed without a separator. -/
theorem Walks.pieces {piece : List Char} {more : List (List Char)}
    (h : Walks sep depth previous cs depth' last)
    (hrest : pieces (· == sep) depth' last rest = piece :: more) :
    Text.pieces (· == sep) depth previous (cs ++ rest) = (cs ++ piece) :: more := by
  induction h with
  | nil => exact hrest
  | @cons depth depth' previous last c cs hmark hwalk ih =>
    have hpassed : ¬ (c == sep && depth + nesting previous c == 0) = true := by
      simp only [Bool.and_eq_true, beq_iff_eq, not_and]
      exact hmark
    simp [Text.pieces, hpassed, ih hrest, extendFirst]

theorem Walks.pieces_eq (h : Walks sep depth previous cs depth' last) :
    Text.pieces (· == sep) depth previous cs = [cs] := by
  have hend : Text.pieces (· == sep) depth' last [] = [[]] := rfl
  simpa using h.pieces hend

/-- No character of the text opens or closes a bracket. -/
def Level (cs : List Char) : Prop := ∀ c ∈ cs, ∀ previous, nesting previous c = 0

/-- A text without brackets and marks leads to where it starts. -/
theorem walks_of_level (hcs : Level cs) (hmark : mark ∉ cs) :
    ∃ last, Walks mark depth previous cs depth last ∧ (cs = [] ∧ last = previous ∨ last ∈ cs) := by
  induction cs generalizing previous with
  | nil => exact ⟨previous, .nil, Or.inl ⟨rfl, rfl⟩⟩
  | cons c cs ih =>
    obtain ⟨hc, hlevel⟩ := List.forall_mem_cons.mp hcs
    obtain ⟨hne, hmem⟩ := not_or.mp (mt List.mem_cons.mpr hmark)
    obtain ⟨last, hwalk, hlast⟩ := @ih c hlevel hmem
    refine ⟨last, .cons (fun hsame => absurd hsame.symm hne) ?_, Or.inr ?_⟩
    · rwa [hc, Int.add_zero]
    · rcases hlast with ⟨-, rfl⟩ | hlast
      · exact List.mem_cons_self ..
      · exact List.mem_cons_of_mem c hlast

theorem level_of_spaces (h : ∀ c ∈ cs, c = ' ') : Level cs := by
  intro c hc previous
  rw [h c hc]
  rfl

theorem isBlank_of_spaces (h : ∀ c ∈ cs, c = ' ') : ∀ c ∈ cs, isBlank c = true := by
  intro c hc
  rw [h c hc]
  decide

/-! ## Joined texts -/

/-- A text that is not blank, and that is not taken apart wherever it stands but behind a minus. -/
structure Whole (sep : Char) (cs : List Char) : Prop where
  filled : normalize cs ≠ []
  walks : ∀ previous, previous ≠ '-' → ∃ last, Walks sep 0 previous cs 0 last

theorem Whole.space (h : Whole sep cs) (hsep : sep ≠ ' ') : Whole sep (' ' :: cs) where
  filled := by
    rw [normalize_blank (by decide)]
    exact h.filled
  walks previous _ := by
    obtain ⟨last, hwalk⟩ := h.walks ' ' (by decide)
    exact ⟨last, .cons (fun hsame => absurd hsame.symm hsep) hwalk⟩

/-- Spaces may stand behind such a text. -/
theorem Whole.append_spaces {gap : List Char} (h : Whole sep cs) (hsep : sep ≠ ' ') (hgap : ∀ c ∈ gap, c = ' ') :
    Whole sep (cs ++ gap) where
  filled := by
    rw [normalize_append_blanks (isBlank_of_spaces hgap)]
    exact h.filled
  walks previous hprevious := by
    obtain ⟨last, hwalk⟩ := h.walks previous hprevious
    obtain ⟨last', hspaces, -⟩ := walks_of_level (level_of_spaces hgap) fun hmem => hsep (hgap sep hmem)
    exact ⟨last', hwalk.append hspaces⟩

/-- A text that has some texts in a row, with a comma between each and the next and perhaps behind the last.
They are known up to their blanks. -/
inductive Joined : List (List Char) → List Char → Prop
  | none {gap : List Char} (hgap : ∀ c ∈ gap, c = ' ') : Joined [] gap
  | last {cs : List Char} (hcs : Whole ',' cs) : Joined [normalize cs] cs
  | next {cs rest : List Char} {texts : List (List Char)} (hcs : Whole ',' cs) (hrest : Joined texts rest) :
    Joined (normalize cs :: texts) (cs ++ ',' :: rest)

theorem Joined.space {texts : List (List Char)} (h : Joined texts cs) : Joined texts (' ' :: cs) := by
  have hblank : ∀ cs, normalize (' ' :: cs) = normalize cs := fun cs => normalize_blank (by decide)
  cases h with
  | none hgap => exact .none (List.forall_mem_cons.mpr ⟨rfl, hgap⟩)
  | @last cs hcs =>
    rw [← hblank cs]
    exact .last (hcs.space (by decide))
  | @next cs rest texts hcs hrest =>
    rw [← hblank cs]
    exact .next (hcs.space (by decide)) hrest

theorem Joined.spaces {texts : List (List Char)} {gap : List Char} (h : Joined texts cs)
    (hgap : ∀ c ∈ gap, c = ' ') : Joined texts (gap ++ cs) := by
  induction gap with
  | nil => exact h
  | cons c gap ih =>
    obtain ⟨rfl, hspaces⟩ := List.forall_mem_cons.mp hgap
    exact (ih hspaces).space

/-- The pieces that are not blank are the texts. -/
theorem Joined.filter_pieces {texts : List (List Char)} (h : Joined texts cs) (hprevious : previous ≠ '-') :
    ((pieces (· == ',') 0 previous cs).map normalize).filter (!·.isEmpty) = texts := by
  induction h generalizing previous with
  | @none gap hgap =>
    obtain ⟨last, hwalk, -⟩ := @walks_of_level ',' previous 0 gap (level_of_spaces hgap)
      fun hmem => absurd (hgap ',' hmem) (by decide)
    have hblank : normalize gap = [] := normalize_eq_nil_iff.mpr (isBlank_of_spaces hgap)
    simp [hwalk.pieces_eq, hblank]
  | @last cs hcs =>
    obtain ⟨last, hwalk⟩ := hcs.walks previous hprevious
    simp [hwalk.pieces_eq, hcs.filled]
  | @next cs rest texts hcs hrest ih =>
    obtain ⟨last, hwalk⟩ := hcs.walks previous hprevious
    have hcomma : pieces (· == ',') 0 last (',' :: rest) = [] :: pieces (· == ',') 0 ',' rest := by
      rw [pieces]
      rfl
    have hpieces := hwalk.pieces hcomma
    rw [List.append_nil] at hpieces
    simp [hpieces, hcs.filled, ih (by decide : ',' ≠ '-')]

/-- **Joined texts.** A text is taken apart into the texts that it has in a row. -/
theorem splitOutsideBrackets_joined {texts : List (List Char)} {s : String} (h : Joined texts s.toList) :
    splitOutsideBrackets s (· == ',') = texts.map String.ofList := by
  unfold splitOutsideBrackets
  rw [h.filter_pieces (by decide)]

/-- A text that is joined with others as it is: it has no blanks but single spaces inside. -/
structure Single (text : String) : Prop where
  whole : Whole ',' text.toList
  normal : normalize text.toList = text.toList

theorem joined_intercalate {texts : List String} (h : ∀ text ∈ texts, Single text) :
    Joined (texts.map String.toList) (List.intercalate [',', ' '] (texts.map String.toList)) := by
  induction texts with
  | nil => exact .none (List.forall_mem_nil _)
  | cons text texts ih =>
    obtain ⟨htext, htexts⟩ := List.forall_mem_cons.mp h
    cases texts with
    | nil =>
      have hlast := Joined.last htext.whole
      rw [htext.normal] at hlast
      simpa using hlast
    | cons text' texts =>
      have hnext := Joined.next htext.whole (ih htexts).space
      rw [htext.normal] at hnext
      simpa [List.intercalate_cons_cons] using hnext

/-- **Lists.** Taking a list apart gives what it was joined from. -/
theorem splitOutsideBrackets_intercalate {texts : List String} (h : ∀ text ∈ texts, Single text) :
    splitOutsideBrackets (String.intercalate ", " texts) (· == ',') = texts := by
  have hjoined := joined_intercalate h
  have hlist : (String.intercalate ", " texts).toList = List.intercalate [',', ' '] (texts.map String.toList) :=
    String.toList_intercalate
  rw [← hlist] at hjoined
  rw [splitOutsideBrackets_joined hjoined, List.map_map]
  exact List.map_id'' (fun text => String.ofList_toList) texts

end Typestate.Text
