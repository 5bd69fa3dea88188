import Typestate.Proofs.Report.Console
import Typestate.Proofs.Text.Squeeze
import Typestate.Report.Table

/-!
The reference console meets what is assumed of a console (`reference_readsMarkup`). In a text without backslashes the
pieces are what stands between the tags (`flatten_piecesFrom`), and in a text without a place for the name of a picture
there is none in a piece (`withPictures_pieces`).
-/

namespace Typestate.Report

variable {styles : List (List Char)} {c : Char} {cs : List Char}

/-! ## Pieces -/

theorem flatten_extendFirst (c : Char) (pieces : List (List Char)) :
    (Text.extendFirst c pieces).flatten = c :: pieces.flatten := by
  cases pieces <;> rfl

theorem piecesFrom_tag {content behind : List Char} (h : tag? cs = some (content, behind)) :
    piecesFrom styles cs =
      (applyTag styles content).bind fun styles => (piecesFrom styles behind).map ([] :: ·) := by
  obtain ⟨first, more, -, -, rfl⟩ := exists_of_tag? h
  rw [List.cons_append] at h ⊢
  rw [piecesFrom, if_neg (by decide)]
  split
  · next content' behind' htag =>
    rw [h] at htag
    cases htag
    rfl
  · next htag =>
    rw [h] at htag
    cases htag

theorem piecesFrom_other (hslash : c ≠ '\\') (h : tag? (c :: cs) = none) :
    piecesFrom styles (c :: cs) = (piecesFrom styles cs).map (Text.extendFirst c) := by
  rw [piecesFrom, if_neg (by simpa using hslash)]
  split
  · next htag =>
    rw [h] at htag
    cases htag
  · rfl

/-- Without backslashes the pieces are what stands between the tags. -/
theorem flatten_piecesFrom {pieces : List (List Char)} (hslash : '\\' ∉ cs)
    (h : piecesFrom styles cs = some pieces) : pieces.flatten = withoutTags cs := by
  fun_induction withoutTags cs generalizing styles pieces with
  | case1 =>
    rw [piecesFrom] at h
    cases h
    rfl
  | case2 c rest content behind htag ih =>
    rw [piecesFrom_tag htag] at h
    obtain ⟨styles', -, h⟩ := Option.bind_eq_some_iff.mp h
    obtain ⟨more, hmore, rfl⟩ := Option.map_eq_some_iff.mp h
    rw [List.flatten_cons, List.nil_append]
    exact ih (fun hmem => hslash ((suffix_of_tag? htag).subset hmem)) hmore
  | case3 c rest htag ih =>
    obtain ⟨hc, hrest⟩ := not_or.mp (mt List.mem_cons.mpr hslash)
    rw [piecesFrom_other (Ne.symm hc) htag] at h
    obtain ⟨more, hmore, rfl⟩ := Option.map_eq_some_iff.mp h
    rw [flatten_extendFirst, ih hrest hmore]

/-- A text without tags and backslashes is one piece. -/
theorem piecesFrom_untagged (hslash : '\\' ∉ cs) (h : firstTag? cs = none) : piecesFrom styles cs = some [cs] := by
  induction cs with
  | nil => rw [piecesFrom]
  | cons c cs ih =>
    obtain ⟨hc, hcs⟩ := not_or.mp (mt List.mem_cons.mpr hslash)
    rw [firstTag?] at h
    split at h
    · cases h
    · next htag =>
      rw [piecesFrom_other (Ne.symm hc) htag, ih hcs h]
      rfl

/-- Without a style there is nothing for a tag to end. -/
theorem applyTag_closing (name : List Char) : applyTag [] ('/' :: name) = none := by
  unfold applyTag
  rw [List.takeWhile_cons, if_pos (by decide)]
  cases hname : Text.trim (name.takeWhile (· != '=')) <;> simp [hname]

/-- A text whose first tag ends a style has no pieces. -/
theorem piecesFrom_closing {name : List Char} (hslash : '\\' ∉ cs) (h : firstTag? cs = some ('/' :: name)) :
    piecesFrom [] cs = none := by
  induction cs with
  | nil => cases h
  | cons c cs ih =>
    obtain ⟨hc, hcs⟩ := not_or.mp (mt List.mem_cons.mpr hslash)
    rw [firstTag?] at h
    split at h
    · next content behind htag =>
      cases h
      rw [piecesFrom_tag htag, applyTag_closing]
      rfl
    · next htag =>
      rw [piecesFrom_other (Ne.symm hc) htag, ih hcs h]
      rfl

/-- Characters that mean nothing do not decide whether there are pieces. -/
theorem isSome_piecesFrom_append {front : List Char} (hfront : ∀ c ∈ front, isQuiet c = true) (rest : List Char) :
    (piecesFrom styles (front ++ rest)).isSome = (piecesFrom styles rest).isSome := by
  induction front with
  | nil => rfl
  | cons c front ih =>
    obtain ⟨hc, hfront⟩ := List.forall_mem_cons.mp hfront
    obtain ⟨hbracket, -, hslash, -⟩ := ne_of_isQuiet hc
    rw [List.cons_append, piecesFrom_other hslash (tag?_eq_none_of_ne hbracket), Option.isSome_map, ih hfront]

/-! ## Pictures -/

theorem Text.ne_nil_of_mem_words {cs w : List Char} (h : w ∈ Text.words cs) : w ≠ [] := by
  fun_induction Text.words cs with
  | case1 => cases h
  | case2 c rest hc ih => exact ih h
  | case3 c hc =>
    rw [List.mem_singleton.mp h]
    exact List.cons_ne_nil _ _
  | case4 c hc d rest hd ih =>
    rcases List.mem_cons.mp h with rfl | h
    · exact List.cons_ne_nil _ _
    · exact ih h
  | case5 c hc d rest hd ih =>
    rw [Text.extendFirst.eq_def] at h
    split at h
    · rw [List.mem_singleton.mp h]
      exact List.cons_ne_nil _ _
    · next first others hwords =>
      rcases List.mem_cons.mp h with rfl | h
      · exact List.cons_ne_nil _ _
      · rw [hwords] at ih
        exact ih (List.mem_cons_of_mem _ h)

theorem named?_nil (table : String) : named? table [] = none := by
  refine List.findSome?_eq_none_iff.mpr fun line _ => ?_
  dsimp only
  refine if_neg fun hmem => ?_
  exact Text.ne_nil_of_mem_words (List.dropLast_subset _ (List.contains_iff_mem.mp hmem)) rfl

/-- There is no picture without a name. -/
theorem pictured?_nil : pictured? [] = none := by
  have hflag : flag? [] = none := by
    have hregion : "flag_for_".toList.isPrefixOf? ([] : List Char) = none := rfl
    unfold flag?
    rw [hregion]
    dsimp only
    rw [named?_nil, named?_nil]
    rfl
  have htoned : tonedPicture? [] = none := by
    have hnone : ∀ tone ∈ tones, tone.1.toList.isSuffixOf? ([] : List Char) = none := by decide
    refine List.findSome?_eq_none_iff.mpr fun tone htone => ?_
    dsimp only
    rw [hnone tone htone]
    rfl
  have htext : "-text".toList.isSuffixOf? ([] : List Char) = none := rfl
  have hemoji : "-emoji".toList.isSuffixOf? ([] : List Char) = none := rfl
  unfold pictured?
  dsimp only
  rw [htext, hemoji]
  dsimp only
  rw [List.flatMap_nil, picture?, named?_nil, hflag, htoned]
  rfl

theorem exists_of_betweenColons? {content behind : List Char} (h : betweenColons? cs = some (content, behind)) :
    (∀ c ∈ content, c ≠ ':' ∧ Text.isBlank c = false) ∧ cs = ':' :: content ++ ':' :: behind := by
  unfold betweenColons? at h
  split at h
  · next rest =>
    simp only [Option.ite_none_right_eq_some, Option.some.injEq, Prod.mk.injEq, beq_iff_eq] at h
    obtain ⟨hclosed, rfl, rfl⟩ := h
    refine ⟨fun c hc => ?_, ?_⟩
    · simpa using List.all_eq_true.mp List.all_takeWhile c hc
    · rw [List.cons_append, takeWhile_append_cons hclosed]
  · cases h

/-- Behind any other character nothing is pending. -/
theorem isPictureless_behind {pending : Bool} {front : List Char} (hc : c ≠ ':')
    (h : isPictureless pending (front ++ c :: cs) = true) : isPictureless false cs = true := by
  induction front generalizing pending with
  | nil =>
    rw [List.nil_append, isPictureless, if_neg (by simpa using hc), Bool.and_eq_true] at h
    exact h.2
  | cons d front ih =>
    rw [List.cons_append, isPictureless] at h
    split at h
    · exact ih h
    · rw [Bool.and_eq_true] at h
      exact ih h.2

theorem isPictureless_pieces {pending : Bool} {pieces : List (List Char)} (hslash : '\\' ∉ cs)
    (hcs : isPictureless pending cs = true) (h : piecesFrom styles cs = some pieces) :
    ∃ first others, pieces = first :: others ∧ isPictureless pending first = true ∧
      ∀ piece ∈ others, isPictureless false piece = true := by
  fun_induction withoutTags cs generalizing styles pieces pending with
  | case1 =>
    rw [piecesFrom] at h
    cases h
    exact ⟨[], [], rfl, rfl, List.forall_mem_nil _⟩
  | case2 c rest content behind htag ih =>
    rw [piecesFrom_tag htag] at h
    obtain ⟨styles', -, h⟩ := Option.bind_eq_some_iff.mp h
    obtain ⟨more, hmore, rfl⟩ := Option.map_eq_some_iff.mp h
    have hslash : '\\' ∉ behind := fun hmem => hslash ((suffix_of_tag? htag).subset hmem)
    have hbehind : isPictureless false behind = true := by
      obtain ⟨-, -, -, -, heq⟩ := exists_of_tag? htag
      rw [heq] at hcs
      exact isPictureless_behind (by decide) hcs
    obtain ⟨first, others, rfl, hfirst, hothers⟩ := ih hslash hbehind hmore
    exact ⟨[], _, rfl, rfl, List.forall_mem_cons.mpr ⟨hfirst, hothers⟩⟩
  | case3 c rest htag ih =>
    obtain ⟨hc, hrest⟩ := not_or.mp (mt List.mem_cons.mpr hslash)
    rw [piecesFrom_other (Ne.symm hc) htag] at h
    obtain ⟨more, hmore, rfl⟩ := Option.map_eq_some_iff.mp h
    rw [isPictureless] at hcs
    split at hcs
    · next hcolon =>
      obtain ⟨first, others, rfl, hfirst, hothers⟩ := ih hrest hcs hmore
      refine ⟨c :: first, others, rfl, ?_, hothers⟩
      rw [isPictureless, if_pos hcolon]
      exact hfirst
    · next hcolon =>
      rw [Bool.and_eq_true] at hcs
      obtain ⟨first, others, rfl, hfirst, hothers⟩ := ih hrest hcs.2 hmore
      refine ⟨c :: first, others, rfl, ?_, hothers⟩
      rw [isPictureless, if_neg hcolon, Bool.and_eq_true]
      exact ⟨hcs.1, hfirst⟩

theorem withPictures_of_pictureless (h : isPictureless false cs = true) : withPictures cs = cs := by
  fun_induction withPictures cs with
  | case1 => rfl
  | case2 c rest content behind hbetween ih =>
    obtain ⟨hcontent, heq⟩ := exists_of_betweenColons? hbetween
    rw [heq] at h ⊢
    cases content with
    | nil =>
      have hbehind : isPictureless false behind = true := h
      rw [pictured?_nil, ih hbehind]
      rfl
    | cons d more =>
      obtain ⟨hcolon, hblank⟩ := hcontent d List.mem_cons_self
      have hpending : isPictureless true (d :: (more ++ ':' :: behind)) = true := h
      rw [isPictureless, if_neg (by simpa using hcolon), hblank] at hpending
      cases hpending
  | case3 c rest hbetween ih =>
    refine congrArg (c :: ·) (ih ?_)
    rw [isPictureless] at h
    split at h
    · next hcolon =>
      rw [beq_iff_eq] at hcolon
      subst hcolon
      cases rest with
      | nil => rfl
      | cons d rest =>
        rw [Bool.not_false, isPictureless] at h
        split at h
        · next hcolon =>
          rw [beq_iff_eq.mp hcolon] at hbetween
          cases hbetween
        · next hcolon =>
          rw [Bool.and_eq_true] at h
          rw [isPictureless, if_neg hcolon, h.2]
          rfl
    · exact (Bool.and_eq_true_iff.mp h).2

/-- Without a place for the name of a picture there is none in a piece. -/
theorem withPictures_pieces {pieces : List (List Char)} (hslash : '\\' ∉ cs) (hcs : isPictureless false cs = true)
    (h : piecesFrom styles cs = some pieces) : pieces.flatMap withPictures = pieces.flatten := by
  obtain ⟨first, others, rfl, hfirst, hothers⟩ := isPictureless_pieces hslash hcs h
  have hall : ∀ piece ∈ first :: others, withPictures piece = piece :=
    List.forall_mem_cons.mpr ⟨withPictures_of_pictureless hfirst,
      fun piece hpiece => withPictures_of_pictureless (hothers piece hpiece)⟩
  rw [List.flatMap_def, List.map_congr_left hall, List.map_id']

/-! ## Consoles -/

variable {text : String}

/-- In a plain text the pieces are shown as they stand. -/
theorem shown_of_plain (h : Plain text.toList) :
    shown text = (piecesFrom [] text.toList).map List.flatten := by
  unfold shown
  refine Option.map_congr fun pieces hpieces => ?_
  rw [withPictures_pieces h.backslash h.pictureless hpieces, flatten_piecesFrom h.backslash hpieces]
  refine List.filter_eq_self.mpr fun c hc => ?_
  rw [h.control c ((withoutTags_sublist _).subset hc)]
  rfl

/-- The style of a kind is set and ended by tags. -/
theorem exists_style (kind : NodeKind) : ∃ first more name, (styleOf kind).toList = first :: more ∧
    startsTag first = true ∧ (∀ c ∈ first :: more, isQuiet c = true) ∧ ']' ∉ first :: more ∧
    applyTag [] (first :: more) = some [name] ∧ applyTag [name] ('/' :: first :: more) = some [] := by
  cases kind <;>
    exact ⟨_, _, _, rfl, rfl, List.all_eq_true.mp (by decide), by decide, rfl, by decide +kernel⟩

theorem shown_styled (kind : NodeKind) {front inner behind : String}
    (h : ∀ c ∈ (front ++ inner ++ behind).toList, isQuiet c = true) :
    shown (front ++ styled (styleOf kind) inner ++ behind) = some (front ++ inner ++ behind).toList := by
  simp only [String.toList_append, List.forall_mem_append] at h
  obtain ⟨⟨hfront, hinner⟩, hbehind⟩ := h
  obtain ⟨first, more, name, hstyle, hstart, hname, hclose, hset, hended⟩ := exists_style kind
  have hmore : ∀ c ∈ first :: more, c ≠ '[' ∧ c ≠ ']' := fun c hc =>
    ⟨(ne_of_isQuiet (hname c hc)).1, ne_of_mem_of_not_mem hc hclose⟩
  have hopening := tag?_brackets hstart (fun c hc => hmore c (List.mem_cons_of_mem first hc))
    (inner.toList ++ ('[' :: '/' :: first :: more ++ ']' :: behind.toList))
  have hclosing := @tag?_brackets '/' (first :: more) rfl hmore behind.toList
  have htext : (front ++ styled (styleOf kind) inner ++ behind).toList = front.toList ++
      ('[' :: first :: more ++ ']' :: (inner.toList ++ ('[' :: '/' :: first :: more ++ ']' :: behind.toList))) := by
    have hend : "[/".toList = ['[', '/'] := rfl
    simp [styled, String.toList_append, hstyle, hend]
  have hplain : Plain (front ++ styled (styleOf kind) inner ++ behind).toList := by
    have hquiet : ∀ {cs : List Char}, (∀ c ∈ cs, isQuiet c = true) →
        ∀ c ∈ cs, c ≠ ':' ∧ c ≠ '\\' ∧ isConsoleControl c = false := fun hcs c hc => (ne_of_isQuiet (hcs c hc)).2
    have hopen : '[' ≠ ':' ∧ '[' ≠ '\\' ∧ isConsoleControl '[' = false := by decide
    have hclose := (@ne_of_isQuiet ']' rfl).2
    have hslash := (@ne_of_isQuiet '/' rfl).2
    have hname := List.forall_mem_cons.mp (hquiet hname)
    rw [htext]
    refine plain_of_forall ?_
    simp only [List.forall_mem_append, List.forall_mem_cons]
    exact ⟨hquiet hfront, ⟨hopen, hname⟩, hclose, hquiet hinner, ⟨hopen, hslash, hname⟩, hclose, hquiet hbehind⟩
  have hnone : ∀ {cs : List Char}, (∀ c ∈ cs, isQuiet c = true) → '[' ∉ cs := fun hcs hmem =>
    (ne_of_isQuiet (hcs _ hmem)).1 rfl
  have hsome : (piecesFrom [] (front ++ styled (styleOf kind) inner ++ behind).toList).isSome = true := by
    rw [htext, isSome_piecesFrom_append hfront, piecesFrom_tag hopening, hset, Option.bind_some, Option.isSome_map,
      isSome_piecesFrom_append hinner, piecesFrom_tag hclosing, hended, Option.bind_some, Option.isSome_map]
    have hlast := plain_of_quiet hbehind
    rw [piecesFrom_untagged hlast.backslash (firstTag?_of_quiet hbehind)]
    rfl
  obtain ⟨pieces, hpieces⟩ := Option.isSome_iff_exists.mp hsome
  rw [shown_of_plain hplain, hpieces, Option.map_some, flatten_piecesFrom hplain.backslash hpieces, htext,
    withoutTags_append (hnone hfront), withoutTags_tag hopening, withoutTags_append (hnone hinner),
    withoutTags_tag hclosing, withoutTags_eq_iff.mpr (firstTag?_of_quiet hbehind)]
  simp [String.toList_append]

/-- **Reference.** The reference console reads markup. -/
theorem reference_readsMarkup : reference.ReadsMarkup where
  untagged text h hnone := by
    have hpieces : piecesFrom [] text.toList = some [text.toList] := piecesFrom_untagged h.backslash hnone
    change shown text = _
    rw [shown_of_plain h, hpieces, Option.map_some, List.flatten_singleton]
  tags text cs h hshown := by
    change shown text = _ at hshown
    rw [shown_of_plain h] at hshown
    obtain ⟨pieces, hpieces, rfl⟩ := Option.map_eq_some_iff.mp hshown
    exact flatten_piecesFrom h.backslash hpieces
  closing text name h hfirst := by
    change shown text = _
    rw [shown_of_plain h, piecesFrom_closing h.backslash hfirst]
    rfl
  styled kind _ _ _ h := shown_styled kind h

end Typestate.Report
