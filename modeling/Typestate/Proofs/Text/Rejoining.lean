import Typestate.Proofs.Text.Brackets

/-!
Taking a text apart at its commas and joining the parts again. Every part but the last leads from depth zero in
brackets to depth zero, and the last may lead anywhere: brackets may stay open, and more may be closed than
were opened. Making the blanks of a part single spaces changes no depth, so that the joined parts are taken
apart into the same parts (`splitOutsideBrackets_rejoined`).
-/

namespace Typestate.Text

variable {previous before last c : Char} {depth depth' : Int} {cs : List Char} {pending : Bool}

/-- The parts among some pieces: those that are not blank, with single spaces. -/
def filled (ps : List (List Char)) : List (List Char) := (ps.map normalize).filter (!·.isEmpty)

theorem filled_cons (p : List Char) (ps : List (List Char)) :
    filled (p :: ps) = (if normalize p = [] then [] else [normalize p]) ++ filled ps := by
  rw [filled, filled, List.map_cons, List.filter_cons]
  cases normalize p <;> rfl

/-! ## Blanks and depths -/

theorem nesting_of_isBlank (h : isBlank c = true) : nesting previous c = 0 := by
  have hother : ∀ {d : Char}, isBlank d = false → c ≠ d := by
    rintro _ hd rfl
    rw [h] at hd
    cases hd
  have hopening : (c == '<' || c == '(' || c == '[' || c == '\x7b') = false := by
    simp [hother (by decide : isBlank '<' = false), hother (by decide : isBlank '(' = false),
      hother (by decide : isBlank '[' = false), hother (by decide : isBlank '\x7b' = false)]
  have hclosing : (c == ')' || c == ']' || c == '\x7d' || (c == '>' && previous != '-')) = false := by
    simp [hother (by decide : isBlank ')' = false), hother (by decide : isBlank ']' = false),
      hother (by decide : isBlank '\x7d' = false), hother (by decide : isBlank '>' = false)]
  simp [nesting, hopening, hclosing]

/-- The character in front matters only in that it is a minus or not. -/
theorem nesting_congr (h : before = '-' ↔ previous = '-') : nesting before c = nesting previous c := by
  have hminus : (before != '-') = (previous != '-') := by
    rw [Bool.eq_iff_iff, bne_iff_ne, bne_iff_ne, not_iff_not]
    exact h
  rw [nesting, nesting, hminus]

theorem minus_iff_of_ne (hbefore : before ≠ '-') (hprevious : previous ≠ '-') :
    before = '-' ↔ previous = '-' := iff_of_false hbefore hprevious

theorem ne_minus_of_isBlank (h : isBlank c = true) : c ≠ '-' := by
  rintro rfl
  cases h

/-- With single spaces a text leads to the same depth. A space that is still to be written stands for blanks in
front, so that no minus stands there. -/
theorem Walks.squeezed (h : Walks ',' depth previous cs depth' last)
    (hpending : if pending then previous ≠ '-' else (before = '-' ↔ previous = '-')) :
    ∃ last', Walks ',' depth before (squeeze pending cs) depth' last' := by
  induction h generalizing before pending with
  | nil => exact ⟨before, .nil⟩
  | @cons depth depth' previous last c cs hmark _ ih =>
    cases hc : isBlank c with
    | true =>
      rw [squeeze_blank hc]
      rw [nesting_of_isBlank hc, Int.add_zero] at ih
      exact ih (ne_minus_of_isBlank hc)
    | false =>
      obtain ⟨last', hwalk⟩ := @ih c false Iff.rfl
      cases pending with
      | false =>
        rw [squeeze_cons hc]
        rw [← nesting_congr hpending] at hmark hwalk
        exact ⟨last', .cons hmark hwalk⟩
      | true =>
        rw [squeeze_pending hc]
        have hspace : depth + nesting before ' ' = depth := by
          rw [nesting_of_isBlank (by decide), Int.add_zero]
        rw [← nesting_congr (minus_iff_of_ne (by decide : ' ' ≠ '-') hpending)] at hmark hwalk
        exact ⟨last', .cons nofun (hspace.symm ▸ .cons hmark hwalk)⟩

theorem Walks.normalized (h : Walks ',' depth previous cs depth' last) (hprevious : previous ≠ '-')
    (hbefore : before ≠ '-') : ∃ last', Walks ',' depth before (normalize cs) depth' last' := by
  induction cs generalizing depth previous with
  | nil =>
    cases h
    exact ⟨before, .nil⟩
  | cons c cs ih =>
    cases hc : isBlank c with
    | true =>
      cases h with
      | cons _ hrest =>
        rw [nesting_of_isBlank hc, Int.add_zero] at hrest
        rw [normalize_blank hc]
        exact ih hrest (ne_minus_of_isBlank hc)
    | false =>
      rw [normalize_eq_squeeze hc]
      exact h.squeezed (minus_iff_of_ne hbefore hprevious)

theorem normalize_normalize (cs : List Char) : normalize (normalize cs) = normalize cs := by
  induction cs with
  | nil => rfl
  | cons c cs ih =>
    cases hc : isBlank c with
    | true => rw [normalize_blank hc, ih]
    | false => rw [normalize_eq_squeeze hc, normalize_squeeze, normalize_eq_squeeze hc]

/-! ## Parts in a row -/

/-- Parts as a text is taken apart into them. All but the last lead from depth zero to depth zero, wherever they
stand but behind a minus. -/
inductive Row : List (List Char) → Prop
  | none : Row []
  | last {part : List Char} (hfilled : part ≠ []) (hnormal : normalize part = part)
    (hwalks : ∀ previous, previous ≠ '-' → ∃ depth last, Walks ',' 0 previous part depth last) : Row [part]
  | next {part : List Char} {parts : List (List Char)} (hfilled : part ≠ []) (hnormal : normalize part = part)
    (hwalks : ∀ previous, previous ≠ '-' → ∃ last, Walks ',' 0 previous part 0 last)
    (hparts : Row parts) : Row (part :: parts)

/-- A piece in front of parts in a row. If it does not lead back to depth zero, it is the last. -/
theorem row_filled_cons {p : List Char} {ps : List (List Char)} (h : Walks ',' 0 previous p depth last)
    (hprevious : previous ≠ '-') (hdepth : ps = [] ∨ depth = 0) (hrow : Row (filled ps)) :
    Row (filled (p :: ps)) := by
  rw [filled_cons]
  split
  · exact hrow
  · next hne =>
    rcases hdepth with rfl | rfl
    · refine .last hne (normalize_normalize p) fun before hbefore => ?_
      exact ⟨depth, h.normalized hprevious hbefore⟩
    · exact .next hne (normalize_normalize p) (fun before hbefore => h.normalized hprevious hbefore) hrow

/-- The first piece leads from the depth at the start to that at its end, which is zero if others follow, and
the parts among the others are in a row. -/
theorem exists_pieces (depth : Int) (previous : Char) (cs : List Char) : ∃ p ps depth' last,
    pieces (· == ',') depth previous cs = p :: ps ∧ Walks ',' depth previous p depth' last ∧
      (ps = [] ∨ depth' = 0) ∧ Row (filled ps) := by
  induction cs generalizing depth previous with
  | nil => exact ⟨[], [], depth, previous, rfl, .nil, Or.inl rfl, .none⟩
  | cons c cs ih =>
    by_cases hcut : (c == ',' && depth + nesting previous c == 0) = true
    · simp only [Bool.and_eq_true, beq_iff_eq] at hcut
      obtain ⟨rfl, hdepth⟩ := hcut
      have hcomma : nesting previous ',' = 0 := rfl
      obtain ⟨p, ps, depth', last, hpieces, hwalk, hlast, hrow⟩ := ih 0 ','
      refine ⟨[], p :: ps, depth, previous, ?_, .nil, Or.inr ?_,
        row_filled_cons hwalk (by decide) hlast hrow⟩
      · rw [pieces, ← hpieces]
        simp [hdepth]
      · rwa [hcomma, Int.add_zero] at hdepth
    · obtain ⟨p, ps, depth', last, hpieces, hwalk, hlast, hrow⟩ := ih (depth + nesting previous c) c
      refine ⟨c :: p, ps, depth', last, ?_, .cons ?_ hwalk, hlast, hrow⟩
      · rw [pieces]
        simp [hcut, hpieces, extendFirst]
      · intro hc hdepth
        exact hcut (by rw [Bool.and_eq_true, beq_iff_eq, beq_iff_eq]; exact ⟨hc, hdepth⟩)

/-- The parts of a text are in a row. -/
theorem row_filled_pieces (cs : List Char) : Row (filled (pieces (· == ',') 0 ' ' cs)) := by
  obtain ⟨p, ps, depth, last, hpieces, hwalk, hdepth, hrow⟩ := exists_pieces 0 ' ' cs
  rw [hpieces]
  exact row_filled_cons hwalk (by decide) hdepth hrow

/-- A space in front changes no part. -/
theorem filled_pieces_space (depth : Int) (cs : List Char) :
    filled (pieces (· == ',') depth previous (' ' :: cs)) = filled (pieces (· == ',') depth ' ' cs) := by
  have hspace : depth + nesting previous ' ' = depth := by rw [nesting_of_isBlank (by decide), Int.add_zero]
  have hblank : ∀ p : List Char, normalize (' ' :: p) = normalize p := fun p => normalize_blank (by decide)
  obtain ⟨p, ps, -, -, hpieces, -⟩ := exists_pieces depth ' ' cs
  rw [pieces, hspace, hpieces]
  simp [extendFirst, filled_cons, hblank]

/-- Parts in a row that are joined are taken apart into them. -/
theorem Row.filled_pieces {parts : List (List Char)} (h : Row parts) (hprevious : previous ≠ '-') :
    filled (pieces (· == ',') 0 previous (List.intercalate [',', ' '] parts)) = parts := by
  induction h generalizing previous with
  | none => rfl
  | @last part hfilled hnormal hwalks =>
    obtain ⟨depth, last, hwalk⟩ := hwalks previous hprevious
    rw [List.intercalate_singleton, hwalk.pieces_eq, filled_cons, hnormal, if_neg hfilled]
    rfl
  | @next part parts hfilled hnormal hwalks hparts ih =>
    obtain ⟨last, hwalk⟩ := hwalks previous hprevious
    cases parts with
    | nil =>
      rw [List.intercalate_singleton, hwalk.pieces_eq, filled_cons, hnormal, if_neg hfilled]
      rfl
    | cons part' parts =>
      have hcomma : ∀ rest, pieces (· == ',') 0 last (',' :: rest) = [] :: pieces (· == ',') 0 ',' rest :=
        fun rest => by rw [pieces]; rfl
      have hjoined : List.intercalate [',', ' '] (part :: part' :: parts) =
          part ++ ',' :: ' ' :: List.intercalate [',', ' '] (part' :: parts) := by
        rw [List.intercalate_cons_cons]
        simp
      rw [hjoined, hwalk.pieces (hcomma _), List.append_nil, filled_cons, hnormal, if_neg hfilled,
        filled_pieces_space, ih (by decide)]
      rfl

/-- **Again.** Joining the parts of a text and taking the result apart gives the same parts. -/
theorem splitOutsideBrackets_rejoined (text : String) :
    splitOutsideBrackets (String.intercalate ", " (splitOutsideBrackets text (· == ','))) (· == ',') =
      splitOutsideBrackets text (· == ',') := by
  have hparts : ∀ text : String, splitOutsideBrackets text (· == ',') =
      (filled (pieces (· == ',') 0 ' ' text.toList)).map String.ofList := fun _ => rfl
  have hjoined : (String.intercalate ", " (splitOutsideBrackets text (· == ','))).toList =
      List.intercalate [',', ' '] (filled (pieces (· == ',') 0 ' ' text.toList)) := by
    rw [String.toList_intercalate, hparts, List.map_map]
    congr 1
    exact List.map_id'' (fun part => String.toList_ofList) _
  rw [hparts, hjoined, (row_filled_pieces text.toList).filled_pieces (by decide), ← hparts]

end Typestate.Text
