import Mathlib.Data.List.Basic
import Typestate.Text.Blank

/-!
Single spaces for runs of blanks, character by character. On a text that does not start with a blank
`squeeze` does what `Text.normalize` does by taking words apart and joining them (`normalize_eq_squeeze`),
and it goes through parts of a text one after the other (`squeeze_append`).
-/

namespace Typestate.Text

/-- The text with a single space for each run of blanks. The space is written in front of what comes
after the run, so that none stands at the end; `pending` says that one is still to be written. -/
def squeeze (pending : Bool) : List Char → List Char
  | [] => []
  | c :: cs =>
    if isBlank c then squeeze true cs
    else if pending then ' ' :: c :: squeeze false cs
    else c :: squeeze false cs

/-- A space is to be written after a text. -/
def endsBlank (pending : Bool) (cs : List Char) : Bool := (cs.getLast?.map isBlank).getD pending

variable {pending : Bool} {c : Char} {cs ds : List Char}

@[simp] theorem squeeze_nil : squeeze pending [] = [] := rfl

theorem squeeze_blank (h : isBlank c = true) : squeeze pending (c :: cs) = squeeze true cs := by
  rw [squeeze, if_pos h]

theorem squeeze_pending (h : isBlank c = false) :
    squeeze true (c :: cs) = ' ' :: c :: squeeze false cs := by
  rw [squeeze, if_neg (by simp [h]), if_pos rfl]

theorem squeeze_cons (h : isBlank c = false) :
    squeeze false (c :: cs) = c :: squeeze false cs := by
  rw [squeeze, if_neg (by simp [h]), if_neg (by simp)]

theorem endsBlank_cons : endsBlank pending (c :: cs) = endsBlank (isBlank c) cs := by
  cases cs with
  | nil => rfl
  | cons d cs =>
    unfold endsBlank
    rw [List.getLast?_cons_cons]
    cases h : (d :: cs).getLast? with
    | none => simp at h
    | some e => rfl

theorem endsBlank_append (h : ds ≠ []) : endsBlank pending (cs ++ ds) = endsBlank false ds := by
  unfold endsBlank
  rw [List.getLast?_append_of_ne_nil cs h, List.getLast?_eq_some_getLast h]
  rfl

/-- **Parts.** A text is squeezed part by part, if it is remembered whether the first part ends with a blank. -/
theorem squeeze_append : squeeze pending (cs ++ ds) =
    squeeze pending cs ++ squeeze (endsBlank pending cs) ds := by
  induction cs generalizing pending with
  | nil => rfl
  | cons c cs ih =>
    rw [List.cons_append, endsBlank_cons]
    cases hc : isBlank c with
    | true => rw [squeeze_blank hc, squeeze_blank hc, ih]
    | false =>
      cases pending with
      | true => rw [squeeze_pending hc, squeeze_pending hc, ih, List.cons_append, List.cons_append]
      | false => rw [squeeze_cons hc, squeeze_cons hc, ih, List.cons_append]

theorem squeeze_blanks (h : ∀ c ∈ cs, isBlank c = true) :
    squeeze pending (cs ++ ds) = squeeze (pending || !cs.isEmpty) ds := by
  induction cs generalizing pending with
  | nil => simp
  | cons c cs ih =>
    rw [List.cons_append, squeeze_blank (h c (List.mem_cons_self ..)),
      ih fun d hd => h d (List.mem_cons_of_mem _ hd)]
    simp

/-- What stands in front of a text that does not start with a blank. -/
theorem squeeze_head (h : isBlank c = false) : squeeze pending (c :: cs) =
    (if pending then [' '] else []) ++ squeeze false (c :: cs) := by
  cases pending with
  | true => rw [squeeze_pending h, squeeze_cons h]; rfl
  | false => rfl

theorem squeeze_concat_ne_nil (h : isBlank c = false) : squeeze pending (cs ++ [c]) ≠ [] := by
  rw [squeeze_append, squeeze_head h, squeeze_cons h]
  simp

theorem squeeze_of_not_blank (h : ∀ c ∈ cs, isBlank c = false) : squeeze false cs = cs := by
  induction cs with
  | nil => rfl
  | cons c cs ih =>
    rw [squeeze_cons (h c (List.mem_cons_self ..)), ih fun d hd => h d (List.mem_cons_of_mem _ hd)]

/-- A pending space is the first character, if there is one at all. -/
theorem head?_squeeze_true (cs : List Char) : ∀ d ∈ (squeeze true cs).head?, d = ' ' := by
  induction cs with
  | nil => nofun
  | cons c cs ih =>
    cases hc : isBlank c with
    | true =>
      rw [squeeze_blank hc]
      exact ih
    | false =>
      rw [squeeze_pending hc]
      rintro _ ⟨⟩
      rfl

/-- A text that goes on with another character than a blank does so with single spaces. -/
theorem head?_squeeze_iff {d : Char} (hd : isBlank d = false) :
    (squeeze false cs).head? = some d ↔ cs.head? = some d := by
  cases cs with
  | nil => exact Iff.rfl
  | cons c cs =>
    cases hc : isBlank c with
    | true =>
      rw [squeeze_blank hc]
      constructor
      · intro h
        rw [head?_squeeze_true cs d h] at hd
        cases hd
      · rintro ⟨⟩
        rw [hc] at hd
        cases hd
    | false =>
      rw [squeeze_cons hc]
      exact Iff.rfl

/-- No text with single spaces ends with a blank. -/
theorem getLast?_squeeze : ∀ d ∈ (squeeze pending cs).getLast?, isBlank d = false := by
  induction cs generalizing pending with
  | nil => nofun
  | cons c cs ih =>
    cases hc : isBlank c with
    | true =>
      rw [squeeze_blank hc]
      exact ih
    | false =>
      have htail : ∀ d ∈ (c :: squeeze false cs).getLast?, isBlank d = false := by
        cases hcs : squeeze false cs with
        | nil =>
          rintro _ ⟨⟩
          exact hc
        | cons e es =>
          rw [List.getLast?_cons_cons, ← hcs]
          exact ih
      cases pending with
      | true =>
        rw [squeeze_pending hc, List.getLast?_cons_cons]
        exact htail
      | false =>
        rw [squeeze_cons hc]
        exact htail

/-- All blanks of a text with single spaces are spaces. -/
theorem mem_squeeze : ∀ d ∈ squeeze pending cs, isBlank d = false ∨ d = ' ' := by
  induction cs generalizing pending with
  | nil => nofun
  | cons c cs ih =>
    cases hc : isBlank c with
    | true =>
      rw [squeeze_blank hc]
      exact ih
    | false =>
      rw [squeeze_head hc, squeeze_cons hc]
      intro d hd
      rcases List.mem_append.mp hd with hd | hd
      · split at hd
        · exact Or.inr (List.mem_singleton.mp hd)
        · cases hd
      · rcases List.mem_cons.mp hd with rfl | hd
        · exact Or.inl hc
        · exact ih d hd

theorem mem_cons_blank_iff {d : Char} (hd : isBlank d = false) (hc : isBlank c = true) :
    d ∈ c :: cs ↔ d ∈ cs := by
  have hne : d ≠ c := by
    rintro rfl
    rw [hc] at hd
    cases hd
  rw [List.mem_cons, or_iff_right hne]

/-- Other characters than blanks stay. -/
theorem mem_squeeze_iff {d : Char} (hd : isBlank d = false) : d ∈ squeeze pending cs ↔ d ∈ cs := by
  induction cs generalizing pending with
  | nil => exact Iff.rfl
  | cons c cs ih =>
    cases hc : isBlank c with
    | true => rw [squeeze_blank hc, ih, mem_cons_blank_iff hd hc]
    | false =>
      have hspace : d ∉ (if pending then [' '] else []) := by
        intro hmem
        split at hmem
        · rw [List.mem_singleton.mp hmem] at hd
          cases hd
        · cases hmem
      rw [squeeze_head hc, squeeze_cons hc, List.mem_append, List.mem_cons, List.mem_cons, ih,
        or_iff_right hspace]

/-! ## Words -/

theorem words_blank (h : isBlank c = true) : words (c :: cs) = words cs := by
  rw [words.eq_def]
  simp [h]

theorem words_before_blank {d : Char} (hc : isBlank c = false) (hd : isBlank d = true) :
    words (c :: d :: cs) = [c] :: words (d :: cs) := by
  rw [words.eq_def]
  simp [hc, hd]

theorem words_before {d : Char} (hc : isBlank c = false) (hd : isBlank d = false) :
    words (c :: d :: cs) = extendFirst c (words (d :: cs)) := by
  rw [words.eq_def]
  simp [hc, hd]

theorem normalize_blank (h : isBlank c = true) : normalize (c :: cs) = normalize cs := by
  rw [normalize, words_blank h, normalize]

theorem intercalate_extendFirst (sep : List Char) (ws : List (List Char)) :
    List.intercalate sep (extendFirst c ws) = c :: List.intercalate sep ws := by
  rcases ws with _ | ⟨w, _ | ⟨w', ws⟩⟩ <;> rfl

theorem words_ne_nil (h : isBlank c = false) : words (c :: cs) ≠ [] := by
  cases cs with
  | nil =>
    rw [words.eq_def]
    simp [h]
  | cons d ds =>
    cases hd : isBlank d with
    | true =>
      rw [words_before_blank h hd]
      exact List.cons_ne_nil _ _
    | false =>
      rw [words_before h hd, extendFirst.eq_def]
      split <;> exact List.cons_ne_nil _ _

/-- After a run of blanks there is a space and the words of the rest, if there are any; without one
there are the words alone. -/
theorem squeeze_eq_words (cs : List Char) :
    squeeze true cs = (if words cs = [] then [] else ' ' :: normalize cs) ∧
      ∀ c rest, cs = c :: rest → isBlank c = false → squeeze false cs = normalize cs := by
  induction cs with
  | nil => exact ⟨rfl, nofun⟩
  | cons c cs ih =>
    cases hc : isBlank c with
    | true =>
      refine ⟨?_, ?_⟩
      · rw [squeeze_blank hc, words_blank hc, normalize_blank hc]
        exact ih.1
      · rintro _ _ ⟨⟩ hfalse
        rw [hc] at hfalse
        cases hfalse
    | false =>
      have hnormal : normalize (c :: cs) = c :: squeeze false cs := by
        cases cs with
        | nil =>
          have hwords : words [c] = [[c]] := by
            rw [words.eq_def]
            simp [hc]
          rw [normalize, hwords]
          rfl
        | cons d ds =>
          cases hd : isBlank d with
          | true =>
            have hrest : squeeze false (d :: ds) = squeeze true (d :: ds) := by
              rw [squeeze_blank hd, squeeze_blank hd]
            rw [normalize, words_before_blank hc hd, hrest, ih.1]
            split
            · next hnone =>
              rw [hnone]
              rfl
            · next hsome =>
              rw [normalize]
              obtain ⟨w, ws, hws⟩ := List.exists_cons_of_ne_nil hsome
              rw [hws]
              rfl
          | false =>
            rw [normalize, words_before hc hd, intercalate_extendFirst, ih.2 d ds rfl hd, normalize]
      refine ⟨?_, ?_⟩
      · rw [squeeze_pending hc, if_neg (words_ne_nil hc), hnormal]
      · rintro _ _ ⟨⟩ -
        rw [squeeze_cons hc, hnormal]

/-- **Words.** A text that starts with no blank is normalized by squeezing it. -/
theorem normalize_eq_squeeze (h : isBlank c = false) :
    normalize (c :: cs) = squeeze false (c :: cs) := ((squeeze_eq_words (c :: cs)).2 c cs rfl h).symm

theorem normalize_of_not_blank (h : ∀ c ∈ cs, isBlank c = false) : normalize cs = cs := by
  cases cs with
  | nil => rfl
  | cons c cs => rw [normalize_eq_squeeze (h c (List.mem_cons_self ..)), squeeze_of_not_blank h]

/-! ## Once more -/

theorem squeeze_of_blanks (h : ∀ d ∈ cs, isBlank d = true) : squeeze pending cs = [] := by
  rw [← List.append_nil cs, squeeze_blanks h, squeeze_nil]

theorem squeeze_squeeze {before : Bool} :
    squeeze before (squeeze pending cs) = squeeze (before || pending) cs := by
  induction cs generalizing before pending with
  | nil => rfl
  | cons c cs ih =>
    cases hc : isBlank c with
    | true => rw [squeeze_blank hc, squeeze_blank hc, ih, Bool.or_true]
    | false =>
      have hword : ∀ before, squeeze before (c :: squeeze false cs) = squeeze before (c :: cs) := by
        intro before
        cases before with
        | true => rw [squeeze_pending hc, squeeze_pending hc, ih, Bool.or_false]
        | false => rw [squeeze_cons hc, squeeze_cons hc, ih, Bool.or_false]
      cases pending with
      | true => rw [squeeze_pending hc, squeeze_blank (by decide), hword, Bool.or_true]
      | false => rw [squeeze_cons hc, hword, Bool.or_false]

theorem normalize_squeeze : normalize (squeeze pending cs) = normalize cs := by
  induction cs generalizing pending with
  | nil => rfl
  | cons c cs ih =>
    cases hc : isBlank c with
    | true => rw [squeeze_blank hc, normalize_blank hc, ih]
    | false =>
      have hword : normalize (c :: squeeze false cs) = normalize (c :: cs) := by
        rw [normalize_eq_squeeze hc, normalize_eq_squeeze hc, ← squeeze_cons hc, squeeze_squeeze,
          Bool.or_false]
      cases pending with
      | true => rw [squeeze_pending hc, normalize_blank (by decide), hword]
      | false => rw [squeeze_cons hc, hword]

theorem normalize_blanks_append (h : ∀ d ∈ ds, isBlank d = true) :
    normalize (ds ++ cs) = normalize cs := by
  induction ds with
  | nil => rfl
  | cons d ds ih =>
    rw [List.cons_append, normalize_blank (h d (List.mem_cons_self ..))]
    exact ih fun e he => h e (List.mem_cons_of_mem d he)

/-- Blanks at the end do not count. -/
theorem normalize_append_blanks (h : ∀ d ∈ ds, isBlank d = true) :
    normalize (cs ++ ds) = normalize cs := by
  induction cs with
  | nil => rw [List.nil_append, ← List.append_nil ds, normalize_blanks_append h]
  | cons c cs ih =>
    cases hc : isBlank c with
    | true => rw [List.cons_append, normalize_blank hc, normalize_blank hc, ih]
    | false =>
      rw [List.cons_append, normalize_eq_squeeze hc, normalize_eq_squeeze hc, ← List.cons_append,
        squeeze_append, squeeze_of_blanks h, List.append_nil]

theorem mem_normalize_iff {d : Char} (hd : isBlank d = false) : d ∈ normalize cs ↔ d ∈ cs := by
  induction cs with
  | nil => exact Iff.rfl
  | cons c cs ih =>
    cases hc : isBlank c with
    | true => rw [normalize_blank hc, ih, mem_cons_blank_iff hd hc]
    | false => rw [normalize_eq_squeeze hc, mem_squeeze_iff hd]

theorem normalize_eq_nil_iff : normalize cs = [] ↔ ∀ c ∈ cs, isBlank c = true := by
  constructor
  · intro h
    induction cs with
    | nil => nofun
    | cons c cs ih =>
      cases hc : isBlank c with
      | true =>
        rw [normalize_blank hc] at h
        exact List.forall_mem_cons.mpr ⟨hc, ih h⟩
      | false =>
        rw [normalize_eq_squeeze hc, squeeze_cons hc] at h
        cases h
  · intro h
    rw [← List.append_nil cs, normalize_blanks_append h]
    rfl

/-- A character that is no blank, in a text with single spaces, is one of the text without. What stands
in front of it there has the same words. -/
theorem exists_of_squeeze_eq {front back : List Char} (hc : isBlank c = false)
    (h : squeeze pending cs = front ++ c :: back) : ∃ before after, cs = before ++ c :: after ∧
      back = squeeze false after ∧ normalize front = normalize before := by
  suffices hfront : ∃ before after, cs = before ++ c :: after ∧ back = squeeze false after ∧
      squeeze pending (before ++ [c]) = front ++ [c] by
    obtain ⟨before, after, hcs, hback, hbefore⟩ := hfront
    refine ⟨before, after, hcs, hback, ?_⟩
    rw [squeeze_append, squeeze_head hc, squeeze_cons hc, squeeze_nil, ← List.append_assoc] at hbefore
    rw [← (List.append_inj' hbefore rfl).1, normalize_append_blanks, normalize_squeeze]
    intro d hd
    split at hd
    · rw [List.mem_singleton.mp hd]
      decide
    · cases hd
  induction cs generalizing pending front with
  | nil =>
    rw [squeeze_nil] at h
    simp at h
  | cons d cs ih =>
    cases hd : isBlank d with
    | true =>
      rw [squeeze_blank hd] at h
      obtain ⟨before, after, rfl, hback, hbefore⟩ := ih h
      exact ⟨d :: before, after, rfl, hback, by rw [List.cons_append, squeeze_blank hd, hbefore]⟩
    | false =>
      have hword : ∀ {front}, d :: squeeze false cs = front ++ c :: back →
          ∃ before after, d :: cs = before ++ c :: after ∧ back = squeeze false after ∧
            squeeze false (before ++ [c]) = front ++ [c] := by
        intro front h
        cases front with
        | nil =>
          obtain ⟨rfl, hback⟩ := List.cons.inj h
          exact ⟨[], cs, rfl, hback.symm, squeeze_cons hc⟩
        | cons e front =>
          obtain ⟨rfl, hrest⟩ := List.cons.inj h
          obtain ⟨before, after, rfl, hback, hbefore⟩ := ih hrest
          exact ⟨d :: before, after, rfl, hback, by rw [List.cons_append, squeeze_cons hd, hbefore]; rfl⟩
      cases pending with
      | false =>
        rw [squeeze_cons hd] at h
        exact hword h
      | true =>
        rw [squeeze_pending hd] at h
        cases front with
        | nil =>
          obtain ⟨rfl, -⟩ := List.cons.inj h
          cases hc
        | cons e front =>
          obtain ⟨rfl, hrest⟩ := List.cons.inj h
          obtain ⟨before, after, hcs, hback, hbefore⟩ := hword hrest
          refine ⟨before, after, hcs, hback, ?_⟩
          cases before with
          | nil =>
            rw [List.nil_append] at hbefore ⊢
            rw [squeeze_head hc, hbefore]
            rfl
          | cons e before =>
            obtain ⟨rfl, -⟩ := List.cons.inj hcs
            rw [List.cons_append, squeeze_head hd, ← List.cons_append, hbefore]
            rfl

end Typestate.Text
