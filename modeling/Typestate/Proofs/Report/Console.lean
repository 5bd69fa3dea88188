import Mathlib.Data.List.Infix
import Typestate.Report.Summary
import Typestate.Text.Blank

/-!
What is assumed of a console (`Console.ReadsMarkup`). In a text in which nothing else means anything to a console, the
tags are what is not shown, and a tag that ends a style must have one to end. Such a text is shown as it stands if and
only if there is no tag in it (`Console.ReadsMarkup.shown_eq_iff`).
-/

namespace Typestate.Report

variable {c : Char} {cs : List Char}

/-! ## Tags -/

/-- The text without its tags. -/
def withoutTags (cs : List Char) : List Char :=
  match cs with
  | [] => []
  | c :: rest =>
    match _h : tag? (c :: rest) with
    | some (_, behind) => withoutTags behind
    | none => c :: withoutTags rest
termination_by cs.length
decreasing_by
  · exact length_tag?_lt _h
  · simp

/-- The content of the first tag. -/
def firstTag? : List Char → Option (List Char)
  | [] => none
  | c :: rest =>
    match tag? (c :: rest) with
    | some (content, _) => some content
    | none => firstTag? rest

theorem tag?_eq_none_of_ne (h : c ≠ '[') : tag? (c :: cs) = none := by
  unfold tag?
  split
  · next heq => exact absurd (List.cons.inj heq).1 h
  · rfl

/-- What is taken of a text, the character behind it, and what is left. -/
theorem takeWhile_append_cons {p : Char → Bool} {d : Char}
    (h : (cs.drop (cs.takeWhile p).length).head? = some d) :
    cs.takeWhile p ++ d :: (cs.drop (cs.takeWhile p).length).tail = cs := by
  have hsplit := List.prefix_iff_eq_append.mp (List.takeWhile_prefix (l := cs) p)
  obtain ⟨behind, hbehind⟩ := List.head?_eq_some_iff.mp h
  rw [hbehind] at hsplit ⊢
  exact hsplit

/-- A tag is a character that may be its first one, with others behind it, in brackets. -/
theorem exists_of_tag? {content behind : List Char} (h : tag? cs = some (content, behind)) :
    ∃ first more, startsTag first = true ∧ content = first :: more ∧ cs = '[' :: content ++ ']' :: behind := by
  unfold tag? at h
  split at h
  · next first rest =>
    simp only [Option.ite_none_right_eq_some, Option.some.injEq, Prod.mk.injEq, Bool.and_eq_true,
      beq_iff_eq] at h
    obtain ⟨⟨hstart, hclosed⟩, rfl, rfl⟩ := h
    refine ⟨first, _, hstart, rfl, ?_⟩
    rw [List.cons_append, List.cons_append, takeWhile_append_cons hclosed]
  · cases h

theorem suffix_of_tag? {content behind : List Char} (h : tag? cs = some (content, behind)) : behind <:+ cs := by
  obtain ⟨-, -, -, -, rfl⟩ := exists_of_tag? h
  exact ⟨'[' :: content ++ [']'], by simp⟩

/-- Brackets around a text without brackets are a tag. -/
theorem tag?_brackets {first : Char} {more : List Char} (hstart : startsTag first = true)
    (hmore : ∀ c ∈ more, c ≠ '[' ∧ c ≠ ']') (behind : List Char) :
    tag? ('[' :: first :: more ++ ']' :: behind) = some (first :: more, behind) := by
  have hcontent : (more ++ ']' :: behind).takeWhile (fun c => c != '[' && c != ']') = more := by
    rw [List.takeWhile_append_of_pos fun c hc => by simpa using hmore c hc]
    simp
  simp only [tag?, List.cons_append, hcontent, List.drop_left, hstart]
  rfl

theorem withoutTags_sublist (cs : List Char) : (withoutTags cs).Sublist cs := by
  fun_induction withoutTags cs with
  | case1 => exact .slnil
  | case2 c rest content behind htag ih => exact ih.trans (suffix_of_tag? htag).sublist
  | case3 c rest htag ih => exact ih.cons_cons c

theorem withoutTags_tag {content behind : List Char} (h : tag? cs = some (content, behind)) :
    withoutTags cs = withoutTags behind := by
  obtain ⟨-, -, -, -, rfl⟩ := exists_of_tag? h
  rw [List.cons_append] at h ⊢
  rw [withoutTags]
  split
  · next htag =>
    rw [h] at htag
    cases htag
    rfl
  · next htag =>
    rw [h] at htag
    cases htag

theorem withoutTags_append {front : List Char} (h : '[' ∉ front) (rest : List Char) :
    withoutTags (front ++ rest) = front ++ withoutTags rest := by
  induction front with
  | nil => rfl
  | cons c front ih =>
    obtain ⟨hc, hfront⟩ := not_or.mp (mt List.mem_cons.mpr h)
    rw [List.cons_append, withoutTags]
    split
    · next htag =>
      rw [tag?_eq_none_of_ne (Ne.symm hc)] at htag
      cases htag
    · rw [ih hfront, List.cons_append]

/-- Without its tags a text is the same only if it has none. -/
theorem withoutTags_eq_iff : withoutTags cs = cs ↔ firstTag? cs = none := by
  induction cs with
  | nil => exact iff_of_true (by rw [withoutTags]) rfl
  | cons c cs ih =>
    rw [withoutTags, firstTag?]
    split
    · next content behind htag =>
      rw [htag]
      refine iff_of_false (fun heq => ?_) (Option.some_ne_none content)
      have hle := (withoutTags_sublist behind).length_le
      have hlt := length_tag?_lt htag
      rw [heq] at hle
      omega
    · next htag =>
      rw [htag, List.cons_inj_right]
      exact ih

theorem firstTag?_of_not_mem (h : '[' ∉ cs) : firstTag? cs = none := by
  induction cs with
  | nil => rfl
  | cons c cs ih =>
    obtain ⟨hc, hcs⟩ := not_or.mp (mt List.mem_cons.mpr h)
    rw [firstTag?, tag?_eq_none_of_ne (Ne.symm hc)]
    exact ih hcs

/-! ## Plain texts -/

/-- There is no place for the name of a picture: behind every colon, but for those that come in pairs, there is a blank
or nothing. A colon may be pending in front of the text. -/
def isPictureless (pending : Bool) : List Char → Bool
  | [] => true
  | c :: rest =>
    if c == ':' then isPictureless (!pending) rest
    else (!pending || Text.isBlank c) && isPictureless false rest

/-- Tags apart, nothing in the text means anything to a console. -/
structure Plain (cs : List Char) : Prop where
  backslash : '\\' ∉ cs
  control : ∀ c ∈ cs, isConsoleControl c = false
  pictureless : isPictureless false cs = true

instance (cs : List Char) : Decidable (Plain cs) :=
  decidable_of_iff ('\\' ∉ cs ∧ cs.all (fun c => !isConsoleControl c) = true ∧ isPictureless false cs = true)
    ⟨fun ⟨hslash, hcontrol, hpictures⟩ =>
        ⟨hslash, fun c hc => by simpa using List.all_eq_true.mp hcontrol c hc, hpictures⟩,
      fun h => ⟨h.backslash, List.all_eq_true.mpr fun c hc => by simpa using h.control c hc, h.pictureless⟩⟩

/-- The character is shown, whatever stands around it. -/
def isQuiet (c : Char) : Bool := c != '[' && c != ':' && c != '\\' && !isConsoleControl c

/-- The characters that are not quiet. -/
def noisy : List Char := ['[', ':', '\\', '\x07', '\x08', '\x0b', '\x0c', '\r']

theorem mem_noisy_of_not_quiet (h : ¬ isQuiet c = true) : c ∈ noisy := by
  have hcases : c = '[' ∨ c = ':' ∨ c = '\\' ∨ isConsoleControl c = true := by
    by_contra hnone
    simp only [not_or, Bool.not_eq_true] at hnone
    exact h (by simp [isQuiet, hnone])
  simp only [noisy, List.mem_cons, List.not_mem_nil, or_false]
  simp only [isConsoleControl, List.contains_iff_mem, List.mem_cons, List.not_mem_nil, or_false] at hcases
  exact hcases

theorem ne_of_isQuiet (h : isQuiet c = true) : c ≠ '[' ∧ c ≠ ':' ∧ c ≠ '\\' ∧ isConsoleControl c = false := by
  simpa [isQuiet, and_assoc] using h

theorem isPictureless_of_not_mem (h : ':' ∉ cs) : isPictureless false cs = true := by
  induction cs with
  | nil => rfl
  | cons c cs ih =>
    obtain ⟨hc, hcs⟩ := not_or.mp (mt List.mem_cons.mpr h)
    rw [isPictureless, if_neg (by simpa using Ne.symm hc), ih hcs]
    rfl

theorem plain_of_forall (h : ∀ c ∈ cs, c ≠ ':' ∧ c ≠ '\\' ∧ isConsoleControl c = false) : Plain cs where
  backslash hmem := (h _ hmem).2.1 rfl
  control c hc := (h c hc).2.2
  pictureless := isPictureless_of_not_mem fun hmem => (h _ hmem).1 rfl

theorem plain_of_quiet (h : ∀ c ∈ cs, isQuiet c = true) : Plain cs :=
  plain_of_forall fun c hc => (ne_of_isQuiet (h c hc)).2

theorem firstTag?_of_quiet (h : ∀ c ∈ cs, isQuiet c = true) : firstTag? cs = none :=
  firstTag?_of_not_mem fun hmem => (ne_of_isQuiet (h _ hmem)).1 rfl

/-! ## Consoles -/

/-- What is assumed of a console, where tags apart nothing in a text means anything to it. A text without tags is shown.
What is shown of a text is the text without its tags. A tag that ends a style is in error if there is none in front of
it, and a tag that sets one of the styles of a table is not if the style is ended. -/
structure Console.ReadsMarkup (console : Console) : Prop where
  untagged : ∀ text : String, Plain text.toList → firstTag? text.toList = none →
    console.shown text = some text.toList
  tags : ∀ (text : String) (cs : List Char), Plain text.toList → console.shown text = some cs →
    cs = withoutTags text.toList
  closing : ∀ (text : String) (name : List Char), Plain text.toList → firstTag? text.toList = some ('/' :: name) →
    console.shown text = none
  styled : ∀ (kind : NodeKind) (front inner behind : String),
    (∀ c ∈ (front ++ inner ++ behind).toList, isQuiet c = true) →
    console.shown (front ++ styled (styleOf kind) inner ++ behind) = some (front ++ inner ++ behind).toList

namespace Console.ReadsMarkup

variable {console : Console} (h : console.ReadsMarkup) {text : String}
include h

theorem shown_of_quiet (htext : ∀ c ∈ text.toList, isQuiet c = true) : console.shown text = some text.toList :=
  h.untagged text (plain_of_quiet htext) (firstTag?_of_quiet htext)

/-- A text is shown as it stands if and only if there is no tag in it. -/
theorem shown_eq_iff (htext : Plain text.toList) :
    console.shown text = some text.toList ↔ firstTag? text.toList = none := by
  constructor
  · intro hshown
    exact withoutTags_eq_iff.mp (h.tags text _ htext hshown).symm
  · exact h.untagged text htext

end Console.ReadsMarkup

end Typestate.Report
