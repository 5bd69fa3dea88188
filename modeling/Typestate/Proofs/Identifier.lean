import Mathlib.Data.List.Nodup
import Typestate.Identifier

/-!
Names and their raw markers. A name and the same name behind a marker are one identifier, so different
names can be the same identifier only if one of them is raw (`nodup_withoutRaw_iff`). Escaping never
makes a keyword (`usable_escape`), and it makes a name raw for a keyword alone (`isRaw_escape`).
-/

namespace Typestate.Identifier

/-! ## Markers -/

/-- The only `#` in the name, if any, is that of its marker. -/
def IsWord (name : String) : Prop := '#' ∉ bareChars name.toList

theorem bareChars_of_not_raw {cs : List Char} (h : hasRawMarker cs = false) : bareChars cs = cs := by
  unfold hasRawMarker at h
  split at h
  · cases h
  · next hne =>
    unfold bareChars
    split
    · exact absurd rfl (hne _)
    · rfl

theorem eq_of_raw {cs : List Char} (h : hasRawMarker cs = true) :
    cs = 'r' :: '#' :: bareChars cs := by
  unfold hasRawMarker at h
  split at h
  · rfl
  · cases h

theorem not_raw_of_not_mem {cs : List Char} (h : '#' ∉ cs) : hasRawMarker cs = false := by
  unfold hasRawMarker
  split
  · simp at h
  · rfl

theorem toList_withoutRaw (name : String) : (withoutRaw name).toList = bareChars name.toList :=
  String.toList_ofList

theorem isWord_of_not_mem {name : String} (h : '#' ∉ name.toList) : IsWord name := by
  unfold IsWord
  rwa [bareChars_of_not_raw (not_raw_of_not_mem h)]

theorem not_mem_of_isWord {name : String} (h : IsWord name) (hraw : isRaw name = false) :
    '#' ∉ name.toList := by
  unfold IsWord at h
  rwa [bareChars_of_not_raw hraw] at h

theorem withoutRaw_of_not_raw {name : String} (h : isRaw name = false) : withoutRaw name = name := by
  unfold withoutRaw
  rw [bareChars_of_not_raw h, String.ofList_toList]

/-- A word has no marker behind its marker. -/
theorem isRaw_withoutRaw {name : String} (h : IsWord name) : isRaw (withoutRaw name) = false := by
  unfold isRaw
  rw [toList_withoutRaw]
  exact not_raw_of_not_mem h

theorem withoutRaw_ne_self {name : String} (h : isRaw name = true) : withoutRaw name ≠ name := by
  intro he
  have hlength := congrArg List.length (eq_of_raw h)
  rw [← toList_withoutRaw, he, List.length_cons, List.length_cons] at hlength
  omega

/-- Names with the same bare name are equal if both have a marker or neither has. -/
theorem eq_of_withoutRaw_eq {a b : String} (hraw : isRaw a = isRaw b)
    (h : withoutRaw a = withoutRaw b) : a = b := by
  cases ha : isRaw a with
  | false =>
    rw [ha] at hraw
    rwa [withoutRaw_of_not_raw ha, withoutRaw_of_not_raw hraw.symm] at h
  | true =>
    rw [ha] at hraw
    apply String.toList_injective
    rw [eq_of_raw ha, eq_of_raw hraw.symm, ← toList_withoutRaw, ← toList_withoutRaw, h]

/-- **Sameness.** Different names are different identifiers, unless one of them is another behind a
marker. -/
theorem nodup_withoutRaw_iff {names : List String} (hwords : ∀ name ∈ names, IsWord name)
    (hnodup : names.Nodup) : (names.map withoutRaw).Nodup ↔
      ∀ name ∈ names, isRaw name = true → withoutRaw name ∉ names := by
  constructor
  · intro h name hname hraw hbare
    have hsame : withoutRaw (withoutRaw name) = withoutRaw name :=
      withoutRaw_of_not_raw (isRaw_withoutRaw (hwords name hname))
    exact withoutRaw_ne_self hraw (List.inj_on_of_nodup_map h hbare hname hsame)
  · intro h
    refine hnodup.map_on fun a ha b hb hab => ?_
    cases hra : isRaw a <;> cases hrb : isRaw b
    · exact eq_of_withoutRaw_eq (hra.trans hrb.symm) hab
    · rw [withoutRaw_of_not_raw hra] at hab
      exact absurd (hab ▸ ha) (h b hb hrb)
    · rw [withoutRaw_of_not_raw hrb] at hab
      exact absurd (hab ▸ hb) (h a ha hra)
    · exact eq_of_withoutRaw_eq (hra.trans hrb.symm) hab

/-! ## Escaping -/

/-- The name is none of the words that cannot name a method as they stand. -/
def Usable (name : String) : Prop := name ∉ keywords ∧ name ∉ neverRaw

theorem usable_of_raw {name : String} (h : isRaw name = true) : Usable name := by
  have hkeywords : ∀ word ∈ keywords, isRaw word = false := by decide
  have hnever : ∀ word ∈ neverRaw, isRaw word = false := by decide
  constructor
  · intro hmem
    rw [hkeywords name hmem] at h
    cases h
  · intro hmem
    rw [hnever name hmem] at h
    cases h

/-- No keyword has an underscore. -/
theorem usable_of_underscore {name : String} (h : '_' ∈ name.toList) (hlength : 2 ≤ name.length) :
    Usable name := by
  have hkeywords : ∀ word ∈ keywords, '_' ∉ word.toList := by decide
  have hnever : ∀ word ∈ neverRaw, '_' ∈ word.toList → ¬ 2 ≤ word.length := by decide
  exact ⟨fun hmem => hkeywords name hmem h, fun hmem => hnever name hmem h hlength⟩

theorem usable_escape (name : String) : Usable (escape name) := by
  have hnever : ∀ word ∈ neverRaw, word ++ "_" ∉ keywords ∧ word ++ "_" ∉ neverRaw := by decide
  unfold escape
  split
  · next hraw =>
    dsimp only
    split
    · next hmem => exact hnever _ hmem
    · exact usable_of_raw hraw
  · split
    · next hmem => exact hnever _ hmem
    · next hnot =>
      split
      · refine usable_of_raw ?_
        simp [isRaw, hasRawMarker]
      · next hkeyword => exact ⟨hkeyword, hnot⟩

theorem not_mem_append {a b : String} (ha : '#' ∉ a.toList) (hb : '#' ∉ b.toList) :
    '#' ∉ (a ++ b).toList := by
  rw [String.toList_append, List.mem_append, not_or]
  exact ⟨ha, hb⟩

theorem withoutRaw_marked (name : String) : withoutRaw ("r#" ++ name) = name := by
  simp [withoutRaw, bareChars]

/-- What escaping does to a word: nothing, or it puts a mark on it, or it makes a keyword raw. -/
theorem escape_cases {name : String} (h : IsWord name) :
    escape name = name ∨ '#' ∉ (escape name).toList ∨
      name ∈ keywords ∧ escape name = "r#" ++ name := by
  have hunderscore : '#' ∉ "_".toList := by decide
  unfold escape
  split
  · dsimp only
    split
    · right
      left
      exact not_mem_append (by rwa [toList_withoutRaw]) hunderscore
    · exact Or.inl rfl
  · next hraw =>
    have hhash := not_mem_of_isWord h (by simpa using hraw)
    split
    · exact Or.inr (Or.inl (not_mem_append hhash hunderscore))
    · split
      · next hkeyword => exact Or.inr (Or.inr ⟨hkeyword, rfl⟩)
      · exact Or.inl rfl

theorem isWord_escape {name : String} (h : IsWord name) : IsWord (escape name) := by
  have hkeywords : ∀ word ∈ keywords, '#' ∉ word.toList := by decide
  rcases escape_cases h with hsame | hhash | ⟨hkeyword, hmarked⟩
  · rwa [hsame]
  · exact isWord_of_not_mem hhash
  · rw [hmarked, IsWord, ← toList_withoutRaw, withoutRaw_marked]
    exact hkeywords name hkeyword

/-- An escaped name is raw because it was so before, or because it is a keyword. -/
theorem isRaw_escape {name : String} (h : IsWord name) (hraw : isRaw (escape name) = true) :
    isRaw name = true ∧ escape name = name ∨ withoutRaw (escape name) ∈ keywords := by
  rcases escape_cases h with hsame | hhash | ⟨hkeyword, hmarked⟩
  · left
    rw [hsame] at hraw
    exact ⟨hraw, hsame⟩
  · rw [isRaw, not_raw_of_not_mem hhash] at hraw
    cases hraw
  · right
    rwa [hmarked, withoutRaw_marked]

/-- A raw name is kept, if its bare name can be raw. -/
theorem escape_of_raw {name : String} (h : isRaw name = true) :
    escape name = name ∨ withoutRaw name ∈ neverRaw := by
  unfold escape
  rw [if_pos h]
  dsimp only
  split
  · next hnever => exact Or.inr hnever
  · exact Or.inl rfl

/-- The canonical spelling of a word differs from it in the marker at most. -/
theorem bareChars_canonical {value name : String} (h : IsWord value)
    (hname : canonical value = .ok name) : bareChars name.toList = bareChars value.toList := by
  have hbare : bareChars (withoutRaw value).toList = bareChars value.toList := by
    rw [toList_withoutRaw, bareChars_of_not_raw (not_raw_of_not_mem h)]
  unfold canonical at hname
  dsimp only at hname
  split at hname
  · cases hname
  · split at hname
    · split at hname <;> cases hname
      rfl
    · cases hname
      exact hbare

theorem isWord_canonical {value name : String} (h : IsWord value)
    (hname : canonical value = .ok name) : IsWord name := by
  unfold IsWord
  rwa [bareChars_canonical h hname]

/-! ## Derived names -/

/-- Every lower case character that a table gives lies beyond the capital letters of ASCII. -/
theorem caseRuns_beyond : ∀ r ∈ Unicode.caseRuns, 'a'.toNat + r.up ≤ r.first + r.down := by
  decide +kernel

/-- The character of a number has that code, or none if the number is no code. -/
theorem toNat_ofNat_or (n : Nat) : (Char.ofNat n).toNat = n ∨ (Char.ofNat n).toNat = 0 := by
  by_cases h : n.isValidChar
  · left
    rw [Char.ofNat, dif_pos h]
    rfl
  · right
    rw [Char.ofNat, dif_neg h]
    rfl

theorem toLower_eq_or (c : Char) : c.toLower = c ∨ 'a'.toNat ≤ c.toLower.toNat := by
  unfold Char.toLower
  split
  · next hupper =>
    right
    obtain ⟨hfirst, hlast⟩ := hupper
    rw [ge_iff_le, UInt32.le_iff_toNat_le] at hfirst
    rw [UInt32.le_iff_toNat_le] at hlast
    have hfirst : 65 ≤ c.val.toNat := hfirst
    have hlast : c.val.toNat ≤ 90 := hlast
    have hval : (c.val + ('a'.val - 'A'.val)).toNat = c.val.toNat + 32 := by
      rw [UInt32.toNat_add]
      exact Nat.mod_eq_of_lt (Nat.lt_of_le_of_lt (Nat.add_le_add_right hlast 32) (by decide))
    change 97 ≤ (c.val + ('a'.val - 'A'.val)).toNat
    omega
  · exact Or.inl rfl

/-- A character in front of the small letters is in lower case only what it was before. -/
theorem eq_of_mem_lower {c d : Char} (h : d ∈ Unicode.lower c) (hpos : 0 < d.toNat)
    (hlt : d.toNat < 'a'.toNat) : d = c := by
  unfold Unicode.lower at h
  split at h
  · rw [List.mem_singleton.mp h] at hlt ⊢
    exact (toLower_eq_or c).resolve_right (Nat.not_le_of_lt hlt)
  · split at h
    · simp only [List.mem_cons, List.not_mem_nil, or_false] at h
      rcases h with rfl | rfl <;> exact absurd hlt (by decide)
    · split at h
      · next r hfind =>
        have hrun := caseRuns_beyond r (List.mem_of_find?_eq_some hfind)
        have hcovers := List.find?_some hfind
        simp only [Unicode.CaseRun.covers, Bool.and_eq_true, decide_eq_true_eq] at hcovers
        have hfirst := hcovers.1.1
        have hd := congrArg Char.toNat (List.mem_singleton.mp h)
        rcases toNat_ofNat_or (c.toNat - r.up + r.down) with hvalid | hzero <;> omega
      · exact List.mem_singleton.mp h

theorem not_mem_lower {c : Char} (h : c ≠ '#') : '#' ∉ Unicode.lower c :=
  fun hmem => h (eq_of_mem_lower hmem (by decide) (by decide)).symm

theorem not_mem_snakeTail {cs : List Char} (h : '#' ∉ cs) : '#' ∉ snakeTail cs := by
  induction cs with
  | nil => exact h
  | cons c cs ih =>
    rw [List.mem_cons, not_or] at h
    have hlower := not_mem_lower (Ne.symm h.1)
    rw [snakeTail, List.mem_append, not_or]
    refine ⟨?_, ih h.2⟩
    split
    · simpa using hlower
    · exact hlower

theorem not_mem_snakeCase {name : String} (h : IsWord name) : '#' ∉ (snakeCase name).toList := by
  rw [snakeCase, String.toList_ofList]
  unfold IsWord at h
  cases hcs : bareChars name.toList with
  | nil => simp [snakeChars]
  | cons c cs =>
    rw [hcs, List.mem_cons, not_or] at h
    rw [snakeChars, List.mem_append, not_or]
    exact ⟨not_mem_lower (Ne.symm h.1), not_mem_snakeTail h.2⟩

/-- A derived name is a word, and raw for a keyword alone. -/
theorem methodInto_word {target : String} (h : IsWord target) (renameMethods : Bool) :
    IsWord (methodInto target renameMethods) ∧
      (isRaw (methodInto target renameMethods) = true →
        withoutRaw (methodInto target renameMethods) ∈ keywords) := by
  have hstem : '#' ∉ (if renameMethods then snakeCase target else withoutRaw target).toList := by
    split
    · exact not_mem_snakeCase h
    · rwa [toList_withoutRaw]
  refine ⟨isWord_escape (isWord_of_not_mem hstem), fun hraw => ?_⟩
  rcases isRaw_escape (isWord_of_not_mem hstem) hraw with ⟨hbefore, -⟩ | hkeyword
  · rw [isRaw, not_raw_of_not_mem hstem] at hbefore
    cases hbefore
  · exact hkeyword

end Typestate.Identifier
