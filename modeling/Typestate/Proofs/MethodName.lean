import Typestate.Proofs.AsciiName
import Typestate.Proofs.Numbering

/-!
Names that a method can have. Escaping an ASCII identifier gives one (`IsAsciiName.escape`), and so does
everything that is made of such identifiers: the name derived from a node (`IsAsciiName.methodInto`), and a name
with a number (`IsAsciiName.numbered`).
-/

namespace Typestate.Identifier

/-- The name is one of a method: an ASCII identifier that is neither a keyword nor the underscore, or a marker
and an ASCII identifier that can be raw. -/
inductive IsMethodName : String → Prop
  | bare {name : String} (hword : IsPlainWord name.toList) (hkeyword : name ∉ keywords)
    (hunderscore : name ≠ "_") : IsMethodName name
  | raw {name : String} (hword : IsPlainWord name.toList) (hnever : name ∉ neverRaw) :
    IsMethodName ("r#" ++ name)

variable {name : String}

theorem isMethodName_of_usable (hword : IsPlainWord name.toList) (h : Usable name) :
    IsMethodName name := by
  refine .bare hword h.1 ?_
  rintro rfl
  exact h.2 (by decide)

theorem isAsciiName_of_word (h : IsPlainWord name.toList) : IsAsciiName name := by
  have hhash : '#' ∉ name.toList := by
    generalize name.toList = cs at h
    obtain ⟨hstart, hrest⟩ := h
    intro hmem
    rcases List.mem_cons.mp hmem with rfl | hmem
    · exact absurd hstart (by decide)
    · exact absurd (hrest '#' hmem) (by decide)
  unfold IsAsciiName
  rwa [bareChars_of_not_raw (not_raw_of_not_mem hhash)]

theorem IsMethodName.isAsciiName (h : IsMethodName name) : IsAsciiName name := by
  cases h with
  | bare hword => exact isAsciiName_of_word hword
  | @raw bare hword =>
    unfold IsAsciiName
    rwa [← toList_withoutRaw, withoutRaw_marked]

/-- What escaping makes of the bare name. -/
theorem escape_eq (name : String) : escape name =
    if withoutRaw name ∈ neverRaw then withoutRaw name ++ "_"
    else if isRaw name = true ∨ withoutRaw name ∈ keywords then "r#" ++ withoutRaw name
    else withoutRaw name := by
  unfold escape
  cases hraw : isRaw name with
  | true =>
    have hmarked : "r#" ++ withoutRaw name = name := by
      apply String.toList_injective
      rw [String.toList_append, toList_withoutRaw]
      exact (eq_of_raw hraw).symm
    rw [if_pos rfl, if_pos (Or.inl rfl), hmarked]
  | false =>
    rw [withoutRaw_of_not_raw hraw, if_neg Bool.false_ne_true]
    simp only [Bool.false_eq_true, false_or]

namespace IsAsciiName

theorem withoutRaw (h : IsAsciiName name) : IsPlainWord (withoutRaw name).toList := by
  rwa [toList_withoutRaw]

theorem isMethodName_append (h : IsAsciiName name) {ending : String}
    (hending : ∀ c ∈ ending.toList, isPlainChar c = true)
    (husable : Usable (Identifier.withoutRaw name ++ ending)) :
    IsMethodName (Identifier.withoutRaw name ++ ending) := by
  refine isMethodName_of_usable ?_ husable
  rw [String.toList_append]
  exact h.withoutRaw.append hending

/-- **Escaping.** An ASCII name that is escaped can be the name of a method. -/
theorem escape (h : IsAsciiName name) : IsMethodName (escape name) := by
  have hnever : ∀ word ∈ neverRaw, word ++ "_" ∉ keywords ∧ word ++ "_" ∉ neverRaw := by decide
  rw [escape_eq]
  split
  · next hmem => exact h.isMethodName_append (List.all_eq_true.mp (by decide)) (hnever _ hmem)
  · next hmem =>
    split
    · exact .raw h.withoutRaw hmem
    · next hkeyword =>
      rw [not_or] at hkeyword
      exact isMethodName_of_usable h.withoutRaw ⟨hkeyword.2, hmem⟩

/-- A name that is derived from that of a node. -/
theorem methodInto (h : IsAsciiName name) (renameMethods : Bool) :
    IsMethodName (methodInto name renameMethods) := by
  unfold Identifier.methodInto
  refine escape (isAsciiName_of_word ?_)
  split
  · exact h.snakeCase
  · exact h.withoutRaw

theorem numbered (h : IsAsciiName name) (used : List String) : IsMethodName (numbered name used) := by
  obtain ⟨-, husable⟩ := numbered_word h.isName.isWord used
  obtain ⟨n, hn⟩ := exists_numbered name used
  have hending : ∀ c ∈ ("_" ++ toString n).toList, isPlainChar c = true := by
    rw [String.toList_append]
    refine List.forall_mem_append.mpr ⟨List.all_eq_true.mp (by decide), fun c hc => ?_⟩
    rw [Nat.toString_eq_repr, Nat.toList_repr] at hc
    have hdigit : c.isDigit = true := Nat.isDigit_of_mem_toDigits (by decide) (by decide) hc
    simp [isPlainChar, hdigit]
  rw [hn, String.append_assoc] at husable ⊢
  exact h.isMethodName_append hending husable

end IsAsciiName

end Typestate.Identifier
