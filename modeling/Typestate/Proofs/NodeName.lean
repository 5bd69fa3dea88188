import Typestate.Proofs.AsciiName

/-!
Canonical spellings. A canonical name is raw for a keyword and for nothing else, so it is its own canonical
spelling (`IsCanonical.canonical_eq`) and two canonical names that spell one identifier are equal
(`IsCanonical.eq`). Of other names, two different ones spell one identifier if and only if one is the other
behind a marker (`withoutRaw_eq_iff`).
-/

namespace Typestate.Identifier

/-- The name is raw exactly if it is that of a keyword, of one that can be raw, and it has no `#` but that
of its marker. -/
structure IsCanonical (name : String) : Prop where
  word : IsWord name
  raw_iff : isRaw name = true ↔ withoutRaw name ∈ keywords
  usable : withoutRaw name ∉ neverRaw

/-- The two names spell one identifier, one of them with the marker and the other without it. -/
structure Respelled (a b : String) : Prop where
  marker : isRaw a ≠ isRaw b
  bare : withoutRaw a = withoutRaw b

theorem withoutRaw_eq_iff (a b : String) : withoutRaw a = withoutRaw b ↔ a = b ∨ Respelled a b := by
  constructor
  · intro h
    by_cases hraw : isRaw a = isRaw b
    · exact Or.inl (eq_of_withoutRaw_eq hraw h)
    · exact Or.inr ⟨hraw, h⟩
  · rintro (rfl | h)
    · rfl
    · exact h.bare

theorem IsCanonical.eq {a b : String} (ha : IsCanonical a) (hb : IsCanonical b)
    (h : withoutRaw a = withoutRaw b) : a = b := by
  refine eq_of_withoutRaw_eq ?_ h
  rw [Bool.eq_iff_iff, ha.raw_iff, hb.raw_iff, h]

/-- Different canonical names are different identifiers. -/
theorem nodup_withoutRaw_of_canonical {names : List String} (hnames : ∀ name ∈ names, IsCanonical name)
    (hnodup : names.Nodup) : (names.map withoutRaw).Nodup :=
  hnodup.map_on fun a ha b hb hab => (hnames a ha).eq (hnames b hb) hab

theorem isCanonical_canonical {value name : String} (h : IsWord value)
    (hname : canonical value = .ok name) : IsCanonical name := by
  have hbare : isRaw (withoutRaw value) = false := isRaw_withoutRaw h
  suffices hspelled : (isRaw name = true ↔ withoutRaw name ∈ keywords) ∧ withoutRaw name ∉ neverRaw from
    ⟨isWord_canonical h hname, hspelled.1, hspelled.2⟩
  unfold canonical at hname
  dsimp only at hname
  split at hname
  · cases hname
  · next husable =>
    split at hname
    · next hkeyword =>
      split at hname
      · next hraw =>
        cases hname
        exact ⟨⟨fun _ => hkeyword, fun _ => hraw⟩, husable⟩
      · cases hname
    · next hkeyword =>
      cases hname
      rw [hbare, withoutRaw_of_not_raw hbare]
      exact ⟨⟨fun hfalse => absurd hfalse (by decide), fun hmem => absurd hmem hkeyword⟩, husable⟩

/-- The names that are their own canonical spelling: no bare keyword, no word that cannot be raw in any
spelling, and no raw name but of a keyword. -/
theorem canonical_eq_self_iff (name : String) : canonical name = .ok name ↔
    name ∉ keywords ∧ withoutRaw name ∉ neverRaw ∧ (isRaw name = true → withoutRaw name ∈ keywords) := by
  unfold canonical
  dsimp only
  split
  · next hnever => exact iff_of_false nofun fun h => h.2.1 hnever
  · next hnever =>
    cases hraw : isRaw name with
    | false =>
      rw [withoutRaw_of_not_raw hraw] at hnever ⊢
      split
      · next hkeyword => exact iff_of_false nofun fun h => h.1 hkeyword
      · next hkeyword => exact iff_of_true rfl ⟨hkeyword, hnever, nofun⟩
    | true =>
      have hbare : name ∉ keywords := (usable_of_raw hraw).1
      split
      · next hkeyword => exact iff_of_true rfl ⟨hbare, hnever, fun _ => hkeyword⟩
      · next hkeyword =>
        refine iff_of_false (fun h => withoutRaw_ne_self hraw (Except.ok.inj h)) fun h => ?_
        exact hkeyword (h.2.2 rfl)

/-- A name without a marker is its own canonical spelling or has none. -/
theorem canonical_of_not_raw {name : String} (h : isRaw name = false) :
    canonical name = .ok name ∨ ∃ cause, canonical name = .error cause := by
  unfold canonical
  rw [withoutRaw_of_not_raw h, h]
  dsimp only
  split
  · exact Or.inr ⟨_, rfl⟩
  · split
    · exact Or.inr ⟨_, rfl⟩
    · exact Or.inl rfl

theorem IsCanonical.canonical_eq {name : String} (h : IsCanonical name) : canonical name = .ok name := by
  refine (canonical_eq_self_iff name).mpr ⟨fun hkeyword => ?_, h.usable, h.raw_iff.mp⟩
  cases hraw : isRaw name with
  | true => exact (usable_of_raw hraw).1 hkeyword
  | false =>
    rw [← withoutRaw_of_not_raw hraw, ← h.raw_iff, hraw] at hkeyword
    cases hkeyword

/-! ## Names of entry enums -/

theorem isRaw_append_entry (name : String) : isRaw (name ++ "Entry") = isRaw name := by
  unfold isRaw
  rw [String.toList_append]
  match name.toList with
  | [] => rfl
  | [_] => simp [hasRawMarker]
  | c :: d :: rest =>
    rw [List.cons_append, List.cons_append]
    unfold hasRawMarker
    split <;> split <;> simp_all

/-- The name that an entry enum has by default is canonical if that of its machine is not raw. -/
theorem canonical_append_entry_iff (name : String) :
    canonical (name ++ "Entry") = .ok (name ++ "Entry") ↔ isRaw name = false := by
  have hkeywords : ∀ word ∈ keywords, ¬ "Entry".toList <:+ word.toList := by decide
  have hnever : ∀ word ∈ neverRaw, ¬ "Entry".toList <:+ word.toList := by decide
  have hends : "Entry".toList <:+ (name ++ "Entry").toList := by
    rw [String.toList_append]
    exact List.suffix_append ..
  have hbare : "Entry".toList <:+ (withoutRaw (name ++ "Entry")).toList := by
    rw [toList_withoutRaw]
    cases hraw : isRaw name with
    | false => rwa [bareChars_of_not_raw ((isRaw_append_entry name).trans hraw)]
    | true =>
      rw [String.toList_append, eq_of_raw hraw]
      exact List.suffix_append ..
  rw [canonical_eq_self_iff, isRaw_append_entry]
  constructor
  · rintro ⟨-, -, hraw⟩
    rw [← Bool.not_eq_true]
    exact fun htrue => hkeywords _ (hraw htrue) hbare
  · intro hraw
    refine ⟨fun h => hkeywords _ h hends, fun h => hnever _ h hbare, fun htrue => ?_⟩
    rw [hraw] at htrue
    cases htrue

/-! ## Names in ASCII -/

theorem eq_dropFinalNewline (cs : List Char) :
    cs = dropFinalNewline cs ∨ cs = dropFinalNewline cs ++ ['\n'] := by
  fun_induction dropFinalNewline cs with
  | case1 => exact Or.inl rfl
  | case2 => exact Or.inr rfl
  | case3 c rest _ ih =>
    rcases ih with h | h
    · exact Or.inl (congrArg (c :: ·) h)
    · exact Or.inr (congrArg (c :: ·) h)

theorem dropFinalNewline_concat (cs : List Char) : dropFinalNewline (cs ++ ['\n']) = cs := by
  induction cs with
  | nil => rfl
  | cons c cs ih =>
    have hcons : dropFinalNewline (c :: (cs ++ ['\n'])) = c :: dropFinalNewline (cs ++ ['\n']) := by
      cases cs <;> simp [dropFinalNewline]
    rw [List.cons_append, hcons, ih]

theorem dropFinalNewline_of_not_last {cs : List Char} (h : cs.getLast? ≠ some '\n') : dropFinalNewline cs = cs := by
  rcases eq_dropFinalNewline cs with heq | heq
  · exact heq.symm
  · rw [heq, List.getLast?_concat] at h
    exact absurd rfl h

theorem bareChars_concat (cs : List Char) : bareChars (cs ++ ['\n']) = bareChars cs ++ ['\n'] := by
  cases hraw : hasRawMarker cs with
  | true =>
    rw [eq_of_raw hraw]
    rfl
  | false =>
    have hnot : hasRawMarker (cs ++ ['\n']) = false := by
      rcases cs with _ | ⟨c, _ | ⟨d, rest⟩⟩
      · rfl
      · simp [hasRawMarker]
      · rw [List.cons_append, List.cons_append]
        unfold hasRawMarker at hraw ⊢
        split at hraw <;> simp_all
    rw [bareChars_of_not_raw hnot, bareChars_of_not_raw hraw]

theorem isWellFormed_iff (name : String) :
    isWellFormed name = true ↔ IsPlainWord (bareChars (dropFinalNewline name.toList)) := by
  unfold isWellFormed
  split
  · next hnil =>
    rw [hnil]
    constructor <;> rintro ⟨⟩
  · next c rest hcons =>
    rw [hcons, Bool.and_eq_true, List.all_eq_true]
    constructor
    · rintro ⟨hstart, hrest⟩
      exact .cons hstart hrest
    · rintro ⟨hstart, hrest⟩
      exact ⟨hstart, hrest⟩

/-- A name in ASCII has no `#` but that of its marker. -/
theorem isWord_of_isWellFormed {name : String} (h : isWellFormed name = true) : IsWord name := by
  have hplain : '#' ∉ bareChars (dropFinalNewline name.toList) :=
    not_mem_of_isPlainWord ((isWellFormed_iff name).mp h) (by decide)
  intro hmem
  rcases eq_dropFinalNewline name.toList with heq | heq
  · rw [heq] at hmem
    exact hplain hmem
  · rw [heq, bareChars_concat] at hmem
    exact hplain (by simpa using hmem)

end Typestate.Identifier
