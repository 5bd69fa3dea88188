import Typestate.Proofs.Identifier

/-!
Names in ASCII. A name is a word, with a marker in front of it or without one. If it is written in ASCII the
word is an ASCII identifier (`IsName.ascii`), and it is still one after a change to snake case
(`IsAsciiName.snakeCase`).
-/

namespace Typestate.Identifier

/-! ## Characters -/

section
variable {c : Char}

theorem toNat_of_isAlpha (h : c.isAlpha = true) : 65 ≤ c.toNat ∧ c.toNat ≤ 122 := by
  have hcases : (decide (65 ≤ c.val ∧ c.val ≤ 90) || decide (97 ≤ c.val) && decide (c.val ≤ 122)) = true := h
  simp only [Bool.or_eq_true, Bool.and_eq_true, decide_eq_true_eq, UInt32.le_iff_toNat_le] at hcases
  change 65 ≤ c.val.toNat ∧ c.val.toNat ≤ 122
  rcases hcases with ⟨hfirst, hlast⟩ | ⟨hfirst, hlast⟩
  · exact ⟨hfirst, Nat.le_trans hlast (by decide)⟩
  · exact ⟨Nat.le_trans (by decide) hfirst, hlast⟩

theorem toNat_lt_of_isPlainChar (h : isPlainChar c = true) : c.toNat < 128 := by
  simp only [isPlainChar, Char.isDigit, Bool.or_eq_true, Bool.and_eq_true, decide_eq_true_eq, beq_iff_eq,
    UInt32.le_iff_toNat_le] at h
  rcases h with (h | ⟨_, h⟩) | rfl
  · exact Nat.lt_of_le_of_lt (toNat_of_isAlpha h).2 (by decide)
  · exact Nat.lt_of_le_of_lt h (by decide)
  · decide

theorem le_toNat_of_isPlainStart (h : isPlainStart c = true) : 65 ≤ c.toNat := by
  simp only [isPlainStart, Bool.or_eq_true, beq_iff_eq] at h
  rcases h with h | rfl
  · exact (toNat_of_isAlpha h).1
  · decide

theorem isPlainChar_of_isPlainStart (h : isPlainStart c = true) : isPlainChar c = true := by
  simp only [isPlainStart, Bool.or_eq_true] at h
  simp only [isPlainChar, Bool.or_eq_true]
  exact h.imp Or.inl id

theorem isWordStart_of_ascii (h : c.toNat < 128) : isWordStart c = isPlainStart c := by
  unfold isWordStart Unicode.isLetter
  rw [if_pos h]
  rfl

theorem isWordChar_of_ascii (h : c.toNat < 128) : isWordChar c = isPlainChar c := by
  unfold isWordChar Unicode.isLetter Unicode.isNumber
  rw [if_pos h, if_pos h]
  rfl

theorem isWordChar_of_isPlainChar (h : isPlainChar c = true) : isWordChar c = true := by
  rwa [isWordChar_of_ascii (toNat_lt_of_isPlainChar h)]

theorem isWordStart_of_isPlainStart (h : isPlainStart c = true) : isWordStart c = true := by
  rwa [isWordStart_of_ascii (toNat_lt_of_isPlainChar (isPlainChar_of_isPlainStart h))]

/-- What a change to lower case does to the characters of ASCII identifiers leaves them such. -/
theorem isPlain_toLower (c : Char) : (isPlainStart c = true → isPlainStart c.toLower = true) ∧
    (isPlainChar c = true → isPlainChar c.toLower = true) := by
  have hall : ∀ n < 128, (isPlainStart (Char.ofNat n) = true → isPlainStart (Char.ofNat n).toLower = true) ∧
      (isPlainChar (Char.ofNat n) = true → isPlainChar (Char.ofNat n).toLower = true) := by decide +kernel
  have hc : c.toNat < 128 → _ := hall c.toNat
  rw [Char.ofNat_toNat] at hc
  refine ⟨fun h => ?_, fun h => (hc (toNat_lt_of_isPlainChar h)).2 h⟩
  exact (hc (toNat_lt_of_isPlainChar (isPlainChar_of_isPlainStart h))).1 h

theorem lower_of_isPlainChar (h : isPlainChar c = true) : Unicode.lower c = [c.toLower] :=
  if_pos (toNat_lt_of_isPlainChar h)

end

/-! ## Words -/

/-- A character that may start a word, and then characters that may continue it. -/
inductive WordOf (start more : Char → Bool) : List Char → Prop
  | cons {c : Char} {rest : List Char} (hstart : start c = true) (hrest : ∀ d ∈ rest, more d = true) :
    WordOf start more (c :: rest)

namespace WordOf

variable {start more start' more' : Char → Bool} {cs ds : List Char}

theorem append (h : WordOf start more cs) (hds : ∀ d ∈ ds, more d = true) : WordOf start more (cs ++ ds) := by
  obtain ⟨hstart, hrest⟩ := h
  exact .cons hstart (List.forall_mem_append.mpr ⟨hrest, hds⟩)

theorem imp (h : WordOf start more cs) (hstart : ∀ c ∈ cs, start c = true → start' c = true)
    (hmore : ∀ c ∈ cs, more c = true → more' c = true) : WordOf start' more' cs := by
  obtain ⟨hfirst, hrest⟩ := h
  exact .cons (hstart _ (List.mem_cons_self ..) hfirst) fun d hd =>
    hmore d (List.mem_cons_of_mem _ hd) (hrest d hd)

theorem forall_mem (h : WordOf start more cs) (hle : ∀ c, start c = true → more c = true) :
    ∀ c ∈ cs, more c = true := by
  obtain ⟨hstart, hrest⟩ := h
  exact List.forall_mem_cons.mpr ⟨hle _ hstart, hrest⟩

end WordOf

/-- The text is an ASCII identifier. -/
abbrev IsPlainWord (cs : List Char) : Prop := WordOf isPlainStart isPlainChar cs

theorem isPlainChar_of_mem {cs : List Char} (h : IsPlainWord cs) : ∀ c ∈ cs, isPlainChar c = true :=
  h.forall_mem fun _ => isPlainChar_of_isPlainStart

theorem not_mem_of_isPlainWord {cs : List Char} (h : IsPlainWord cs) {d : Char} (hd : isPlainChar d = false) :
    d ∉ cs := by
  intro hmem
  rw [isPlainChar_of_mem h d hmem] at hd
  cases hd

/-- The name is a word, raw or not. -/
def IsName (name : String) : Prop := WordOf isWordStart isWordChar (bareChars name.toList)

/-- The name is an ASCII identifier, raw or not. -/
def IsAsciiName (name : String) : Prop := IsPlainWord (bareChars name.toList)

/-- The name has ASCII characters only. -/
def IsAscii (name : String) : Prop := ∀ c ∈ name.toList, c.toNat < 128

instance : DecidablePred IsAscii := fun _ => List.decidableBAll _ _

variable {name : String}

theorem IsName.isWord (h : IsName name) : IsWord name := by
  unfold IsName at h
  unfold IsWord
  generalize bareChars name.toList = cs at h
  obtain ⟨hstart, hrest⟩ := h
  rw [List.mem_cons, not_or]
  constructor
  · rintro rfl
    exact absurd hstart (by decide)
  · exact fun hmem => absurd (hrest '#' hmem) (by decide)

theorem IsAsciiName.isName (h : IsAsciiName name) : IsName name :=
  WordOf.imp h (fun _ _ => isWordStart_of_isPlainStart) fun _ _ => isWordChar_of_isPlainChar

theorem mem_of_mem_bareChars {c : Char} {cs : List Char} (h : c ∈ bareChars cs) : c ∈ cs := by
  unfold bareChars at h
  split at h
  · exact List.mem_cons_of_mem _ (List.mem_cons_of_mem _ h)
  · exact h

/-- **ASCII.** A name that is written in ASCII is an ASCII identifier. -/
theorem IsName.ascii (h : IsName name) (hascii : IsAscii name) : IsAsciiName name := by
  refine WordOf.imp h (fun c hc hstart => ?_) fun c hc hchar => ?_
  · rwa [← isWordStart_of_ascii (hascii c (mem_of_mem_bareChars hc))]
  · rwa [← isWordChar_of_ascii (hascii c (mem_of_mem_bareChars hc))]

/-- There is nothing in an ASCII identifier but plain characters and the marker. -/
theorem mem_of_isAsciiName (h : IsAsciiName name) {c : Char} (hc : c ∈ name.toList) :
    isPlainChar c = true ∨ c = '#' := by
  have hbare : ∀ d ∈ bareChars name.toList, isPlainChar d = true := isPlainChar_of_mem h
  cases hraw : hasRawMarker name.toList with
  | true =>
    rw [eq_of_raw hraw] at hc
    rcases List.mem_cons.mp hc with rfl | hc
    · exact Or.inl (by decide)
    · rcases List.mem_cons.mp hc with rfl | hc
      · exact Or.inr rfl
      · exact Or.inl (hbare c hc)
  | false =>
    rw [bareChars_of_not_raw hraw] at hbare
    exact Or.inl (hbare c hc)

theorem exists_cons_of_isAsciiName (h : IsAsciiName name) :
    ∃ c more, name.toList = c :: more ∧ isPlainChar c = true := by
  cases hraw : hasRawMarker name.toList with
  | true => exact ⟨'r', _, eq_of_raw hraw, by decide⟩
  | false =>
    unfold IsAsciiName at h
    rw [bareChars_of_not_raw hraw] at h
    generalize name.toList = cs at h
    obtain ⟨hstart, -⟩ := h
    exact ⟨_, _, rfl, isPlainChar_of_isPlainStart hstart⟩

theorem isName_canonical {value : String} (h : IsName value) (hname : canonical value = .ok name) :
    IsName name := by
  unfold IsName
  rwa [bareChars_canonical h.isWord hname]

/-! ## Snake case -/

theorem forall_mem_snakeTail {cs : List Char} (h : ∀ c ∈ cs, isPlainChar c = true) :
    ∀ c ∈ snakeTail cs, isPlainChar c = true := by
  induction cs with
  | nil => exact List.forall_mem_nil _
  | cons c cs ih =>
    obtain ⟨hc, hcs⟩ := List.forall_mem_cons.mp h
    have hlower : ∀ d ∈ Unicode.lower c, isPlainChar d = true := by
      rw [lower_of_isPlainChar hc]
      exact List.forall_mem_singleton.mpr ((isPlain_toLower c).2 hc)
    rw [snakeTail]
    refine List.forall_mem_append.mpr ⟨?_, ih hcs⟩
    split
    · exact List.forall_mem_cons.mpr ⟨by decide, hlower⟩
    · exact hlower

theorem IsAsciiName.snakeCase (h : IsAsciiName name) : IsPlainWord (snakeCase name).toList := by
  unfold IsAsciiName at h
  unfold Identifier.snakeCase
  rw [String.toList_ofList]
  generalize bareChars name.toList = cs at h
  obtain ⟨hstart, hrest⟩ := h
  rw [snakeChars, lower_of_isPlainChar (isPlainChar_of_isPlainStart hstart)]
  exact .cons ((isPlain_toLower _).1 hstart) (forall_mem_snakeTail hrest)

end Typestate.Identifier
