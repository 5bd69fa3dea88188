import Typestate.Proofs.Token.Locality
import Typestate.Proofs.Unicode
import Typestate.Text.Blank

/-!
Tokens that are neither documentation nor strings: words, numbers, lifetimes and punctuation. Whatever starts
with neither a slash nor a quote is one of them (`Lexeme.written_of_first`), and none has a blank inside
(`Lexeme.Written.not_blank`).
-/

namespace Typestate

open Text (isBlank)

namespace Lexeme

/-! ## Blanks -/

/-- The code points of the blanks. -/
def blankCodes : List Nat :=
  List.range' 9 5 ++ List.range' 28 5 ++ List.range' 0x2000 11 ++
    [0x85, 0xA0, 0x1680, 0x2028, 0x2029, 0x202F, 0x205F, 0x3000]

theorem mem_blankCodes {c : Char} (h : isBlank c = true) : c.toNat ∈ blankCodes := by
  unfold isBlank at h
  simp only [Bool.or_eq_true, Bool.and_eq_true, decide_eq_true_eq, beq_iff_eq] at h
  simp only [blankCodes, List.mem_append, List.mem_range'_1, List.mem_cons, List.not_mem_nil, or_false]
  rcases h with (((((((((h | h) | h) | h) | h) | h) | h) | h) | h) | h) | h <;> omega

/-- What is true of none of the blanks. -/
theorem isBlank_of_test {test : Char → Bool} (hall : ∀ n ∈ blankCodes, test (Char.ofNat n) = false)
    {c : Char} (h : test c = true) : isBlank c = false := by
  by_contra hblank
  rw [Bool.not_eq_false] at hblank
  have hc := hall c.toNat (mem_blankCodes hblank)
  rw [Char.ofNat_toNat, h] at hc
  cases hc

theorem isBlank_of_wordChar {c : Char} (h : Identifier.isWordChar c = true) : isBlank c = false :=
  isBlank_of_test (by decide +kernel) h

theorem isBlank_of_space {c : Char} (h : isSpace c = true) : isBlank c = true := by
  rcases eq_of_isSpace h with rfl | rfl | rfl | rfl <;> rfl

theorem not_blank_of_punctuation {c : Char} {kind : TokenKind} (h : TokenKind.ofPunctuation c = some kind) :
    isBlank c = false := by
  unfold TokenKind.ofPunctuation at h
  split at h <;> first | decide | cases h

/-! ## Lexemes -/

/-- What the text of a token looks like that is neither documentation nor a string, by its kind. -/
inductive Written : TokenKind → List Char → Prop
  | lifetime {cs : List Char} (hcs : ∀ c ∈ cs, Identifier.isWordChar c = true) : Written .lifetime ('\'' :: cs)
  | number {cs : List Char} (hne : cs ≠ []) (hcs : ∀ c ∈ cs, Identifier.isWordChar c = true) :
    Written .number cs
  | raw {cs : List Char} (hcs : ∀ c ∈ cs, Identifier.isWordChar c = true) :
    Written .identifier ('r' :: '#' :: cs)
  | word {cs : List Char} (hne : cs ≠ []) (hcs : ∀ c ∈ cs, Identifier.isWordChar c = true) :
    Written (.ofWord cs) cs
  | sign {c : Char} {kind : TokenKind} (h : TokenKind.ofPunctuation c = some kind) : Written kind [c]
  | colon : Written .colon [':']
  | pathSeparator : Written .pathSeparator [':', ':']
  | minus : Written .minus ['-']
  | arrow : Written .arrow ['-', '>']

theorem ofPunctuation_kind {c : Char} {kind : TokenKind} (h : TokenKind.ofPunctuation c = some kind) :
    kind ≠ .doc ∧ kind ≠ .string ∧ kind ≠ .endOfInput := by
  unfold TokenKind.ofPunctuation at h
  split at h <;> cases h <;> decide

theorem ofWord_kind (word : List Char) : TokenKind.ofWord word ≠ .doc ∧
    TokenKind.ofWord word ≠ .string ∧ TokenKind.ofWord word ≠ .endOfInput := by
  unfold TokenKind.ofWord
  split_ifs <;> decide

theorem Written.ne_nil {kind : TokenKind} {text : List Char} (h : Written kind text) : text ≠ [] := by
  cases h with
  | number hne => exact hne
  | word hne => exact hne
  | _ => exact List.cons_ne_nil _ _

theorem Written.kind_ne {kind : TokenKind} {text : List Char} (h : Written kind text) :
    kind ≠ .doc ∧ kind ≠ .string ∧ kind ≠ .endOfInput := by
  cases h with
  | word => exact ofWord_kind _
  | sign h => exact ofPunctuation_kind h
  | _ => decide

theorem Written.not_blank {kind : TokenKind} {text : List Char} (h : Written kind text) :
    ∀ c ∈ text, Text.isBlank c = false := by
  have hword : ∀ {cs : List Char}, (∀ c ∈ cs, Identifier.isWordChar c = true) → ∀ c ∈ cs, Text.isBlank c = false :=
    fun hcs c hc => isBlank_of_wordChar (hcs c hc)
  cases h with
  | lifetime hcs => exact List.forall_mem_cons.mpr ⟨by decide, hword hcs⟩
  | number _ hcs => exact hword hcs
  | raw hcs => exact List.forall_mem_cons.mpr ⟨by decide, List.forall_mem_cons.mpr ⟨by decide, hword hcs⟩⟩
  | word _ hcs => exact hword hcs
  | sign hsign => exact List.forall_mem_singleton.mpr (not_blank_of_punctuation hsign)
  | colon => exact List.forall_mem_singleton.mpr (by decide)
  | minus => exact List.forall_mem_singleton.mpr (by decide)
  | pathSeparator => exact List.forall_mem_cons.mpr ⟨by decide, List.forall_mem_singleton.mpr (by decide)⟩
  | arrow => exact List.forall_mem_cons.mpr ⟨by decide, List.forall_mem_singleton.mpr (by decide)⟩

theorem written_of_punctuation {c : Char} {rest : List Char} {l : Lexeme} (h : punctuation c rest = .ok l) :
    ∃ kind text, l = plain kind text ∧ text <+: c :: rest ∧ Written kind text := by
  have hpair : ∀ {d : Char} {one two : TokenKind}, Written one [c] → Written two [c, d] →
      ∃ kind text, (if rest.head? == some d then plain two [c, d] else plain one [c]) = plain kind text ∧
        text <+: c :: rest ∧ Written kind text := by
    intro d one two hone htwo
    split
    · next hhead =>
      obtain ⟨rest, rfl⟩ := List.head?_eq_some_iff.mp (beq_iff_eq.mp hhead)
      exact ⟨two, [c, d], rfl, ⟨rest, rfl⟩, htwo⟩
    · exact ⟨one, [c], rfl, ⟨rest, rfl⟩, hone⟩
  unfold punctuation at h
  split at h
  · next hcolon =>
    obtain rfl : c = ':' := beq_iff_eq.mp hcolon
    obtain rfl := Except.ok.inj h
    exact hpair .colon .pathSeparator
  split at h
  · next hminus =>
    obtain rfl : c = '-' := beq_iff_eq.mp hminus
    obtain rfl := Except.ok.inj h
    exact hpair .minus .arrow
  split at h
  · next kind hkind =>
    obtain rfl := Except.ok.inj h
    exact ⟨kind, [c], rfl, ⟨rest, rfl⟩, .sign hkind⟩
  · cases h

/-- What starts with neither a slash nor a quote has its text as its value. -/
theorem written_of_first {c : Char} {rest : List Char} {l : Lexeme} (h : first c rest = .ok l)
    (hslash : c ≠ '/') (hquote : c ≠ '"') :
    ∃ kind text, l = plain kind text ∧ text <+: c :: rest ∧ Written kind text := by
  have hword : ∀ cs, ∀ d ∈ word cs, Identifier.isWordChar d = true := fun _ _ hd =>
    List.mem_takeWhile_imp hd
  by_cases htick : c = '\''
  · subst htick
    rw [first_lifetime] at h
    split at h
    · obtain rfl := Except.ok.inj h
      exact ⟨_, _, rfl, List.cons_prefix_cons.mpr ⟨rfl, List.takeWhile_prefix _⟩, .lifetime (hword _)⟩
    · cases h
  rw [first_other hslash hquote htick] at h
  split at h
  · next hdigit =>
    have hchar : Identifier.isWordChar c = true := by
      simp [Identifier.isWordChar, Unicode.isNumber_of_isDigit hdigit]
    obtain rfl := Except.ok.inj h
    refine ⟨_, _, rfl, List.takeWhile_prefix _, .number ?_ (hword _)⟩
    rw [word_cons_of_pos hchar]
    exact List.cons_ne_nil _ _
  split at h
  · next hraw =>
    obtain ⟨rfl, hmark, -⟩ := hraw
    obtain ⟨rest, rfl⟩ := List.head?_eq_some_iff.mp hmark
    obtain rfl := Except.ok.inj h
    refine ⟨_, _, rfl, ?_, .raw (hword _)⟩
    exact List.cons_prefix_cons.mpr ⟨rfl, List.cons_prefix_cons.mpr ⟨rfl, List.takeWhile_prefix _⟩⟩
  split at h
  · next hstart =>
    obtain rfl := Except.ok.inj h
    refine ⟨_, _, rfl, List.takeWhile_prefix _, .word ?_ (hword _)⟩
    rw [word_cons_of_pos (isWordChar_of_isWordStart hstart)]
    exact List.cons_ne_nil _ _
  · exact written_of_punctuation h

end Lexeme

end Typestate
