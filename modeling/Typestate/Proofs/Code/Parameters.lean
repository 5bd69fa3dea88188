import Typestate.Code.Generics
import Typestate.Proofs.Text.Brackets
import Typestate.Proofs.Token.Locality

/-!
The texts of generic parameters. A list in angle brackets is taken apart into the texts that it was made of
(`Lists.angled`), and of a parameter that is a name, a colon with bounds and an equals sign with a default,
the two latter there or not, generated code has the name (`parameterName_of_text`) and what stands in front of
the equals sign (`withoutDefault_of_text`).
-/

namespace Typestate

open Text (Walks Single isBlank normalize trim)

namespace Text

variable {cs : List Char}

theorem dropWhile_of_head (h : ∀ c ∈ cs.head?, isBlank c = false) : cs.dropWhile isBlank = cs := by
  cases cs with
  | nil => rfl
  | cons c cs => exact List.dropWhile_cons_of_neg (by simp [h c rfl])

/-- A text without blanks at its ends has nothing to be trimmed. -/
theorem trim_of_ends (hhead : ∀ c ∈ cs.head?, isBlank c = false) (hlast : ∀ c ∈ cs.getLast?, isBlank c = false) :
    trim cs = cs := by
  rw [← List.head?_reverse] at hlast
  rw [trim, dropWhile_of_head hhead, trimEnd, dropWhile_of_head hlast, List.reverse_reverse]

theorem trim_append_spaces {gap : List Char} (hcs : ∀ c ∈ cs, isBlank c = false) (hne : cs ≠ [])
    (hgap : ∀ c ∈ gap, c = ' ') : trim (cs ++ gap) = cs := by
  have hhead : ∀ c ∈ (cs ++ gap).head?, isBlank c = false := by
    rw [List.head?_append_of_ne_nil cs hne]
    exact fun c hc => hcs c (List.mem_of_mem_head? hc)
  have hlast : ∀ c ∈ cs.reverse.head?, isBlank c = false := fun c hc =>
    hcs c (List.mem_reverse.mp (List.mem_of_mem_head? hc))
  have hblank : ∀ c ∈ gap.reverse, isBlank c = true := fun c hc =>
    isBlank_of_spaces hgap c (List.mem_reverse.mp hc)
  rw [trim, dropWhile_of_head hhead, trimEnd, List.reverse_append, List.dropWhile_append_of_pos hblank,
    dropWhile_of_head hlast, List.reverse_reverse]

/-- No blank stands at the ends of words with single spaces between. -/
theorem normalize_ends (cs : List Char) : (∀ c ∈ (normalize cs).head?, isBlank c = false) ∧
    ∀ c ∈ (normalize cs).getLast?, isBlank c = false := by
  induction cs with
  | nil =>
    constructor <;> rintro _ ⟨⟩
  | cons c cs ih =>
    cases hc : isBlank c with
    | true =>
      rw [normalize_blank hc]
      exact ih
    | false =>
      rw [normalize_eq_squeeze hc]
      refine ⟨?_, getLast?_squeeze⟩
      rw [squeeze_cons hc]
      rintro _ ⟨⟩
      exact hc

end Text

namespace Code

/-! ## Lists -/

theorem parametersOf_angled (params : String) : parametersOf ("<" ++ params ++ ">") =
    .ok (Text.splitOutsideBrackets params (· == ',')) := by
  have hlist : ("<" ++ params ++ ">").toList = '<' :: (params.toList ++ ['>']) := by
    simp [String.toList_append]
  have hlast : ('<' :: (params.toList ++ ['>'])).getLast? = some '>' := by
    rw [← List.cons_append, List.getLast?_concat]
  have htrim : trim ('<' :: (params.toList ++ ['>'])) = '<' :: (params.toList ++ ['>']) := by
    refine Text.trim_of_ends ?_ ?_
    · rintro _ ⟨⟩
      decide
    · rw [hlast]
      rintro _ ⟨⟩
      decide
  unfold parametersOf
  rw [hlist, htrim]
  simp [hlast]

/-- The text is the list of these texts, and is taken apart into them. -/
structure Lists (text : String) (texts : List String) : Prop where
  angled : text = angled texts
  parameters : parametersOf text = .ok texts

theorem lists_angled {texts : List String} (h : ∀ text ∈ texts, Single text) : Lists (angled texts) texts where
  angled := rfl
  parameters := by
    unfold Code.angled
    cases texts with
    | nil => rfl
    | cons text texts =>
      rw [List.isEmpty_cons, if_neg Bool.false_ne_true, parametersOf_angled,
        Text.splitOutsideBrackets_intercalate h]

/-! ## Defaults -/

/-- An equals sign inside of brackets is passed. -/
theorem beforeDefault_append {depth depth' : Int} {previous last : Char} {cs : List Char}
    (h : Walks '=' depth previous cs depth' last) (rest : List Char) :
    beforeDefault depth previous (cs ++ rest) = cs ++ beforeDefault depth' last rest := by
  induction h with
  | nil => rfl
  | @cons depth depth' previous last c cs hmark _ ih =>
    have hpassed : ¬ (c == '=' && depth == 0) = true := by
      rw [Bool.and_eq_true, beq_iff_eq, beq_iff_eq]
      rintro ⟨rfl, hdepth⟩
      have hlevel : Text.nesting previous '=' = 0 := rfl
      exact hmark rfl (by rw [hdepth, hlevel]; rfl)
    rw [List.cons_append, beforeDefault, if_neg hpassed, ih]
    rfl

/-- What stands in front of an equals sign outside of brackets is the declaration. -/
theorem withoutDefault_of_text {declared : String} {gap rest : List Char} {last : Char}
    (hnormal : normalize declared.toList = declared.toList) (hwalk : Walks '=' 0 ' ' declared.toList 0 last)
    (hgap : ∀ c ∈ gap, c = ' ') (hrest : ∀ c ∈ rest.head?, c = '=') :
    withoutDefault (String.ofList (declared.toList ++ (gap ++ rest))) = declared := by
  obtain ⟨last', hspaces, -⟩ := @Text.walks_of_level '=' last 0 gap (Text.level_of_spaces hgap) fun hmem =>
    absurd (hgap '=' hmem) (by decide)
  have hstop : beforeDefault 0 last' rest = [] := by
    cases rest with
    | nil => rfl
    | cons c rest =>
      rw [hrest c rfl]
      rfl
  unfold withoutDefault
  rw [String.toList_ofList, beforeDefault_append hwalk, beforeDefault_append hspaces, hstop, List.append_nil,
    Text.normalize_append_blanks (Text.isBlank_of_spaces hgap), hnormal, String.ofList_toList]

/-! ## Names -/

theorem withoutConst_other {cs : List Char} (h : ¬ ['c', 'o', 'n', 's', 't', ' '] <+: cs) : withoutConst cs = cs := by
  unfold withoutConst
  split
  · exact absurd ⟨_, rfl⟩ h
  · rfl

/-- A character of a name: no blank, and none of the signs that end it. -/
def IsNameChar (c : Char) : Prop := isBlank c = false ∧ c ≠ ':' ∧ c ≠ '='

section
variable {name : String} {gap rest : List Char} (hname : ∀ c ∈ name.toList, IsNameChar c)
  (hne : name.toList ≠ []) (hgap : ∀ c ∈ gap, c = ' ') (hrest : ∀ c ∈ rest.head?, c = ':' ∨ c = '=')
include hname hne hgap hrest

/-- The name ends in front of the bounds and the default. -/
theorem before_of_text :
    String.ofList (trim (before '=' (before ':' (name.toList ++ (gap ++ rest))))) = name := by
  have hbefore : before '=' (before ':' (name.toList ++ (gap ++ rest))) = name.toList ++ gap := by
    unfold before
    rw [List.takeWhile_takeWhile, ← List.append_assoc]
    refine Lexeme.takeWhile_append_of_head ?_ ?_
    · intro c hc
      rcases List.mem_append.mp hc with hc | hc
      · obtain ⟨-, hcolon, hequals⟩ := hname c hc
        simp [hcolon, hequals]
      · rw [hgap c hc]
        decide
    · intro c hc
      rcases hrest c hc with rfl | rfl <;> decide
  rw [hbefore, Text.trim_append_spaces (fun c hc => (hname c hc).1) hne hgap, String.ofList_toList]

theorem parameterName_of_text (hconst : name ≠ "const")
    (hnormal : normalize (name.toList ++ (gap ++ rest)) = name.toList ++ (gap ++ rest)) :
    parameterName (String.ofList (name.toList ++ (gap ++ rest))) = name := by
  obtain ⟨hhead, hlast⟩ := Text.normalize_ends (name.toList ++ (gap ++ rest))
  rw [hnormal] at hhead hlast
  have hother : ¬ ['c', 'o', 'n', 's', 't', ' '] <+: name.toList ++ (gap ++ rest) := by
    -- Both start with as many characters of a name, but those of the keyword are another name.
    rintro ⟨more, hmore⟩
    have hname' : (name.toList ++ (gap ++ rest)).takeWhile (fun c => c != ' ' && c != ':' && c != '=') =
        name.toList := by
      refine Lexeme.takeWhile_append_of_head (fun c hc => ?_) fun c hc => ?_
      · obtain ⟨hblank, hcolon, hequals⟩ := hname c hc
        have hspace : c ≠ ' ' := by
          rintro rfl
          cases hblank
        simp [hspace, hcolon, hequals]
      · cases gap with
        | nil => rcases hrest c hc with rfl | rfl <;> decide
        | cons d gap =>
          have hspace : d = ' ' := hgap d (List.mem_cons_self ..)
          cases hc
          rw [hspace]
          decide
    rw [← hmore] at hname'
    exact hconst (String.toList_injective hname'.symm)
  unfold parameterName
  rw [String.toList_ofList, Text.trim_of_ends hhead hlast, withoutConst_other hother]
  exact before_of_text hname hne hgap hrest

/-- The keyword of a constant does not belong to its name. -/
theorem parameterName_of_const
    (hnormal : normalize ("const".toList ++ ' ' :: (name.toList ++ (gap ++ rest))) =
      "const".toList ++ ' ' :: (name.toList ++ (gap ++ rest))) :
    parameterName (String.ofList ("const".toList ++ ' ' :: (name.toList ++ (gap ++ rest)))) = name := by
  obtain ⟨hhead, hlast⟩ := Text.normalize_ends ("const".toList ++ ' ' :: (name.toList ++ (gap ++ rest)))
  rw [hnormal] at hhead hlast
  have hbehind : trim (name.toList ++ (gap ++ rest)) = name.toList ++ (gap ++ rest) := by
    refine Text.trim_of_ends (fun c hc => ?_) fun c hc => hlast c ?_
    · rw [List.head?_append_of_ne_nil _ hne] at hc
      exact (hname c (List.mem_of_mem_head? hc)).1
    · rw [List.getLast?_append_of_ne_nil _ (List.cons_ne_nil _ _), List.getLast?_cons, Option.mem_def.mp hc]
      rfl
  unfold parameterName
  rw [String.toList_ofList, Text.trim_of_ends hhead hlast]
  have hword : withoutConst ("const".toList ++ ' ' :: (name.toList ++ (gap ++ rest))) =
      trim (name.toList ++ (gap ++ rest)) := rfl
  rw [hword, hbehind]
  exact before_of_text hname hne hgap hrest

end

end Code

end Typestate
