import Mathlib.Data.List.TakeWhile
import Typestate.Proofs.Text.Squeeze
import Typestate.Text.Fields

/-!
Taking a text apart at a character, and putting the parts together again with the character between
(`fields_intercalate`, `intercalate_pieces`).
-/

namespace Typestate.Text

variable {sep : Char}

theorem fields_of_not_mem {cs : List Char} (h : sep ∉ cs) : fields sep cs = [cs] := by
  induction cs with
  | nil => rfl
  | cons c cs ih =>
    obtain ⟨hc, hcs⟩ := not_or.mp (mt List.mem_cons.mpr h)
    rw [fields, if_neg (by simpa using Ne.symm hc), ih hcs, extendFirst]

theorem fields_append {cs : List Char} (h : sep ∉ cs) (rest : List Char) :
    fields sep (cs ++ sep :: rest) = cs :: fields sep rest := by
  induction cs with
  | nil => rw [List.nil_append, fields, if_pos (beq_self_eq_true sep)]
  | cons c cs ih =>
    obtain ⟨hc, hcs⟩ := not_or.mp (mt List.mem_cons.mpr h)
    rw [List.cons_append, fields, if_neg (by simpa using Ne.symm hc), ih hcs, extendFirst]

/-- **Fields.** Texts without the separator, put together with it between them, are the fields of the whole. -/
theorem fields_intercalate {texts : List (List Char)} (hne : texts ≠ []) (h : ∀ text ∈ texts, sep ∉ text) :
    fields sep (List.intercalate [sep] texts) = texts := by
  induction texts with
  | nil => exact absurd rfl hne
  | cons text texts ih =>
    obtain ⟨htext, htexts⟩ := List.forall_mem_cons.mp h
    cases texts with
    | nil => rw [List.intercalate_singleton, fields_of_not_mem htext]
    | cons text' texts =>
      rw [List.intercalate_cons_cons, List.append_assoc, List.singleton_append, fields_append htext,
        ih (List.cons_ne_nil _ _) htexts]

theorem not_mem_of_mem_fields {part : List Char} (cs : List Char) (h : part ∈ fields sep cs) :
    sep ∉ part := by
  induction cs generalizing part with
  | nil =>
    rw [List.mem_singleton.mp h]
    exact List.not_mem_nil
  | cons c cs ih =>
    rw [fields] at h
    split at h
    · rcases List.mem_cons.mp h with rfl | h
      · exact List.not_mem_nil
      · exact ih h
    · next hc =>
      have hne : sep ≠ c := fun hsame => hc (beq_iff_eq.mpr hsame.symm)
      rw [extendFirst.eq_def] at h
      split at h
      · rw [List.mem_singleton.mp h]
        exact fun hmem => hne (List.mem_singleton.mp hmem)
      · next first rest hfields =>
        rw [hfields] at ih
        rcases List.mem_cons.mp h with rfl | h
        · exact fun hmem => (List.mem_cons.mp hmem).elim hne (ih (List.mem_cons_self ..))
        · exact ih (List.mem_cons_of_mem _ h)

theorem fields_ne_nil (cs : List Char) : fields sep cs ≠ [] := by
  cases cs with
  | nil => exact List.cons_ne_nil _ _
  | cons c cs =>
    rw [fields]
    split
    · exact List.cons_ne_nil _ _
    · rw [extendFirst.eq_def]
      split <;> exact List.cons_ne_nil _ _

/-- A character that is no separator is put in front of the first field. -/
theorem fields_cons {c : Char} (hc : c ≠ sep) (cs : List Char) :
    ∃ field others, fields sep cs = field :: others ∧ fields sep (c :: cs) = (c :: field) :: others := by
  obtain ⟨field, others, hfields⟩ := List.exists_cons_of_ne_nil (fields_ne_nil cs : fields sep cs ≠ [])
  refine ⟨field, others, hfields, ?_⟩
  rw [fields, if_neg (by simpa using hc), hfields]
  rfl

/-- A character that is no separator stands in a field. -/
theorem exists_field_of_mem {c : Char} (hc : c ≠ sep) {cs : List Char} (h : c ∈ cs) :
    ∃ field ∈ fields sep cs, c ∈ field := by
  induction cs with
  | nil => cases h
  | cons d cs ih =>
    by_cases hd : d = sep
    · subst hd
      rw [fields, if_pos (beq_self_eq_true d)]
      obtain ⟨field, hfield, hmem⟩ := ih ((List.mem_cons.mp h).resolve_left hc)
      exact ⟨field, List.mem_cons_of_mem _ hfield, hmem⟩
    · obtain ⟨first, others, hfields, hcons⟩ := fields_cons hd cs
      rw [hcons]
      rw [hfields] at ih
      rcases List.mem_cons.mp h with rfl | h
      · exact ⟨_, List.mem_cons_self, List.mem_cons_self⟩
      · obtain ⟨field, hfield, hmem⟩ := ih h
        rcases List.mem_cons.mp hfield with rfl | hfield
        · exact ⟨_, List.mem_cons_self, List.mem_cons_of_mem _ hmem⟩
        · exact ⟨field, List.mem_cons_of_mem _ hfield, hmem⟩

theorem intercalate_fields (cs : List Char) : List.intercalate [sep] (fields sep cs) = cs := by
  induction cs with
  | nil => rfl
  | cons c cs ih =>
    rw [fields]
    split
    · next hc =>
      rw [List.intercalate_cons_of_ne_nil (fields_ne_nil cs), ih, beq_iff_eq.mp hc]
      rfl
    · rw [intercalate_extendFirst, ih]

/-- A separator stands between the fields of what is in front of it and those of what is behind it. -/
theorem fields_separator (cs rest : List Char) :
    fields sep (cs ++ sep :: rest) = fields sep cs ++ fields sep rest := by
  induction cs with
  | nil => simp [fields]
  | cons c cs ih =>
    rw [List.cons_append, fields, fields, ih]
    split
    · rfl
    · obtain ⟨field, others, hfields⟩ := List.exists_cons_of_ne_nil (fields_ne_nil cs : fields sep cs ≠ [])
      rw [hfields]
      rfl

theorem length_fields (cs : List Char) : (fields sep cs).length = cs.count sep + 1 := by
  induction cs with
  | nil => rfl
  | cons c cs ih =>
    rw [fields]
    split
    · next hc => rw [List.length_cons, ih, beq_iff_eq.mp hc, List.count_cons_self]
    · next hc =>
      obtain ⟨field, others, hfields⟩ := List.exists_cons_of_ne_nil (fields_ne_nil cs : fields sep cs ≠ [])
      rw [List.count_cons_of_ne (by simpa using hc), ← ih, hfields]
      rfl

/-- A text without the separator begins the first field of whatever it is put in front of. -/
theorem head?_fields_append {cs : List Char} (h : sep ∉ cs) (rest : List Char) :
    ∃ field, (fields sep (cs ++ rest)).head? = some (cs ++ field) := by
  induction cs with
  | nil =>
    obtain ⟨field, others, hfields⟩ := List.exists_cons_of_ne_nil (fields_ne_nil rest : fields sep rest ≠ [])
    exact ⟨field, by rw [List.nil_append, hfields]; rfl⟩
  | cons c cs ih =>
    obtain ⟨hc, hcs⟩ := not_or.mp (mt List.mem_cons.mpr h)
    obtain ⟨field, hfield⟩ := ih hcs
    obtain ⟨others, hfields⟩ := List.head?_eq_some_iff.mp hfield
    exact ⟨field, by rw [List.cons_append, fields, if_neg (by simpa using Ne.symm hc), hfields]; rfl⟩

/-- The field behind as many separators as there are in the front of a text begins with what is behind the
last of them. -/
theorem getElem?_fields_count (sep : Char) (front back : List Char) :
    ∃ field, (fields sep (front ++ back))[front.count sep]? =
      some ((front.reverse.takeWhile (· != sep)).reverse ++ field) := by
  have hsplit := List.takeWhile_append_dropWhile (p := (· != sep)) (l := front.reverse)
  have hbehind : sep ∉ (front.reverse.takeWhile (· != sep)).reverse := fun hmem => by
    simpa using List.mem_takeWhile_imp (List.mem_reverse.mp hmem)
  obtain ⟨field, hfield⟩ := head?_fields_append hbehind back
  rw [List.head?_eq_getElem?] at hfield
  refine ⟨field, ?_⟩
  generalize front.reverse.takeWhile (· != sep) = behind at hsplit hbehind hfield ⊢
  cases hrest : front.reverse.dropWhile (· != sep) with
  | nil =>
    rw [hrest, List.append_nil] at hsplit
    rw [← List.reverse_eq_iff.mpr hsplit, List.count_eq_zero.mpr hbehind]
    exact hfield
  | cons d before =>
    have hd := List.head?_dropWhile_not (· != sep) front.reverse
    rw [hrest] at hd
    obtain rfl : d = sep := by simpa using hd
    rw [hrest] at hsplit
    have hfront : front = before.reverse ++ d :: behind.reverse := by
      rw [← List.reverse_reverse front, ← hsplit, List.reverse_append, List.reverse_cons, List.append_assoc]
      rfl
    rw [hfront, List.append_assoc, List.cons_append, fields_separator, List.count_append,
      List.count_cons_self, List.count_eq_zero.mpr hbehind,
      List.getElem?_append_right (length_fields before.reverse).le, length_fields, Nat.sub_self]
    exact hfield

section
variable {depth : Int} {previous : Char}

theorem pieces_ne_nil {isSeparator : Char → Bool} (cs : List Char) :
    pieces isSeparator depth previous cs ≠ [] := by
  cases cs with
  | nil => exact List.cons_ne_nil _ _
  | cons c cs =>
    unfold pieces
    dsimp only
    split
    · exact List.cons_ne_nil _ _
    · rw [extendFirst.eq_def]
      split <;> exact List.cons_ne_nil _ _

/-- **Pieces.** The pieces of a text, put together with the separator between them, are the text. -/
theorem intercalate_pieces (cs : List Char) :
    List.intercalate [sep] (pieces (· == sep) depth previous cs) = cs := by
  induction cs generalizing depth previous with
  | nil => rfl
  | cons c cs ih =>
    unfold pieces
    dsimp only
    split
    · next hsep =>
      obtain ⟨hc, -⟩ := Bool.and_eq_true_iff.mp hsep
      rw [List.intercalate_cons_of_ne_nil (pieces_ne_nil cs), ih, beq_iff_eq.mp hc]
      rfl
    · rw [intercalate_extendFirst, ih]

end

/-! ## Lines -/

theorem lines_unlines {ls : List String} (hne : ls ≠ []) (h : ∀ l ∈ ls, '\n' ∉ l.toList) :
    lines (unlines ls) = ls := by
  have hfields : fields '\n' (unlines ls).toList = ls.map String.toList := by
    rw [unlines, String.toList_intercalate]
    refine fields_intercalate (mt List.map_eq_nil_iff.mp hne) fun text htext => ?_
    obtain ⟨l, hl, rfl⟩ := List.mem_map.mp htext
    exact h l hl
  rw [lines, hfields, List.map_map]
  exact List.map_id'' (fun l => String.ofList_toList) ls

theorem unlines_lines (s : String) : unlines (lines s) = s := by
  refine String.toList_injective ?_
  rw [unlines, lines, String.toList_intercalate, List.map_map]
  have hid : String.toList ∘ String.ofList = id := funext fun cs => String.toList_ofList
  rw [hid, List.map_id]
  exact intercalate_fields s.toList

theorem not_mem_of_mem_lines {s l : String} (h : l ∈ lines s) : '\n' ∉ l.toList := by
  obtain ⟨field, hfield, rfl⟩ := List.mem_map.mp h
  rw [String.toList_ofList]
  exact not_mem_of_mem_fields _ hfield

theorem lines_of_not_mem {s : String} (h : '\n' ∉ s.toList) : lines s = [s] := by
  rw [lines, fields_of_not_mem h, List.map_singleton, String.ofList_toList]

theorem length_lines (s : String) : (lines s).length = s.toList.count '\n' + 1 := by
  rw [lines, List.length_map, length_fields]

/-- The lines of some texts that end with a line feed each. Behind the last line feed there is an empty line. -/
theorem lines_join (texts : List String) :
    lines (String.join (texts.map (· ++ "\n"))) = texts.flatMap lines ++ [""] := by
  induction texts with
  | nil => rfl
  | cons s texts ih =>
    have hbreak : "\n".toList = ['\n'] := rfl
    rw [List.map_cons, String.join_cons, lines, String.toList_append, String.toList_append, hbreak, List.append_assoc,
      List.singleton_append, fields_separator, List.map_append, List.flatMap_cons, List.append_assoc, ← ih]
    rfl

theorem length_le_flatMap_lines (texts : List String) : texts.length ≤ (texts.flatMap lines).length := by
  induction texts with
  | nil => exact Nat.le_refl _
  | cons s texts ih =>
    have hlines := length_lines s
    rw [List.flatMap_cons, List.length_append, List.length_cons]
    omega

/-- Texts that have no more lines than there are texts are lines. -/
theorem not_mem_of_length_flatMap_lines {texts : List String}
    (h : (texts.flatMap lines).length = texts.length) : ∀ s ∈ texts, '\n' ∉ s.toList := by
  induction texts with
  | nil => exact List.forall_mem_nil _
  | cons s texts ih =>
    have hlines := length_lines s
    have hmore := length_le_flatMap_lines texts
    rw [List.flatMap_cons, List.length_append, List.length_cons] at h
    exact List.forall_mem_cons.mpr ⟨List.count_eq_zero.mp (by omega), ih (by omega)⟩

/-- The lines of some texts are given ones, as many as there are texts, if and only if the texts are these lines. -/
theorem flatMap_lines_eq_iff {texts ls : List String} (hlength : texts.length = ls.length) :
    texts.flatMap lines = ls ↔ (∀ s ∈ texts, '\n' ∉ s.toList) ∧ texts = ls := by
  have hself : (∀ s ∈ texts, '\n' ∉ s.toList) → texts.flatMap lines = texts := fun h =>
    (List.flatMap_congr fun s hs => lines_of_not_mem (h s hs)).trans (List.flatMap_singleton' texts)
  constructor
  · intro h
    have hnone := not_mem_of_length_flatMap_lines ((congrArg List.length h).trans hlength.symm)
    exact ⟨hnone, (hself hnone).symm.trans h⟩
  · rintro ⟨hnone, heq⟩
    exact (hself hnone).trans heq

end Typestate.Text
