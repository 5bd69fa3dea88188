import Mathlib.Data.List.Perm.Subperm
import Mathlib.Order.Bounds.Defs
import Typestate.Graph.Draft
import Typestate.Proofs.Identifier

/-!
The search for a free number. If each number that is not free is blocked by a different one of some
obstacles, as many steps as there are obstacles reach a free number (`firstFree_isFree`). So a numbered
name is never one of the names in use (`numbered_not_mem`), and its number is the least from two on for
which that holds (`numbered_least`).
-/

namespace Typestate

/-- The search ends at a free number, unless no number within its reach is free. -/
theorem firstFree_isFree_or (free : Nat → Bool) (steps n : Nat) :
    free (firstFree free steps n) = true ∨ ∀ i, i ≤ steps → free (n + i) = false := by
  induction steps generalizing n with
  | zero =>
    cases hn : free n with
    | true => exact Or.inl hn
    | false =>
      refine Or.inr fun i hi => ?_
      rw [Nat.le_zero.mp hi]
      exact hn
  | succ steps ih =>
    unfold firstFree
    cases hn : free n with
    | true => exact Or.inl hn
    | false =>
      rw [if_neg Bool.false_ne_true]
      refine (ih (n + 1)).imp_right fun hnone i hi => ?_
      cases i with
      | zero => exact hn
      | succ i =>
        have := hnone i (by omega)
        rwa [Nat.add_assoc, Nat.add_comm 1 i] at this

theorem le_firstFree (free : Nat → Bool) (steps n : Nat) : n ≤ firstFree free steps n := by
  induction steps generalizing n with
  | zero => exact Nat.le_refl n
  | succ steps ih =>
    unfold firstFree
    split
    · exact Nat.le_refl n
    · exact Nat.le_of_succ_le (ih (n + 1))

/-- No number that the search passes is free. -/
theorem eq_false_of_lt_firstFree {free : Nat → Bool} {steps n i : Nat} (hn : n ≤ i)
    (hi : i < firstFree free steps n) : free i = false := by
  induction steps generalizing n with
  | zero => exact absurd hn (Nat.not_le_of_lt hi)
  | succ steps ih =>
    unfold firstFree at hi
    split at hi
    · exact absurd hn (Nat.not_le_of_lt hi)
    · next hfree =>
      rcases Nat.eq_or_lt_of_le hn with rfl | hlt
      · exact Bool.eq_false_iff.mpr hfree
      · exact ih hlt hi

theorem firstFree_isFree {α : Type} (free : Nat → Bool) (obstacles : List α) (block : Nat → α)
    (hinj : ∀ i j, block i = block j → i = j)
    (hblock : ∀ i, free i = false → block i ∈ obstacles) (n : Nat) :
    free (firstFree free obstacles.length n) = true := by
  rcases firstFree_isFree_or free obstacles.length n with h | hnone
  · exact h
  · -- One more number than there are obstacles cannot all be blocked.
    exfalso
    have hnodup : ((List.range (obstacles.length + 1)).map fun i => block (n + i)).Nodup := by
      rw [List.Nodup, List.pairwise_map]
      refine List.Pairwise.imp ?_ List.nodup_range
      intro i j hij e
      exact hij (Nat.add_left_cancel (hinj _ _ e))
    have hsub : (List.range (obstacles.length + 1)).map (fun i => block (n + i)) ⊆ obstacles := by
      intro a ha
      obtain ⟨i, hi, rfl⟩ := List.mem_map.mp ha
      exact hblock _ (hnone i (by have := List.mem_range.mp hi; omega))
    have hlen := (hnodup.subperm hsub).length_le
    rw [List.length_map, List.length_range] at hlen
    omega

theorem toString_nat_injective (i j : Nat) (h : toString i = toString j) : i = j := by
  have hread : ∀ n : Nat, Nat.ofDigitChars 10 (toString n).toList 0 = n := by
    intro n
    rw [Nat.toString_eq_repr, Nat.toList_repr, Nat.ofDigitChars_ten_toDigits]
  rw [← hread i, h, hread j]

theorem append_left_injective (stem : String) {a b : String} (h : stem ++ a = stem ++ b) :
    a = b := by
  have hlist := congrArg String.toList h
  rw [String.toList_append, String.toList_append, List.append_cancel_left_eq] at hlist
  exact String.toList_injective hlist

theorem append_right_injective (ending : String) {a b : String} (h : a ++ ending = b ++ ending) :
    a = b := by
  have hlist := congrArg String.toList h
  rw [String.toList_append, String.toList_append, List.append_cancel_right_eq] at hlist
  exact String.toList_injective hlist

theorem exists_numbered (name : String) (used : List String) :
    ∃ n : Nat, numbered name used = Identifier.withoutRaw name ++ "_" ++ toString n := ⟨_, rfl⟩

/-- **Freshness.** A numbered name is none of the names in use. -/
theorem numbered_not_mem (name : String) (used : List String) : numbered name used ∉ used := by
  have hinj : ∀ i j : Nat, Identifier.withoutRaw name ++ "_" ++ toString i =
      Identifier.withoutRaw name ++ "_" ++ toString j → i = j := fun i j h =>
    toString_nat_injective i j (append_left_injective _ h)
  have hfree := firstFree_isFree
    (fun n => !used.contains (Identifier.withoutRaw name ++ "_" ++ toString n)) used _ hinj
    (fun i hi => by simpa using hi) 2
  rw [Bool.not_eq_true', List.contains_eq_mem, decide_eq_false_iff_not] at hfree
  exact hfree

/-- The name without its raw marker, with the given number. -/
def candidate (name : String) (n : Nat) : String := Identifier.withoutRaw name ++ "_" ++ toString n

/-- **Least numbers.** The search for a number ends, at the least one from two on that makes a name which
is not in use. -/
theorem numbered_least (name : String) (used : List String) :
    ∃ n, IsLeast {n | 2 ≤ n ∧ candidate name n ∉ used} n ∧ numbered name used = candidate name n := by
  refine ⟨_, ⟨⟨le_firstFree _ _ 2, numbered_not_mem name used⟩, fun i hi => ?_⟩, rfl⟩
  by_contra hlt
  have hblocked := eq_false_of_lt_firstFree hi.1 (Nat.lt_of_not_le hlt)
  rw [Bool.not_eq_false', List.contains_eq_mem, decide_eq_true_eq] at hblocked
  exact hi.2 hblocked

/-- A numbered word has no marker and is no keyword. -/
theorem numbered_word {name : String} (h : Identifier.IsWord name) (used : List String) :
    '#' ∉ (numbered name used).toList ∧ Identifier.Usable (numbered name used) := by
  obtain ⟨n, hn⟩ := exists_numbered name used
  have hdigits : '#' ∉ (toString n).toList := by
    rw [Nat.toString_eq_repr, Nat.toList_repr]
    intro hmem
    exact absurd (Nat.isDigit_of_mem_toDigits (by decide) (by decide) hmem) (by decide)
  have hstem : '#' ∉ (Identifier.withoutRaw name ++ "_").toList :=
    Identifier.not_mem_append (by rwa [Identifier.toList_withoutRaw]) (by decide)
  rw [hn]
  refine ⟨Identifier.not_mem_append hstem hdigits, Identifier.usable_of_underscore ?_ ?_⟩
  · simp [String.toList_append]
  · have hunderscore : "_".length = 1 := rfl
    have hpos : 0 < (toString n).length := by
      rw [← String.length_toList, Nat.toString_eq_repr, Nat.toList_repr]
      exact Nat.length_toDigits_pos
    rw [String.length_append, String.length_append, hunderscore]
    omega

end Typestate
