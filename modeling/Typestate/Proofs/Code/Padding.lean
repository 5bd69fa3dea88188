import Typestate.Proofs.Code.Accessors

/-!
How the payload accessors of a node get their names. Underscores are put behind a stem as long as a method
is in the way of one of the two names that it gives. A method is in the way of one stem at most, so that ends
after no more rounds than there are methods (`le_length_of_taken`), and the names that it ends at are those
with the least number of underscores that are both free (`accessorNames_least`).
-/

namespace Typestate.Code

/-- Putting underscores behind a stem, one a round, comes to an end at a stem that is free. -/
inductive Pads (methods : List String) : (stem : String) → (rounds : Nat) → (final : String) → Prop
  | free {stem : String} (h : StemFree methods stem) : Pads methods stem 0 stem
  | taken {stem final : String} {rounds : Nat} (h : ¬ StemFree methods stem)
    (rest : Pads methods (stem ++ "_") rounds final) : Pads methods stem (rounds + 1) final

variable (node : String) (methods : List String)

theorem paddedStem_succ (n : Nat) : paddedStem node (n + 1) = paddedStem node n ++ "_" := by
  apply String.toList_injective
  simp [paddedStem, List.replicate_succ']

/-- From some number of underscores on, the rounds go through the stems that are not free. -/
theorem pads_of_taken {n k : Nat} (htaken : ∀ i < n, ¬ StemFree methods (paddedStem node (k + i)))
    (hfree : StemFree methods (paddedStem node (k + n))) :
    Pads methods (paddedStem node k) n (paddedStem node (k + n)) := by
  induction n generalizing k with
  | zero => exact .free hfree
  | succ n ih =>
    have hnext : ∀ i, k + (i + 1) = k + 1 + i := fun i => by omega
    refine .taken (htaken 0 (Nat.succ_pos n)) ?_
    rw [← paddedStem_succ, hnext n]
    refine ih (fun i hi => ?_) (hnext n ▸ hfree)
    exact hnext i ▸ htaken (i + 1) (Nat.succ_lt_succ hi)

/-- **Least padding.** For every node and all methods out of it the accessors are a stem and the stem with
its ending, and no method has either name. The stem is `get` if that gives two names that are free. If not,
it is the stem of the node's own name with the least number of underscores for which it gives two such names,
and putting underscores behind the stem comes to an end there, after no more rounds than there are methods. -/
theorem accessorNames_least : ∃ stem, accessorNames node methods = ⟨stem, stem ++ "_mut"⟩ ∧
    stem ∉ methods ∧ stem ++ "_mut" ∉ methods ∧
    (StemFree methods "get" ∧ stem = "get" ∨
      ¬ StemFree methods "get" ∧ ∃ n, stem = paddedStem node n ∧
        IsLeast {n | StemFree methods (paddedStem node n)} n ∧
        Pads methods ("get_" ++ Identifier.snakeCase node) n stem ∧ n ≤ methods.length) := by
  unfold accessorNames
  dsimp only
  split
  · next hget =>
    have hfree := (contains_or_iff _ _).mp hget
    exact ⟨"get", rfl, hfree.1, hfree.2, Or.inl ⟨hfree, rfl⟩⟩
  · next hget =>
    have hfree := stemFree_firstFree node methods
    have htaken : ∀ i < firstFree (fun n => !(methods.contains (paddedStem node n) ||
        methods.contains (paddedStem node n ++ "_mut"))) (2 * methods.length) 0,
        ¬ StemFree methods (paddedStem node i) := by
      intro i hi hstem
      have hblocked := eq_false_of_lt_firstFree (Nat.zero_le i) hi
      rw [(contains_or_iff methods (paddedStem node i)).mpr hstem] at hblocked
      cases hblocked
    have hstart : paddedStem node 0 = "get_" ++ Identifier.snakeCase node := String.append_empty
    have hpads := pads_of_taken node methods (k := 0)
      (fun i hi => by rw [Nat.zero_add]; exact htaken i hi) (by rw [Nat.zero_add]; exact hfree)
    rw [hstart, Nat.zero_add] at hpads
    refine ⟨_, rfl, hfree.1, hfree.2, Or.inr ⟨fun h => hget ((contains_or_iff _ _).mpr h), _, rfl,
      ⟨hfree, fun i hi => ?_⟩, hpads, le_length_of_taken node htaken⟩⟩
    by_contra hlt
    exact htaken i (Nat.lt_of_not_le hlt) hi

/-- Of two stems in the way, one is a method itself and the other with its ending. -/
example : accessorNames "r#Box" ["get_mut", "get_box", "get_box__mut", "go"] =
    ⟨"get_box__", "get_box___mut"⟩ := by decide +kernel

end Typestate.Code
