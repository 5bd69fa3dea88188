import Typestate.Code.EntryApi
import Typestate.Proofs.MethodName

/-!
The names of payload accessors. A method is in the way of one padded stem at most (`le_length_of_taken`), so
there is always a free one. Neither accessor has the name of a method out of the node
(`nodup_accessorNames_append`), and both names can be those of methods as they stand (`accessorNames_word`).
For an ASCII name of the node they are ASCII identifiers (`isMethodName_accessorNames`).
-/

namespace Typestate.Code

/-- The stem of the accessors made of a node's own name, behind which `n` underscores stand. -/
def paddedStem (node : String) (n : Nat) : String :=
  "get_" ++ Identifier.snakeCase node ++ String.ofList (List.replicate n '_')

/-- No method has one of the two names that a stem gives. -/
def StemFree (methods : List String) (stem : String) : Prop :=
  stem ∉ methods ∧ stem ++ "_mut" ∉ methods

theorem paddedStem_injective (node : String) (i j : Nat) (h : paddedStem node i = paddedStem node j) :
    i = j := by
  have hpad := congrArg String.toList (append_left_injective _ h)
  rw [String.toList_ofList, String.toList_ofList] at hpad
  have hlength := congrArg List.length hpad
  rwa [List.length_replicate, List.length_replicate] at hlength

theorem contains_or_iff (methods : List String) (stem : String) :
    (!(methods.contains stem || methods.contains (stem ++ "_mut"))) = true ↔
      StemFree methods stem := by
  simp [StemFree]

/-- A name of one stem with the ending is no stem, whatever the number of underscores. -/
theorem paddedStem_ne_append (node : String) (i j : Nat) : paddedStem node i ≠ paddedStem node j ++ "_mut" := by
  intro h
  have hlist := congrArg String.toList h
  simp only [paddedStem, String.toList_append, String.toList_ofList, List.append_assoc,
    List.append_cancel_left_eq] at hlist
  have hletter : 'm' ∈ List.replicate i '_' := by
    rw [hlist]
    simp
  exact absurd (List.eq_of_mem_replicate hletter) (by decide)

/-- Each stem that is not free has a method of its own in the way. -/
theorem le_length_of_taken (node : String) {methods : List String} {n : Nat}
    (h : ∀ i < n, ¬ StemFree methods (paddedStem node i)) :
    n ≤ methods.length := by
  let obstacle (i : Nat) : String :=
    if paddedStem node i ∈ methods then paddedStem node i else paddedStem node i ++ "_mut"
  have hinj : ∀ i j, obstacle i = obstacle j → i = j := by
    intro i j hij
    by_cases hi : paddedStem node i ∈ methods <;> by_cases hj : paddedStem node j ∈ methods <;>
      simp only [obstacle, hi, hj, ↓reduceIte] at hij
    · exact paddedStem_injective node i j hij
    · exact absurd hij (paddedStem_ne_append node i j)
    · exact absurd hij.symm (paddedStem_ne_append node j i)
    · exact paddedStem_injective node i j (append_right_injective _ hij)
  have hmem : ∀ i < n, obstacle i ∈ methods := by
    intro i hi
    by_cases hstem : paddedStem node i ∈ methods
    · simp only [obstacle, hstem, ↓reduceIte]
    · have hending : paddedStem node i ++ "_mut" ∈ methods := by
        by_contra hno
        exact h i hi ⟨hstem, hno⟩
      simpa only [obstacle, hstem, ↓reduceIte] using hending
  have hnodup : ((List.range n).map obstacle).Nodup :=
    List.nodup_range.map_on fun i _ j _ hij => hinj i j hij
  have hsub : (List.range n).map obstacle ⊆ methods := by
    intro name hname
    obtain ⟨i, hi, rfl⟩ := List.mem_map.mp hname
    exact hmem i (List.mem_range.mp hi)
  have hlength := (hnodup.subperm hsub).length_le
  rwa [List.length_map, List.length_range] at hlength

/-- As many underscores as there are methods are enough. -/
theorem stemFree_firstFree (node : String) (methods : List String) :
    StemFree methods (paddedStem node (firstFree
      (fun n => !(methods.contains (paddedStem node n) ||
        methods.contains (paddedStem node n ++ "_mut")))
      (2 * methods.length) 0)) := by
  rcases firstFree_isFree_or (fun n => !(methods.contains (paddedStem node n) ||
    methods.contains (paddedStem node n ++ "_mut"))) (2 * methods.length) 0 with hfree | hnone
  · exact (contains_or_iff _ _).mp hfree
  · exfalso
    have htaken : ∀ i < 2 * methods.length + 1, ¬ StemFree methods (paddedStem node i) := by
      intro i hi hstem
      have hblocked := hnone i (Nat.le_of_lt_succ hi)
      rw [Nat.zero_add, (contains_or_iff methods (paddedStem node i)).mpr hstem] at hblocked
      cases hblocked
    have hlength := le_length_of_taken node htaken
    omega

/-- The stem is `get`, or else made of the node's name; in both cases it is free. -/
theorem accessorNames_eq (node : String) (methods : List String) :
    ∃ stem, accessorNames node methods = ⟨stem, stem ++ "_mut"⟩ ∧ StemFree methods stem ∧
      (stem = "get" ∨ ∃ n, stem = paddedStem node n) := by
  unfold accessorNames
  dsimp only
  split
  · next hget => exact ⟨"get", rfl, (contains_or_iff _ _).mp hget, Or.inl rfl⟩
  · exact ⟨_, rfl, stemFree_firstFree node methods, Or.inr ⟨_, rfl⟩⟩

/-- The names of the accessors, in order. -/
def AccessorNames.toList (names : AccessorNames) : List String := [names.get, names.getMut]

/-- **Freshness.** The accessors and the methods out of a node have different names, if the methods
have. -/
theorem nodup_accessorNames_append (node : String) {methods : List String} (h : methods.Nodup) :
    ((accessorNames node methods).toList ++ methods).Nodup := by
  obtain ⟨stem, hnames, ⟨hget, hmut⟩, -⟩ := accessorNames_eq node methods
  have hne : stem ≠ stem ++ "_mut" := by
    intro he
    have hlength := congrArg String.length he
    rw [String.length_append] at hlength
    exact absurd hlength (by simp)
  rw [hnames, AccessorNames.toList]
  simp [h, hget, hmut, hne]

theorem paddedStem_word {node : String} (hnode : Identifier.IsWord node) (n : Nat) :
    '#' ∉ (paddedStem node n).toList ∧ '_' ∈ (paddedStem node n).toList ∧
      2 ≤ (paddedStem node n).length := by
  unfold paddedStem
  have hpad : '#' ∉ (String.ofList (List.replicate n '_')).toList := by
    rw [String.toList_ofList]
    intro h
    exact absurd (List.eq_of_mem_replicate h) (by decide)
  have hget : '#' ∉ "get_".toList ∧ '_' ∈ "get_".toList := by decide
  have hstem := Identifier.not_mem_append hget.1 (Identifier.not_mem_snakeCase hnode)
  refine ⟨Identifier.not_mem_append hstem hpad, ?_, ?_⟩
  · rw [String.toList_append, String.toList_append]
    exact List.mem_append_left _ (List.mem_append_left _ hget.2)
  · have hlength : "get_".length = 4 := rfl
    rw [String.length_append, String.length_append, hlength]
    omega

/-- The accessors of a node have names without a `#` that are no keywords. -/
theorem accessorNames_word {node : String} (hnode : Identifier.IsWord node) (methods : List String) :
    ∀ name ∈ (accessorNames node methods).toList, '#' ∉ name.toList ∧ Identifier.Usable name := by
  obtain ⟨stem, hnames, -, rfl | ⟨n, rfl⟩⟩ := accessorNames_eq node methods
  · rw [hnames]
    have hget : '#' ∉ "get".toList ∧ "get" ∉ Identifier.keywords ∧ "get" ∉ Identifier.neverRaw := by
      decide
    have hmut : '#' ∉ "get_mut".toList ∧ "get_mut" ∉ Identifier.keywords ∧
        "get_mut" ∉ Identifier.neverRaw := by decide
    intro name hname
    rcases List.mem_cons.mp hname with rfl | hname
    · exact hget
    · rw [List.mem_singleton.mp hname]
      exact hmut
  · rw [hnames]
    obtain ⟨hhash, hunderscore, hlength⟩ := paddedStem_word hnode n
    have hmut : '#' ∉ "_mut".toList := by decide
    intro name hname
    rcases List.mem_cons.mp hname with rfl | hname
    · exact ⟨hhash, Identifier.usable_of_underscore hunderscore hlength⟩
    · rw [List.mem_singleton.mp hname]
      refine ⟨Identifier.not_mem_append hhash hmut, Identifier.usable_of_underscore ?_ ?_⟩
      · rw [String.toList_append]
        exact List.mem_append_left _ hunderscore
      · rw [String.length_append]
        omega

theorem isPlainWord_paddedStem {node : String} (hnode : Identifier.IsAsciiName node) (n : Nat) :
    Identifier.IsPlainWord (paddedStem node n).toList := by
  have hget : Identifier.IsPlainWord "get_".toList :=
    .cons (by decide) (List.all_eq_true.mp (by decide))
  have hsnake := hnode.snakeCase.forall_mem fun _ => Identifier.isPlainChar_of_isPlainStart
  have hpad : ∀ c ∈ (String.ofList (List.replicate n '_')).toList, Identifier.isPlainChar c = true := by
    rw [String.toList_ofList]
    intro c hc
    rw [List.eq_of_mem_replicate hc]
    decide
  unfold paddedStem
  rw [String.toList_append, String.toList_append]
  exact (hget.append hsnake).append hpad

/-- If the node's name is written in ASCII, the accessors have names that a method can have. -/
theorem isMethodName_accessorNames {node : String} (hnode : Identifier.IsAsciiName node)
    (methods : List String) :
    ∀ name ∈ (accessorNames node methods).toList, Identifier.IsMethodName name := by
  have hwords := accessorNames_word hnode.isName.isWord methods
  obtain ⟨stem, hnames, -, hstem⟩ := accessorNames_eq node methods
  have hplain : Identifier.IsPlainWord stem.toList := by
    rcases hstem with rfl | ⟨n, rfl⟩
    · exact .cons (by decide) (List.all_eq_true.mp (by decide))
    · exact isPlainWord_paddedStem hnode n
  have hmut : Identifier.IsPlainWord (stem ++ "_mut").toList := by
    rw [String.toList_append]
    exact hplain.append (List.all_eq_true.mp (by decide))
  rw [hnames] at hwords ⊢
  obtain ⟨⟨-, hget⟩, hrest⟩ := List.forall_mem_cons.mp hwords
  obtain ⟨-, hgetMut⟩ := List.forall_mem_singleton.mp hrest
  exact List.forall_mem_cons.mpr ⟨Identifier.isMethodName_of_usable hplain hget,
    List.forall_mem_singleton.mpr (Identifier.isMethodName_of_usable hmut hgetMut)⟩

end Typestate.Code
