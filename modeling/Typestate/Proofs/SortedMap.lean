import Mathlib.Data.List.Induction
import Typestate.SortedMap

/-!
The theory of sorted maps. A map is determined by its values at all keys (`ext_get?`), its entries are
exactly the pairs that it looks up (`mem_entries_iff`), and an insertion at a key that is present
replaces one entry in place (`entries_insert`).
-/

namespace Typestate.SortedMap

variable {κ ν : Type} [Ord κ]

/-! ## Looking up -/

theorem get?_empty (k : κ) : (empty : SortedMap κ ν).get? k = none := rfl

@[simp] theorem keys_empty : (empty : SortedMap κ ν).keys = [] := rfl

theorem size_eq_zero_iff (d : SortedMap κ ν) : d.size = 0 ↔ d.keys = [] := by
  simp [size, keys]

theorem nodup_keys [Std.OrientedOrd κ] (d : SortedMap κ ν) : d.keys.Nodup := by
  rw [keys, List.Nodup, List.pairwise_map]
  refine List.Pairwise.imp ?_ d.increasing
  intro a b hab e
  rw [e, Std.ReflOrd.compare_self] at hab
  exact absurd hab (by decide)

variable [Std.LawfulEqOrd κ]

theorem lookupEntry_eq_some_iff [Std.OrientedOrd κ] {entries : List (κ × ν)}
    (h : Increasing entries) (k : κ) (v : ν) :
    lookupEntry k entries = some v ↔ (k, v) ∈ entries := by
  induction entries with
  | nil => simp [lookupEntry]
  | cons e rest ih =>
    obtain ⟨hhead, hrest⟩ := List.pairwise_cons.mp h
    by_cases hk : compare k e.1 = .eq
    · have hke : k = e.1 := Std.LawfulEqCmp.eq_of_compare hk
      have hnot : (k, v) ∉ rest := by
        intro hmem
        have := hhead (k, v) hmem
        rw [hke, Std.ReflOrd.compare_self] at this
        exact absurd this (by decide)
      simp only [lookupEntry, hk, ↓reduceIte, List.mem_cons, hnot, or_false, Option.some.injEq]
      constructor
      · rintro rfl
        rw [hke]
      · intro he
        rw [← he]
    · have hne : (k, v) ≠ e := by
        rintro rfl
        exact hk Std.ReflOrd.compare_self
      simp [lookupEntry, hk, ih hrest, hne]

variable [Std.TransOrd κ]

theorem mem_entries_iff (d : SortedMap κ ν) (e : κ × ν) : e ∈ d.entries ↔ d.get? e.1 = some e.2 :=
  (lookupEntry_eq_some_iff d.increasing e.1 e.2).symm

theorem mem_keys_iff (d : SortedMap κ ν) (k : κ) : k ∈ d.keys ↔ ∃ v, d.get? k = some v := by
  simp only [keys, List.mem_map]
  constructor
  · rintro ⟨e, he, rfl⟩
    exact ⟨e.2, (mem_entries_iff d e).mp he⟩
  · rintro ⟨v, hv⟩
    exact ⟨(k, v), (mem_entries_iff d (k, v)).mpr hv, rfl⟩

theorem contains_iff (d : SortedMap κ ν) (k : κ) : d.contains k = true ↔ k ∈ d.keys := by
  rw [mem_keys_iff, contains, Option.isSome_iff_exists]

theorem get?_eq_none_iff (d : SortedMap κ ν) (k : κ) : d.get? k = none ↔ k ∉ d.keys := by
  rw [← contains_iff, contains]
  cases d.get? k <;> simp

/-- Lists in the order of their keys are equal if they have the same entries. -/
theorem eq_of_increasing {l l' : List (κ × ν)} (h : Increasing l) (h' : Increasing l')
    (hmem : ∀ e, e ∈ l ↔ e ∈ l') : l = l' := by
  have hne : ∀ a b : κ × ν, compare a.1 b.1 = .lt → a ≠ b := by
    rintro a b hab rfl
    rw [Std.ReflOrd.compare_self] at hab
    exact absurd hab (by decide)
  have hperm : l.Perm l' :=
    (List.perm_ext_iff_of_nodup (h.imp (hne _ _)) (h'.imp (hne _ _))).mpr hmem
  refine List.Perm.eq_of_pairwise (fun a b _ _ hab hba => ?_) h h' hperm
  exact absurd hba (Std.OrientedCmp.not_lt_of_lt hab)

/-- **Extensionality.** Maps that hold the same under every key are the same. -/
theorem ext_get? {d d' : SortedMap κ ν} (h : ∀ k, d.get? k = d'.get? k) : d = d' := by
  have heq : d.entries = d'.entries := by
    refine eq_of_increasing d.increasing d'.increasing fun e => ?_
    rw [mem_entries_iff, mem_entries_iff, h]
  cases d
  cases d'
  cases heq
  rfl

/-- Maps whose values at all keys are the same to `f` have the same entries to `f`. -/
theorem map_entries_eq {ν' : Type} {d d' : SortedMap κ ν} (f : ν → ν')
    (h : ∀ k, (d.get? k).map f = (d'.get? k).map f) :
    d.entries.map (fun e => (e.1, f e.2)) = d'.entries.map fun e => (e.1, f e.2) := by
  have hinc : ∀ d : SortedMap κ ν, Increasing (d.entries.map fun e => (e.1, f e.2)) :=
    fun d => List.pairwise_map.mpr d.increasing
  have hmem : ∀ (d : SortedMap κ ν) e, e ∈ d.entries.map (fun e => (e.1, f e.2)) ↔
      (d.get? e.1).map f = some e.2 := by
    rintro d ⟨k, v⟩
    simp only [List.mem_map, mem_entries_iff, Option.map_eq_some_iff, Prod.mk.injEq]
    constructor
    · rintro ⟨a, ha, rfl, rfl⟩
      exact ⟨a.2, ha, rfl⟩
    · rintro ⟨w, hw, rfl⟩
      exact ⟨(k, w), hw, rfl, rfl⟩
  refine eq_of_increasing (hinc d) (hinc d') fun e => ?_
  rw [hmem, hmem, h]

theorem keys_eq {d d' : SortedMap κ ν} (h : ∀ k, k ∈ d.keys ↔ k ∈ d'.keys) : d.keys = d'.keys := by
  have hunit : ∀ k, (d.get? k).map (fun _ => ()) = (d'.get? k).map fun _ => () := by
    intro k
    have hk := h k
    rw [← contains_iff, ← contains_iff, contains, contains] at hk
    cases hd : d.get? k <;> cases hd' : d'.get? k <;> simp [hd, hd'] at hk <;> rfl
  have hkeys := congrArg (List.map (·.1)) (map_entries_eq (fun _ => ()) hunit)
  rw [List.map_map, List.map_map] at hkeys
  exact hkeys

/-- Maps whose values at all keys are the same to some function have the same keys. -/
theorem keys_eq_of_map {ν' : Type} {d d' : SortedMap κ ν} {f : ν → ν'}
    (h : ∀ k, (d.get? k).map f = (d'.get? k).map f) : d.keys = d'.keys := by
  refine keys_eq fun k => ?_
  rw [← contains_iff, ← contains_iff, contains, contains, ← Option.isSome_map (f := f), h,
    Option.isSome_map]

/-! ## Inserting -/

theorem get?_insert_self (d : SortedMap κ ν) (k : κ) (v : ν) : (d.insert k v).get? k = some v := by
  simp [get?_insert]

theorem get?_insert_of_ne (d : SortedMap κ ν) {k k' : κ} (v : ν) (h : k' ≠ k) :
    (d.insert k v).get? k' = d.get? k' := by
  rw [get?_insert, if_neg]
  simpa using h

/-- The entries of a map with one more. -/
theorem get?_insert_iff {d : SortedMap κ ν} {k : κ} (h : k ∉ d.keys) (v : ν) (k' : κ) (v' : ν) :
    (d.insert k v).get? k' = some v' ↔ d.get? k' = some v' ∨ k = k' ∧ v = v' := by
  by_cases hk : k' = k
  · subst hk
    rw [get?_insert_self, (get?_eq_none_iff d k').mpr h]
    simp
  · rw [get?_insert_of_ne d v hk]
    simp [Ne.symm hk]

/-- What holds of all values still does after one is put in of which it holds. -/
theorem forall_get?_insert {d : SortedMap κ ν} {p : ν → Prop} (h : ∀ k v, d.get? k = some v → p v)
    (k : κ) {v : ν} (hv : p v) : ∀ k' v', (d.insert k v).get? k' = some v' → p v' := by
  intro k' v' hv'
  by_cases hk : k' = k
  · subst hk
    rw [get?_insert_self] at hv'
    exact Option.some.inj hv' ▸ hv
  · rw [get?_insert_of_ne _ _ hk] at hv'
    exact h k' v' hv'

theorem mem_keys_insert (d : SortedMap κ ν) (k k' : κ) (v : ν) :
    k' ∈ (d.insert k v).keys ↔ k' = k ∨ k' ∈ d.keys := by
  by_cases h : k' = k
  · subst h
    simp [mem_keys_iff, get?_insert_self]
  · simp [mem_keys_iff, get?_insert_of_ne d v h, h]

theorem insertEntry_of_mem [DecidableEq κ] {entries : List (κ × ν)} (hinc : Increasing entries)
    {k : κ} (v : ν) (h : k ∈ entries.map (·.1)) :
    insertEntry k v entries = entries.map fun e => if e.1 = k then (k, v) else e := by
  induction entries with
  | nil => simp at h
  | cons e rest ih =>
    obtain ⟨hhead, hrest⟩ := List.pairwise_cons.mp hinc
    -- A key that equals the first one, or comes before it, is none of those behind it.
    have hrest_ne : ∀ a ∈ rest, compare k e.1 ≠ .gt → a.1 ≠ k := by
      intro a ha hle hak
      have := hhead a ha
      rw [hak, ← Std.OrientedCmp.gt_iff_lt] at this
      exact hle this
    unfold insertEntry
    split
    · next hlt =>
      exfalso
      obtain ⟨a, ha, rfl⟩ := List.mem_map.mp h
      rcases List.mem_cons.mp ha with rfl | ha
      · rw [Std.ReflOrd.compare_self] at hlt
        exact absurd hlt (by decide)
      · exact hrest_ne a ha (by rw [hlt]; decide) rfl
    · next heq =>
      have hke : k = e.1 := Std.LawfulEqCmp.eq_of_compare heq
      have hid : rest.map (fun a => if a.1 = k then (k, v) else a) = rest := by
        rw [List.map_congr_left (g := id), List.map_id]
        intro a ha
        exact if_neg (hrest_ne a ha (by rw [heq]; decide))
      simp [hke ▸ hid, hke]
    · next hgt =>
      have hne : e.1 ≠ k := by
        rintro rfl
        rw [Std.ReflOrd.compare_self] at hgt
        exact absurd hgt (by decide)
      have hmem : k ∈ rest.map (·.1) := by
        rcases List.mem_cons.mp h with rfl | h
        · exact absurd rfl hne
        · exact h
      rw [ih hrest hmem, List.map_cons, if_neg hne]

theorem entries_insert [DecidableEq κ] (d : SortedMap κ ν) {k : κ} (v : ν) (h : k ∈ d.keys) :
    (d.insert k v).entries = d.entries.map fun e => if e.1 = k then (k, v) else e :=
  insertEntry_of_mem d.increasing v h

/-! ## Maps of lists -/

theorem ofList_append_singleton (l : List (κ × ν)) (e : κ × ν) :
    ofList (l ++ [e]) = (ofList l).insert e.1 e.2 := by
  simp [ofList, List.foldl_append]

theorem mem_keys_ofList (l : List (κ × ν)) (k : κ) :
    k ∈ (ofList l).keys ↔ k ∈ l.map (·.1) := by
  induction l using List.reverseRecOn with
  | nil => rfl
  | append_singleton l e ih =>
    rw [ofList_append_singleton, mem_keys_insert, ih, List.map_append, List.mem_append,
      List.map_singleton, List.mem_singleton, or_comm]

theorem get?_ofList {l : List (κ × ν)} (h : (l.map (·.1)).Nodup) (k : κ) (v : ν) :
    (ofList l).get? k = some v ↔ (k, v) ∈ l := by
  induction l using List.reverseRecOn with
  | nil => simp [ofList, get?_empty]
  | append_singleton l e ih =>
    rw [List.map_append, List.nodup_append] at h
    obtain ⟨hl, -, hdisjoint⟩ := h
    have hnew : e.1 ∉ (ofList l).keys := by
      rw [mem_keys_ofList]
      exact fun hmem => hdisjoint e.1 hmem e.1 (List.mem_singleton_self _) rfl
    rw [ofList_append_singleton, get?_insert_iff hnew, ih hl, List.mem_append, List.mem_singleton,
      Prod.ext_iff]
    exact or_congr_right (and_congr eq_comm eq_comm)

/-- The order of entries with different keys does not matter. -/
theorem ofList_eq_of_perm {l l' : List (κ × ν)} (hperm : l.Perm l') (h : (l.map (·.1)).Nodup) :
    ofList l = ofList l' := by
  have h' : (l'.map (·.1)).Nodup := (hperm.map _).nodup_iff.mp h
  apply ext_get?
  intro k
  apply Option.ext
  intro v
  rw [get?_ofList h, get?_ofList h', hperm.mem_iff]

end Typestate.SortedMap
