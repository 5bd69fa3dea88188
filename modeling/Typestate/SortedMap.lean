/-!
Finite maps kept in the order of their keys, so that everything read off a map comes out sorted and
two maps with the same entries are the same list.
-/

namespace Typestate

variable {κ ν : Type} [Ord κ]

namespace SortedMap

/-- Put an entry at its place, instead of the entry of the same key if there is one. -/
def insertEntry (k : κ) (v : ν) : List (κ × ν) → List (κ × ν)
  | [] => [(k, v)]
  | e :: rest =>
    match compare k e.1 with
    | .lt => (k, v) :: e :: rest
    | .eq => (k, v) :: rest
    | .gt => e :: insertEntry k v rest

/-- The value at a key. -/
def lookupEntry (k : κ) : List (κ × ν) → Option ν
  | [] => none
  | e :: rest => if compare k e.1 = .eq then some e.2 else lookupEntry k rest

/-- The keys increase strictly. -/
def Increasing (entries : List (κ × ν)) : Prop :=
  entries.Pairwise fun a b => compare a.1 b.1 = .lt

theorem mem_insertEntry {k : κ} {v : ν} {e : κ × ν} {entries : List (κ × ν)}
    (h : e ∈ insertEntry k v entries) : e = (k, v) ∨ e ∈ entries := by
  induction entries with
  | nil => simpa [insertEntry] using h
  | cons a rest ih =>
    unfold insertEntry at h
    split at h
    · simpa using h
    · rcases List.mem_cons.1 h with h | h
      · exact Or.inl h
      · exact Or.inr (List.mem_cons_of_mem _ h)
    · rcases List.mem_cons.1 h with h | h
      · exact Or.inr (by simp [h])
      · exact (ih h).imp id (List.mem_cons_of_mem _)

theorem increasing_insertEntry [Std.TransOrd κ] [Std.LawfulEqOrd κ] (k : κ) (v : ν)
    {entries : List (κ × ν)} (h : Increasing entries) : Increasing (insertEntry k v entries) := by
  induction entries with
  | nil => simp [insertEntry, Increasing]
  | cons a rest ih =>
    have ha := (List.pairwise_cons.1 h).1
    have hr := (List.pairwise_cons.1 h).2
    unfold insertEntry
    split
    · next hlt =>
      refine List.pairwise_cons.2 ⟨fun b hb => ?_, h⟩
      rcases List.mem_cons.1 hb with rfl | hb
      · exact hlt
      · exact Std.TransCmp.lt_trans hlt (ha b hb)
    · next heq =>
      have : k = a.1 := Std.LawfulEqCmp.eq_of_compare heq
      exact List.pairwise_cons.2 ⟨fun b hb => by simpa [this] using ha b hb, hr⟩
    · next hgt =>
      refine List.pairwise_cons.2 ⟨fun b hb => ?_, ih hr⟩
      rcases mem_insertEntry hb with rfl | hb
      · exact Std.OrientedCmp.gt_iff_lt.1 hgt
      · exact ha b hb

theorem lookupEntry_insertEntry [Std.TransOrd κ] [Std.LawfulEqOrd κ] (k k' : κ) (v : ν)
    (entries : List (κ × ν)) :
    lookupEntry k' (insertEntry k v entries) =
      if compare k' k = .eq then some v else lookupEntry k' entries := by
  induction entries with
  | nil => simp [insertEntry, lookupEntry]
  | cons a rest ih =>
    unfold insertEntry
    split
    · simp [lookupEntry]
    · next heq =>
      have : k = a.1 := Std.LawfulEqCmp.eq_of_compare heq
      simp only [lookupEntry, this]
      split <;> rfl
    · next hgt =>
      simp only [lookupEntry, ih]
      by_cases h : compare k' a.1 = .eq
      · have : k' = a.1 := Std.LawfulEqCmp.eq_of_compare h
        have hne : compare k' k ≠ .eq := by
          rw [this, Std.OrientedCmp.gt_iff_lt.1 hgt]; simp
        simp [h, hne]
      · simp [h]

end SortedMap

/-- A finite map in the order of its keys. -/
structure SortedMap (κ ν : Type) [Ord κ] where
  entries : List (κ × ν)
  increasing : SortedMap.Increasing entries

namespace SortedMap

instance [DecidableEq κ] [DecidableEq ν] : DecidableEq (SortedMap κ ν) := fun a b =>
  decidable_of_iff (a.entries = b.entries)
    ⟨fun h => by cases a; cases b; cases h; rfl, fun h => h ▸ rfl⟩

def empty : SortedMap κ ν := ⟨[], List.Pairwise.nil⟩

instance : EmptyCollection (SortedMap κ ν) := ⟨empty⟩

/-- The value at a key. -/
def get? (d : SortedMap κ ν) (k : κ) : Option ν := lookupEntry k d.entries

def contains (d : SortedMap κ ν) (k : κ) : Bool := (d.get? k).isSome

/-- The keys in order. -/
def keys (d : SortedMap κ ν) : List κ := d.entries.map (·.1)

def size (d : SortedMap κ ν) : Nat := d.entries.length

variable [Std.TransOrd κ] [Std.LawfulEqOrd κ]

/-- The map with `v` at `k`. -/
def insert (d : SortedMap κ ν) (k : κ) (v : ν) : SortedMap κ ν :=
  ⟨insertEntry k v d.entries, increasing_insertEntry k v d.increasing⟩

/-- The map of the given entries; of two with the same key the later one counts. -/
def ofList (entries : List (κ × ν)) : SortedMap κ ν :=
  entries.foldl (fun d e => d.insert e.1 e.2) empty

theorem get?_insert (d : SortedMap κ ν) (k k' : κ) (v : ν) :
    (d.insert k v).get? k' = if compare k' k = .eq then some v else d.get? k' :=
  lookupEntry_insertEntry k k' v d.entries

end SortedMap

end Typestate
