import Mathlib.Data.List.Chain
import Typestate.Unicode.Number

/-!
Classes of characters as runs of code points. A code point lies in boundaries if it lies in one of the runs
that they enclose, and every digit is a number (`isNumber_of_isDigit`).
-/

namespace Typestate

namespace Unicode

/-- The runs of code points that boundaries enclose: the first inside and the first outside again. -/
def runs : List Nat → List (Nat × Nat)
  | first :: past :: rest => (first, past) :: runs rest
  | _ => []

theorem exists_run {bs : List Nat} {n : Nat} (heven : bs.length % 2 = 0)
    (h : inBoundaries bs n = true) : ∃ r ∈ runs bs, r.1 ≤ n ∧ n < r.2 := by
  induction bs using runs.induct with
  | case1 first past rest ih =>
    have hrest : rest.length % 2 = 0 := by
      rw [List.length_cons, List.length_cons] at heven
      omega
    by_cases hfirst : n < first
    · simp [inBoundaries, hfirst] at h
    by_cases hpast : n < past
    · exact ⟨(first, past), List.mem_cons_self .., Nat.le_of_not_lt hfirst, hpast⟩
    · obtain ⟨r, hr, hn⟩ := ih hrest (by simpa [inBoundaries, hfirst, hpast] using h)
      exact ⟨r, List.mem_cons_of_mem _ hr, hn⟩
  | case2 bs hshort =>
    rcases bs with _ | ⟨first, _ | ⟨past, rest⟩⟩
    · cases h
    · cases heven
    · exact absurd rfl (hshort first past rest)

theorem mem_of_mem_runs {bs : List Nat} {r : Nat × Nat} (h : r ∈ runs bs) : r.1 ∈ bs := by
  induction bs using runs.induct with
  | case1 first past rest ih =>
    rcases List.mem_cons.mp h with rfl | h
    · exact List.mem_cons_self ..
    · exact List.mem_cons_of_mem _ (List.mem_cons_of_mem _ (ih h))
  | case2 bs hshort =>
    rw [runs] at h
    · cases h
    · exact hshort

theorem inBoundaries_of_run {bs : List Nat} {n : Nat} (hbs : bs.IsChain (· < ·)) {r : Nat × Nat}
    (hr : r ∈ runs bs) (hfirst : r.1 ≤ n) (hpast : n < r.2) : inBoundaries bs n = true := by
  rw [List.isChain_iff_pairwise] at hbs
  induction bs using runs.induct with
  | case1 first past rest ih =>
    obtain ⟨hall, hpairs⟩ := List.pairwise_cons.mp hbs
    obtain ⟨hlater, hrest⟩ := List.pairwise_cons.mp hpairs
    have hle := hall past (List.mem_cons_self ..)
    rcases List.mem_cons.mp hr with rfl | hr
    · simp [inBoundaries, Nat.not_lt.mpr hfirst, hpast]
    · have hbehind := hlater r.1 (mem_of_mem_runs hr)
      have hn : ¬ n < first ∧ ¬ n < past := by omega
      simp [inBoundaries, hn, ih hrest hr]
  | case2 bs hshort =>
    rw [runs] at hr
    · cases hr
    · exact hshort

theorem exists_numberRun {r : Nat × Nat} (hr : r ∈ runs digitBoundaries) :
    ∃ s ∈ runs numberBoundaries, s.1 ≤ r.1 ∧ r.2 ≤ s.2 := by
  have hall : ((runs digitBoundaries).all fun r =>
      (runs numberBoundaries).any fun s => Nat.ble s.1 r.1 && Nat.ble r.2 s.2) = true := by
    decide +kernel
  obtain ⟨s, hs, h⟩ := List.any_eq_true.mp (List.all_eq_true.mp hall r hr)
  rw [Bool.and_eq_true, Nat.ble_eq, Nat.ble_eq] at h
  exact ⟨s, hs, h⟩

theorem isChain_numberBoundaries : numberBoundaries.IsChain (· < ·) := by
  decide +kernel

/-- Every digit is a number. -/
theorem isNumber_of_isDigit {c : Char} (h : isDigit c = true) : isNumber c = true := by
  unfold isDigit at h
  unfold isNumber
  split
  · next hascii => rwa [if_pos hascii] at h
  · next hascii =>
    rw [if_neg hascii] at h
    obtain ⟨r, hr, hfirst, hpast⟩ := exists_run (by decide +kernel) h
    obtain ⟨s, hs, hbefore, hbehind⟩ := exists_numberRun hr
    exact inBoundaries_of_run isChain_numberBoundaries hs (hbefore.trans hfirst)
      (hpast.trans_le hbehind)

end Unicode

end Typestate
