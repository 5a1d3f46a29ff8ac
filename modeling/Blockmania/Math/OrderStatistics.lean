/-
# Order statistics

The element of a given rank of a list is the one at that place once the list is
sorted. Adding an element moves the ones above it up by one place, so from the added
element on the element of a rank becomes the one of the rank below. The element of a rank
is below a bound if more elements than its rank are.
-/

import Mathlib.Data.List.GetD
import Mathlib.Data.List.Sort
import Mathlib.Order.MinMax

namespace Blockmania.Math

open List

variable {α : Type} [LinearOrder α] {l l' : List α}

/-- Sorting forgets the order of a list. -/
theorem insertionSort_of_perm (h : l.Perm l') :
    l.insertionSort (· ≤ ·) = l'.insertionSort (· ≤ ·) := by
  refine Perm.eq_of_pairwise (fun _ _ _ _ => le_antisymm) (pairwise_insertionSort _ l)
    (pairwise_insertionSort _ l') ?_
  exact (perm_insertionSort _ l).trans (h.trans (perm_insertionSort _ l').symm)

/-- Past the added element, the smallest element is the added one. -/
theorem max_getD_orderedInsert_zero (a d : α) (l : List α) :
    max a ((l.orderedInsert (· ≤ ·) a).getD 0 d) = a := by
  cases l with
  | nil => simp
  | cons b t =>
    by_cases hab : a ≤ b
    · rw [orderedInsert_cons_of_le _ t hab]
      simp
    · rw [orderedInsert_of_not_le _ t hab]
      simpa using (not_le.mp hab).le

/-- Past the added element, every element moves up by one place. -/
theorem max_getD_orderedInsert (a d : α) :
    ∀ {l : List α} {k : Nat}, l.Pairwise (· ≤ ·) → k < l.length →
      max a ((l.orderedInsert (· ≤ ·) a).getD (k + 1) d) = max a (l.getD k d) := by
  intro l
  induction l with
  | nil =>
    intro k _ hk
    cases hk
  | cons b t ih =>
    intro k hsorted hk
    obtain ⟨-, htail⟩ := pairwise_cons.mp hsorted
    by_cases hab : a ≤ b
    · rw [orderedInsert_cons_of_le _ t hab]
      rfl
    rw [orderedInsert_of_not_le _ t hab]
    cases k with
    | zero =>
      change max a ((t.orderedInsert (· ≤ ·) a).getD 0 d) = max a b
      rw [max_getD_orderedInsert_zero, max_eq_left (not_le.mp hab).le]
    | succ k => exact ih htail (Nat.lt_of_succ_lt_succ hk)

/-- In a sorted list, the elements up to a bound come first. -/
theorem getD_le_iff_of_sorted (d bound : α) :
    ∀ {l : List α} {k : Nat}, l.Pairwise (· ≤ ·) → k < l.length →
      (l.getD k d ≤ bound ↔ k < l.countP (· ≤ bound)) := by
  intro l
  induction l with
  | nil =>
    intro k _ hk
    cases hk
  | cons b t ih =>
    intro k hsorted hk
    obtain ⟨hleast, htail⟩ := pairwise_cons.mp hsorted
    by_cases hb : b ≤ bound
    · rw [countP_cons_of_pos (by simpa using hb)]
      cases k with
      | zero => simpa using hb
      | succ k =>
        rw [getD_cons_succ, ih htail (Nat.lt_of_succ_lt_succ hk), Nat.add_lt_add_iff_right]
    · have hnone : (b :: t).countP (· ≤ bound) = 0 := by
        rw [countP_eq_zero]
        intro c hc
        rcases mem_cons.mp hc with rfl | hc
        · simpa using hb
        · simpa using (not_le.mp hb).trans_le (hleast c hc)
      rw [hnone]
      refine iff_of_false (fun hle => hb (le_trans ?_ hle)) (Nat.not_lt_zero k)
      rw [getD_eq_getElem _ _ hk]
      rcases mem_cons.mp (getElem_mem hk) with heq | hmem
      · exact heq.ge
      · exact hleast _ hmem

/-- The element of a rank is below a bound if enough elements are. -/
theorem getD_insertionSort_le_iff (d bound : α) {k : Nat} (hk : k < l.length) :
    (l.insertionSort (· ≤ ·)).getD k d ≤ bound ↔ k < l.countP (· ≤ bound) := by
  rw [getD_le_iff_of_sorted d bound (pairwise_insertionSort _ l)
    (by rwa [length_insertionSort]), (perm_insertionSort _ l).countP_eq]

theorem foldl_max_le_iff (bound : α) : ∀ {l : List α} (a : α),
    l.foldl max a ≤ bound ↔ a ≤ bound ∧ ∀ b ∈ l, b ≤ bound := by
  intro l
  induction l with
  | nil => simp
  | cons b t ih =>
    intro a
    rw [foldl_cons, ih, max_le_iff, forall_mem_cons, and_assoc]

/-- The largest element of a sorted list is the last one. -/
theorem foldl_max_of_sorted (d : α) :
    ∀ {l : List α} {n : Nat} (a : α), l.Pairwise (· ≤ ·) → l.length = n + 1 →
      l.foldl max a = max a (l.getD n d) := by
  intro l
  induction l with
  | nil =>
    intro n a _ hlength
    cases hlength
  | cons b t ih =>
    intro n a hsorted hlength
    obtain ⟨hleast, htail⟩ := pairwise_cons.mp hsorted
    cases n with
    | zero =>
      obtain rfl : t = [] := length_eq_zero_iff.mp (Nat.succ.inj hlength)
      rfl
    | succ n =>
      have hlast : b ≤ t.getD n d := by
        have hn : n < t.length := by
          rw [length_cons] at hlength
          omega
        rw [getD_eq_getElem _ _ hn]
        exact hleast _ (getElem_mem hn)
      rw [foldl_cons, ih (max a b) htail (Nat.succ.inj hlength), getD_cons_succ, max_assoc,
        max_eq_right hlast]

end Blockmania.Math
