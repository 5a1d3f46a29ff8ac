/-
# Quorums of a finite set

Sets of a fixed size inside a finite universe overlap in at least twice their
size less the size of the universe, and two of them can be chosen to overlap in
no more. Together the two facts say exactly which quorum sizes make any two
quorums share an element outside a small set of faulty ones.
-/

import Mathlib.Data.Finset.Card

namespace Blockmania.Math

variable {α : Type} [DecidableEq α] {U F A B : Finset α}

/-- Two subsets overlap in at least what their sizes exceed the universe by. -/
theorem card_add_card_le (hA : A ⊆ U) (hB : B ⊆ U) :
    A.card + B.card ≤ (A ∩ B).card + U.card := by
  have hunion : (A ∪ B).card ≤ U.card := Finset.card_le_card (Finset.union_subset hA hB)
  have hsum := Finset.card_union_add_card_inter A B
  omega

/-- Two subsets that together exceed the universe by more than the faulty
elements share one that is not faulty. -/
theorem exists_mem_inter_not_mem (hA : A ⊆ U) (hB : B ⊆ U)
    (hlarge : U.card + F.card < A.card + B.card) : ∃ x ∈ A, x ∈ B ∧ x ∉ F := by
  have hinter : F.card < (A ∩ B).card := by
    have := card_add_card_le hA hB
    omega
  obtain ⟨x, hx, hxF⟩ := Finset.exists_mem_notMem_of_card_lt_card hinter
  obtain ⟨hxA, hxB⟩ := Finset.mem_inter.mp hx
  exact ⟨x, hxA, hxB, hxF⟩

/-- Two subsets of a given size that overlap as little as their size allows. -/
theorem exists_card_inter_eq {q : Nat} (hq : q ≤ U.card) :
    ∃ A ⊆ U, ∃ B ⊆ U, A.card = q ∧ B.card = q ∧ (A ∩ B).card = 2 * q - U.card := by
  obtain ⟨A, hA, hAcard⟩ := Finset.exists_subset_card_eq hq
  have hrest : (U \ A).card = U.card - q := by
    rw [Finset.card_sdiff_of_subset hA, hAcard]
  rcases le_total q (U.card - q) with hsmall | hlarge
  · -- there is room for a second subset beside the first
    obtain ⟨B, hB, hBcard⟩ := Finset.exists_subset_card_eq (hrest ▸ hsmall)
    have hdisjoint : A ∩ B = ∅ :=
      Finset.disjoint_iff_inter_eq_empty.mp (Finset.disjoint_sdiff.mono_right hB)
    refine ⟨A, hA, B, hB.trans Finset.sdiff_subset, hAcard, hBcard, ?_⟩
    rw [hdisjoint, Finset.card_empty]
    omega
  · -- the second subset takes all the room and completes itself from the first
    obtain ⟨B, hsub, hB, hBcard⟩ :=
      Finset.exists_subsuperset_card_eq Finset.sdiff_subset (hrest ▸ hlarge) hq
    refine ⟨A, hA, B, hB, hAcard, hBcard, ?_⟩
    have hunion : A ∪ B = U :=
      (Finset.union_subset hA hB).antisymm fun x hx => by
        by_cases hxA : x ∈ A
        · exact Finset.mem_union_left _ hxA
        · exact Finset.mem_union_right _ (hsub (Finset.mem_sdiff.mpr ⟨hx, hxA⟩))
    have hsum := Finset.card_union_add_card_inter A B
    rw [hunion] at hsum
    omega

end Blockmania.Math
