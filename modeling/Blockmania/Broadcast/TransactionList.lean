/-
# Sorting transactions

The transactions of a block are put in descending order of their fees, and of their
hashes where fees are equal. `sort.Slice` is not stable, so the order of a list is its
own only if no two different transactions tie. One hasher serves all comparisons; it is
reset after each use, and what a comparison returns depends on the two transactions
alone.
-/

import Mathlib.Data.Prod.Lex
import Mathlib.Order.RelClasses
import Blockmania.Storage.Badger

namespace Blockmania.Broadcast

open Storage

structure TransactionData where
  data : Bytes
  fee : Nat
  deriving DecidableEq, Repr

namespace TransactionList

/-- The `less` of `Sort`, with the hasher as the bytes that were written to it since
it was reset. `hash` is SHA-512/256. -/
def less (hash : Bytes → Hash) (hasher : Bytes) (x y : TransactionData) : Bool × Bytes :=
  if x.fee = y.fee then
    let hasher := hasher ++ x.data
    let xhash := hash hasher
    let hasher := [] ++ y.data
    let yhash := hash hasher
    (decide (yhash < xhash), [])
  else (decide (y.fee < x.fee), hasher)

/-- `Sort` with `slice` in the place of `sort.Slice`. The hasher is new at the first
comparison, and empty again after each (`less_snd`). -/
def sort (slice : (TransactionData → TransactionData → Bool) → List TransactionData →
    List TransactionData) (hash : Bytes → Hash) (t : List TransactionData) :
    List TransactionData :=
  slice (fun x y => (less hash [] x y).1) t

/-- `slice` sorts every list by every strict weak order. -/
def Sorts {α : Type} (slice : (α → α → Bool) → List α → List α) : Prop :=
  ∀ lt : α → α → Bool, IsStrictWeakOrder α (fun x y => lt x y = true) → ∀ l,
    (slice lt l).Perm l ∧ (slice lt l).Pairwise fun x y => lt y x = false

variable {hash : Bytes → Hash} {x y : TransactionData}

/-- What the comparison goes by. -/
def sortKey (hash : Bytes → Hash) (x : TransactionData) : Nat ×ₗ List Nat :=
  toLex (x.fee, Hash.code (hash x.data))

theorem less_fst_iff : (less hash [] x y).1 = true ↔ sortKey hash y < sortKey hash x := by
  rw [sortKey, sortKey, Prod.Lex.toLex_lt_toLex]
  dsimp only
  rw [code_lt_code_iff, less]
  by_cases h : x.fee = y.fee
  · simp [h]
  · simp [h, Ne.symm h]

theorem less_fst_eq_false_iff :
    (less hash [] y x).1 = false ↔ sortKey hash y ≤ sortKey hash x := by
  rw [← Bool.not_eq_true, less_fst_iff, not_lt]

/-- The comparison is a strict weak order: it is the order of a key, reversed. -/
theorem isStrictWeakOrder_less (hash : Bytes → Hash) :
    IsStrictWeakOrder TransactionData fun x y => (less hash [] x y).1 = true := by
  simp only [less_fst_iff]
  exact {
    irrefl := fun x => lt_irrefl (sortKey hash x)
    trans := fun _ _ _ hxy hyz => hyz.trans hxy
    incomp_trans := fun _ _ _ hxy hyz => by
      simp only [not_lt] at hxy hyz ⊢
      exact ⟨hxy.1.trans hyz.1, hyz.2.trans hxy.2⟩ }

theorem fee_and_hash_of_sortKey_le (h : sortKey hash y ≤ sortKey hash x) :
    y.fee ≤ x.fee ∧ (x.fee = y.fee → hash y.data ≤ hash x.data) := by
  rcases Prod.Lex.toLex_le_toLex.mp h with hfee | ⟨hfee, hcode⟩
  · exact ⟨hfee.le, fun heq => absurd heq hfee.ne'⟩
  · refine ⟨hfee.le, fun _ => List.not_lt.mp fun hlt => ?_⟩
    exact not_lt.mpr hcode (code_lt_code_iff.mpr hlt)

/-- Only equal transactions tie, if their data do not collide. -/
theorem eq_of_sortKey_eq (hinjective : hash x.data = hash y.data → x.data = y.data)
    (h : sortKey hash x = sortKey hash y) : x = y := by
  obtain ⟨hfee, hcode⟩ := Prod.mk.inj (toLex.injective h)
  cases x
  cases y
  cases hfee
  cases hinjective (Hash.code_injective hcode)
  rfl

/-- Merge sort sorts by every strict weak order. -/
theorem sorts_mergeSort (α : Type) :
    Sorts fun (lt : α → α → Bool) l => l.mergeSort fun x y => !lt y x := by
  intro lt hlt l
  refine ⟨List.mergeSort_perm _ _, ?_⟩
  have hpairwise := @List.pairwise_mergeSort _ (fun x y => !lt y x) ?_ ?_ l
  · exact hpairwise.imp fun h => by simpa using h
  · intro x y z hxy hyz
    simp only [Bool.not_eq_true', ← Bool.not_eq_true] at hxy hyz ⊢
    intro hzx
    -- Neither pair can be in order, so both tie, and then `z` and `x` do too.
    have hyz' : ¬ lt y z = true := fun h => hxy (hlt.trans _ _ _ h hzx)
    have hxy' : ¬ lt x y = true := fun h => hyz (hlt.trans _ _ _ hzx h)
    exact (hlt.incomp_trans z y x ⟨hyz, hyz'⟩ ⟨hxy, hxy'⟩).1 hzx
  · intro x y
    by_contra h
    simp only [Bool.or_eq_true, Bool.not_eq_true', not_or, Bool.not_eq_false] at h
    exact hlt.irrefl x (hlt.trans _ _ _ h.2 h.1)

/-- Sorting is canonical. A sorted list has the transactions of the given one, by
descending fees and, for equal fees, by descending hashes. It does not depend on the
order they were given in, unless two of them collide. -/
theorem sort_canonical {slice : (TransactionData → TransactionData → Bool) →
    List TransactionData → List TransactionData} (hslice : Sorts slice)
    (hash : Bytes → Hash) (t : List TransactionData) :
    (sort slice hash t).Perm t ∧
    (sort slice hash t).Pairwise
      (fun x y => y.fee ≤ x.fee ∧ (x.fee = y.fee → hash y.data ≤ hash x.data)) ∧
    ((∀ x ∈ t, ∀ y ∈ t, hash x.data = hash y.data → x.data = y.data) →
      ∀ t', t'.Perm t → sort slice hash t' = sort slice hash t) := by
  have hsorted := hslice _ (isStrictWeakOrder_less hash)
  simp only [less_fst_eq_false_iff] at hsorted
  refine ⟨(hsorted t).1, (hsorted t).2.imp fee_and_hash_of_sortKey_le, ?_⟩
  intro hinjective t' hperm
  have hperm' := ((hsorted t').1.trans hperm).trans (hsorted t).1.symm
  refine hperm'.eq_of_pairwise (fun x y hx hy hxy hyx => ?_) (hsorted t').2 (hsorted t).2
  have hx' := (hsorted t).1.mem_iff.mp (hperm'.mem_iff.mp hx)
  have hy' := (hsorted t).1.mem_iff.mp hy
  exact eq_of_sortKey_eq (hinjective x hx' y hy') (le_antisymm hyx hxy)

/-- Three transactions, two of them with one fee, sorted by merge sort. -/
theorem sort_canonical_mergeSort :
    sort (fun lt l => l.mergeSort fun x y => !lt y x) id [⟨[0], 5⟩, ⟨[1], 3⟩, ⟨[2], 3⟩] =
      sort (fun lt l => l.mergeSort fun x y => !lt y x) id [⟨[2], 3⟩, ⟨[1], 3⟩, ⟨[0], 5⟩] :=
  (sort_canonical (sorts_mergeSort _) id _).2.2 (fun _ _ _ _ h => h) _ (by decide)

end TransactionList

end Blockmania.Broadcast
