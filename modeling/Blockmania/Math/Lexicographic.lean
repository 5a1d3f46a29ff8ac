/-
# Lexicographic order of words

Words are compared letter by letter, and a proper beginning of a word comes before
it. Numerals of one length compare as the numbers they stand for, the most
significant digit first, and what follows two different words of one length does
not matter. A separator that comes before all other letters makes the parts of a
word count one after another.
-/

import Mathlib.Data.List.Lex
import Mathlib.Data.Nat.Digits.Defs

namespace Blockmania.Math

open List

variable {α β : Type} [LT α] [LT β]

/-- An order embedding of letters is one of words. -/
theorem map_lt_map_iff {f : α → β} (hlt : ∀ x y, f x < f y ↔ x < y)
    (hinjective : Function.Injective f) {u v : List α} : u.map f < v.map f ↔ u < v := by
  induction u generalizing v with
  | nil => cases v <;> simp
  | cons x u ih =>
    cases v with
    | nil => simp
    | cons y v => simp only [map_cons, cons_lt_cons_iff, hlt, hinjective.eq_iff, ih]

/-- Words of one length are told apart before what follows them. -/
theorem append_lt_append_of_lt {u v : List α} (hlength : u.length = v.length) (h : u < v)
    (s t : List α) : u ++ s < v ++ t := by
  induction u generalizing v with
  | nil =>
    rw [length_nil, eq_comm, length_eq_zero_iff] at hlength
    rw [hlength] at h
    exact absurd h (not_lt_nil _)
  | cons x u ih =>
    cases v with
    | nil => exact absurd h (not_lt_nil _)
    | cons y v =>
      rw [cons_append, cons_append, cons_lt_cons_iff]
      rcases cons_lt_cons_iff.mp h with hhead | ⟨rfl, htail⟩
      · exact .inl hhead
      · exact .inr ⟨rfl, ih (Nat.succ.inj hlength) htail⟩

/-- A common beginning does not matter. -/
theorem append_lt_append_left_iff (hirrefl : ∀ x : α, ¬ x < x) {p u v : List α} :
    p ++ u < p ++ v ↔ u < v := by
  induction p with
  | nil => rfl
  | cons x p ih => simp only [cons_append, cons_lt_cons_iff, hirrefl, ih, true_and, false_or]

/-- Numerals of one length compare as numbers. The digits are given from the least
significant one on. -/
theorem map_reverse_lt_of_ofDigits_lt {b : Nat} {f : Nat → α} (hb : 1 < b)
    (hf : ∀ d e, d < e → f d < f e) {l m : List Nat} (hlength : l.length = m.length)
    (hl : ∀ d ∈ l, d < b) (hm : ∀ d ∈ m, d < b) (h : Nat.ofDigits b l < Nat.ofDigits b m) :
    (l.map f).reverse < (m.map f).reverse := by
  induction l generalizing m with
  | nil =>
    rw [length_nil, eq_comm, length_eq_zero_iff] at hlength
    rw [hlength] at h
    exact absurd h (lt_irrefl _)
  | cons d l ih =>
    cases m with
    | nil => exact absurd hlength (Nat.succ_ne_zero _)
    | cons e m =>
      have hlength' : l.length = m.length := Nat.succ.inj hlength
      have hl' : ∀ d ∈ l, d < b := fun d hd => hl d (mem_cons_of_mem _ hd)
      have hm' : ∀ d ∈ m, d < b := fun d hd => hm d (mem_cons_of_mem _ hd)
      have hd : d < b := hl d mem_cons_self
      have he : e < b := hm e mem_cons_self
      rw [map_cons, map_cons, reverse_cons, reverse_cons]
      rw [Nat.ofDigits_cons, Nat.ofDigits_cons] at h
      rcases lt_trichotomy (Nat.ofDigits b l) (Nat.ofDigits b m) with hlt | heq | hgt
      · apply append_lt_append_of_lt
        · simpa using hlength'
        · exact ih hlength' hl' hm' hlt
      · have hsame : l = m := Nat.ofDigits_inj_of_len_eq hb hlength' hl' hm' heq
        subst hsame
        apply append_left_lt
        rw [cons_lt_cons_iff]
        exact .inl (hf d e (by simpa using h))
      · -- the higher digits differ by at least one, the last ones by less than the base
        have hstep : b * (Nat.ofDigits b m + 1) ≤ b * Nat.ofDigits b l := Nat.mul_le_mul_left b hgt
        rw [Nat.mul_add, Nat.mul_one] at hstep
        omega

/-- Words of numbers compare as their letters do. -/
theorem compare_eq_lt_iff {u v : List Nat} : compare u v = .lt ↔ u < v := by
  induction u generalizing v with
  | nil => cases v <;> simp
  | cons x u ih =>
    cases v with
    | nil => simp
    | cons y v =>
      rw [List.compare_cons_cons, cons_lt_cons_iff, ← ih, Ordering.then_eq_lt,
        Nat.compare_eq_lt, Nat.compare_eq_eq]

/-- A separator behind a word does not matter for words without it that come later. -/
theorem append_separator_lt_iff {z : α} {u v s : List α} (hv : ∀ x ∈ v, z < x) :
    u ++ z :: s < v ↔ u < v := by
  induction u generalizing v with
  | nil =>
    cases v with
    | nil => simp
    | cons y v => simp [cons_lt_cons_iff, hv y mem_cons_self]
  | cons x u ih =>
    cases v with
    | nil => simp
    | cons y v =>
      have hv' : ∀ x ∈ v, z < x := fun x hx => hv x (mem_cons_of_mem _ hx)
      rw [cons_append, cons_lt_cons_iff, cons_lt_cons_iff, ih hv']

/-- The part before the separator counts first, and then what is behind it. -/
theorem append_separator_lt_append_separator_iff {z : α} (hasymm : ∀ x y : α, x < y → ¬ y < x)
    {u v s t : List α} (hu : ∀ x ∈ u, z < x) (hv : ∀ x ∈ v, z < x) :
    u ++ z :: s < v ++ z :: t ↔ u < v ∨ u = v ∧ s < t := by
  have hirrefl : ∀ x : α, ¬ x < x := fun x hx => hasymm x x hx hx
  induction u generalizing v with
  | nil =>
    cases v with
    | nil => simp [cons_lt_cons_iff, hirrefl]
    | cons y v => simp [cons_lt_cons_iff, hv y mem_cons_self]
  | cons x u ih =>
    have hx := hu x mem_cons_self
    cases v with
    | nil =>
      have hne : x ≠ z := by
        rintro rfl
        exact hirrefl _ hx
      simp [cons_lt_cons_iff, hasymm _ _ hx, hne]
    | cons y v =>
      have hu' : ∀ x ∈ u, z < x := fun x hx => hu x (mem_cons_of_mem _ hx)
      have hv' : ∀ x ∈ v, z < x := fun x hx => hv x (mem_cons_of_mem _ hx)
      simp only [cons_append, cons_lt_cons_iff, ih hu' hv', List.cons.injEq]
      tauto

/-- The words with one beginning are neighbours. -/
theorem prefix_of_between (htotal : ∀ x y : α, ¬ x < y → ¬ y < x → x = y) {p u v w : List α}
    (hu : p <+: u) (hw : p <+: w) (huv : ¬ v < u) (hvw : ¬ w < v) : p <+: v := by
  induction p generalizing u v w with
  | nil => exact nil_prefix
  | cons x p ih =>
    obtain ⟨u, rfl⟩ := hu
    obtain ⟨w, rfl⟩ := hw
    cases v with
    | nil => exact absurd (nil_lt_cons _ _) huv
    | cons y v =>
      rw [cons_append, cons_lt_cons_iff, not_or, not_and] at huv hvw
      obtain rfl : y = x := htotal y x huv.1 hvw.1
      exact cons_prefix_cons.mpr ⟨rfl, ih (prefix_append _ _) (prefix_append _ _)
        (huv.2 rfl) (hvw.2 rfl)⟩

end Blockmania.Math
