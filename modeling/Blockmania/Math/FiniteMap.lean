/-
# Finite maps with coded keys

A finite map is an extensional search tree over keys that are told apart by a
list of numbers. The code fixes the iteration order, so a map has one value
whatever order its entries were written in, and two maps with the same lookups
are equal. Every operation computes, which is what lets a concrete run be
checked by evaluation.
-/

import Std.Data.ExtTreeMap
import Mathlib.Logic.Function.Basic
import Mathlib.Data.Finset.Card

namespace Blockmania.Math

open List

/-- A key type with an injective code. The code is compared lexicographically,
so its first number should be the one that differs most often. -/
class MapKey (K : Type) where
  /-- The numbers that identify a key. -/
  code : K → List Nat
  /-- No two keys share a code. -/
  code_injective : Function.Injective code

variable {K V : Type} [MapKey K]

/-- Keys are ordered by their codes. -/
def keyCompare (a b : K) : Ordering := compare (MapKey.code a) (MapKey.code b)

instance : Std.TransCmp (keyCompare (K := K)) :=
  inferInstanceAs (Std.TransCmp (compareOn MapKey.code))

instance : Std.LawfulEqCmp (keyCompare (K := K)) where
  eq_of_compare h := MapKey.code_injective (Std.LawfulEqOrd.eq_of_compare h)

/-- Only equal keys compare equal, so lookups can be decided by equality. -/
@[simp]
theorem keyCompare_eq_iff {a b : K} : keyCompare a b = .eq ↔ a = b :=
  Std.LawfulEqCmp.compare_eq_iff_eq

instance : MapKey Nat where
  code n := [n]
  code_injective := by
    intro a b h
    simpa using h

/-- A finite map from `K` to `V`. -/
abbrev FiniteMap (K V : Type) [MapKey K] : Type := Std.ExtTreeMap K V keyCompare

namespace FiniteMap

/-- Writing a key changes the lookup of that key only. -/
theorem lookup_insert [DecidableEq K] (m : FiniteMap K V) (k a : K) (v : V) :
    (m.insert k v)[a]? = if k = a then some v else m[a]? := by
  rw [Std.ExtTreeMap.getElem?_insert]
  simp only [keyCompare_eq_iff]

@[simp]
theorem lookup_insert_self (m : FiniteMap K V) (k : K) (v : V) :
    (m.insert k v)[k]? = some v := Std.ExtTreeMap.getElem?_insert_self

variable {a k : K} {m : FiniteMap K V} {v : V}

/-- The frame condition of a write. -/
theorem lookup_insert_of_ne (m : FiniteMap K V) (h : k ≠ a) (v : V) :
    (m.insert k v)[a]? = m[a]? := by
  classical rw [lookup_insert, if_neg h]

/-- Deleting a key changes the lookup of that key only. -/
theorem lookup_erase [DecidableEq K] (m : FiniteMap K V) (k a : K) :
    (m.erase k)[a]? = if k = a then none else m[a]? := by
  rw [Std.ExtTreeMap.getElem?_erase]
  simp only [keyCompare_eq_iff]

/-- Deleting several keys changes the lookups of those keys only. -/
theorem lookup_eraseAll [DecidableEq K] (ks : List K) :
    ∀ (m : FiniteMap K V) (a : K),
      (ks.foldl (fun m k => m.erase k) m)[a]? = if a ∈ ks then none else m[a]? := by
  induction ks with
  | nil => simp
  | cons k ks ih =>
    intro m a
    rw [foldl_cons, ih, lookup_erase]
    by_cases hk : k = a
    · simp [hk]
    · simp [hk, Ne.symm hk]

theorem isSome_of_eraseAll [DecidableEq K] {ks : List K}
    (h : ((ks.foldl (fun m k => m.erase k) m)[a]?).isSome) : (m[a]?).isSome := by
  rw [lookup_eraseAll] at h
  split at h
  · cases h
  · exact h

/-- Writing one value to several keys changes the lookups of those keys only. -/
theorem lookup_insertAll [DecidableEq K] (ks : List K) (v : V) :
    ∀ (m : FiniteMap K V) (a : K),
      (ks.foldl (fun m k => m.insert k v) m)[a]? = if a ∈ ks then some v else m[a]? := by
  induction ks with
  | nil => simp
  | cons k ks ih =>
    intro m a
    rw [foldl_cons, ih, lookup_insert]
    by_cases hk : k = a
    · simp [hk]
    · simp [hk, Ne.symm hk]

/-- The entries whose keys are kept. A map that loses nothing is not rebuilt,
which is what keeps the evaluation of a long run cheap. -/
def restrict (keep : K → Bool) (m : FiniteMap K V) : FiniteMap K V :=
  if m.keys.all keep then m else m.filter fun k _ => keep k

/-- A restriction has exactly the lookups of the kept keys. -/
theorem lookup_restrict (m : FiniteMap K V) (keep : K → Bool) (a : K) :
    (m.restrict keep)[a]? = if keep a then m[a]? else none := by
  unfold restrict
  split
  · rename_i hall
    by_cases hkeep : keep a
    · rw [if_pos hkeep]
    · have habsent : a ∉ m := fun hmem =>
        hkeep (all_eq_true.mp hall a (Std.ExtTreeMap.mem_keys.mpr hmem))
      rw [if_neg hkeep, Std.ExtTreeMap.getElem?_eq_none habsent]
  · rw [Std.ExtTreeMap.getElem?_filter']
    cases hfound : m[a]? with
    | none => simp
    | some v => by_cases hkeep : keep a <;> simp [hkeep]

@[simp]
theorem restrict_empty (keep : K → Bool) : restrict keep (∅ : FiniteMap K V) = ∅ := rfl

/-- A map is determined by its lookups. -/
theorem ext_lookup {n : FiniteMap K V} (h : ∀ a : K, m[a]? = n[a]?) : m = n :=
  Std.ExtTreeMap.ext_getElem? h

/-- Storing what is there changes nothing. -/
theorem insert_of_lookup (h : m[k]? = some v) :
    m.insert k v = m := by
  apply ext_lookup
  intro a
  by_cases hk : k = a
  · rw [← hk, lookup_insert_self, h]
  · rw [lookup_insert_of_ne _ hk]

/-- The values of a map in the order of its entries. -/
theorem values_eq_map_toList (m : FiniteMap K V) : m.values = m.toList.map Prod.snd := by
  obtain ⟨⟨entries⟩⟩ := m
  induction entries using Quotient.inductionOn with
  | h t =>
    change t.inner.values = (Std.DTreeMap.Internal.Impl.Const.toList t.inner).map Prod.snd
    rw [Std.DTreeMap.Internal.Impl.values_eq_map_snd,
      Std.DTreeMap.Internal.Impl.Const.toList_eq_toListModel_map]
    simp

theorem mem_values : v ∈ m.values ↔ ∃ k : K, m[k]? = some v := by
  rw [values_eq_map_toList, mem_map]
  simp [Std.ExtTreeMap.mem_toList_iff_getElem?_eq_some]

theorem length_values (m : FiniteMap K V) : m.values.length = m.size := by
  rw [values_eq_map_toList, length_map, Std.ExtTreeMap.length_toList]

/-- The keys of a map. -/
def domain [DecidableEq K] (m : FiniteMap K V) : Finset K := m.keys.toFinset

theorem mem_domain [DecidableEq K] :
    a ∈ m.domain ↔ m[a]?.isSome := by
  rw [domain, mem_toFinset, Std.ExtTreeMap.mem_keys]
  exact Std.ExtTreeMap.isSome_getElem?_iff_mem.symm

/-- Writing a key adds it to the keys. -/
theorem domain_insert [DecidableEq K] (m : FiniteMap K V) (k : K) (v : V) :
    domain (m.insert k v) = insert k m.domain := by
  ext a
  rw [Finset.mem_insert, mem_domain, mem_domain, lookup_insert]
  by_cases hk : k = a
  · simp [hk]
  · simp [hk, Ne.symm hk]

/-- The size of a map is the number of its keys. -/
theorem size_eq_card_domain [DecidableEq K] (m : FiniteMap K V) : m.size = m.domain.card := by
  have hnodup : m.keys.Nodup := by
    refine Pairwise.imp ?_ (Std.ExtTreeMap.distinct_keys (t := m))
    intro a b hab heq
    exact hab (keyCompare_eq_iff.mpr heq)
  rw [domain, toFinset_card_of_nodup hnodup, Std.ExtTreeMap.length_keys]

theorem nodup_toList (m : FiniteMap K V) : m.toList.Nodup := by
  refine Pairwise.imp ?_ (Std.ExtTreeMap.distinct_keys_toList (t := m))
  rintro a b hab rfl
  exact hab (keyCompare_eq_iff.mpr rfl)

/-- Writing a new key adds its value to the values. -/
theorem values_insert_perm (hnew : m[k]? = none) (v : V) :
    (m.insert k v).values.Perm (v :: m.values) := by
  classical
  have hfresh : (k, v) ∉ m.toList := by
    rw [Std.ExtTreeMap.mem_toList_iff_getElem?_eq_some, hnew]
    simp
  rw [values_eq_map_toList, values_eq_map_toList]
  change Perm _ (((k, v) :: m.toList).map Prod.snd)
  refine Perm.map _ ((perm_ext_iff_of_nodup (nodup_toList _) ?_).mpr ?_)
  · exact nodup_cons.mpr ⟨hfresh, nodup_toList m⟩
  · rintro ⟨a, u⟩
    rw [mem_cons, Std.ExtTreeMap.mem_toList_iff_getElem?_eq_some,
      Std.ExtTreeMap.mem_toList_iff_getElem?_eq_some, lookup_insert]
    by_cases hk : k = a
    · subst hk
      simp [hnew, eq_comm]
    · simp [hk, Ne.symm hk]

end FiniteMap

end Blockmania.Math
