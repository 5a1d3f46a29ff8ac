/-
# The database

The database is an ordered map from keys to values, both of them strings of bytes, and
a transaction changes it at once or not at all. A scan starts at the first key from
`start` on and goes on as long as keys begin with `pre`.
-/

import Mathlib.Data.List.Sort
import Blockmania.Math.Lexicographic
import Blockmania.Interpreter.Message

namespace Blockmania.Storage

open Math List

abbrev Bytes : Type := List UInt8

instance : MapKey Bytes where
  code := Hash.code
  code_injective := Hash.code_injective

theorem code_lt_code_iff {a b : Bytes} : Hash.code a < Hash.code b ↔ a < b :=
  map_lt_map_iff (fun _ _ => UInt8.lt_iff_toNat_lt.symm) fun _ _ => UInt8.toNat_inj.mp

/-- Keys are compared byte by byte. -/
theorem keyCompare_eq_lt_iff {a b : Bytes} : keyCompare a b = .lt ↔ a < b := by
  change compare (Hash.code a) (Hash.code b) = .lt ↔ a < b
  rw [compare_eq_lt_iff, code_lt_code_iff]

theorem eq_of_not_lt_of_not_lt (x y : UInt8) (hxy : ¬ x < y) (hyx : ¬ y < x) : x = y :=
  UInt8.le_antisymm (UInt8.not_lt.mp hyx) (UInt8.not_lt.mp hxy)

abbrev Badger : Type := FiniteMap Bytes Bytes

namespace Badger

variable {db : Badger} {start pre : Bytes}

/-- `Seek` to `start`, and `Next` as long as `ValidForPrefix` holds of `pre`. -/
def scan (db : Badger) (start pre : Bytes) : List (Bytes × Bytes) :=
  (db.toList.dropWhile fun entry => entry.1 < start).takeWhile fun entry => pre.isPrefixOf entry.1

/-- Entries are in the order of their keys. -/
def Ordered (entries : List (Bytes × Bytes)) : Prop :=
  entries.Pairwise fun a b => a.1 < b.1

theorem ordered_toList (db : Badger) : Ordered db.toList :=
  (Std.ExtTreeMap.ordered_keys_toList (t := db)).imp fun h => keyCompare_eq_lt_iff.mp h

theorem ordered_scan (db : Badger) (start pre : Bytes) : Ordered (db.scan start pre) :=
  ((ordered_toList db).sublist (dropWhile_sublist _)).sublist (takeWhile_sublist _)

/-- Ordered entries are determined by what they are. -/
theorem Ordered.ext {l l' : List (Bytes × Bytes)} (h : Ordered l) (h' : Ordered l')
    (hmem : ∀ entry, entry ∈ l ↔ entry ∈ l') : l = l' := by
  have : Std.Irrefl fun a b : Bytes × Bytes => a.1 < b.1 := ⟨fun a => List.lt_irrefl a.1⟩
  have : Std.Antisymm fun a b : Bytes × Bytes => a.1 < b.1 :=
    ⟨fun a b hab hba => absurd hba (List.lt_asymm hab)⟩
  exact Pairwise.eq_of_mem_iff h h' hmem

/-- From `start` on, the keys that begin with `pre` come first. -/
theorem Ordered.mem_takeWhile {l : List (Bytes × Bytes)} (h : Ordered l) (hpre : pre <+: start)
    (hstart : ∀ entry ∈ l, ¬ entry.1 < start) {entry : Bytes × Bytes} :
    entry ∈ l.takeWhile (fun entry => pre.isPrefixOf entry.1) ↔ entry ∈ l ∧ pre <+: entry.1 := by
  induction l with
  | nil => simp
  | cons first rest ih =>
    obtain ⟨hfirst, hrest⟩ := pairwise_cons.mp h
    rw [takeWhile_cons]
    split
    · rename_i hbegins
      rw [ isPrefixOf_iff_prefix] at hbegins
      rw [mem_cons, ih hrest fun entry hentry => hstart entry (mem_cons_of_mem _ hentry), mem_cons]
      constructor
      · rintro (rfl | ⟨hmem, hentry⟩)
        · exact ⟨.inl rfl, hbegins⟩
        · exact ⟨.inr hmem, hentry⟩
      · rintro ⟨rfl | hmem, hentry⟩
        · exact .inl rfl
        · exact .inr ⟨hmem, hentry⟩
    · -- the first key stands between `start` and all others
      rename_i hbegins
      rw [ isPrefixOf_iff_prefix] at hbegins
      simp only [not_mem_nil, false_iff, mem_cons]
      rintro ⟨rfl | hmem, hentry⟩
      · exact hbegins hentry
      · exact hbegins (prefix_of_between eq_of_not_lt_of_not_lt hpre hentry
          (hstart first mem_cons_self) (List.lt_asymm (hfirst entry hmem)))

/-- A scan visits the entries from `start` on whose keys begin with `pre`. -/
theorem mem_scan (hpre : pre <+: start) {key val : Bytes} :
    (key, val) ∈ db.scan start pre ↔ db[key]? = some val ∧ pre <+: key ∧ ¬ key < start := by
  have hdrop : ∀ {l : List (Bytes × Bytes)}, Ordered l →
      (∀ entry ∈ l.dropWhile (fun entry => entry.1 < start), ¬ entry.1 < start) ∧
      ∀ entry, entry ∈ l.dropWhile (fun entry => entry.1 < start) ↔ entry ∈ l ∧ ¬ entry.1 < start := by
    intro l hl
    induction l with
    | nil => simp
    | cons first rest ih =>
      obtain ⟨hfirst, hrest⟩ := pairwise_cons.mp hl
      rw [dropWhile_cons]
      split
      · rename_i hbefore
        rw [decide_eq_true_eq] at hbefore
        refine ⟨(ih hrest).1, fun entry => ?_⟩
        rw [(ih hrest).2, mem_cons]
        constructor
        · exact fun ⟨hmem, hentry⟩ => ⟨.inr hmem, hentry⟩
        · rintro ⟨rfl | hmem, hentry⟩
          · exact absurd hbefore hentry
          · exact ⟨hmem, hentry⟩
      · rename_i hfrom
        rw [decide_eq_true_eq] at hfrom
        have hall : ∀ entry ∈ first :: rest, ¬ entry.1 < start := by
          intro entry hentry hlt
          rcases mem_cons.mp hentry with rfl | hentry
          · exact hfrom hlt
          · exact hfrom (List.lt_trans (hfirst entry hentry) hlt)
        exact ⟨hall, fun entry => ⟨fun hentry => ⟨hentry, hall entry hentry⟩, And.left⟩⟩
  obtain ⟨hstart, hmem⟩ := hdrop (ordered_toList db)
  have hordered : Ordered (db.toList.dropWhile fun entry => entry.1 < start) :=
    (ordered_toList db).sublist (dropWhile_sublist _)
  rw [scan, hordered.mem_takeWhile hpre hstart, hmem, Std.ExtTreeMap.mem_toList_iff_getElem?_eq_some]
  tauto

/-- A scan is known once the entries it has to visit are. -/
theorem scan_eq (hpre : pre <+: start) {entries : List (Bytes × Bytes)} (hordered : Ordered entries)
    (hentries : ∀ key val, (key, val) ∈ entries ↔ db[key]? = some val ∧ pre <+: key ∧ ¬ key < start)
    : db.scan start pre = entries :=
  (ordered_scan db start pre).ext hordered fun _ => (mem_scan hpre).trans (hentries _ _).symm

end Badger

end Blockmania.Storage
