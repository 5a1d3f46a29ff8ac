/-
# Vote bitsets

Every PrePrepare value a block has heard of carries two bit vectors over the
node ids, one for the nodes that prepared it and one for those that committed
it. A vector is a list of 64-bit words and a node id is a bit index, so an id
past the last word is an index out of range: the operations return `none`
there, which is where the program panics.

The specification of a vector is the finite set of its members. Counting the
ones of the words counts that set, and setting a bit inserts into it.
-/

import Mathlib.Algebra.BigOperators.Intervals
import Mathlib.Data.Nat.Bitwise
import Mathlib.Data.Finset.Card

namespace Blockmania

/-- The ones among the lowest `bits` bits of a word. -/
def onesCount : Nat → Nat → Nat
  | 0, _ => 0
  | bits + 1, word => if word = 0 then 0 else word % 2 + onesCount bits (word / 2)

/-- `bits.OnesCount64`. -/
def onesCount64 (word : Nat) : Nat := onesCount 64 word

/-- A bit vector of 64-bit words. -/
abbrev Words : Type := List Nat

namespace Words

/-- Set the bit of index `v`; `none` when its word does not exist. -/
def setBit (ws : Words) (v : Nat) : Option Words :=
  ws[v >>> 6]?.map fun word => ws.set (v >>> 6) (word ||| 1 <<< (v &&& 63))

/-- Test the bit of index `v`; `none` when its word does not exist. -/
def hasBit (ws : Words) (v : Nat) : Option Bool :=
  ws[v >>> 6]?.map fun word => word &&& 1 <<< (v &&& 63) != 0

/-- The population count over all words. -/
def count (ws : Words) : Nat := (ws.map onesCount64).sum

/-- The value of the bit of index `v`, false past the last word. -/
def bit (ws : Words) (v : Nat) : Bool := (ws[v / 64]?.getD 0).testBit (v % 64)

/-- The indices whose bit is set. -/
def members (ws : Words) : Finset Nat := (Finset.range (64 * ws.length)).filter fun v => ws.bit v

variable {v : Nat} {ws ws' : Words}

/-- Only the bits of existing words are set. -/
theorem mem_members : v ∈ ws.members ↔ ws.bit v = true := by
  refine ⟨fun hv => (Finset.mem_filter.mp hv).2, fun hv => Finset.mem_filter.mpr ⟨?_, hv⟩⟩
  by_contra hout
  have hword : ws[v / 64]? = none := by
    rw [List.getElem?_eq_none_iff]
    have := Finset.mem_range.not.mp hout
    omega
  simp [bit, hword] at hv

/-- The low bits of a word counted one by one. -/
theorem onesCount_eq_sum (bits word : Nat) :
    onesCount bits word = ∑ i ∈ Finset.range bits, if word.testBit i then 1 else 0 := by
  induction bits generalizing word with
  | zero => rfl
  | succ bits ih =>
      rw [Finset.sum_range_succ']
      by_cases hzero : word = 0
      · simp [onesCount, hzero]
      · have hlow : (if word.testBit 0 then 1 else 0) = word % 2 := by
          rw [Nat.testBit_zero]
          rcases Nat.mod_two_eq_zero_or_one word with h | h <;> simp [h]
        simp only [onesCount, if_neg hzero, ih (word / 2), Nat.testBit_add_one, hlow]
        omega

/-- The population count is the number of members. -/
theorem count_eq_card (ws : Words) : ws.count = ws.members.card := by
  have hsum : ws.count =
      ∑ v ∈ Finset.range (64 * ws.length), if ws.bit v then 1 else 0 := by
    induction ws with
    | nil => rfl
    | cons word ws ih =>
        have hrest (v : Nat) : bit (word :: ws) (64 + v) = bit ws v := by
          have hdiv : (64 + v) / 64 = v / 64 + 1 := by omega
          have hmod : (64 + v) % 64 = v % 64 := by omega
          simp [bit, hdiv, hmod]
        have hfirst : ∀ v ∈ Finset.range 64,
            (if bit (word :: ws) v then 1 else 0) = if word.testBit v then 1 else 0 := by
          intro v hv
          have hlt := Finset.mem_range.mp hv
          simp [bit, Nat.div_eq_of_lt hlt, Nat.mod_eq_of_lt hlt]
        have hlength : 64 * (word :: ws).length = 64 + 64 * ws.length := by
          simp only [List.length_cons]
          omega
        rw [hlength, Finset.sum_range_add, Finset.sum_congr rfl hfirst]
        simp only [hrest, ← ih, ← onesCount_eq_sum]
        simp [count, onesCount64]
  rw [hsum, members, Finset.card_filter]

/-- A vector of zero words has no members. -/
theorem members_replicate (words : Nat) : members (List.replicate words 0) = ∅ := by
  ext v
  rw [mem_members, bit, List.getElem?_replicate]
  split <;> simp

/-- Testing a bit reads membership. -/
theorem hasBit_eq_some {found : Bool} (h : ws.hasBit v = some found) :
    found = true ↔ v ∈ ws.members := by
  obtain ⟨word, hword, htest⟩ := Option.map_eq_some_iff.mp h
  rw [Nat.shiftRight_eq_div_pow] at hword
  have hindex : v &&& 63 = v % 64 := Nat.and_two_pow_sub_one_eq_mod v 6
  rw [mem_members, bit, hword, ← htest, hindex, Nat.one_shiftLeft, Nat.and_two_pow]
  cases hbit : word.testBit (v % 64) <;> simp [hbit]

/-- Setting a bit inserts its index and touches no other. -/
theorem members_setBit (h : ws.setBit v = some ws') :
    ws'.members = insert v ws.members := by
  obtain ⟨word, hword, hset⟩ := Option.map_eq_some_iff.mp h
  rw [Nat.shiftRight_eq_div_pow] at hword hset
  have hindex : v &&& 63 = v % 64 := Nat.and_two_pow_sub_one_eq_mod v 6
  obtain ⟨hlt, -⟩ := List.getElem?_eq_some_iff.mp hword
  ext u
  rw [Finset.mem_insert, mem_members, mem_members, ← hset, bit, bit, hindex]
  by_cases hsame : v / 2 ^ 6 = u / 64
  · rw [hsame] at hlt hword ⊢
    rw [List.getElem?_set_self hlt, hword, Nat.one_shiftLeft]
    have hpos : v % 64 = u % 64 ↔ u = v := by omega
    simp only [Option.getD_some, Nat.testBit_or, Nat.testBit_two_pow, Bool.or_eq_true,
      decide_eq_true_eq, hpos]
    exact or_comm
  · rw [List.getElem?_set_ne hsame]
    have hne : u ≠ v := by
      rintro rfl
      exact hsame rfl
    simp [hne]

/-- Setting a bit that is set changes nothing. -/
theorem setBit_of_mem (hv : v ∈ ws.members) (h : ws.setBit v = some ws') : ws' = ws := by
  obtain ⟨word, hword, rfl⟩ := Option.map_eq_some_iff.mp h
  have hindex : v &&& 63 = v % 64 := Nat.and_two_pow_sub_one_eq_mod v 6
  have hbit : word.testBit (v % 64) = true := by
    rw [mem_members, bit] at hv
    rw [Nat.shiftRight_eq_div_pow] at hword
    rwa [hword] at hv
  have hsame : word ||| 1 <<< (v &&& 63) = word := by
    apply Nat.eq_of_testBit_eq
    intro i
    rw [hindex, Nat.one_shiftLeft, Nat.testBit_or, Nat.testBit_two_pow]
    by_cases hi : v % 64 = i
    · simp [← hi, hbit]
    · simp [hi]
  obtain ⟨hlt, hget⟩ := List.getElem?_eq_some_iff.mp hword
  rw [hsame, ← hget, List.set_getElem_self]

/-- Setting a bit succeeds exactly on the indices of existing words. -/
theorem setBit_isSome : (ws.setBit v).isSome ↔ v / 64 < ws.length := by
  rw [setBit, Option.isSome_map, Nat.shiftRight_eq_div_pow]
  simp

/-- Setting a bit keeps the number of words. -/
theorem length_setBit (h : ws.setBit v = some ws') :
    ws'.length = ws.length := by
  obtain ⟨word, -, rfl⟩ := Option.map_eq_some_iff.mp h
  simp

end Words

/-- The votes on one PrePrepare value. -/
structure Bitset where
  /-- The nodes that committed it. -/
  commits : Words
  /-- The nodes that prepared it. -/
  prepares : Words
  deriving DecidableEq, Repr

namespace Bitset

/-- `newBitset`: both vectors empty, with a word for every started block of 64
nodes. -/
def new (size : Nat) : Bitset where
  commits := List.replicate ((size + 63) >>> 6) 0
  prepares := List.replicate ((size + 63) >>> 6) 0

def commitCount (b : Bitset) : Nat := b.commits.count

def prepareCount (b : Bitset) : Nat := b.prepares.count

def hasCommit (b : Bitset) (v : Nat) : Option Bool := b.commits.hasBit v

def hasPrepare (b : Bitset) (v : Nat) : Option Bool := b.prepares.hasBit v

def setCommit (b : Bitset) (v : Nat) : Option Bitset :=
  (b.commits.setBit v).map fun commits => { b with commits }

def setPrepare (b : Bitset) (v : Nat) : Option Bitset :=
  (b.prepares.setBit v).map fun prepares => { b with prepares }

/-- The nodes that prepared the value. -/
def preparers (b : Bitset) : Finset Nat := b.prepares.members

/-- The nodes that committed the value. -/
def committers (b : Bitset) : Finset Nat := b.commits.members

@[simp]
theorem preparers_new (size : Nat) : (new size).preparers = ∅ :=
  Words.members_replicate _

@[simp]
theorem committers_new (size : Nat) : (new size).committers = ∅ :=
  Words.members_replicate _

theorem prepareCount_eq_card (b : Bitset) : b.prepareCount = b.preparers.card :=
  b.prepares.count_eq_card

theorem commitCount_eq_card (b : Bitset) : b.commitCount = b.committers.card :=
  b.commits.count_eq_card

variable {b b' : Bitset} {v : Nat}

/-- A prepare vote adds its node and changes no commitment. -/
theorem setPrepare_spec (h : b.setPrepare v = some b') :
    b'.preparers = insert v b.preparers ∧ b'.committers = b.committers := by
  obtain ⟨prepares, hset, rfl⟩ := Option.map_eq_some_iff.mp h
  exact ⟨Words.members_setBit hset, rfl⟩

/-- A commitment adds its node and changes no prepare vote. -/
theorem setCommit_spec (h : b.setCommit v = some b') :
    b'.committers = insert v b.committers ∧ b'.preparers = b.preparers := by
  obtain ⟨commits, hset, rfl⟩ := Option.map_eq_some_iff.mp h
  exact ⟨Words.members_setBit hset, rfl⟩

/-- A repeated prepare vote changes nothing. -/
theorem setPrepare_of_mem (hv : v ∈ b.preparers) (h : b.setPrepare v = some b') : b' = b := by
  obtain ⟨prepares, hset, rfl⟩ := Option.map_eq_some_iff.mp h
  rw [Words.setBit_of_mem hv hset]

/-- A repeated commitment changes nothing. -/
theorem setCommit_of_mem (hv : v ∈ b.committers) (h : b.setCommit v = some b') : b' = b := by
  obtain ⟨commits, hset, rfl⟩ := Option.map_eq_some_iff.mp h
  rw [Words.setBit_of_mem hv hset]

theorem hasCommit_spec {found : Bool} (h : b.hasCommit v = some found) :
    found = true ↔ v ∈ b.committers :=
  Words.hasBit_eq_some h

end Bitset

end Blockmania
