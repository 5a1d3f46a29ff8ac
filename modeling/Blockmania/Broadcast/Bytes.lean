/-
# Reading and writing bytes

Values in the database and the transactions of a block are strings of bytes that are
read by their positions. A read past the capacity of the array is a crash. The database
is read with no room behind its values: what is read there was written in full, so no
read gets to the end. Numbers of a fixed width are written with the least significant
byte first.
-/

import Blockmania.Broadcast.Wire

namespace Blockmania.Broadcast

open List

/-- A number of which the least significant byte comes first. -/
def littleEndian : List UInt8 → Nat
  | [] => 0
  | b :: bs => b.toNat + 256 * littleEndian bs

/-- `data[lo:hi]` of data behind which its array goes on with `spare`. The bound is the
capacity, so the result may reach past the end of the data. -/
def slice (data spare : List UInt8) (lo hi : Nat) : Except Fault (List UInt8) :=
  if hi ≤ (data ++ spare).length then .ok (((data ++ spare).take hi).drop lo)
  else .error .indexOutOfRange

/-- The given number of bytes of a number, the least significant one first. -/
def littleEndianBytes : Nat → Nat → List UInt8
  | 0, _ => []
  | w + 1, n => UInt8.ofNat n :: littleEndianBytes w (n / 256)

@[simp]
theorem length_littleEndianBytes (w n : Nat) : (littleEndianBytes w n).length = w := by
  induction w generalizing n with
  | zero => rfl
  | succ w ih => rw [littleEndianBytes, length_cons, ih]

/-- What does not fit is lost. -/
theorem littleEndian_littleEndianBytes (w n : Nat) :
    littleEndian (littleEndianBytes w n) = n % 256 ^ w := by
  induction w generalizing n with
  | zero => rw [Nat.pow_zero, Nat.mod_one, littleEndianBytes, littleEndian]
  | succ w ih =>
    rw [littleEndianBytes, littleEndian, ih, Nat.pow_succ', Nat.mod_mul]
    rfl

section Slices

variable {data spare bytes rest : List UInt8} {lo n : Nat}

theorem of_slice (h : slice data spare lo (lo + n) = .ok bytes) :
    (data ++ spare).drop lo = bytes ++ (data ++ spare).drop (lo + n) ∧ bytes.length = n ∧
      lo + n ≤ (data ++ spare).length := by
  unfold slice at h
  split at h
  · rename_i hbound
    cases h
    refine ⟨?_, ?_, hbound⟩
    · rw [drop_take, Nat.add_sub_cancel_left, ← drop_drop, take_append_drop]
    · rw [length_drop, length_take]
      omega
  · cases h

theorem slice_append_of (hlo : lo ≤ (data ++ spare).length)
    (h : (data ++ spare).drop lo = bytes ++ rest) :
    slice data spare lo (lo + bytes.length) = .ok bytes ∧
      (data ++ spare).drop (lo + bytes.length) = rest ∧
      lo + bytes.length ≤ (data ++ spare).length := by
  have hlength := congrArg List.length h
  rw [length_drop, @length_append _ bytes rest] at hlength
  have hbound : lo + bytes.length ≤ (data ++ spare).length := by omega
  refine ⟨?_, ?_, hbound⟩
  · rw [slice, if_pos hbound, drop_take, Nat.add_sub_cancel_left, h, take_left]
  · rw [← drop_drop, h, drop_left]

/-- The same with nothing behind the data. -/
theorem slice_of (hlo : lo ≤ data.length) (h : data.drop lo = bytes ++ rest) :
    slice data [] lo (lo + bytes.length) = .ok bytes ∧ data.drop (lo + bytes.length) = rest ∧
      lo + bytes.length ≤ data.length := by
  have hall := @slice_append_of data [] bytes rest lo
  rw [append_nil] at hall
  exact hall hlo h

end Slices

variable {α β ε : Type}

/-- Wherever the bytes stand, the reader takes them for the given value and goes on
behind them. -/
def Reads (read : List UInt8 → Nat → Except ε (α × Nat)) (bytes : List UInt8) (x : α) : Prop :=
  ∀ (val : List UInt8) (idx : Nat) (rest : List UInt8), idx ≤ val.length →
    val.drop idx = bytes ++ rest → read val idx = .ok (x, idx + bytes.length)

variable {read : List UInt8 → Nat → Except ε (α × Nat)} {x : α}

/-- What is written one after another is read one after another. -/
theorem Reads.bind {bytes bytes' : List UInt8} {y : β} (h : Reads read bytes x)
    (next : α → List UInt8 → Nat → Except ε (β × Nat)) (h' : Reads (next x) bytes' y) :
    Reads (fun val idx => do
      let (x, idx) ← read val idx
      next x val idx) (bytes ++ bytes') y := by
  intro val idx rest hidx hval
  rw [append_assoc] at hval
  obtain ⟨-, hval', hidx'⟩ := slice_of hidx hval
  rw [length_append, ← Nat.add_assoc, ← h' val (idx + bytes.length) rest hidx' hval']
  dsimp only
  rw [h val idx _ hidx hval]
  rfl

/-- The value that was read may be put into another one. -/
theorem Reads.map {bytes : List UInt8} (h : Reads read bytes x) (f : α → β) :
    Reads (fun val idx => do
      let (x, idx) ← read val idx
      return (f x, idx)) bytes (f x) := by
  intro val idx rest hidx hval
  dsimp only
  rw [h val idx rest hidx hval]
  rfl

end Blockmania.Broadcast
