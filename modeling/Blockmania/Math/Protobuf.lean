/-
# The wire format of protobuf

A message is a sequence of fields, each with a number and a value. A number is written
in groups of seven bits, lowest first, and all groups but the last are marked. A value is
a number, or bytes that come after their length. The bytes may be a message again.

Values that are zero or empty are left out, and the reader puts them back. Of a value that
comes more than once the last one counts, and a message that comes in parts is the message
of all parts together. Fields of a fixed size and groups are not covered.
-/

import Mathlib.Data.Nat.Log
import Mathlib.Tactic.NormNum

namespace Blockmania.Math.Protobuf

open List

/-- `k + 1` groups of seven bits. -/
def groups : Nat → Nat → List UInt8
  | 0, n => [UInt8.ofNat n]
  | k + 1, n => UInt8.ofNat (n % 128 + 128) :: groups k (n / 128)

/-- A number in as few groups as it has. -/
def varint (n : Nat) : List UInt8 := groups (n.log2 / 7) n

/-- A number at the front, and what is left. -/
def readVarint : List UInt8 → Option (Nat × List UInt8)
  | [] => none
  | b :: bs =>
    if b.toNat < 128 then some (b.toNat, bs)
    else (readVarint bs).map fun (n, rest) => (b.toNat - 128 + 128 * n, rest)

theorem length_groups (k n : Nat) : (groups k n).length = k + 1 := by
  induction k generalizing n with
  | zero => rfl
  | succ k ih => rw [groups, length_cons, ih]

theorem length_varint (n : Nat) : (varint n).length = n.log2 / 7 + 1 := length_groups _ _

/-- A number below `2 ^ (7 * k)` takes at most `k` bytes. -/
theorem length_varint_le {n k : Nat} (hk : 0 < k) (h : n < 2 ^ (7 * k)) :
    (varint n).length ≤ k := by
  rw [length_varint]
  rcases Nat.eq_zero_or_pos n with rfl | hn
  · exact hk
  · have hlog := (Nat.log2_lt hn.ne').mpr h
    omega

theorem length_varint_pos (n : Nat) : 0 < (varint n).length := by
  rw [length_varint]
  exact Nat.succ_pos _

theorem readVarint_groups (k n : Nat) (h : n < 128 ^ (k + 1)) (rest : List UInt8) :
    readVarint (groups k n ++ rest) = some (n, rest) := by
  induction k generalizing n with
  | zero =>
    have hsize : n < UInt8.size := h.trans (by decide)
    have hbyte : (UInt8.ofNat n).toNat = n := UInt8.toNat_ofNat_of_lt' hsize
    rw [groups, singleton_append, readVarint, hbyte, if_pos (by simpa using h)]
  | succ k ih =>
    have hbyte : (UInt8.ofNat (n % 128 + 128)).toNat = n % 128 + 128 :=
      UInt8.toNat_ofNat_of_lt' (by simp only [UInt8.size]; omega)
    have hrest : n / 128 < 128 ^ (k + 1) := by
      rw [Nat.div_lt_iff_lt_mul (by decide)]
      exact h
    have hvalue : n % 128 + 128 - 128 + 128 * (n / 128) = n := by omega
    rw [groups, cons_append, readVarint, hbyte, if_neg (by omega), ih _ hrest, Option.map_some]
    dsimp only
    rw [hvalue]

/-- A number is read as it was written. -/
theorem readVarint_varint (n : Nat) (rest : List UInt8) :
    readVarint (varint n ++ rest) = some (n, rest) := by
  apply readVarint_groups
  rcases Nat.eq_zero_or_pos n with rfl | hn
  · decide
  · rw [show (128 : Nat) = 2 ^ 7 from rfl, ← Nat.pow_mul]
    apply (Nat.log2_lt hn.ne').mp
    omega

inductive Value
  | number (n : Nat)
  | bytes (bs : List UInt8)
  deriving DecidableEq, Repr

structure Field where
  number : Nat
  value : Value
  deriving DecidableEq, Repr

/-- The key of a field has its number and the kind of its value. -/
def Field.encode : Field → List UInt8
  | ⟨k, .number n⟩ => varint (8 * k) ++ varint n
  | ⟨k, .bytes bs⟩ => varint (8 * k + 2) ++ (varint bs.length ++ bs)

def encode (fields : List Field) : List UInt8 := fields.flatMap Field.encode

/-- The value of a field with the given key. -/
def readValue (key : Nat) (bs : List UInt8) : Option (Field × List UInt8) :=
  match readVarint bs with
  | none => none
  | some (n, rest) =>
    if key % 8 = 0 then some (⟨key / 8, .number n⟩, rest)
    else if key % 8 = 2 ∧ n ≤ rest.length then
      some (⟨key / 8, .bytes (rest.take n)⟩, rest.drop n)
    else none

def readField (bs : List UInt8) : Option (Field × List UInt8) :=
  (readVarint bs).bind fun (key, bs) => readValue key bs

/-- All fields, of which there are at most as many as the first argument says. -/
def readFields : Nat → List UInt8 → Option (List Field)
  | _, [] => some []
  | 0, _ :: _ => none
  | fuel + 1, b :: bs =>
    (readField (b :: bs)).bind fun (field, rest) => (readFields fuel rest).map (field :: ·)

def decode (bs : List UInt8) : Option (List Field) := readFields bs.length bs

theorem readField_encode (field : Field) (rest : List UInt8) :
    readField (field.encode ++ rest) = some (field, rest) := by
  obtain ⟨k, value⟩ := field
  cases value with
  | number n =>
    have hkind : 8 * k % 8 = 0 := Nat.mul_mod_right 8 k
    have hnumber : 8 * k / 8 = k := Nat.mul_div_cancel_left k (by decide)
    rw [Field.encode, append_assoc, readField, readVarint_varint, Option.bind_some]
    dsimp only [readValue]
    rw [readVarint_varint]
    dsimp only
    rw [if_pos hkind, hnumber]
  | bytes bs =>
    have hkind : (8 * k + 2) % 8 = 2 := by omega
    have hnumber : (8 * k + 2) / 8 = k := by omega
    rw [Field.encode, append_assoc, append_assoc, readField, readVarint_varint, Option.bind_some]
    dsimp only [readValue]
    rw [readVarint_varint]
    dsimp only
    rw [if_neg (by omega), if_pos ⟨hkind, by simp⟩, hnumber, take_left, drop_left]

theorem encode_ne_nil (field : Field) : field.encode ≠ [] := by
  obtain ⟨k, value⟩ := field
  have hkey : ∀ n, varint n ≠ [] := fun n => ne_nil_of_length_pos (length_varint_pos n)
  cases value with
  | number n => exact append_ne_nil_of_left_ne_nil (hkey _) _
  | bytes bs => exact append_ne_nil_of_left_ne_nil (hkey _) _

theorem readFields_encode (fields : List Field) (fuel : Nat)
    (h : (encode fields).length ≤ fuel) : readFields fuel (encode fields) = some fields := by
  induction fields generalizing fuel with
  | nil => cases fuel <;> rfl
  | cons field fields ih =>
    obtain ⟨b, bs, hbs⟩ := exists_cons_of_ne_nil (encode_ne_nil field)
    have hread := readField_encode field (encode fields)
    change (field.encode ++ encode fields).length ≤ fuel at h
    change readFields fuel (field.encode ++ encode fields) = _
    rw [length_append] at h
    rw [hbs, length_cons] at h
    rw [hbs, cons_append] at hread ⊢
    obtain ⟨fuel, rfl⟩ : ∃ m, fuel = m + 1 := ⟨fuel - 1, by omega⟩
    rw [readFields, hread, Option.bind_some]
    dsimp only
    rw [ih fuel (by omega), Option.map_some]

/-- A message is read as it was written. -/
theorem decode_encode (fields : List Field) : decode (encode fields) = some fields :=
  readFields_encode fields _ le_rfl

/-- A number that is zero is left out. -/
def numberField (k n : Nat) : List Field := if n = 0 then [] else [⟨k, .number n⟩]

/-- Bytes are left out if there are none. -/
def bytesField (k : Nat) (bs : List UInt8) : List Field := if bs = [] then [] else [⟨k, .bytes bs⟩]

/-- Messages are never left out. -/
def messageField (k : Nat) (fields : List Field) : Field := ⟨k, .bytes (encode fields)⟩

/-- The values of the fields with the given number. -/
def numbersAt (k : Nat) (fields : List Field) : List Nat :=
  fields.filterMap fun
    | ⟨k', .number n⟩ => if k' = k then some n else none
    | ⟨_, .bytes _⟩ => none

def bytesAt (k : Nat) (fields : List Field) : List (List UInt8) :=
  fields.filterMap fun
    | ⟨_, .number _⟩ => none
    | ⟨k', .bytes bs⟩ => if k' = k then some bs else none

def getNumber (k : Nat) (fields : List Field) : Nat := (numbersAt k fields).getLast?.getD 0

def getBytes (k : Nat) (fields : List Field) : List UInt8 := (bytesAt k fields).getLast?.getD []

def getMessage (k : Nat) (fields : List Field) : Option (List UInt8) :=
  if bytesAt k fields = [] then none else some (bytesAt k fields).flatten

section Values

variable {k k' : Nat}

@[simp]
theorem numbersAt_append (fields fields' : List Field) :
    numbersAt k (fields ++ fields') = numbersAt k fields ++ numbersAt k fields' :=
  filterMap_append

@[simp]
theorem bytesAt_append (fields fields' : List Field) :
    bytesAt k (fields ++ fields') = bytesAt k fields ++ bytesAt k fields' :=
  filterMap_append

@[simp]
theorem numbersAt_numberField (n : Nat) :
    numbersAt k (numberField k' n) = if k' = k ∧ n ≠ 0 then [n] else [] := by
  rw [numberField]
  split
  · simp_all [numbersAt]
  · by_cases h : k' = k <;> simp_all [numbersAt]

@[simp]
theorem bytesAt_numberField (n : Nat) : bytesAt k (numberField k' n) = [] := by
  rw [numberField]
  split <;> rfl

@[simp]
theorem numbersAt_bytesField (bs : List UInt8) : numbersAt k (bytesField k' bs) = [] := by
  rw [bytesField]
  split <;> rfl

@[simp]
theorem bytesAt_bytesField (bs : List UInt8) :
    bytesAt k (bytesField k' bs) = if k' = k ∧ bs ≠ [] then [bs] else [] := by
  rw [bytesField]
  split
  · simp_all [bytesAt]
  · by_cases h : k' = k <;> simp_all [bytesAt]

@[simp]
theorem numbersAt_messages (messages : List (List Field)) :
    numbersAt k (messages.map (messageField k')) = [] := by
  induction messages with
  | nil => rfl
  | cons message messages ih => exact ih

@[simp]
theorem bytesAt_messages (messages : List (List Field)) :
    bytesAt k (messages.map (messageField k')) = if k' = k then messages.map encode else [] := by
  induction messages with
  | nil => simp [bytesAt]
  | cons message messages ih =>
    rw [bytesAt] at ih ⊢
    rw [map_cons, filterMap_cons, ih]
    by_cases h : k' = k <;> simp [messageField, h]

end Values

theorem length_encode_append (fields fields' : List Field) :
    (encode (fields ++ fields')).length = (encode fields).length + (encode fields').length := by
  rw [encode, flatMap_append, length_append]
  rfl

/-- Keys of small numbers take one byte. -/
theorem length_key {k : Nat} (hk : k < 16) (kind : Nat) (hkind : kind < 8) :
    (varint (8 * k + kind)).length = 1 := by
  have hle := length_varint_le (n := 8 * k + kind) (k := 1) (by decide) (by norm_num; omega)
  have hpos := length_varint_pos (8 * k + kind)
  omega

theorem length_numberField_le {k n b : Nat} (hk : k < 16) (hb : 0 < b) (hn : n < 2 ^ (7 * b)) :
    (encode (numberField k n)).length ≤ 1 + b := by
  have hkey := length_key hk 0 (by decide)
  have hvalue := length_varint_le hb hn
  rw [numberField]
  split
  · exact Nat.zero_le _
  · simp only [encode, flatMap_cons, flatMap_nil, append_nil, Field.encode, length_append]
    exact Nat.add_le_add hkey.le hvalue

theorem length_field_bytes {k : Nat} (hk : k < 16) (bs : List UInt8) :
    (Field.encode ⟨k, .bytes bs⟩).length = 1 + (varint bs.length).length + bs.length := by
  rw [Field.encode, length_append, length_append, length_key hk 2 (by decide), Nat.add_assoc]

theorem length_bytesField {k : Nat} (hk : k < 16) {bs : List UInt8} (hbs : bs ≠ []) :
    (encode (bytesField k bs)).length = 1 + (varint bs.length).length + bs.length := by
  rw [bytesField, if_neg hbs, ← length_field_bytes hk]
  simp [encode]

theorem length_bytesField_le {k : Nat} (hk : k < 16) (bs : List UInt8) :
    (encode (bytesField k bs)).length ≤ 1 + (varint bs.length).length + bs.length := by
  rcases eq_or_ne bs [] with rfl | hbs
  · exact Nat.zero_le _
  · exact (length_bytesField hk hbs).le

end Blockmania.Math.Protobuf
