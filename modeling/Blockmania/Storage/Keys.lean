/-
# The keys of the database

A key begins with a byte that tells what it is for. The keys of blocks go on with the
node, the round and the hash of the block, with zero bytes in between. No encoded
number has a zero byte, so the three can be told apart whatever the hash is, and keys
sort by node, then by round, then by hash.
-/

import Blockmania.Storage.Lexinum
import Blockmania.Storage.Badger

namespace Blockmania

/-- The node and the round of a block are words. -/
def BlockID.Fits (id : BlockID) : Prop := id.node < 2 ^ 64 ∧ id.round < 2 ^ 64

instance (id : BlockID) : Decidable id.Fits := inferInstanceAs (Decidable (_ ∧ _))

namespace Storage

open Math List

def blockPrefix : UInt8 := 1
def blockGraphPrefix : UInt8 := 2
def includedPrefix : UInt8 := 3
def interpretedPrefix : UInt8 := 4
def lastBlockRefPrefix : UInt8 := 5
def lastHashPrefix : UInt8 := 6
def lastInterpretedPrefix : UInt8 := 7
def lastRoundPrefix : UInt8 := 8
def notIncludedPrefix : UInt8 := 9
def ownBlockPrefix : UInt8 := 10

/-- `lexinum.Encode` of a node or a round. -/
def encodeNumber (n : Nat) : Bytes := Lexinum.encode (UInt64.ofNat n)

def encodeBlockID (id : BlockID) : Bytes :=
  encodeNumber id.node ++ 0x00 :: (encodeNumber id.round ++ 0x00 :: id.hash)

def blockGraphKey (id : BlockID) : Bytes := blockGraphPrefix :: encodeBlockID id
def blockKey (id : BlockID) : Bytes := blockPrefix :: encodeBlockID id
def includedKey (id : BlockID) : Bytes := includedPrefix :: encodeBlockID id
def notIncludedKey (id : BlockID) : Bytes := notIncludedPrefix :: encodeBlockID id
def interpretedKey (round : Nat) : Bytes := interpretedPrefix :: encodeNumber round
def ownBlockKey (round : Nat) : Bytes := ownBlockPrefix :: encodeNumber round

/-- What stands before and behind the first zero byte. -/
def splitAtZero (d : Bytes) : Option (Bytes × Bytes) :=
  match d.dropWhile (· ≠ 0x00) with
  | [] => none
  | _ :: rest => some (d.takeWhile (· ≠ 0x00), rest)

/-- `decodeBlockID`. What is missing is left zero. -/
def decodeBlockID (d : Bytes) : Except Lexinum.Malformed BlockID :=
  match splitAtZero d with
  | none => .ok .zero
  | some (node, rest) => do
    let nodeID ← Lexinum.decode node
    match splitAtZero rest with
    | none => .ok ⟨[], nodeID.toNat, 0⟩
    | some (round, hash) => do
      let round ← Lexinum.decode round
      return ⟨hash, nodeID.toNat, round.toNat⟩

theorem splitAtZero_append {u : Bytes} (hu : 0x00 ∉ u) (v : Bytes) :
    splitAtZero (u ++ 0x00 :: v) = some (u, v) := by
  have hall : ∀ x ∈ u, decide (x ≠ 0x00) = true := by
    intro x hx
    rw [decide_eq_true_eq]
    rintro rfl
    exact hu hx
  rw [splitAtZero, dropWhile_append_of_pos hall, takeWhile_append_of_pos hall]
  simp

variable {n m : Nat} {id a b : BlockID} {p : UInt8}

theorem decode_encodeNumber (hn : n < 2 ^ 64) :
    ∃ v : UInt64, Lexinum.decode (encodeNumber n) = .ok v ∧ v.toNat = n :=
  ⟨UInt64.ofNat n, Lexinum.decode_encode _, UInt64.toNat_ofNat_of_lt' hn⟩

theorem zero_not_mem_encodeNumber (n : Nat) : 0x00 ∉ encodeNumber n :=
  Lexinum.zero_not_mem_encode _

/-- An id is read back from its encoding, whatever its hash is. -/
theorem decodeBlockID_encodeBlockID (h : id.Fits) :
    decodeBlockID (encodeBlockID id) = .ok id := by
  obtain ⟨node, hnode, hnode'⟩ := decode_encodeNumber h.1
  obtain ⟨round, hround, hround'⟩ := decode_encodeNumber h.2
  unfold decodeBlockID encodeBlockID
  rw [splitAtZero_append (zero_not_mem_encodeNumber _)]
  dsimp only
  rw [hnode]
  change (match splitAtZero (encodeNumber id.round ++ 0x00 :: id.hash) with
    | none => _
    | some (round, hash) => _) = _
  rw [splitAtZero_append (zero_not_mem_encodeNumber _)]
  dsimp only
  rw [hround]
  change Except.ok (⟨id.hash, node.toNat, round.toNat⟩ : BlockID) = .ok id
  rw [hnode', hround']

/-- Different blocks have different encodings. -/
theorem encodeBlockID_inj (ha : a.Fits) (hb : b.Fits) :
    encodeBlockID a = encodeBlockID b ↔ a = b := by
  refine ⟨fun h => ?_, fun h => h ▸ rfl⟩
  have hsame := decodeBlockID_encodeBlockID ha
  rw [h, decodeBlockID_encodeBlockID hb] at hsame
  exact (Except.ok.inj hsame).symm

theorem zero_lt_of_mem_encodeNumber : ∀ x ∈ encodeNumber n, 0x00 < x := by
  intro x hx
  rw [UInt8.pos_iff_ne_zero]
  rintro rfl
  exact zero_not_mem_encodeNumber n hx

theorem encodeNumber_lt_iff (hm : m < 2 ^ 64) (hn : n < 2 ^ 64) :
    encodeNumber m < encodeNumber n ↔ m < n := by
  rw [encodeNumber, encodeNumber, Lexinum.encode_lt_encode_iff, UInt64.lt_iff_toNat_lt,
    UInt64.toNat_ofNat_of_lt' hm, UInt64.toNat_ofNat_of_lt' hn]

theorem encodeNumber_inj (hm : m < 2 ^ 64) (hn : n < 2 ^ 64) :
    encodeNumber m = encodeNumber n ↔ m = n := by
  rw [encodeNumber, encodeNumber, Lexinum.encode_injective.eq_iff, ← UInt64.toNat_inj,
    UInt64.toNat_ofNat_of_lt' hm, UInt64.toNat_ofNat_of_lt' hn]

/-- Encoded ids sort by node, then by round, then by hash. -/
theorem encodeBlockID_lt_iff (ha : a.Fits) (hb : b.Fits) :
    encodeBlockID a < encodeBlockID b ↔ a.node < b.node ∨ a.node = b.node ∧
      (a.round < b.round ∨ a.round = b.round ∧ a.hash < b.hash) := by
  have hasymm : ∀ x y : UInt8, x < y → ¬ y < x := fun x y => UInt8.lt_asymm
  rw [encodeBlockID, encodeBlockID,
    append_separator_lt_append_separator_iff hasymm zero_lt_of_mem_encodeNumber
      zero_lt_of_mem_encodeNumber,
    append_separator_lt_append_separator_iff hasymm zero_lt_of_mem_encodeNumber
      zero_lt_of_mem_encodeNumber,
    encodeNumber_lt_iff ha.1 hb.1, encodeNumber_inj ha.1 hb.1, encodeNumber_lt_iff ha.2 hb.2,
    encodeNumber_inj ha.2 hb.2]

/-- What the keys of a node's blocks begin with. -/
def nodePrefix (p : UInt8) (nodeID : Nat) : Bytes := p :: (encodeNumber nodeID ++ [0x00])

theorem key_eq (p : UInt8) (id : BlockID) :
    p :: encodeBlockID id = nodePrefix p id.node ++ (encodeNumber id.round ++ 0x00 :: id.hash) := by
  rw [encodeBlockID, nodePrefix, cons_append, append_assoc]
  rfl

/-- The keys of a node are those that begin with its number. -/
theorem nodePrefix_isPrefix_iff (hid : id.Fits) {nodeID : Nat} (hnode : nodeID < 2 ^ 64) :
    nodePrefix p nodeID <+: p :: encodeBlockID id ↔ id.node = nodeID := by
  constructor
  · rintro ⟨rest, hrest⟩
    rw [nodePrefix, cons_append, append_assoc, List.cons.injEq] at hrest
    have hsplit := congrArg splitAtZero hrest.2
    rw [encodeBlockID, singleton_append, splitAtZero_append (zero_not_mem_encodeNumber _),
      splitAtZero_append (zero_not_mem_encodeNumber _)] at hsplit
    exact ((encodeNumber_inj hnode hid.1).mp (Prod.mk.inj (Option.some.inj hsplit)).1).symm
  · rintro rfl
    rw [key_eq]
    exact prefix_append _ _

/-- A scan of a node's blocks begins with the first round that is not smaller. -/
theorem key_lt_iff (hid : id.Fits) {start : Nat} (hstart : start < 2 ^ 64) :
    p :: encodeBlockID id < nodePrefix p id.node ++ encodeNumber start ↔ id.round < start := by
  rw [key_eq, append_lt_append_left_iff UInt8.lt_irrefl,
    append_separator_lt_iff zero_lt_of_mem_encodeNumber, encodeNumber_lt_iff hid.2 hstart]

end Storage

end Blockmania
