/-
# Blocks and consensus messages

No consensus message is ever sent. A node broadcasts blocks that reference other
blocks, and every node derives from a block the messages its author would have
sent, so a message here is a value computed from the block graph. Messages and
block ids are map keys of the interpreter, which is why each of them comes with
a code.
-/

import Blockmania.Math.FiniteMap

namespace Blockmania

open Math

/-- A hash is a byte string; the empty one stands for no value. -/
abbrev Hash : Type := List UInt8

/-- The bytes of a hash as numbers. -/
def Hash.code (hash : Hash) : List Nat := hash.map UInt8.toNat

theorem Hash.code_injective : Function.Injective Hash.code :=
  List.map_injective_iff.mpr fun _ _ => UInt8.toNat_inj.mp

/-- A block, identified by its author, its round and the hash of its content. -/
structure BlockID where
  hash : Hash
  node : Nat
  round : Nat
  deriving DecidableEq, Repr

/-- The zero block id is the absent one, and only the hash is looked at. -/
def BlockID.valid (b : BlockID) : Bool := !b.hash.isEmpty

/-- The zero value of a block id. -/
def BlockID.zero : BlockID := ⟨[], 0, 0⟩

instance : MapKey BlockID where
  code b := b.round :: b.node :: Hash.code b.hash
  code_injective := by
    rintro ⟨hash, node, round⟩ ⟨hash', node', round'⟩ h
    simp only [List.cons.injEq] at h
    obtain ⟨rfl, rfl, hhash⟩ := h
    rw [Hash.code_injective hhash]

/-- A block of another node as an own block references it. -/
structure Dep where
  block : BlockID
  deps : List BlockID
  prev : BlockID
  deriving DecidableEq, Repr

/-- An own block with the blocks it references. -/
structure BlockGraph where
  block : BlockID
  deps : List Dep
  prev : BlockID
  deriving DecidableEq, Repr

/-- What is interpreted at once: a block, its predecessor and the blocks whose
messages it receives. -/
structure Entry where
  block : BlockID
  deps : List BlockID
  prev : BlockID
  deriving DecidableEq, Repr

/-- The consensus instance that decides which block of `node` stands for
`round`. -/
structure NodeRound where
  node : Nat
  round : Nat
  deriving DecidableEq, Repr

instance : MapKey NodeRound where
  code k := [k.round, k.node]
  code_injective := by
    rintro ⟨node, round⟩ ⟨node', round'⟩ h
    simp_all

/-- A proposed value of an instance in a view. -/
structure PrePrepare where
  hash : Hash
  node : Nat
  round : Nat
  view : Nat
  deriving DecidableEq, Repr

instance : MapKey PrePrepare where
  code m := m.round :: m.node :: m.view :: Hash.code m.hash
  code_injective := by
    rintro ⟨hash, node, round, view⟩ ⟨hash', node', round', view'⟩ h
    simp only [List.cons.injEq] at h
    obtain ⟨rfl, rfl, rfl, hhash⟩ := h
    rw [Hash.code_injective hhash]

/-- The fields that a Prepare, a Commit, a ViewChange and a NewView share. -/
structure Vote where
  hash : Hash
  node : Nat
  round : Nat
  sender : Nat
  view : Nat
  deriving DecidableEq, Repr

/-- The value a Prepare or a Commit votes for. -/
def Vote.pre (m : Vote) : PrePrepare := ⟨m.hash, m.node, m.round, m.view⟩

/-- The five kinds of message. -/
inductive Message
  | prePrepare (m : PrePrepare)
  | prepare (m : Vote)
  | commit (m : Vote)
  | viewChange (m : Vote)
  | newView (m : Vote)
  deriving DecidableEq, Repr

namespace Message

/-- `NodeRound`: the instance a message belongs to. -/
def nodeRound : Message → NodeRound
  | prePrepare m => ⟨m.node, m.round⟩
  | prepare m | commit m | viewChange m | newView m => ⟨m.node, m.round⟩

/-- The code of a vote message of the kind numbered `kind`. -/
def voteCode (kind : Nat) (m : Vote) : List Nat :=
  kind :: m.round :: m.node :: m.sender :: m.view :: Hash.code m.hash

/-- Equal codes of vote messages come from equal votes. -/
theorem voteCode_injective (kind : Nat) : Function.Injective (voteCode kind) := by
  rintro ⟨hash, node, round, sender, view⟩ ⟨hash', node', round', sender', view'⟩ h
  simp only [voteCode, List.cons.injEq, true_and] at h
  obtain ⟨rfl, rfl, rfl, rfl, hhash⟩ := h
  rw [Hash.code_injective hhash]

/-- The code of a message: its kind, then its fields. -/
def code : Message → List Nat
  | prePrepare m => 0 :: MapKey.code m
  | prepare m => voteCode 1 m
  | commit m => voteCode 2 m
  | viewChange m => voteCode 3 m
  | newView m => voteCode 4 m

instance : MapKey Message where
  code := code
  code_injective := by
    intro a b h
    cases a <;> cases b <;> first
      | exact absurd (List.cons.inj h).1 (by decide)
      | exact congrArg prePrepare (MapKey.code_injective (List.cons.inj h).2)
      | exact congrArg _ (voteCode_injective _ h)

end Message

end Blockmania
