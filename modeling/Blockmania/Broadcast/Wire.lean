/-
# Blocks on the wire

Nodes exchange signed blocks. A block names its author, its round, the block
before it and the blocks it references, and the latter two come as references
signed by the authors of the blocks they stand for. `accept` is what a node
checks before it stores a block, and `BlockData` is what it keeps of it.

How messages are encoded, hashed and signed is left open. A `Wire` is any way to
do so in which decoding undoes encoding and a signature verifies on what was signed.
`plainWire` is one that computes.
-/

import Blockmania.Interpreter.Loops

namespace Blockmania.Broadcast

open Math

/-- What a program is stopped for. -/
inductive Fault
  | indexOutOfRange
  | nilPointer
  /-- `log.Fatal`. -/
  | fatal
  deriving DecidableEq, Repr

/-- A reference to a block. -/
structure BlockReference where
  hash : Hash
  node : Nat
  round : Nat
  deriving DecidableEq, Repr

/-- The id of the block a reference stands for. -/
def BlockReference.id (ref : BlockReference) : BlockID := ⟨ref.hash, ref.node, ref.round⟩

/-- An encoded block or block reference with a signature. -/
structure SignedData (β : Type) where
  data : β
  signature : β
  deriving DecidableEq, Repr

/-- The transactions of a block, one after another. -/
structure Transactions where
  count : Nat
  data : List UInt8
  deriving DecidableEq, Repr

structure Block (β : Type) where
  node : Nat
  previous : Option (SignedData β)
  references : List (SignedData β)
  round : Nat
  transactions : Option Transactions
  deriving DecidableEq, Repr

/-- How messages are encoded, hashed and signed. `sign` and `verify` stand for
the keys of the given node; `keys` lists the nodes whose public keys are known,
and is the same at every node. -/
structure Wire (β : Type) where
  size : β → Nat
  marshalBlock : Block β → β
  unmarshalBlock : β → Option (Block β)
  marshalReference : BlockReference → β
  unmarshalReference : β → Option BlockReference
  /-- SHA-512/256. -/
  digest : β → Hash
  keys : List Nat
  sign : Nat → β → β
  verify : Nat → β → β → Bool
  unmarshalBlock_marshalBlock : ∀ block, unmarshalBlock (marshalBlock block) = some block
  unmarshalReference_marshalReference : ∀ ref, unmarshalReference (marshalReference ref) = some ref
  length_digest : ∀ data, (digest data).length = 32
  verify_sign : ∀ node data, verify node data (sign node data) = true

variable {β : Type}

/-- `Size` of signed data, roughly in bytes. -/
def SignedData.size (wire : Wire β) (signed : SignedData β) : Nat :=
  wire.size signed.data + wire.size signed.signature + 100

/-- What a node keeps of a block of another node until it is included. -/
structure BlockData (β : Type) where
  deps : List BlockID
  id : BlockID
  prev : BlockID
  ref : SignedData β
  deriving DecidableEq, Repr

/-- The errors of `processBlock`. -/
inductive Rejection
  /-- The error of the decoder. -/
  | undecodable
  | unknownNode (node : Nat)
  | badSignature (round node : Nat)
  | nilPrevious (round node : Nat)
  | badPreviousSignature (round node : Nat)
  | previousNode (round node : Nat)
  | previousRound (round node : Nat)
  | undecodableReference (i round node : Nat)
  | unknownReferenceNode (other i round node : Nat)
  | badReferenceSignature (i round node : Nat)
  | sameNode (i round node : Nat)
  deriving DecidableEq, Repr

/-- The text of an error. That of the decoder is its own. -/
def Rejection.text : Rejection → String
  | undecodable => ""
  | unknownNode node => s!"broadcast: unable to find signing.key for node {node}"
  | badSignature round node =>
    s!"broadcast: unable to verify signature for block {round} from node {node}"
  | nilPrevious round node => s!"broadcast: nil previous block on block {round} from node {node}"
  | badPreviousSignature round node =>
    s!"broadcast: unable to verify signature for previous block on block {round} from node {node}"
  | previousNode round node =>
    s!"broadcast: previous block node does not match on block {round} from node {node}"
  | previousRound round node =>
    s!"broadcast: previous block round is invalid on block {round} from node {node}"
  | undecodableReference i round node =>
    s!"broadcast: unable to decode block reference at position {i} for block {round} from node {node}"
  | unknownReferenceNode other i round node =>
    s!"broadcast: unable to find signing.key for node {other} in block reference {i} for block " ++
      s!"{round} from node {node}"
  | badReferenceSignature i round node =>
    s!"broadcast: unable to verify signature for block reference {i} for block {round} from node " ++
      s!"{node}"
  | sameNode i round node =>
    s!"broadcast: block references includes a block from same node in block reference {i} for block " ++
      s!"{round} from node {node}"

namespace Wire

variable (wire : Wire β)

/-- The reference to a block with the given encoding. -/
def reference (data : β) (block : Block β) : BlockReference :=
  ⟨wire.digest data, block.node, block.round⟩

/-- A block as its author signs it. -/
def signBlock (block : Block β) : SignedData β :=
  let data := wire.marshalBlock block
  ⟨data, wire.sign block.node (wire.marshalReference (wire.reference data block))⟩

/-- The checks on the previous block. A block of round 1 has none. -/
def checkPrevious (block : Block β) : Except Rejection BlockID :=
  if block.round = 1 then .ok .zero
  else
    match block.previous with
    | none => .error (.nilPrevious block.round block.node)
    | some previous =>
      if ¬ wire.verify block.node previous.data previous.signature then
        .error (.badPreviousSignature block.round block.node)
      else
        match wire.unmarshalReference previous.data with
        | none => .error .undecodable
        | some prev =>
          if prev.node ≠ block.node then .error (.previousNode block.round block.node)
          else if u64 (prev.round + 1) ≠ block.round then .error (.previousRound block.round block.node)
          else .ok prev.id

/-- The checks on the reference at position `i`. -/
def checkReference (block : Block β) (i : Nat) (sref : SignedData β) : Except Rejection BlockID :=
  match wire.unmarshalReference sref.data with
  | none => .error (.undecodableReference i block.round block.node)
  | some ref =>
    if ref.node ∉ wire.keys then .error (.unknownReferenceNode ref.node i block.round block.node)
    else if ¬ wire.verify ref.node sref.data sref.signature then
      .error (.badReferenceSignature i block.round block.node)
    else if ref.node = block.node then .error (.sameNode i block.round block.node)
    else .ok ref.id

/-- The checks on the references from position `i` on. -/
def checkReferences (block : Block β) : Nat → List (SignedData β) → Except Rejection (List BlockID)
  | _, [] => .ok []
  | i, sref :: srefs => do
    let dep ← wire.checkReference block i sref
    let deps ← checkReferences block (i + 1) srefs
    return dep :: deps

/-- `processBlock`, up to storing the block. -/
def accept (signed : SignedData β) : Except Rejection (BlockData β) :=
  match wire.unmarshalBlock signed.data with
  | none => .error .undecodable
  | some block =>
    if block.node ∉ wire.keys then .error (.unknownNode block.node)
    else
      let ref := wire.reference signed.data block
      let enc := wire.marshalReference ref
      if ¬ wire.verify block.node enc signed.signature then
        .error (.badSignature block.round block.node)
      else do
        let prev ← wire.checkPrevious block
        let deps ← wire.checkReferences block 0 block.references
        return ⟨deps, ref.id, prev, ⟨enc, signed.signature⟩⟩

variable {wire}

/-- An accepted reference is a signed one of another node. -/
theorem of_checkReference {block : Block β} {i : Nat} {sref : SignedData β} {dep : BlockID}
    (h : wire.checkReference block i sref = .ok dep) :
    ∃ ref, wire.unmarshalReference sref.data = some ref ∧ ref.node ∈ wire.keys ∧
      wire.verify ref.node sref.data sref.signature = true ∧ ref.node ≠ block.node ∧ dep = ref.id := by
  unfold checkReference at h
  split at h
  · cases h
  rename_i ref href
  split at h
  · cases h
  rename_i hknown
  split at h
  · cases h
  rename_i hverify
  split at h
  · cases h
  rename_i hother
  cases h
  exact ⟨ref, href, not_not.mp hknown, not_not.mp hverify, hother, rfl⟩

/-- A list of references passes if each of them does. -/
theorem exists_checkReferences {block : Block β} {srefs : List (SignedData β)}
    (h : ∀ sref ∈ srefs, ∀ i, ∃ dep, wire.checkReference block i sref = .ok dep) :
    ∀ i, ∃ deps, wire.checkReferences block i srefs = .ok deps := by
  induction srefs with
  | nil => exact fun i => ⟨[], rfl⟩
  | cons sref srefs ih =>
    intro i
    obtain ⟨dep, hdep⟩ := h sref List.mem_cons_self i
    obtain ⟨deps, hdeps⟩ := ih (fun sref' hsref' => h sref' (List.mem_cons_of_mem _ hsref')) (i + 1)
    exact ⟨dep :: deps, bind_eq_ok.mpr ⟨dep, hdep, bind_eq_ok.mpr ⟨deps, hdeps, rfl⟩⟩⟩

variable (wire) in
/-- What is known of a block once it was accepted: its hash is a digest, and its
author has signed the reference to it. -/
structure Vouched (info : BlockData β) : Prop where
  length : info.id.hash.length = 32
  node : info.id.node ∈ wire.keys
  ref : wire.unmarshalReference info.ref.data = some ⟨info.id.hash, info.id.node, info.id.round⟩
  signature : wire.verify info.id.node info.ref.data info.ref.signature = true

/-- Only blocks signed by their authors are accepted. -/
theorem vouched_of_accept {signed : SignedData β} {info : BlockData β}
    (h : wire.accept signed = .ok info) : wire.Vouched info := by
  unfold accept at h
  split at h
  · cases h
  rename_i block hblock
  split at h
  · cases h
  rename_i hknown
  dsimp only at h
  split at h
  · cases h
  rename_i hverify
  obtain ⟨prev, -, h⟩ := bind_eq_ok.mp h
  obtain ⟨deps, -, h⟩ := bind_eq_ok.mp h
  cases h
  exact ⟨wire.length_digest _, not_not.mp hknown, wire.unmarshalReference_marshalReference _,
    not_not.mp hverify⟩

/-- A reference to an accepted block of another node passes. -/
theorem checkReference_of_vouched {info : BlockData β} (h : wire.Vouched info) {block : Block β}
    (hother : info.id.node ≠ block.node) (i : Nat) :
    wire.checkReference block i info.ref = .ok info.id := by
  unfold checkReference
  rw [h.ref]
  dsimp only
  rw [if_neg (not_not.mpr h.node), if_neg (not_not.mpr h.signature), if_neg hother]
  rfl

end Wire

namespace Plain

/-- Messages are lists of numbers, and a part of unknown length comes after its
length. -/
def list (xs : List Nat) : List Nat := xs.length :: xs

def readList : List Nat → Option (List Nat × List Nat)
  | [] => none
  | n :: xs => if n ≤ xs.length then some (xs.take n, xs.drop n) else none

@[simp]
theorem readList_list (xs rest : List Nat) : readList (list xs ++ rest) = some (xs, rest) := by
  simp [list, readList]

def signed (s : SignedData (List Nat)) : List Nat := list s.data ++ list s.signature

def readSigned (xs : List Nat) : Option (SignedData (List Nat) × List Nat) := do
  let (data, xs) ← readList xs
  let (signature, xs) ← readList xs
  return (⟨data, signature⟩, xs)

@[simp]
theorem readSigned_signed (s : SignedData (List Nat)) (rest : List Nat) :
    readSigned (signed s ++ rest) = some (s, rest) := by
  simp [readSigned, signed]

/-- As many signed messages as announced. -/
def readAll : Nat → List Nat → Option (List (SignedData (List Nat)) × List Nat)
  | 0, xs => some ([], xs)
  | n + 1, xs => do
    let (s, xs) ← readSigned xs
    let (ss, xs) ← readAll n xs
    return (s :: ss, xs)

@[simp]
theorem readAll_flatMap (ss : List (SignedData (List Nat))) (rest : List Nat) :
    readAll ss.length (ss.flatMap signed ++ rest) = some (ss, rest) := by
  induction ss with
  | nil => rfl
  | cons s ss ih => simp [readAll, ih]

/-- The messages of a field, which is a list of them or has at most one. -/
def block (b : Block (List Nat)) : List Nat :=
  b.node :: b.round :: b.previous.toList.length :: b.references.length :: b.transactions.toList.length ::
    (b.previous.toList.flatMap signed ++ (b.references.flatMap signed ++
      b.transactions.toList.flatMap fun t => t.count :: t.data.map UInt8.toNat))

def readBlock : List Nat → Option (Block (List Nat))
  | node :: round :: previous :: references :: transactions :: xs => do
    let (previous, xs) ← readAll previous xs
    let (references, xs) ← readAll references xs
    let transactions := match transactions, xs with
      | 0, _ | _, [] => none
      | _, count :: data => some ⟨count, data.map UInt8.ofNat⟩
    return ⟨node, previous.head?, references, round, transactions⟩
  | _ => none

theorem readBlock_block (b : Block (List Nat)) : readBlock (block b) = some b := by
  obtain ⟨node, previous, references, round, transactions⟩ := b
  have hhead : previous.toList.head? = previous := by cases previous <;> rfl
  cases transactions with
  | none =>
    have hrefs := readAll_flatMap references []
    rw [List.append_nil] at hrefs
    simp [readBlock, block, hhead, hrefs]
  | some t =>
    have hbytes : t.data.map (UInt8.ofNat ∘ UInt8.toNat) = t.data := by simp [Function.comp_def]
    simp [readBlock, block, hhead, hbytes]

def reference (ref : BlockReference) : List Nat := ref.node :: ref.round :: ref.hash.map UInt8.toNat

def readReference : List Nat → Option BlockReference
  | node :: round :: hash => some ⟨hash.map UInt8.ofNat, node, round⟩
  | _ => none

theorem readReference_reference (ref : BlockReference) : readReference (reference ref) = some ref := by
  have hbytes : ref.hash.map (UInt8.ofNat ∘ UInt8.toNat) = ref.hash := by simp [Function.comp_def]
  simp [readReference, reference, hbytes]

end Plain

/-- Numbers are written down as they are, and a signature is what was signed
together with the name of the signer. -/
def plainWire (keys : List Nat) : Wire (List Nat) where
  size := List.length
  marshalBlock := Plain.block
  unmarshalBlock := Plain.readBlock
  marshalReference := Plain.reference
  unmarshalReference := Plain.readReference
  digest data := List.replicate 31 0 ++ [UInt8.ofNat data.sum]
  keys
  sign node data := node :: data
  verify node data signature := signature = node :: data
  unmarshalBlock_marshalBlock := Plain.readBlock_block
  unmarshalReference_marshalReference := Plain.readReference_reference
  length_digest data := by simp
  verify_sign node data := by simp

end Blockmania.Broadcast
