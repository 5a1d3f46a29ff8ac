/-
# Messages in protobuf

The messages of the broadcast service as they are sent. Reading a block or a reference
gives back what was written, so that this is a wire in the sense of the other modules,
whatever the hash function and the signature scheme are.
-/

import Blockmania.Math.Protobuf
import Blockmania.Broadcast.Wire

namespace Blockmania.Broadcast

open Math Math.Protobuf List

def SignedData.fields (s : SignedData (List UInt8)) : List Field :=
  bytesField 1 s.data ++ bytesField 2 s.signature

def Transactions.fields (t : Transactions) : List Field :=
  numberField 1 t.count ++ bytesField 2 t.data

def BlockReference.fields (ref : BlockReference) : List Field :=
  bytesField 1 ref.hash ++ numberField 2 ref.node ++ numberField 3 ref.round

def Block.fields (b : Block (List UInt8)) : List Field :=
  numberField 1 b.node ++ (b.previous.toList.map SignedData.fields).map (messageField 2) ++
    (b.references.map SignedData.fields).map (messageField 3) ++ numberField 4 b.round ++
    (b.transactions.toList.map Transactions.fields).map (messageField 5)

/-- `ListBlocks`. -/
def listBlocks (blocks : List (SignedData (List UInt8))) : List Field :=
  (blocks.map SignedData.fields).map (messageField 1)

/-- The opcodes. -/
inductive OP
  | unknown
  | ackBroadcast
  | broadcast
  | getBlocks
  | getRounds
  | listBlocks
  deriving DecidableEq, Repr

/-- The number of an opcode. -/
def OP.toInt32 : OP → Int32
  | unknown => 0
  | ackBroadcast => 1
  | broadcast => 2
  | getBlocks => 3
  | getRounds => 4
  | listBlocks => 5

/-- A message between two services. -/
structure Message where
  id : UInt64
  error : String
  opcode : Int32
  payload : List UInt8

/-- A number of 32 bits is written as one of 64 bits. -/
def Message.fields (m : Message) : List Field :=
  numberField 1 m.id.toNat ++ bytesField 2 m.error.toUTF8.data.toList ++
    numberField 3 m.opcode.toInt64.toUInt64.toNat ++ bytesField 4 m.payload

/-- A message with the given opcode and payload. -/
def Message.of (op : OP) (payload : List UInt8) : Message := ⟨0, "", op.toInt32, payload⟩

def readSigned (bs : List UInt8) : Option (SignedData (List UInt8)) :=
  (decode bs).map fun fields => ⟨getBytes 1 fields, getBytes 2 fields⟩

def readTransactions (bs : List UInt8) : Option Transactions :=
  (decode bs).map fun fields => ⟨getNumber 1 fields, getBytes 2 fields⟩

def readReference (bs : List UInt8) : Option BlockReference :=
  (decode bs).map fun fields => ⟨getBytes 1 fields, getNumber 2 fields, getNumber 3 fields⟩

/-- A message that may be missing. -/
def readOptional {α : Type} (read : List UInt8 → Option α) : Option (List UInt8) → Option (Option α)
  | none => some none
  | some bs => (read bs).map some

def readBlock (bs : List UInt8) : Option (Block (List UInt8)) := do
  let fields ← decode bs
  let previous ← readOptional readSigned (getMessage 2 fields)
  let references ← (bytesAt 3 fields).mapM readSigned
  let transactions ← readOptional readTransactions (getMessage 5 fields)
  return ⟨getNumber 1 fields, previous, references, getNumber 4 fields, transactions⟩

/-- What was left out is put back. -/
theorem getD_bytes (bs : List UInt8) : ((if bs ≠ [] then [bs] else []).getLast?).getD [] = bs := by
  split
  · rfl
  · rename_i h
    rw [not_not.mp h]
    rfl

theorem getD_number (n : Nat) : ((if n ≠ 0 then [n] else []).getLast?).getD 0 = n := by
  split
  · rfl
  · rename_i h
    rw [not_not.mp h]
    rfl

theorem readSigned_encode (s : SignedData (List UInt8)) :
    readSigned (encode s.fields) = some s := by
  have hdata := getD_bytes s.data
  have hsignature := getD_bytes s.signature
  rw [readSigned, decode_encode, Option.map_some]
  simp only [SignedData.fields, getBytes, bytesAt_append, bytesAt_bytesField]
  simp only [Nat.reduceEqDiff, true_and, false_and, if_false, append_nil, nil_append,
    hdata, hsignature]

theorem readTransactions_encode (t : Transactions) :
    readTransactions (encode t.fields) = some t := by
  have hcount := getD_number t.count
  have hdata := getD_bytes t.data
  rw [readTransactions, decode_encode, Option.map_some]
  simp only [Transactions.fields, getBytes, getNumber, bytesAt_append, numbersAt_append,
    bytesAt_bytesField, bytesAt_numberField, numbersAt_bytesField, numbersAt_numberField, true_and,
    append_nil, nil_append, hcount, hdata]

theorem readReference_encode (ref : BlockReference) :
    readReference (encode ref.fields) = some ref := by
  have hhash := getD_bytes ref.hash
  have hnode := getD_number ref.node
  have hround := getD_number ref.round
  rw [readReference, decode_encode, Option.map_some]
  simp only [BlockReference.fields, getBytes, getNumber, bytesAt_append, numbersAt_append,
    bytesAt_bytesField, bytesAt_numberField, numbersAt_bytesField, numbersAt_numberField,
    Nat.reduceEqDiff, true_and, false_and, if_false, append_nil, nil_append, hhash, hnode,
    hround]

/-- A message that may be missing is read as it was written. -/
theorem readOptional_of {α : Type} {read : List UInt8 → Option α} {write : α → List Field}
    (hread : ∀ x, read (encode (write x)) = some x) (x : Option α) {k : Nat} {fields : List Field}
    (hfields : bytesAt k fields = (x.toList.map write).map encode) :
    readOptional read (getMessage k fields) = some x := by
  cases x with
  | none =>
    have hnone : bytesAt k fields = [] := hfields
    rw [getMessage, if_pos hnone]
    rfl
  | some x =>
    have hone : bytesAt k fields = [encode (write x)] := hfields
    rw [getMessage, hone, if_neg (cons_ne_nil _ _), flatten_cons, flatten_nil,
      append_nil, readOptional, hread]
    rfl

theorem mapM_readSigned (ss : List (SignedData (List UInt8))) :
    ((ss.map SignedData.fields).map encode).mapM readSigned = some ss := by
  induction ss with
  | nil => rfl
  | cons s ss ih =>
    rw [map_cons, map_cons, mapM_cons, ih, readSigned_encode]
    rfl

/-- A block is read as it was written. -/
theorem readBlock_encode (b : Block (List UInt8)) : readBlock (encode b.fields) = some b := by
  have hnode : getNumber 1 b.fields = b.node := by
    simp only [getNumber, Block.fields, numbersAt_append, numbersAt_numberField, numbersAt_messages,
      Nat.reduceEqDiff, true_and, false_and, if_false, append_nil]
    exact getD_number b.node
  have hround : getNumber 4 b.fields = b.round := by
    simp only [getNumber, Block.fields, numbersAt_append, numbersAt_numberField, numbersAt_messages,
      Nat.reduceEqDiff, true_and, false_and, if_false, append_nil, nil_append]
    exact getD_number b.round
  have hat : ∀ k, bytesAt k b.fields =
      (if 2 = k then (b.previous.toList.map SignedData.fields).map encode else []) ++
        (if 3 = k then (b.references.map SignedData.fields).map encode else []) ++
        (if 5 = k then (b.transactions.toList.map Transactions.fields).map encode else []) := by
    intro k
    simp only [Block.fields, bytesAt_append, bytesAt_numberField, bytesAt_messages, nil_append,
      append_nil]
  have hprevious := readOptional_of readSigned_encode b.previous ((hat 2).trans (by simp))
  have hreferences : (bytesAt 3 b.fields).mapM readSigned = some b.references := by
    have hbytes : bytesAt 3 b.fields = (b.references.map SignedData.fields).map encode :=
      (hat 3).trans (by simp)
    rw [hbytes, mapM_readSigned]
  have htransactions := readOptional_of readTransactions_encode b.transactions
    ((hat 5).trans (by simp))
  rw [readBlock, decode_encode]
  simp only [Option.bind_eq_bind, Option.bind_some, hprevious, hreferences, htransactions, hnode,
    hround]
  rfl

/-- The wire in protobuf with the given hash function and signatures. -/
def protoWire (digest : List UInt8 → Hash) (hdigest : ∀ data, (digest data).length = 32)
    (keys : List Nat) (sign : Nat → List UInt8 → List UInt8) : Wire (List UInt8) where
  size := List.length
  marshalBlock block := encode block.fields
  unmarshalBlock := readBlock
  marshalReference ref := encode ref.fields
  unmarshalReference := readReference
  digest
  keys
  sign
  verify node data signature := signature = sign node data
  unmarshalBlock_marshalBlock := readBlock_encode
  unmarshalReference_marshalReference := readReference_encode
  length_digest := hdigest
  verify_sign node data := by simp

end Blockmania.Broadcast
