/-
# Sizes of messages

A connection refuses a message that is larger than a limit. The sizes of blocks are only
estimated when messages are put together: a hundred bytes are added to each part for
whatever comes with it. Two kinds of messages carry blocks, the batches of new blocks and
the answers to requests for old ones, and for both the estimates turn out large enough,
except in answers if the limit on the transactions of a block is so small that it could
not have any.
-/

import Blockmania.Broadcast.Messages
import Blockmania.Broadcast.Pool
import Blockmania.Broadcast.Sending
import Blockmania.Storage.Gaps
import Mathlib.Data.UInt

namespace Blockmania.Broadcast

open Math Math.Protobuf List FiniteMap

/-- Messages are written in protobuf, and only signatures of 64 bytes verify. -/
structure Wire.IsProtobuf (wire : Wire (List UInt8)) : Prop where
  size : ∀ data, wire.size data = data.length
  marshalBlock : ∀ block, wire.marshalBlock block = encode block.fields
  marshalReference : ∀ ref, wire.marshalReference ref = encode ref.fields
  length_signature : ∀ node data signature, wire.verify node data signature = true →
    signature.length = 64

variable {wire : Wire (List UInt8)}

theorem Wire.IsProtobuf.length_sign (h : wire.IsProtobuf) (node : Nat) (data : List UInt8) :
    (wire.sign node data).length = 64 :=
  h.length_signature node data _ (wire.verify_sign node data)

/-- The bytes of signed data, with the number of bytes that its parts' lengths take. -/
theorem length_signed_le (s : SignedData (List UInt8)) :
    (encode s.fields).length ≤ 2 + (varint s.data.length).length + s.data.length +
      (varint s.signature.length).length + s.signature.length := by
  have hdata := length_bytesField_le (k := 1) (by decide) s.data
  have hsignature := length_bytesField_le (k := 2) (by decide) s.signature
  rw [SignedData.fields, length_encode_append]
  omega

variable {k maxPayload limit : Nat} {s : SignedData (List UInt8)}
  {blocks : List (SignedData (List UInt8))} {t : Transactions} {block : Block (List UInt8)}

theorem length_messageField (hk : k < 16) (fields : List Field) :
    (messageField k fields).encode.length =
      1 + (varint (encode fields).length).length + (encode fields).length :=
  length_field_bytes hk _

theorem length_encode_cons (field : Field) (fields : List Field) :
    (encode (field :: fields)).length = field.encode.length + (encode fields).length :=
  length_append

/-- The bytes of a block in a list of blocks. -/
def SignedData.entrySize (s : SignedData (List UInt8)) : Nat :=
  (messageField 1 s.fields).encode.length

theorem length_listBlocks (blocks : List (SignedData (List UInt8))) :
    (encode (listBlocks blocks)).length = (blocks.map SignedData.entrySize).sum := by
  induction blocks with
  | nil => rfl
  | cons s blocks ih =>
    rw [map_cons, sum_cons, ← ih]
    exact length_encode_cons _ _

/-- A message without an id and an error. -/
theorem length_message_le (op : OP) (payload : List UInt8) :
    (encode (Message.of op payload).fields).length ≤
      3 + (varint payload.length).length + payload.length := by
  have hid : numberField 1 (Message.of op payload).id.toNat = [] := rfl
  have herror : bytesField 2 (Message.of op payload).error.toUTF8.data.toList = [] := rfl
  have hopcode : (Message.of op payload).opcode.toInt64.toUInt64.toNat < 2 ^ (7 * 1) := by
    change op.toInt32.toInt64.toUInt64.toNat < _
    cases op <;> decide
  have hop := length_numberField_le (k := 3) (by decide) (by decide) hopcode
  have hpayload := length_bytesField_le (k := 4) (by decide) payload
  rw [Message.fields, hid, herror, length_encode_append]
  change (encode ([] ++ [] ++ _)).length + (encode (bytesField 4 payload)).length ≤ _
  rw [nil_append, nil_append]
  omega

/-- A message without a payload. -/
theorem length_message_nil_le (op : OP) : (encode (Message.of op []).fields).length ≤ 2 := by
  cases op <;> decide

namespace Sender

/-- A batch stays below the limit, as the sizes are estimated. -/
theorem sum_size_of_collect {β : Type} {wire : Wire β} (n : Nat) {i total : Nat} {s s' : Sender β}
    {blocks : List (SignedData β)} (hrun : collect wire maxPayload n i total s = .ok (blocks, s'))
    (hne : blocks ≠ []) :
    total + (blocks.map (SignedData.size wire)).sum ≤ maxPayload := by
  induction n generalizing i total s s' blocks with
  | zero =>
    cases hrun
    exact absurd rfl hne
  | succ n ih =>
    rw [collect] at hrun
    split at hrun
    · cases hrun
    rename_i block mid hblock
    dsimp only at hrun
    split at hrun
    · split at hrun
      · cases hrun
      · cases hrun
        exact absurd rfl hne
    · rename_i hle
      obtain ⟨⟨rest, last⟩, hrest, hrun⟩ := bind_eq_ok.mp hrun
      cases hrun
      rw [map_cons, sum_cons, ← Nat.add_assoc]
      by_cases hnil : rest = []
      · rw [hnil]
        exact Nat.not_lt.mp hle
      · exact ih hrest hnil

end Sender

/-- In a list a block takes less than its estimated size. -/
theorem entrySize_le (hwire : wire.IsProtobuf) (hsize : s.size wire < 2 ^ 63) :
    s.entrySize + 69 ≤ s.size wire := by
  rw [SignedData.size, hwire.size, hwire.size] at hsize ⊢
  have hdata := length_varint_le (n := s.data.length) (k := 9) (by decide) (by norm_num; omega)
  have hsignature :=
    length_varint_le (n := s.signature.length) (k := 9) (by decide) (by norm_num; omega)
  have hsigned := length_signed_le s
  have hlength := length_varint_le (n := (encode s.fields).length) (k := 10) (by decide)
    (by norm_num; omega)
  rw [SignedData.entrySize, length_messageField (by decide)]
  omega

theorem sum_entrySize_le (hwire : wire.IsProtobuf) (blocks : List (SignedData (List UInt8)))
    (hsize : (blocks.map (SignedData.size wire)).sum < 2 ^ 63) :
    (blocks.map SignedData.entrySize).sum + 69 * blocks.length ≤
      (blocks.map (SignedData.size wire)).sum := by
  induction blocks with
  | nil => rfl
  | cons s blocks ih =>
    rw [map_cons, sum_cons] at hsize ⊢
    have hs := entrySize_le hwire (s := s) (by omega)
    have hrest := ih (by omega)
    rw [map_cons, sum_cons, length_cons]
    omega

/-- A batch of new blocks fits. -/
theorem batch_fits (hwire : wire.IsProtobuf) (hmax : maxPayload < 2 ^ 63)
    {s s' : Sender (List UInt8)} (hrun : s.getUnsent wire maxPayload = .ok (blocks, s'))
    (hne : blocks ≠ []) :
    (encode (Message.of .broadcast (encode (listBlocks blocks))).fields).length ≤ maxPayload := by
  have hsum := Sender.sum_size_of_collect _ hrun hne
  have hpos := length_pos_of_ne_nil hne
  have hentries := sum_entrySize_le hwire blocks (by omega)
  have hmessage := length_message_le .broadcast (encode (listBlocks blocks))
  rw [length_listBlocks] at hmessage
  have hlength := length_varint_le (n := (blocks.map SignedData.entrySize).sum) (k := 9) (by decide)
    (by norm_num; omega)
  omega

/-- Transactions that were collected below the given limit. -/
structure Transactions.Within (limit : Nat) (t : Transactions) : Prop where
  count : t.count ≤ t.data.length
  data : t.data = [] ∨ t.data.length + 88 ≤ limit

namespace Pool

variable {β : Type}

/-- The buffer is empty or some of it is left. -/
def Spared (limit : Nat) (p : Pool β) : Prop :=
  p.txSizeLimit = limit ∧ (p.txIdx = 0 ∨ p.txIdx + 88 ≤ limit)

variable {limit : Nat} {p : Pool β}

theorem Spared.step {limit : Nat} {p p' : Pool β} (h : p.Spared limit) {work : Work β}
    (hrun : p.step work = .ok p') : p'.Spared limit := by
  cases work with
  | call caller txdata fee =>
    rw [Pool.step] at hrun
    split at hrun
    · cases hrun
      exact h
    · split at hrun
      · cases hrun
        exact h
      · cases hrun
        exact h
  | look caller =>
    rw [Pool.step] at hrun
    split at hrun
    · cases hrun
      exact h
    · cases hrun
      exact h
  | write caller =>
    rw [Pool.step] at hrun
    split at hrun
    · split at hrun
      · cases hrun
        exact h
      · rename_i hroom
        obtain ⟨p', happend, hrun⟩ := bind_eq_ok.mp hrun
        obtain ⟨txData, rfl⟩ := of_append happend
        cases hrun
        rw [h.1] at hroom
        exact ⟨h.1, .inr (by dsimp only; omega)⟩
    · cases hrun
      exact h
  | wake caller =>
    rw [Pool.step] at hrun
    split at hrun
    · split at hrun
      · cases hrun
        exact h
      · cases hrun
        exact h
    · cases hrun
      exact h
  | limit rate =>
    cases hrun
    exact h
  | generate previous references =>
    cases hrun
    exact ⟨h.1, .inl rfl⟩
  | announce =>
    cases hrun
    exact h

theorem Spared.run (works : List (Work β)) {p' : Pool β} (h : p.Spared limit)
    (hrun : p.run works = .ok p') : p'.Spared limit := by
  induction works generalizing p p' with
  | nil =>
    cases hrun
    exact h
  | cons work works ih =>
    obtain ⟨mid, hstep, hrun⟩ := bind_eq_ok.mp hrun
    exact ih (h.step hstep) hrun

/-- What is collected below a limit stays 88 bytes below it. -/
theorem buffered_within {node round : Nat} {rate : Int} {works : List (Work β)}
    (hrun : (start node round limit rate).run works = .ok p) : p.buffered.Within limit := by
  obtain ⟨p', hrun', hsound⟩ := (sound_start node round limit rate).run works
  rw [hrun] at hrun'
  cases hrun'
  obtain ⟨batches, rest, -, ⟨hcount, hdata, -⟩, -⟩ := hsound.accepted
  refine ⟨?_, ?_⟩
  · -- a transaction takes at least one byte
    rw [hcount, hdata, length_flatMap, ← length_map (fun tx => (record tx).length)]
    refine length_le_sum_of_one_le _ fun n hn => ?_
    obtain ⟨tx, -, rfl⟩ := mem_map.mp hn
    rw [record, length_append, length_littleEndianBytes]
    omega
  · have hstart : (start node round limit rate : Pool β).Spared limit := ⟨rfl, .inl rfl⟩
    obtain ⟨-, hidx⟩ := Spared.run works hstart hrun
    have hlength : p.buffered.data.length ≤ p.txIdx := length_take_le _ _
    rcases hidx with hidx | hidx
    · rw [hidx] at hlength
      exact .inl (length_eq_zero_iff.mp (Nat.le_zero.mp hlength))
    · exact .inr (by omega)

end Pool

/-- A signed reference to a block. -/
structure SignedData.IsReference (s : SignedData (List UInt8)) : Prop where
  data : ∃ ref : BlockReference, s.data = encode ref.fields ∧ ref.hash.length = 32 ∧
    ref.node < 2 ^ 64 ∧ ref.round < 2 ^ 64
  signature : s.signature.length = 64

theorem SignedData.IsReference.length_data (h : s.IsReference) :
    34 ≤ s.data.length ∧ s.data.length ≤ 56 := by
  obtain ⟨⟨ref, hdata, hhash, hnode, hround⟩, -⟩ := h
  have hne : ref.hash ≠ [] := ne_nil_of_length_pos (by omega)
  have hfirst := length_bytesField (k := 1) (by decide) hne
  rw [hhash, show (varint 32).length = 1 from rfl] at hfirst
  have hsecond := length_numberField_le (k := 2) (n := ref.node) (b := 10) (by decide) (by decide)
    (by norm_num; omega)
  have hthird := length_numberField_le (k := 3) (n := ref.round) (b := 10) (by decide) (by decide)
    (by norm_num; omega)
  rw [hdata, BlockReference.fields, length_encode_append, length_encode_append]
  omega

/-- In a block a reference takes 70 bytes with the signature. -/
theorem SignedData.IsReference.length_field (h : s.IsReference) (hk : k < 16) :
    (messageField k s.fields).encode.length = s.data.length + 70 := by
  obtain ⟨hlow, hhigh⟩ := h.length_data
  have hone : ∀ n < 128, (varint n).length = 1 := fun n hn => by
    have hle := length_varint_le (n := n) (k := 1) (by decide) (by norm_num; omega)
    have hpos := length_varint_pos n
    omega
  have hdata := length_bytesField (k := 1) (by decide)
    (ne_nil_of_length_pos (show 0 < s.data.length by omega))
  have hsignature := length_bytesField (k := 2) (by decide)
    (ne_nil_of_length_pos (show 0 < s.signature.length by rw [h.signature]; decide))
  rw [hone _ (by omega)] at hdata
  rw [h.signature, hone _ (by decide)] at hsignature
  have hsigned : (encode s.fields).length = s.data.length + 68 := by
    rw [SignedData.fields, length_encode_append]
    omega
  rw [length_messageField hk, hsigned, hone _ (by omega)]
  omega

/-- What the references of a block take, and what they were estimated to take. -/
theorem length_references (hwire : wire.IsProtobuf) (refs : List (SignedData (List UInt8)))
    (h : ∀ s ∈ refs, s.IsReference) :
    (encode ((refs.map SignedData.fields).map (messageField 3))).length + 94 * refs.length =
        (refs.map (SignedData.size wire)).sum ∧
      (encode ((refs.map SignedData.fields).map (messageField 3))).length ≤ 126 * refs.length := by
  induction refs with
  | nil => exact ⟨rfl, le_rfl⟩
  | cons s refs ih =>
    obtain ⟨hs, hrefs⟩ := forall_mem_cons.mp h
    obtain ⟨hsum, hle⟩ := ih hrefs
    have hfield := hs.length_field (k := 3) (by decide)
    obtain ⟨-, hhigh⟩ := hs.length_data
    have hsize : s.size wire = s.data.length + 164 := by
      rw [SignedData.size, hwire.size, hwire.size, hs.signature]
    simp only [map_cons, sum_cons, length_cons, length_encode_cons]
    omega

/-- A block that was put together below the given limits. -/
structure Block.Within (wire : Wire (List UInt8)) (refSizeLimit txSizeLimit : Nat)
    (block : Block (List UInt8)) : Prop where
  node : block.node < 2 ^ 64
  round : block.round < 2 ^ 64
  previous : ∀ s, block.previous = some s → s.IsReference
  references : ∀ s ∈ block.references, s.IsReference
  limit : (block.references.map (SignedData.size wire)).sum ≤ refSizeLimit
  transactions : ∃ t, block.transactions = some t ∧ t.Within txSizeLimit

/-- The transactions of a block take two bytes if there are none. -/
theorem Transactions.Within.length_field (h : t.Within limit) (hlimit : limit < 2 ^ 63) :
    (messageField 5 t.fields).encode.length ≤ 2 ∨
      (messageField 5 t.fields).encode.length + 58 ≤ limit := by
  have hcount := h.count
  rw [length_messageField (by decide)]
  rcases h.data with hdata | hdata
  · have hzero : t.count = 0 := by
      rw [hdata] at hcount
      exact Nat.le_zero.mp hcount
    have hfields : t.fields = [] := by
      rw [Transactions.fields, hzero, hdata]
      rfl
    rw [hfields]
    exact .inl (by decide)
  · have hfirst := length_numberField_le (k := 1) (n := t.count) (b := 9) (by decide) (by decide)
      (by norm_num; omega)
    have hsecond := length_bytesField_le (k := 2) (by decide) t.data
    have hbytes := length_varint_le (n := t.data.length) (k := 9) (by decide) (by norm_num; omega)
    have hfields : (encode t.fields).length ≤ t.data.length + 20 := by
      rw [Transactions.fields, length_encode_append]
      omega
    have hlength := length_varint_le (n := (encode t.fields).length) (k := 9) (by decide)
      (by norm_num; omega)
    exact .inr (by omega)

theorem length_previous {previous : Option (SignedData (List UInt8))}
    (h : ∀ s, previous = some s → s.IsReference) :
    (encode ((previous.toList.map SignedData.fields).map (messageField 2))).length ≤ 126 := by
  cases previous with
  | none => exact Nat.zero_le _
  | some s =>
    have hs := h s rfl
    obtain ⟨-, hhigh⟩ := hs.length_data
    have hfield := hs.length_field (k := 2) (by decide)
    have hone : encode (((some s).toList.map SignedData.fields).map (messageField 2)) =
        (messageField 2 s.fields).encode := append_nil _
    rw [hone]
    omega

/-- The size of a block, from the sizes of its references and of its transactions. -/
theorem Block.Within.length_le {refSizeLimit txSizeLimit : Nat}
    (h : block.Within wire refSizeLimit txSizeLimit) (ht : block.transactions = some t) :
    (encode block.fields).length ≤
      148 + (encode ((block.references.map SignedData.fields).map (messageField 3))).length +
        (messageField 5 t.fields).encode.length := by
  have hnode := length_numberField_le (k := 1) (n := block.node) (b := 10) (by decide) (by decide)
    (h.node.trans (by norm_num))
  have hround := length_numberField_le (k := 4) (n := block.round) (b := 10) (by decide) (by decide)
    (h.round.trans (by norm_num))
  have hprevious := length_previous h.previous
  have htransactions : encode ((block.transactions.toList.map Transactions.fields).map
      (messageField 5)) = (messageField 5 t.fields).encode := by
    rw [ht]
    exact append_nil _
  rw [Block.fields, length_encode_append, length_encode_append, length_encode_append,
    length_encode_append, htransactions]
  omega

/-- What an own block takes in a list of blocks. A block with a single reference and
without transactions comes closest to what is set aside for it. -/
theorem Block.Within.entrySize_le (hwire : wire.IsProtobuf) {refSizeLimit txSizeLimit : Nat}
    (h : block.Within wire refSizeLimit txSizeLimit) (hrefs : 198 ≤ refSizeLimit)
    (htxs : 33 ≤ txSizeLimit) (hlimits : refSizeLimit + txSizeLimit + 100 < 2 ^ 63) :
    (wire.signBlock block).entrySize ≤ 348 ∧
        (wire.signBlock block).entrySize + 5 ≤ refSizeLimit + txSizeLimit + 100 ∨
      (wire.signBlock block).entrySize + 12 ≤ refSizeLimit + txSizeLimit + 100 := by
  obtain ⟨t, ht, hwithin⟩ := h.transactions
  obtain ⟨hsum, hmost⟩ := length_references hwire block.references h.references
  have hlimit := h.limit
  have hblock := h.length_le ht
  have htransactions := hwithin.length_field (by omega)
  have hdata : (wire.signBlock block).data.length = (encode block.fields).length := by
    rw [Wire.signBlock, hwire.marshalBlock]
  have hsignature : (wire.signBlock block).signature.length = 64 := hwire.length_sign _ _
  have hsigned := length_signed_le (wire.signBlock block)
  rw [hdata, hsignature, show (varint 64).length = 1 from rfl] at hsigned
  rw [SignedData.entrySize, length_messageField (by decide)]
  generalize (encode block.fields).length = d at hblock hsigned
  generalize (encode (wire.signBlock block).fields).length = e at hsigned
  generalize (encode ((block.references.map SignedData.fields).map (messageField 3))).length = q
    at hsum hmost hblock
  generalize (messageField 5 t.fields).encode.length = x at hblock htransactions
  generalize block.references.length = k at hsum hmost
  have hk : k = 0 ∨ k = 1 ∨ 2 ≤ k := by omega
  -- a block with at most one reference and no transactions is small
  by_cases hsmall : k ≤ 1 ∧ x ≤ 2
  · have hd := length_varint_le (n := d) (k := 2) (by decide) (by norm_num; omega)
    have he := length_varint_le (n := e) (k := 2) (by decide) (by norm_num; omega)
    omega
  · have hd := length_varint_le (n := d) (k := 9) (by decide) (by norm_num; omega)
    have he := length_varint_le (n := e) (k := 9) (by decide) (by norm_num; omega)
    omega

/-! ## Answers -/

/-- How `handleGetRounds` answers with the blocks it has found. -/
def answer (blocks : List (SignedData (List UInt8))) : Message :=
  .of .listBlocks (encode (listBlocks blocks))

/-- `maxBlocks`, as `New` sets it. -/
def maxBlocks (maxPayload refSizeLimit txSizeLimit : Nat) : Nat :=
  maxPayload / (refSizeLimit + txSizeLimit + 100)

/-- Small blocks leave room enough in a list for its own length. -/
theorem list_fits (hne : blocks ≠ [])
    (h : ∀ s ∈ blocks, s.entrySize ≤ 348 ∧ s.entrySize + 5 ≤ limit ∨ s.entrySize + 12 ≤ limit)
    (hlimit : blocks.length * limit < 2 ^ 63) :
    3 + (varint (blocks.map SignedData.entrySize).sum).length +
      (blocks.map SignedData.entrySize).sum ≤ blocks.length * limit := by
  have hsum : ∀ rest : List (SignedData (List UInt8)),
      (∀ s ∈ rest, s.entrySize ≤ 348 ∧ s.entrySize + 5 ≤ limit ∨ s.entrySize + 12 ≤ limit) →
      (rest.map SignedData.entrySize).sum + 5 * rest.length ≤ rest.length * limit := by
    intro rest hrest
    induction rest with
    | nil => simp
    | cons s rest ih =>
      obtain ⟨hs, hrest⟩ := forall_mem_cons.mp hrest
      have hrest := ih hrest
      rw [map_cons, sum_cons, length_cons, Nat.add_mul]
      omega
  have hlarge := hsum blocks h
  have hnine := length_varint_le (n := (blocks.map SignedData.entrySize).sum) (k := 9) (by decide)
    (by norm_num; omega)
  match blocks, hne with
  | [s], _ =>
    have hs := h s mem_cons_self
    simp only [map_cons, map_nil, sum_cons, sum_nil, length_cons,
      length_nil, Nat.add_zero, Nat.zero_add, Nat.one_mul] at hnine ⊢
    rcases hs with ⟨hsmall, hs⟩ | hs
    · have htwo := length_varint_le (n := s.entrySize) (k := 2) (by decide) (by norm_num; omega)
      omega
    · omega
  | [s, s'], _ =>
    have hs := h s mem_cons_self
    have hs' := h s' (mem_cons_of_mem _ mem_cons_self)
    simp only [map_cons, map_nil, sum_cons, sum_nil, length_cons,
      length_nil, Nat.add_zero, Nat.zero_add] at hnine ⊢
    by_cases hsmall : s.entrySize ≤ 348 ∧ s'.entrySize ≤ 348
    · have htwo := length_varint_le (n := s.entrySize + s'.entrySize) (k := 2) (by decide)
        (by norm_num; omega)
      omega
    · omega
  | s :: s' :: s'' :: rest, _ =>
    simp only [length_cons] at hlarge
    simp only [length_cons] at ⊢
    omega

/-- An answer with own blocks fits. -/
theorem answer_fits (hwire : wire.IsProtobuf) {refSizeLimit txSizeLimit : Nat}
    (hmax : maxPayload < 2 ^ 63) (htwo : 2 ≤ maxPayload) (hrefs : 198 ≤ refSizeLimit)
    (htxs : 33 ≤ txSizeLimit) {getOwnBlock : Nat → Option (SignedData (List UInt8))}
    (hown : ∀ round signed, getOwnBlock round = some signed →
      ∃ block, block.Within wire refSizeLimit txSizeLimit ∧ signed = wire.signBlock block)
    {rounds : List Nat}
    (hanswer : handleGetRounds (maxBlocks maxPayload refSizeLimit txSizeLimit) getOwnBlock rounds =
      .ok blocks) : (encode (answer blocks).fields).length ≤ maxPayload := by
  rw [handleGetRounds] at hanswer
  split at hanswer
  · cases hanswer
  rename_i hrequested
  cases hanswer
  generalize hblocks : rounds.filterMap getOwnBlock = blocks
  rcases eq_or_ne blocks [] with rfl | hne
  · exact (length_message_nil_le .listBlocks).trans htwo
  · have hcount : blocks.length ≤ maxBlocks maxPayload refSizeLimit txSizeLimit := by
      rw [← hblocks]
      exact (length_filterMap_le _ _).trans (Nat.not_lt.mp hrequested)
    have hroom : blocks.length * (refSizeLimit + txSizeLimit + 100) ≤ maxPayload :=
      (Nat.le_div_iff_mul_le (by omega)).mp hcount
    have hpos := length_pos_of_ne_nil hne
    have hlimits : refSizeLimit + txSizeLimit + 100 ≤ maxPayload :=
      (Nat.le_mul_of_pos_left _ hpos).trans hroom
    have hentries : ∀ s ∈ blocks, s.entrySize ≤ 348 ∧
        s.entrySize + 5 ≤ refSizeLimit + txSizeLimit + 100 ∨
        s.entrySize + 12 ≤ refSizeLimit + txSizeLimit + 100 := by
      intro s hs
      rw [← hblocks] at hs
      obtain ⟨round, -, hround⟩ := mem_filterMap.mp hs
      obtain ⟨block, hblock, rfl⟩ := hown round s hround
      exact hblock.entrySize_le hwire hrefs htxs (by omega)
    have hmessage := length_message_le .listBlocks (encode (listBlocks blocks))
    rw [length_listBlocks] at hmessage
    exact hmessage.trans ((list_fits hne hentries (by omega)).trans hroom)

/-- A piece of work of a node with the given limits. What it receives has numbers of 64
bits, and the transactions of a block are what was collected for it. -/
def Step.Within (wire : Wire (List UInt8)) (refSizeLimit txSizeLimit : Nat) :
    Step (List UInt8) → Prop
  | .receive signed => ∀ block, wire.unmarshalBlock signed.data = some block →
    block.node < 2 ^ 64 ∧ block.round < 2 ^ 64
  | .collect limit => limit = refSizeLimit
  | .commit transactions => ∃ (node round : Nat) (rate : Int) (works : List (Work (List UInt8)))
    (p : Pool (List UInt8)), (Pool.start node round txSizeLimit rate).run works = .ok p ∧
      p.buffered = transactions
  | _ => True

/-- The blocks that are referenced stay below the limit, as their sizes are estimated. -/
theorem Depgraph.sum_size_of_fitting {β : Type} (wire : Wire β) (limit : Nat)
    (blocks : List (BlockData β)) (total : Nat) (htotal : total ≤ limit) :
    total + ((blocks.take (fitting wire limit total blocks)).map fun info =>
      info.ref.size wire).sum ≤ limit := by
  induction blocks generalizing total with
  | nil => exact htotal
  | cons block blocks ih =>
    rw [fitting]
    split
    · exact htotal
    · rename_i hle
      have hrest := ih _ (Nat.not_lt.mp hle)
      rw [take_succ_cons, map_cons, sum_cons]
      omega

namespace Node

/-- Signed data of which a reference can be made. -/
def Referenced (wire : Wire (List UInt8)) (signed : SignedData (List UInt8)) : Prop :=
  signed.signature.length = 64 ∧ ∀ block, wire.unmarshalBlock signed.data = some block →
    block.node < 2 ^ 64 ∧ block.round < 2 ^ 64

/-- The invariant of a node with the given limits. -/
structure Measured (wire : Wire (List UInt8)) (refSizeLimit txSizeLimit : Nat)
    (n : Node (List UInt8)) : Prop
    extends Holds (fun info => info.ref.IsReference) (fun info => info.ref.IsReference) n where
  self : n.depgraph.self < 2 ^ 64
  stored : ∀ (id : BlockID) (signed : SignedData (List UInt8)), n.db.blocks[id]? = some signed →
    Referenced wire signed
  last : ∀ ref, n.db.lastRef = some ref → ref.IsReference
  limit : ∀ refs, n.gen = .collected refs →
    (refs.map fun info => info.ref.size wire).sum ≤ refSizeLimit
  produced : ∀ block ∈ n.produced, block.Within wire refSizeLimit txSizeLimit

variable {refSizeLimit txSizeLimit : Nat} {n n' : Node (List UInt8)}

theorem measured_start {self : Nat} (hself : self < 2 ^ 64) :
    (start self).Measured wire refSizeLimit txSizeLimit := by
  refine ⟨holds_start self _ _, hself, ?_, ?_, ?_, ?_⟩ <;> simp [start, Database.empty]

/-- The reference to a block, with a signature. -/
theorem isReference_of (hwire : wire.IsProtobuf) (hnode : block.node < 2 ^ 64)
    (hround : block.round < 2 ^ 64) (data : List UInt8) {signature : List UInt8}
    (hsignature : signature.length = 64) :
    SignedData.IsReference ⟨wire.marshalReference (wire.reference data block), signature⟩ :=
  ⟨⟨_, hwire.marshalReference _, wire.length_digest _, hnode, hround⟩, hsignature⟩

variable {info : BlockData (List UInt8)} {signed : SignedData (List UInt8)}

/-- A reference is made of stored data. -/
theorem Referenced.isReference (hwire : wire.IsProtobuf) (h : Referenced wire signed)
    (hinfo : getBlockData wire signed = .ok info) : info.ref.IsReference := by
  unfold getBlockData at hinfo
  split at hinfo
  · cases hinfo
  rename_i block hblock
  obtain ⟨prev, -, hinfo⟩ := bind_eq_ok.mp hinfo
  obtain ⟨deps, -, hinfo⟩ := bind_eq_ok.mp hinfo
  cases hinfo
  obtain ⟨hnode, hround⟩ := h.2 block hblock
  exact isReference_of hwire hnode hround signed.data h.1

/-- Accepted data has a signature of its author. -/
theorem referenced_of_accept (hwire : wire.IsProtobuf) (haccept : wire.accept signed = .ok info)
    (hbits : ∀ block, wire.unmarshalBlock signed.data = some block →
      block.node < 2 ^ 64 ∧ block.round < 2 ^ 64) : Referenced wire signed := by
  obtain ⟨-, block, -, -, hverify⟩ := getBlockData_of_accept haccept
  exact ⟨hwire.length_signature _ _ _ hverify, hbits⟩

/-- The next own block. -/
theorem Measured.ownBlock (h : n.Measured wire refSizeLimit txSizeLimit)
    {refs : List (BlockData (List UInt8))} (hgen : n.gen = .collected refs)
    (ht : t.Within txSizeLimit) : (n.ownBlock refs t).Within wire refSizeLimit txSizeLimit where
  node := h.self
  round := Nat.mod_lt _ (by decide)
  previous := h.last
  references := by
    intro s hs
    obtain ⟨info, hinfo, rfl⟩ := mem_map.mp hs
    refine h.refs info ?_
    rw [hgen]
    exact hinfo
  limit := by
    have hlimit := h.limit refs hgen
    simpa [Node.ownBlock, Function.comp_def] using hlimit
  transactions := ⟨t, rfl, ht⟩

theorem measured_step (hwire : wire.IsProtobuf) {s : Step (List UInt8)}
    (hs : s.Within wire refSizeLimit txSizeLimit) (h : n.Measured wire refSizeLimit txSizeLimit)
    (hrun : n.step wire s = .ok n') : n'.Measured wire refSizeLimit txSizeLimit := by
  have hchanges := changes_of_step hrun
  have hself : n'.depgraph.self < 2 ^ 64 := (self_of_changes hchanges).symm ▸ h.self
  have hholds : n'.Holds (fun info => info.ref.IsReference) (fun info => info.ref.IsReference) := by
    apply h.toHolds.changes hchanges
    · rintro signed info haccept rfl _
      exact (referenced_of_accept hwire haccept hs).isReference hwire
        (getBlockData_of_accept haccept).1
    · exact fun _ _ href _ => href
    · intro infos hinfos info hinfo
      obtain ⟨id, -, signed, hsigned, hdata⟩ := of_getNotIncluded hinfos info hinfo
      exact (h.stored id signed hsigned).isReference hwire hdata
  cases hchanges with
  | received haccept =>
    refine { h with toHolds := hholds, self := hself, stored := fun id signed' hsigned' => ?_, last := ?_ }
    · dsimp only [Database.setBlock] at hsigned'
      split at hsigned'
      · exact h.stored id signed' hsigned'
      · dsimp only at hsigned'
        rw [lookup_insert] at hsigned'
        split at hsigned'
        · cases hsigned'
          exact referenced_of_accept hwire haccept hs
        · exact h.stored id signed' hsigned'
    · dsimp only [Database.setBlock]
      split
      · exact h.last
      · exact h.last
  | collected hidx hgen =>
    refine { h with toHolds := hholds, limit := fun refs hrefs => ?_ }
    cases hrefs
    have hlimit : _ = refSizeLimit := hs
    have hsum := Depgraph.sum_size_of_fitting wire refSizeLimit n.depgraph.blocks 0 (Nat.zero_le _)
    rw [Nat.zero_add] at hsum
    rw [hidx, hlimit]
    exact hsum
  | committed hgen hblock hsigned href =>
    subst hblock hsigned href
    obtain ⟨node, round, rate, works, p, hpool, rfl⟩ := hs
    have hblock := h.ownBlock hgen (Pool.buffered_within hpool)
    have hsignature : ∀ node data, (wire.sign node data).length = 64 := hwire.length_sign
    refine { h with toHolds := hholds, stored := fun id signed hsigned => ?_, last := ?_,
                    limit := by simp, produced := fun block hblock' => ?_ }
    · dsimp only [Database.setOwnBlock] at hsigned
      rw [lookup_insert] at hsigned
      split at hsigned
      · cases hsigned
        refine ⟨hsignature _ _, fun block hread => ?_⟩
        rw [Wire.signBlock, wire.unmarshalBlock_marshalBlock] at hread
        cases hread
        exact ⟨hblock.node, hblock.round⟩
      · exact h.stored id signed hsigned
    · rintro ref ⟨⟩
      exact isReference_of hwire hblock.node hblock.round _ (hsignature _ _)
    · rcases mem_append.mp hblock' with hblock' | hblock'
      · exact h.produced block hblock'
      · rw [mem_singleton.mp hblock']
        exact hblock
  | processed | dropped => exact { h with toHolds := hholds, self := hself }
  | _ => exact { h with toHolds := hholds, limit := by simp }

theorem measured_run (hwire : wire.IsProtobuf) (steps : List (Step (List UInt8)))
    (hsteps : ∀ s ∈ steps, s.Within wire refSizeLimit txSizeLimit)
    (h : n.Measured wire refSizeLimit txSizeLimit) (hrun : n.run wire steps = .ok n') :
    n'.Measured wire refSizeLimit txSizeLimit := by
  induction steps generalizing n n' with
  | nil =>
    cases hrun
    exact h
  | cons s steps ih =>
    obtain ⟨hs, hsteps⟩ := forall_mem_cons.mp hsteps
    obtain ⟨mid, hstep, hrun⟩ := bind_eq_ok.mp hrun
    exact ih hsteps (measured_step hwire hs h hstep) hrun

end Node

/-- No message with blocks is refused. A batch of new blocks always fits. An answer
with own blocks fits if the limit on references admits one, the limit on transactions is
at least 33, and the limit on messages at least 2. -/
theorem messages_fit (hwire : wire.IsProtobuf) {maxPayload : Nat} (hmax : maxPayload < 2 ^ 63) :
    (∀ (s s' : Sender (List UInt8)) (blocks : List (SignedData (List UInt8))),
      s.getUnsent wire maxPayload = .ok (blocks, s') → blocks ≠ [] →
        (encode (Message.of .broadcast (encode (listBlocks blocks))).fields).length ≤ maxPayload) ∧
    ∀ refSizeLimit txSizeLimit : Nat,
      (∃ s : SignedData (List UInt8), s.IsReference ∧ s.size wire ≤ refSizeLimit) →
      33 ≤ txSizeLimit → 2 ≤ maxPayload →
      ∀ (self : Nat) (steps : List (Step (List UInt8))) (n : Node (List UInt8)), self < 2 ^ 64 →
        (∀ s ∈ steps, s.Within wire refSizeLimit txSizeLimit) →
        (Node.start self).run wire steps = .ok n →
        ∀ getOwnBlock : Nat → Option (SignedData (List UInt8)),
          (∀ round signed, getOwnBlock round = some signed →
            ∃ block ∈ n.produced, signed = wire.signBlock block) →
          ∀ (rounds : List Nat) (blocks : List (SignedData (List UInt8))),
            handleGetRounds (maxBlocks maxPayload refSizeLimit txSizeLimit) getOwnBlock rounds =
              .ok blocks → (encode (answer blocks).fields).length ≤ maxPayload := by
  refine ⟨fun s s' blocks hrun hne => batch_fits hwire hmax hrun hne, ?_⟩
  rintro refSizeLimit txSizeLimit ⟨ref, href, hsize⟩ htxs htwo self steps n hself hsteps hrun
    getOwnBlock hown rounds blocks hanswer
  have hmeasured := Node.measured_run hwire steps hsteps (Node.measured_start hself) hrun
  have hrefs : 198 ≤ refSizeLimit := by
    obtain ⟨hlow, -⟩ := href.length_data
    rw [SignedData.size, hwire.size, hwire.size, href.signature] at hsize
    omega
  refine answer_fits hwire hmax htwo hrefs htxs (fun round signed hround => ?_) hanswer
  obtain ⟨block, hblock, rfl⟩ := hown round signed hround
  exact ⟨block, hmeasured.produced block hblock, rfl⟩

/-- A hash function and signatures that compute. -/
def sumWire (keys : List Nat) : Wire (List UInt8) :=
  protoWire (fun data => replicate 31 0 ++ [data.sum]) (fun data => by simp) keys
    fun node data => UInt8.ofNat node :: replicate 62 0 ++ [data.sum]

theorem isProtobuf_sumWire (keys : List Nat) : (sumWire keys).IsProtobuf where
  size _ := rfl
  marshalBlock _ := rfl
  marshalReference _ := rfl
  length_signature node data signature h := by
    rw [of_decide_eq_true h]
    simp

/-- Nodes 1 to 130. -/
def largeWire : Wire (List UInt8) := sumWire ((range 130).map (· + 1))

/-- The first block of the first node. -/
def largePeer : SignedData (List UInt8) := largeWire.signBlock ⟨1, none, [], 1, some ⟨0, []⟩⟩

/-- A node makes 128 blocks, includes the block of the first one, and makes another block with a
reference to it. -/
def largeSteps (refSizeLimit : Nat) : List (Step (List UInt8)) :=
  (replicate 128 [.collect refSizeLimit, .commit ⟨0, []⟩, .settle]).flatten ++
    [.receive largePeer, .take, .advance, .collect refSizeLimit, .commit ⟨0, []⟩]

theorem within_largeSteps (refSizeLimit txSizeLimit : Nat) :
    ∀ s ∈ largeSteps refSizeLimit, s.Within largeWire refSizeLimit txSizeLimit := by
  have hcommit : Step.Within largeWire refSizeLimit txSizeLimit (.commit ⟨0, []⟩) :=
    ⟨0, 0, 0, [], Pool.start 0 0 txSizeLimit 0, rfl, rfl⟩
  have hreceive : Step.Within largeWire refSizeLimit txSizeLimit (.receive largePeer) := by
    intro block hblock
    cases (largeWire.unmarshalBlock_marshalBlock _).symm.trans hblock
    decide
  have hround : ∀ s ∈ [.collect refSizeLimit, .commit ⟨0, []⟩, .settle],
      Step.Within largeWire refSizeLimit txSizeLimit s := by
    simp only [forall_mem_cons, not_mem_nil, false_implies, implies_true, and_true]
    exact ⟨rfl, hcommit, trivial⟩
  have hlast : ∀ s ∈ [.receive largePeer, .take, .advance, .collect refSizeLimit, .commit ⟨0, []⟩],
      Step.Within largeWire refSizeLimit txSizeLimit s := by
    simp only [forall_mem_cons, not_mem_nil, false_implies, implies_true, and_true]
    exact ⟨hreceive, trivial, trivial, rfl, hcommit⟩
  intro s hs
  rcases mem_append.mp hs with hs | hs
  · obtain ⟨steps, hsteps, hs⟩ := mem_flatten.mp hs
    rw [eq_of_mem_replicate hsteps] at hs
    exact hround s hs
  · exact hlast s hs

/-- The limit of 202 bytes admits a reference to a block of these nodes. -/
theorem exists_largeReference : ∃ s : SignedData (List UInt8), s.IsReference ∧
    s.size largeWire ≤ 202 := by
  refine ⟨⟨largeWire.marshalReference ⟨replicate 32 0, 1, 1⟩, replicate 64 0⟩,
    ⟨⟨_, rfl, by decide, by decide, by decide⟩, by decide⟩, by decide +kernel⟩

theorem messages_fit_large :
    (∃ s' blocks, (Sender.loadState ((⟨∅, none⟩ : Store _).setOwnBlock 1 largePeer) 0).getUnsent
        largeWire 1000 = .ok (blocks, s') ∧ blocks = [largePeer] ∧
      (encode (Message.of .broadcast (encode (listBlocks blocks))).fields).length ≤ 1000) ∧
    ∃ n, (Node.start 128).run largeWire (largeSteps 202) = .ok n ∧
      ∃ block ∈ n.produced, block.round = 129 ∧
        ∃ blocks, handleGetRounds (maxBlocks 1000 202 33)
          (fun _ => some (largeWire.signBlock block)) [129, 130] = .ok blocks ∧
            (encode (answer blocks).fields).length ≤ 1000 := by
  have hwire : largeWire.IsProtobuf := isProtobuf_sumWire _
  obtain ⟨hbatch, hanswer⟩ := messages_fit hwire (show 1000 < 2 ^ 63 by decide)
  have hunsent : succeeds ((Sender.loadState ((⟨∅, none⟩ : Store _).setOwnBlock 1 largePeer)
      0).getUnsent largeWire 1000) (fun r => r.1 = [largePeer]) = true := by decide +kernel
  obtain ⟨⟨blocks, s'⟩, hunsent, hblocks⟩ := exists_of_succeeds hunsent
  have hblocks : blocks = [largePeer] := of_decide_eq_true hblocks
  have hrun : succeeds ((Node.start 128).run largeWire (largeSteps 202))
      (fun n => (n.produced.map Block.round).getLast? = some 129) = true := by decide +kernel
  obtain ⟨n, hrun, hlast⟩ := exists_of_succeeds hrun
  obtain ⟨block, hblock, hround⟩ :=
    mem_map.mp (mem_of_getLast? (of_decide_eq_true hlast))
  refine ⟨⟨s', blocks, hunsent, hblocks, hbatch _ _ _ hunsent (by rw [hblocks]; decide)⟩, n, hrun,
    block, hblock, hround, _, rfl, ?_⟩
  refine hanswer 202 33 exists_largeReference (by decide) (by decide) 128 (largeSteps 202)
    n (by decide) (within_largeSteps 202 33) hrun (fun _ => some (largeWire.signBlock block)) ?_
    [129, 130] _ rfl
  rintro round signed ⟨⟩
  exact ⟨block, hblock, rfl⟩

/-- With no room for transactions the block of round 129 is too large for the only place that an
answer has for it. -/
theorem answer_too_large :
    (∃ s : SignedData (List UInt8), s.IsReference ∧ s.size largeWire ≤ 202) ∧
    (∀ s ∈ largeSteps 202, s.Within largeWire 202 0) ∧
    ∃ n, (Node.start 128).run largeWire (largeSteps 202) = .ok n ∧
      ∃ block ∈ n.produced, block.round = 129 ∧
        ∃ blocks, handleGetRounds (maxBlocks 302 202 0)
          (fun _ => some (largeWire.signBlock block)) [129] = .ok blocks ∧
            302 < (encode (answer blocks).fields).length := by
  have hrun : succeeds ((Node.start 128).run largeWire (largeSteps 202)) (fun n =>
      n.produced.getLast?.any fun block => block.round = 129 &&
        302 < (encode (answer [largeWire.signBlock block]).fields).length) = true := by
    decide +kernel
  obtain ⟨n, hrun, hlast⟩ := exists_of_succeeds hrun
  obtain ⟨block, hblock, htest⟩ := (Option.any_eq_true _ _).mp hlast
  rw [Bool.and_eq_true, decide_eq_true_eq, decide_eq_true_eq] at htest
  obtain ⟨hround, hlength⟩ := htest
  exact ⟨exists_largeReference, within_largeSteps 202 0,
    ⟨n, hrun, block, mem_of_getLast? hblock, hround, _, rfl, hlength⟩⟩

end Blockmania.Broadcast
