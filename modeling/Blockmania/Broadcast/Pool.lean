/-
# Collecting transactions

Transactions are written one after another into a buffer that is shared by all callers
of `AddTransaction`. `genBlocks` cuts off what was written so far and starts again at
the front. A caller looks whether the block is full and writes later, after others may
have written, and waits for the next block if there is no room. A run is any
interleaving of calls and of the steps of `genBlocks`, where what happens under one
lock happens at once.
-/

import Blockmania.Broadcast.Iterator

namespace Blockmania.Broadcast

open Math List

/-- Write bytes to a position of a buffer. -/
def putAt (buf : List UInt8) (idx : Nat) (bytes : List UInt8) : Except Fault (List UInt8) :=
  if idx + bytes.length ≤ buf.length then
    .ok (buf.take idx ++ bytes ++ buf.drop (idx + bytes.length))
  else .error .indexOutOfRange

/-- `copy(buf[idx:], bytes)`, which leaves out what does not fit. -/
def copyAt (buf : List UInt8) (idx : Nat) (bytes : List UInt8) : Except Fault (List UInt8) :=
  if idx ≤ buf.length then putAt buf idx (bytes.take (buf.length - idx))
  else .error .indexOutOfRange

theorem putAt_of_le (buf : List UInt8) (idx : Nat) (bytes : List UInt8)
    (h : idx + bytes.length ≤ buf.length) :
    ∃ buf', putAt buf idx bytes = .ok buf' ∧ buf'.length = buf.length ∧
      buf'.take (idx + bytes.length) = buf.take idx ++ bytes := by
  refine ⟨_, if_pos h, ?_, ?_⟩
  · simp only [length_append, length_take, length_drop]
    omega
  · have hlength : (buf.take idx ++ bytes).length = idx + bytes.length := by
      rw [length_append, length_take, Nat.min_eq_left (by omega)]
    rw [← hlength, take_left]

/-- Nothing is left out if there is room. -/
theorem copyAt_of_le {buf bytes : List UInt8} {idx : Nat} (h : idx + bytes.length ≤ buf.length) :
    copyAt buf idx bytes = putAt buf idx bytes := by
  rw [copyAt, if_pos (by omega), take_of_length_le (by omega)]

variable {β : Type}

/-- Where a call of `AddTransaction` stands. A block is announced by closing a channel,
and a new one is opened; `signal` is the number of the channel that the call has seen. -/
inductive Phase
  | looking
  | writing (signal : Nat)
  | waiting (signal : Nat)
  deriving DecidableEq, Repr

structure Call where
  txdata : List UInt8
  fee : UInt64
  phase : Phase
  deriving DecidableEq, Repr

/-- What callers and `genBlocks` share. `accepted` lists the data and the fees of the
calls that returned without an error, in the order in which they wrote. -/
structure Pool (β : Type) where
  node : Nat
  round : Nat
  txCount : Nat
  txCountLimit : Int
  txData : List UInt8
  txIdx : Nat
  txSizeLimit : Nat
  signal : Nat
  calls : FiniteMap Nat Call
  accepted : List (List UInt8 × Nat)
  blocks : List (Block β)

/-- An uninterrupted piece of work. -/
inductive Work (β : Type)
  /-- A caller comes. -/
  | call (caller : Nat) (txdata : List UInt8) (fee : UInt64)
  /-- It reads the count and the channel. -/
  | look (caller : Nat)
  /-- It takes `txmu`. -/
  | write (caller : Nat)
  /-- The channel it waits for was closed. -/
  | wake (caller : Nat)
  /-- `genBlocks` sets the rate. -/
  | limit (rate : Int)
  /-- `genBlocks` takes `txmu`. -/
  | generate (previous : Option (SignedData β)) (references : List (SignedData β))
  /-- `genBlocks` opens a new channel and closes the old one. -/
  | announce

namespace Pool

def start (node round txSizeLimit : Nat) (txCountLimit : Int) : Pool β where
  node
  round
  txCount := 0
  txCountLimit
  txData := replicate txSizeLimit 0
  txIdx := 0
  txSizeLimit
  signal := 0
  calls := ∅
  accepted := []
  blocks := []

/-- What a call of `AddTransaction` writes if there is room. -/
def append (p : Pool β) (txdata : List UInt8) (fee : UInt64) : Except Fault (Pool β) := do
  let buf ← putAt p.txData p.txIdx (littleEndianBytes 8 fee.toNat)
  let buf ← putAt buf (p.txIdx + 8) (littleEndianBytes 4 txdata.length)
  let buf ← copyAt buf (p.txIdx + 12) txdata
  return { p with
    txData := buf
    txCount := p.txCount + 1
    txIdx := p.txIdx + (12 + txdata.length) }

/-- One piece of work. What cannot be done now changes nothing. The sizes are far too
small for `txIdx` to wrap around. -/
def step (p : Pool β) : Work β → Except Fault (Pool β)
  | .call caller txdata fee =>
    if txdata.length ≥ 2 ^ 32 ∨ txdata.length > p.txSizeLimit then .ok p
    else if p.calls[caller]?.isSome then .ok p
    else .ok { p with calls := p.calls.insert caller ⟨txdata, fee, .looking⟩ }
  | .look caller =>
    match p.calls[caller]? with
    | some ⟨txdata, fee, .looking⟩ =>
      let phase := if p.txCount = p.txCountLimit then .waiting p.signal else .writing p.signal
      .ok { p with calls := p.calls.insert caller ⟨txdata, fee, phase⟩ }
    | _ => .ok p
  | .write caller =>
    match p.calls[caller]? with
    | some ⟨txdata, fee, .writing signal⟩ =>
      if p.txIdx + txdata.length + 100 > p.txSizeLimit then
        .ok { p with calls := p.calls.insert caller ⟨txdata, fee, .waiting signal⟩ }
      else do
        let p ← { p with calls := p.calls.erase caller }.append txdata fee
        return { p with accepted := p.accepted ++ [(txdata, fee.toNat)] }
    | _ => .ok p
  | .wake caller =>
    match p.calls[caller]? with
    | some ⟨txdata, fee, .waiting signal⟩ =>
      if signal < p.signal then
        .ok { p with calls := p.calls.insert caller ⟨txdata, fee, .looking⟩ }
      else .ok p
    | _ => .ok p
  | .limit rate => .ok { p with txCountLimit := rate }
  | .generate previous references =>
    let round := u64 (p.round + 1)
    let transactions := ⟨p.txCount, p.txData.take p.txIdx⟩
    .ok { p with
      round
      txCount := 0
      txIdx := 0
      blocks := p.blocks ++ [⟨p.node, previous, references, round, some transactions⟩] }
  | .announce => .ok { p with signal := p.signal + 1 }

def run (p : Pool β) : List (Work β) → Except Fault (Pool β)
  | [] => .ok p
  | work :: works => do
    let p ← p.step work
    run p works

end Pool

/-- How a transaction is written. -/
def record (tx : List UInt8 × Nat) : List UInt8 :=
  littleEndianBytes 8 tx.2 ++ (littleEndianBytes 4 tx.1.length ++ tx.1)

/-- The transactions are the given ones, of sizes and fees that fit their fields. -/
structure Transactions.Written (t : Transactions) (txs : List (List UInt8 × Nat)) : Prop where
  count : t.count = txs.length
  data : t.data = txs.flatMap record
  fits : ∀ tx ∈ txs, tx.1.length < 2 ^ 32 ∧ tx.2 < 2 ^ 64

namespace TxIterator

/-- The loop over an iterator, with the data and the fee of each transaction. -/
def walk : Nat → TxIterator → Except Fault (TxIterator × List (List UInt8 × Nat))
  | 0, it => .ok (it, [])
  | fuel + 1, it =>
    if it.valid then do
      let it ← it.next
      let (last, later) ← walk fuel it
      return (last, (it.txData, it.txFee) :: later)
    else .ok (it, [])

/-- The loop yields the given transactions and ends where the data ends. -/
def Yields (it : TxIterator) (txs : List (List UInt8 × Nat)) : Prop :=
  ∃ last, it.walk it.total = .ok (last, txs) ∧ last.valid = false ∧ last.idx = it.data.length

/-- A transaction is read as it was written. -/
theorem next_of_tail {it : TxIterator} {tx : List UInt8 × Nat} {rest : List UInt8}
    (hidx : it.idx ≤ (it.data ++ it.spare).length) (htail : it.tail = record tx ++ rest)
    (hsize : tx.1.length < 2 ^ 32) (hfee : tx.2 < 2 ^ 64) :
    ∃ idx, it.next = .ok { it with idx, txData := tx.1, txFee := tx.2, cur := it.cur + 1 } ∧
      idx ≤ (it.data ++ it.spare).length ∧ (it.data ++ it.spare).drop idx = rest := by
  simp only [record, append_assoc] at htail
  obtain ⟨hfront, htail, hidx⟩ := slice_append_of hidx htail
  obtain ⟨hmiddle, htail, hidx⟩ := slice_append_of hidx htail
  obtain ⟨hback, htail, hidx⟩ := slice_append_of hidx htail
  simp only [length_littleEndianBytes] at hfront hmiddle hback htail hidx
  have hlength : littleEndian (littleEndianBytes 4 tx.1.length) = tx.1.length := by
    rw [littleEndian_littleEndianBytes]
    exact Nat.mod_eq_of_lt hsize
  have hvalue : littleEndian (littleEndianBytes 8 tx.2) = tx.2 := by
    rw [littleEndian_littleEndianBytes]
    exact Nat.mod_eq_of_lt hfee
  refine ⟨it.idx + 8 + 4 + tx.1.length, ?_, hidx, htail⟩
  simp only [next, hfront, hmiddle, hlength, hback, hvalue, bind, Except.bind, pure, Except.pure]

/-- The loop reads all transactions that were written. -/
theorem walk_of_tail (txs : List (List UInt8 × Nat)) (it : TxIterator)
    (hidx : it.idx ≤ (it.data ++ it.spare).length) (htail : it.tail = txs.flatMap record ++ it.spare)
    (htotal : it.cur + txs.length = it.total)
    (hfits : ∀ tx ∈ txs, tx.1.length < 2 ^ 32 ∧ tx.2 < 2 ^ 64) :
    ∃ last, it.walk txs.length = .ok (last, txs) ∧ last.valid = false ∧
      last.idx = it.data.length := by
  induction txs generalizing it with
  | nil =>
    refine ⟨it, rfl, ?_, ?_⟩
    · rw [length_nil] at htotal
      simp only [valid, decide_eq_false_iff_not]
      omega
    · have hlength := congrArg List.length htail
      rw [flatMap_nil, nil_append, tail, length_drop, length_append] at hlength
      rw [length_append] at hidx
      omega
  | cons tx txs ih =>
    rw [length_cons] at htotal
    obtain ⟨⟨hsize, hfee⟩, hfits⟩ := forall_mem_cons.mp hfits
    rw [flatMap_cons, append_assoc] at htail
    obtain ⟨idx, hnext, hidx, htail⟩ := next_of_tail hidx htail hsize hfee
    obtain ⟨last, hwalk, hdone, hend⟩ := ih
      { it with idx, txData := tx.1, txFee := tx.2, cur := it.cur + 1 } hidx htail
      (by dsimp only; omega) hfits
    have hvalid : it.valid = true := by
      simp only [valid, decide_eq_true_eq]
      omega
    refine ⟨last, ?_, hdone, hend⟩
    rw [length_cons, walk, if_pos hvalid, hnext]
    exact bind_eq_ok.mpr ⟨_, rfl, bind_eq_ok.mpr ⟨_, hwalk, rfl⟩⟩

end TxIterator

/-- The iterator over a block, whatever is behind its data. -/
def Block.Yields (block : Block β) (txs : List (List UInt8 × Nat)) : Prop :=
  ∀ spare, ∃ it, Block.iter spare (some block) = .ok it ∧ it.Yields txs

/-- The transactions of a block were written one after another. -/
def Block.Written (block : Block β) (txs : List (List UInt8 × Nat)) : Prop :=
  ∃ transactions, block.transactions = some transactions ∧ transactions.Written txs

theorem Block.Written.yields {block : Block β} {txs : List (List UInt8 × Nat)}
    (h : block.Written txs) : block.Yields txs := by
  intro spare
  obtain ⟨transactions, htransactions, hcount, hdata, hfits⟩ := h
  refine ⟨⟨0, transactions.data, spare, 0, transactions.count, [], 0⟩, ?_, ?_⟩
  · rw [Block.iter, htransactions]
  · rw [TxIterator.Yields, hcount]
    exact TxIterator.walk_of_tail txs _ (Nat.zero_le _) (congrArg (· ++ spare) hdata)
      (Nat.zero_add _) hfits

namespace Pool

/-- What was written since the last block. -/
def buffered (p : Pool β) : Transactions := ⟨p.txCount, p.txData.take p.txIdx⟩

/-- The given number of rounds that follow a round. -/
def roundsAfter (round n : Nat) : List Nat := (range n).map fun i => u64 (round + i + 1)

/-- The invariant of a pool that was started after the given round. The blocks and
the buffer hold what was accepted. -/
structure Sound (first : Nat) (p : Pool β) : Prop where
  length : p.txData.length = p.txSizeLimit
  idx : p.txIdx ≤ p.txSizeLimit
  calls : ∀ (caller : Nat) (call : Call), p.calls[caller]? = some call →
    call.txdata.length < 2 ^ 32
  round : u64 p.round = u64 (first + p.blocks.length)
  rounds : p.blocks.map Block.round = roundsAfter first p.blocks.length
  accepted : ∃ batches rest, Forall₂ Block.Written p.blocks batches ∧
    p.buffered.Written rest ∧ p.accepted = batches.flatten ++ rest

theorem sound_start (node round txSizeLimit : Nat) (txCountLimit : Int) :
    (start node round txSizeLimit txCountLimit : Pool β).Sound round where
  length := length_replicate
  idx := Nat.zero_le _
  calls := fun caller call h => by simp [start] at h
  round := rfl
  rounds := rfl
  accepted := ⟨[], [], .nil, ⟨rfl, rfl, by simp⟩, rfl⟩

variable {first : Nat} {p : Pool β}

/-- A call may move to another phase. -/
theorem Sound.insert (h : p.Sound first) (caller : Nat) {call : Call}
    (hsize : call.txdata.length < 2 ^ 32) :
    ({ p with calls := p.calls.insert caller call } : Pool β).Sound first := { h with
  calls := fun caller' call' hcall => by
    rw [FiniteMap.lookup_insert] at hcall
    split at hcall
    · cases hcall
      exact hsize
    · exact h.calls caller' call' hcall }

theorem Sound.erase (h : p.Sound first) (caller : Nat) :
    ({ p with calls := p.calls.erase caller } : Pool β).Sound first := { h with
  calls := fun caller' call hcall => by
    rw [FiniteMap.lookup_erase] at hcall
    split at hcall
    · cases hcall
    · exact h.calls caller' call hcall }

/-- A transaction for which there is room is written behind the others. -/
theorem append_of_room {p : Pool β} {txdata : List UInt8} (fee : UInt64)
    (hlength : p.txData.length = p.txSizeLimit)
    (hroom : p.txIdx + (12 + txdata.length) ≤ p.txSizeLimit) :
    ∃ buf, p.append txdata fee = .ok { p with
        txData := buf
        txCount := p.txCount + 1
        txIdx := p.txIdx + (12 + txdata.length) } ∧
      buf.length = p.txSizeLimit ∧
      buf.take (p.txIdx + (12 + txdata.length)) =
        p.txData.take p.txIdx ++ record (txdata, fee.toNat) := by
  obtain ⟨buf₁, hfee, hlength₁, htake₁⟩ := putAt_of_le p.txData p.txIdx
    (littleEndianBytes 8 fee.toNat) (by rw [length_littleEndianBytes]; omega)
  obtain ⟨buf₂, hsize, hlength₂, htake₂⟩ := putAt_of_le buf₁ (p.txIdx + 8)
    (littleEndianBytes 4 txdata.length) (by rw [length_littleEndianBytes]; omega)
  obtain ⟨buf₃, hdata, hlength₃, htake₃⟩ := putAt_of_le buf₂ (p.txIdx + 12) txdata (by omega)
  rw [length_littleEndianBytes] at htake₁ htake₂
  refine ⟨buf₃, ?_, by omega, ?_⟩
  · have hcopy : copyAt buf₂ (p.txIdx + 12) txdata = .ok buf₃ :=
      (copyAt_of_le (by omega)).trans hdata
    exact bind_eq_ok.mpr ⟨_, hfee, bind_eq_ok.mpr ⟨_, hsize, bind_eq_ok.mpr ⟨_, hcopy, rfl⟩⟩⟩
  · rw [← Nat.add_assoc, htake₃, htake₂, htake₁, record, append_assoc, append_assoc]

/-- What `append` changes. -/
theorem of_append {p p' : Pool β} {txdata : List UInt8} {fee : UInt64}
    (h : p.append txdata fee = .ok p') : ∃ txData, p' = { p with
      txData
      txCount := p.txCount + 1
      txIdx := p.txIdx + (12 + txdata.length) } := by
  obtain ⟨_, -, h⟩ := bind_eq_ok.mp h
  obtain ⟨_, -, h⟩ := bind_eq_ok.mp h
  obtain ⟨_, -, h⟩ := bind_eq_ok.mp h
  cases h
  exact ⟨_, rfl⟩

theorem Sound.append (h : p.Sound first) {txdata : List UInt8} (fee : UInt64)
    (hsize : txdata.length < 2 ^ 32) (hroom : p.txIdx + (12 + txdata.length) ≤ p.txSizeLimit) :
    ∃ p', p.append txdata fee = .ok p' ∧
      Sound first { p' with accepted := p'.accepted ++ [(txdata, fee.toNat)] } := by
  obtain ⟨buf, hrun, hlength, htake⟩ := append_of_room fee h.length hroom
  obtain ⟨batches, rest, hblocks, ⟨hcount, hdata, hfits⟩, haccepted⟩ := h.accepted
  refine ⟨_, hrun, hlength, hroom, h.calls, h.round, h.rounds, batches, rest ++ [(txdata, fee.toNat)], hblocks,
    ⟨?_, ?_, ?_⟩, ?_⟩
  · rw [length_append, length_singleton, ← hcount]
    rfl
  · rw [flatMap_append, ← hdata, flatMap_singleton]
    exact htake
  · intro tx htx
    rcases mem_append.mp htx with htx | htx
    · exact hfits tx htx
    · rw [mem_singleton.mp htx]
      exact ⟨hsize, fee.toNat_lt⟩
  · rw [← append_assoc, ← haccepted]

theorem Sound.next_round (h : p.Sound first) :
    u64 (p.round + 1) = u64 (first + p.blocks.length + 1) := by
  have hround := h.round
  unfold u64 at *
  omega

/-- A new block takes all that was written. -/
theorem Sound.generate (h : p.Sound first) (block : Block β)
    (hround : block.round = u64 (p.round + 1)) (hblock : block.transactions = some p.buffered) :
    Sound first { p with
      round := block.round
      txCount := 0
      txIdx := 0
      blocks := p.blocks ++ [block] } where
  length := h.length
  idx := Nat.zero_le _
  calls := h.calls
  round := by
    rw [hround, h.next_round, length_append]
    exact Nat.mod_mod _ _
  rounds := by
    rw [map_append, h.rounds, map_singleton, hround, h.next_round, length_append,
      length_singleton, roundsAfter, roundsAfter, range_succ, map_append]
    rfl
  accepted := by
    obtain ⟨batches, rest, hblocks, hrest, haccepted⟩ := h.accepted
    refine ⟨batches ++ [rest], [], ?_, ⟨rfl, rfl, by simp⟩, ?_⟩
    · exact rel_append hblocks (.cons ⟨_, hblock, hrest⟩ .nil)
    · simpa using haccepted

/-- No piece of work writes out of range, and each keeps the invariant. -/
theorem Sound.step {first : Nat} {p : Pool β} (h : p.Sound first) (work : Work β) :
    ∃ p', p.step work = .ok p' ∧ p'.Sound first := by
  cases work with
  | call caller txdata fee =>
    rw [Pool.step]
    split
    · exact ⟨p, rfl, h⟩
    · rename_i hsize
      split
      · exact ⟨p, rfl, h⟩
      · exact ⟨_, rfl, h.insert caller (by dsimp only; omega)⟩
  | look caller =>
    rw [Pool.step]
    split
    · rename_i txdata fee hcall
      have hsize := h.calls caller _ hcall
      exact ⟨_, rfl, h.insert caller hsize⟩
    · exact ⟨p, rfl, h⟩
  | write caller =>
    rw [Pool.step]
    split
    · rename_i txdata fee signal hcall
      have hsize := h.calls caller _ hcall
      split
      · exact ⟨_, rfl, h.insert caller hsize⟩
      · -- the guard leaves a hundred bytes, of which the header takes twelve
        obtain ⟨p', hrun, hsound⟩ := (h.erase caller).append fee hsize (by dsimp only; omega)
        exact ⟨_, bind_eq_ok.mpr ⟨p', hrun, rfl⟩, hsound⟩
    · exact ⟨p, rfl, h⟩
  | wake caller =>
    rw [Pool.step]
    split
    · rename_i txdata fee signal hcall
      have hsize := h.calls caller _ hcall
      split
      · exact ⟨_, rfl, h.insert caller hsize⟩
      · exact ⟨p, rfl, h⟩
    · exact ⟨p, rfl, h⟩
  | limit rate => exact ⟨_, rfl, h.length, h.idx, h.calls, h.round, h.rounds, h.accepted⟩
  | generate previous references => exact ⟨_, rfl, h.generate ⟨p.node, previous, references, _, _⟩ rfl rfl⟩
  | announce => exact ⟨_, rfl, h.length, h.idx, h.calls, h.round, h.rounds, h.accepted⟩

theorem Sound.run (h : p.Sound first) (works : List (Work β)) :
    ∃ p', p.run works = .ok p' ∧ p'.Sound first := by
  induction works generalizing p with
  | nil => exact ⟨p, rfl, h⟩
  | cons work works ih =>
    obtain ⟨p₁, hstep, h₁⟩ := h.step work
    obtain ⟨p₂, hrun, h₂⟩ := ih h₁
    exact ⟨p₂, bind_eq_ok.mpr ⟨p₁, hstep, hrun⟩, h₂⟩

/-- Every accepted transaction is in exactly one block, or still in the buffer. No
write is out of range, the blocks have consecutive rounds, the iterators over them yield
what was accepted, and each ends where the data of its block ends. -/
theorem blocks_yield_accepted (node round txSizeLimit : Nat) (txCountLimit : Int)
    (works : List (Work β)) :
    ∃ p, (start node round txSizeLimit txCountLimit).run works = .ok p ∧
      p.blocks.map Block.round = roundsAfter round p.blocks.length ∧
      ∃ batches rest, Forall₂ Block.Yields p.blocks batches ∧ p.buffered.Written rest ∧
        p.accepted = batches.flatten ++ rest := by
  obtain ⟨p, hrun, h⟩ := (sound_start node round txSizeLimit txCountLimit).run works
  obtain ⟨batches, rest, hblocks, hrest, haccepted⟩ := h.accepted
  exact ⟨p, hrun, h.rounds, batches, rest, hblocks.imp fun _ _ => Block.Written.yields, hrest,
    haccepted⟩

end Pool

end Blockmania.Broadcast
