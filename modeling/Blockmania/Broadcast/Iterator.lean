/-
# Iterating over delivered blocks

The transactions of a block are one string of bytes in which each of them comes
after its fee and its size. Whoever signs a block chooses that string, and the
number of transactions it is said to hold, and may leave out both. A block that
was accepted and delivered is walked through by `handleDeliver` without another
look, so the walk ends well exactly if the string holds what it is said to hold.
-/

import Blockmania.Broadcast.Bytes

namespace Blockmania.Broadcast

open List

/-- The array of the data goes on with `spare`. -/
structure TxIterator where
  cur : Nat
  data : List UInt8
  spare : List UInt8
  idx : Nat
  total : Nat
  txData : List UInt8
  txFee : Nat
  deriving DecidableEq, Repr

namespace TxIterator

/-- `Next`. The counter stays below `total`, so it cannot wrap around. -/
def next (it : TxIterator) : Except Fault TxIterator := do
  let fee ← slice it.data it.spare it.idx (it.idx + 8)
  let idx := it.idx + 8
  let size ← slice it.data it.spare idx (idx + 4)
  let idx := idx + 4
  let txData ← slice it.data it.spare idx (idx + littleEndian size)
  return { it with
    txFee := littleEndian fee
    txData
    idx := idx + littleEndian size
    cur := it.cur + 1 }

/-- `Valid`. -/
def valid (it : TxIterator) : Bool := it.cur < it.total

/-- The loop over an iterator, with what is published. It ends after as many
rounds as there are transactions left. -/
def drain : Nat → TxIterator → Except Fault (TxIterator × List (List UInt8))
  | 0, it => .ok (it, [])
  | fuel + 1, it =>
    if it.valid then do
      let it ← it.next
      let (last, published) ← drain fuel it
      return (last, it.txData :: published)
    else .ok (it, [])

end TxIterator

variable {β : Type}

/-- `Iter` of a block pointer. The data of a decoded block is in an array that may be longer,
by `spare`. -/
def Block.iter (spare : List UInt8) : Option (Block β) → Except Fault TxIterator
  | none => .error .nilPointer
  | some block =>
    match block.transactions with
    | none => .error .nilPointer
    | some transactions => .ok ⟨0, transactions.data, spare, 0, transactions.count, [], 0⟩

namespace Wire

variable (wire : Wire β)

/-- What `handleDeliver` does with one block. A block that does not decode is
iterated over all the same. -/
def deliverBlock (spare : List UInt8) (signed : SignedData β) :
    Except Fault (TxIterator × List (List UInt8)) := do
  let it ← Block.iter spare (wire.unmarshalBlock signed.data)
  it.drain it.total

/-- `handleDeliver`, with what is published. Each block comes with what is behind its data. -/
def handleDeliver : List (List UInt8 × SignedData β) → Except Fault (List (List UInt8))
  | [] => .ok []
  | (spare, signed) :: rest => do
    let (_, published) ← wire.deliverBlock spare signed
    let later ← handleDeliver rest
    return published ++ later

end Wire

/-- The data is `n` transactions and then `rest`: for each of them eight bytes of fee,
four bytes of size and as many bytes as the size says. -/
def Records : Nat → List UInt8 → List UInt8 → Prop
  | 0, data, rest => data = rest
  | n + 1, data, rest => ∃ fee size tx later, data = fee ++ (size ++ (tx ++ later)) ∧
      fee.length = 8 ∧ size.length = 4 ∧ tx.length = littleEndian size ∧ Records n later rest

section Records

variable {n : Nat} {data rest : List UInt8}

theorem Records.suffix (h : Records n data rest) : rest <:+ data := by
  induction n generalizing data with
  | zero => exact h ▸ suffix_rfl
  | succ n ih =>
    obtain ⟨fee, size, tx, later, rfl, -, -, -, hlater⟩ := h
    refine (ih hlater).trans ⟨fee ++ (size ++ tx), ?_⟩
    simp only [append_assoc]

/-- What stands behind all of them does not matter. -/
theorem records_append_iff (spare : List UInt8) :
    Records n (data ++ spare) (rest ++ spare) ↔ Records n data rest := by
  induction n generalizing data with
  | zero => exact append_left_inj spare
  | succ n ih =>
    constructor
    · rintro ⟨fee, size, tx, later, hdata, hfee, hsize, htx, hlater⟩
      -- the spare room is left over, so it is behind the first transaction too
      obtain ⟨later, rfl⟩ := (suffix_append rest spare).trans hlater.suffix
      refine ⟨fee, size, tx, later, ?_, hfee, hsize, htx, ih.mp hlater⟩
      refine (append_left_inj spare).mp (hdata.trans ?_)
      simp only [append_assoc]
    · rintro ⟨fee, size, tx, later, rfl, hfee, hsize, htx, hlater⟩
      exact ⟨fee, size, tx, later ++ spare, by simp only [append_assoc], hfee, hsize, htx,
        ih.mpr hlater⟩

end Records

namespace TxIterator

/-- What is still to come in the array. -/
def tail (it : TxIterator) : List UInt8 := (it.data ++ it.spare).drop it.idx

/-- A step of the iterator reads one transaction. -/
theorem record_of_next {it it' : TxIterator} (h : it.next = .ok it') :
    it'.cur = it.cur + 1 ∧ it'.total = it.total ∧ it'.data = it.data ∧ it'.spare = it.spare ∧
      it'.idx ≤ (it.data ++ it.spare).length ∧
      ∃ fee size, it.tail = fee ++ (size ++ (it'.txData ++ it'.tail)) ∧ fee.length = 8 ∧
        size.length = 4 ∧ it'.txData.length = littleEndian size := by
  obtain ⟨fee, hfee, h⟩ := bind_eq_ok.mp h
  obtain ⟨size, hsize, h⟩ := bind_eq_ok.mp h
  obtain ⟨tx, htx, h⟩ := bind_eq_ok.mp h
  cases h
  obtain ⟨hfront, hfee, -⟩ := of_slice hfee
  obtain ⟨hmiddle, hsize, -⟩ := of_slice hsize
  obtain ⟨hback, htx, hbound⟩ := of_slice htx
  refine ⟨rfl, rfl, rfl, rfl, hbound, fee, size, ?_, hfee, hsize, htx⟩
  rw [tail, hfront, hmiddle, hback]
  rfl

/-- A transaction that is there is read. -/
theorem next_of_record {it : TxIterator} (hidx : it.idx ≤ (it.data ++ it.spare).length)
    {fee size tx rest : List UInt8} (hdata : it.tail = fee ++ (size ++ (tx ++ rest)))
    (hfee : fee.length = 8) (hsize : size.length = 4) (htx : tx.length = littleEndian size) :
    ∃ it', it.next = .ok it' ∧ it'.tail = rest := by
  obtain ⟨hfront, hdata, hidx⟩ := slice_append_of hidx hdata
  rw [hfee] at hfront hdata hidx
  obtain ⟨hmiddle, hdata, hidx⟩ := slice_append_of hidx hdata
  rw [hsize] at hmiddle hdata hidx
  obtain ⟨hback, hdata, -⟩ := slice_append_of hidx hdata
  rw [htx] at hback hdata
  exact ⟨_, bind_eq_ok.mpr ⟨fee, hfront, bind_eq_ok.mpr ⟨size, hmiddle,
    bind_eq_ok.mpr ⟨tx, hback, rfl⟩⟩⟩, hdata⟩

section Drain

variable {it : TxIterator} {n : Nat}

theorem drain_succ (htotal : it.cur + (n + 1) = it.total) :
    it.drain (n + 1) = it.next >>= fun it =>
      it.drain n >>= fun r => pure (r.1, it.txData :: r.2) := by
  have hvalid : it.valid = true := by
    simp only [valid, decide_eq_true_eq]
    omega
  rw [drain, if_pos hvalid]

/-- A loop that ends has taken one step for each transaction and read as many. -/
theorem records_of_drain {r : TxIterator × List (List UInt8)} (htotal : it.cur + n = it.total)
    (hidx : it.idx ≤ (it.data ++ it.spare).length) (h : it.drain n = .ok r) :
    r.1.valid = false ∧ r.2.length = n ∧ Records n it.tail r.1.tail ∧ r.1.data = it.data ∧
      r.1.spare = it.spare ∧ r.1.idx ≤ (it.data ++ it.spare).length := by
  induction n generalizing it r with
  | zero =>
    cases h
    refine ⟨?_, rfl, rfl, rfl, rfl, hidx⟩
    simp only [valid, decide_eq_false_iff_not]
    omega
  | succ n ih =>
    rw [drain_succ htotal] at h
    obtain ⟨it', hnext, h⟩ := bind_eq_ok.mp h
    obtain ⟨r', hdrain, h⟩ := bind_eq_ok.mp h
    cases h
    obtain ⟨hcur, htotal', hdata, hspare, hidx', fee, size, htail, hfee, hsize, htx⟩ :=
      record_of_next hnext
    rw [← hdata, ← hspare] at hidx' ⊢
    obtain ⟨hdone, hlength, hrecords, hrest⟩ := ih (by omega) hidx' hdrain
    exact ⟨hdone, congrArg (· + 1) hlength,
      ⟨fee, size, it'.txData, it'.tail, htail, hfee, hsize, htx, hrecords⟩, hrest⟩

/-- The loop reads the transactions that are there. -/
theorem drain_of_records {rest : List UInt8} (htotal : it.cur + n = it.total)
    (hidx : it.idx ≤ (it.data ++ it.spare).length) (h : Records n it.tail rest) :
    ∃ r, it.drain n = .ok r ∧ r.1.tail = rest := by
  induction n generalizing it with
  | zero => exact ⟨_, rfl, h⟩
  | succ n ih =>
    obtain ⟨fee, size, tx, later, hdata, hfee, hsize, htx, hlater⟩ := h
    obtain ⟨it', hnext, rfl⟩ := next_of_record hidx hdata hfee hsize htx
    obtain ⟨hcur, htotal', hdata', hspare, hidx', -⟩ := record_of_next hnext
    rw [← hdata', ← hspare] at hidx'
    obtain ⟨r, hr, htail⟩ := ih (by omega) hidx' hlater
    refine ⟨(r.1, it'.txData :: r.2), ?_, htail⟩
    rw [drain_succ htotal]
    exact bind_eq_ok.mpr ⟨it', hnext, bind_eq_ok.mpr ⟨r, hr, rfl⟩⟩

/-- An iterator at the start of a block. -/
def first (data spare : List UInt8) (count : Nat) : TxIterator := ⟨0, data, spare, 0, count, [], 0⟩

variable {data spare : List UInt8}

/-- The loop ends well if the array starts with the transactions. -/
theorem drain_first_iff :
    (∃ r, (first data spare n).drain n = .ok r) ↔ ∃ rest, Records n (data ++ spare) rest := by
  constructor
  · rintro ⟨r, hr⟩
    exact ⟨_, (records_of_drain (Nat.zero_add n) (Nat.zero_le _) hr).2.2.1⟩
  · rintro ⟨rest, hrest⟩
    obtain ⟨r, hr, -⟩ := @drain_of_records (first data spare n) n _ (Nat.zero_add n)
      (Nat.zero_le _) hrest
    exact ⟨r, hr⟩

/-- The loop ends inside the data if the data starts with the transactions. -/
theorem drain_first_inside_iff :
    (∃ r, (first data spare n).drain n = .ok r ∧ r.1.idx ≤ data.length) ↔
      ∃ rest, Records n data rest := by
  constructor
  · rintro ⟨r, hr, hinside⟩
    obtain ⟨-, -, hrecords, hdata, hspare, -⟩ :=
      records_of_drain (Nat.zero_add n) (Nat.zero_le _) hr
    rw [tail, tail, hdata, hspare] at hrecords
    change Records n (data ++ spare) ((data ++ spare).drop r.1.idx) at hrecords
    rw [drop_append_of_le_length hinside, records_append_iff] at hrecords
    exact ⟨_, hrecords⟩
  · rintro ⟨rest, hrest⟩
    obtain ⟨r, hr, htail⟩ := @drain_of_records (first data spare n) n _ (Nat.zero_add n)
      (Nat.zero_le _) ((records_append_iff spare).mpr hrest)
    obtain ⟨-, -, -, hdata, hspare, hidx⟩ := records_of_drain (Nat.zero_add n) (Nat.zero_le _) hr
    refine ⟨r, hr, ?_⟩
    -- the spare room is left over
    have hlength := congrArg List.length htail
    rw [tail, hdata, hspare, length_drop, @length_append _ rest] at hlength
    change (data ++ spare).length - r.1.idx = _ at hlength
    change r.1.idx ≤ (data ++ spare).length at hidx
    rw [length_append] at hlength hidx
    omega

end Drain

end TxIterator

namespace Wire

variable {wire : Wire β}

/-- The walk through a block stays inside its data and takes one step for each
transaction it is said to hold. The index only grows, so it is enough to look where the
walk ends. -/
def Iterates (wire : Wire β) (spare : List UInt8) (signed : SignedData β) : Prop :=
  ∃ block transactions last published, wire.unmarshalBlock signed.data = some block ∧
    block.transactions = some transactions ∧
    wire.deliverBlock spare signed = .ok (last, published) ∧ last.valid = false ∧
    published.length = transactions.count ∧ last.idx ≤ transactions.data.length

/-- A delivered block can be iterated over exactly if its transactions are there and its data
starts with as many of them as it is said to hold. If only its array does, there is no crash
either, but what is published comes from behind the data. -/
theorem iterates_iff {signed : SignedData β} {info : BlockData β}
    (haccept : wire.accept signed = .ok info) (spare : List UInt8) :
    (wire.Iterates spare signed ↔ ∃ block transactions, wire.unmarshalBlock signed.data = some block ∧
      block.transactions = some transactions ∧
      ∃ rest, Records transactions.count transactions.data rest) ∧
    ((∃ r, wire.deliverBlock spare signed = .ok r) ↔
      ∃ block transactions, wire.unmarshalBlock signed.data = some block ∧
        block.transactions = some transactions ∧
        ∃ rest, Records transactions.count (transactions.data ++ spare) rest) := by
  have hdecoded : ∃ block, wire.unmarshalBlock signed.data = some block := by
    cases hblock : wire.unmarshalBlock signed.data with
    | some block => exact ⟨block, rfl⟩
    | none =>
      rw [accept, hblock] at haccept
      cases haccept
  obtain ⟨block, hblock⟩ := hdecoded
  have hwalk : ∀ transactions, block.transactions = some transactions →
      wire.deliverBlock spare signed =
        (TxIterator.first transactions.data spare transactions.count).drain transactions.count := by
    intro transactions htransactions
    rw [deliverBlock, hblock, Block.iter, htransactions]
    rfl
  refine ⟨⟨?_, ?_⟩, ⟨?_, ?_⟩⟩
  · rintro ⟨block', transactions, last, published, hblock', htransactions, hrun, -, -, hinside⟩
    obtain rfl : block = block' := Option.some.inj (hblock.symm.trans hblock')
    rw [hwalk transactions htransactions] at hrun
    exact ⟨block, transactions, hblock, htransactions,
      TxIterator.drain_first_inside_iff.mp ⟨_, hrun, hinside⟩⟩
  · rintro ⟨block', transactions, hblock', htransactions, hrecords⟩
    obtain rfl : block = block' := Option.some.inj (hblock.symm.trans hblock')
    obtain ⟨⟨last, published⟩, hrun, hinside⟩ := TxIterator.drain_first_inside_iff.mpr hrecords
    obtain ⟨hdone, hcount, -⟩ := TxIterator.records_of_drain (Nat.zero_add _) (Nat.zero_le _) hrun
    rw [← hwalk transactions htransactions] at hrun
    exact ⟨block, transactions, last, published, hblock, htransactions, hrun, hdone, hcount, hinside⟩
  · rintro ⟨r, hr⟩
    cases htransactions : block.transactions with
    | none =>
      rw [deliverBlock, hblock, Block.iter, htransactions] at hr
      cases hr
    | some transactions =>
      rw [hwalk transactions htransactions] at hr
      exact ⟨block, transactions, hblock, htransactions, TxIterator.drain_first_iff.mp ⟨r, hr⟩⟩
  · rintro ⟨block', transactions, hblock', htransactions, hrecords⟩
    obtain rfl : block = block' := Option.some.inj (hblock.symm.trans hblock')
    rw [hwalk transactions htransactions]
    exact TxIterator.drain_first_iff.mpr hrecords

end Wire

/-- The first block of the second node with the given transactions. -/
def firstBlock (transactions : Option Transactions) : SignedData (List Nat) :=
  (plainWire [1, 2, 3, 4]).signBlock ⟨2, none, [], 1, transactions⟩

/-- Two transactions of which the second one is empty. -/
def twoTransactions : Transactions :=
  ⟨2, [9, 0, 0, 0, 0, 0, 0, 0, 2, 0, 0, 0, 70, 71, 5, 0, 0, 0, 0, 0, 0, 0, 0, 0, 0, 0]⟩

theorem iterates_twoTransactions :
    ∃ info, (plainWire [1, 2, 3, 4]).accept (firstBlock (some twoTransactions)) = .ok info ∧
      (plainWire [1, 2, 3, 4]).Iterates [0, 0, 0] (firstBlock (some twoTransactions)) := by
  have hcheck : succeeds ((plainWire [1, 2, 3, 4]).accept (firstBlock (some twoTransactions)))
      (fun _ => true) = true := by decide +kernel
  obtain ⟨info, haccept, -⟩ := exists_of_succeeds hcheck
  refine ⟨info, haccept, (Wire.iterates_iff haccept [0, 0, 0]).1.mpr
    ⟨⟨2, none, [], 1, some twoTransactions⟩, twoTransactions, ?_, rfl, [], ?_⟩⟩
  · exact (plainWire [1, 2, 3, 4]).unmarshalBlock_marshalBlock _
  · exact ⟨[9, 0, 0, 0, 0, 0, 0, 0], [2, 0, 0, 0], [70, 71], _, rfl, rfl, rfl, rfl,
      [5, 0, 0, 0, 0, 0, 0, 0], [0, 0, 0, 0], [], [], rfl, rfl, rfl, rfl, rfl⟩

/-- Three blocks are accepted all the same. The first is said to hold a transaction and has
no data: the index is out of range. The second has nine bytes of data in an array of sixteen:
the walk reads on behind the data. The third has no transactions to point to. -/
theorem not_iterates_malformed :
    (∀ transactions ∈ [some ⟨1, []⟩, some ⟨1, replicate 9 0⟩, none], ∃ info,
      (plainWire [1, 2, 3, 4]).accept (firstBlock transactions) = .ok info) ∧
    (plainWire [1, 2, 3, 4]).deliverBlock [] (firstBlock (some ⟨1, []⟩)) = .error .indexOutOfRange ∧
    ¬ (plainWire [1, 2, 3, 4]).Iterates [] (firstBlock (some ⟨1, []⟩)) ∧
    (plainWire [1, 2, 3, 4]).deliverBlock (replicate 7 0) (firstBlock (some ⟨1, replicate 9 0⟩)) =
      .ok (⟨1, replicate 9 0, replicate 7 0, 12, 1, [], 0⟩, [[]]) ∧
    ¬ (plainWire [1, 2, 3, 4]).Iterates (replicate 7 0) (firstBlock (some ⟨1, replicate 9 0⟩)) ∧
    (plainWire [1, 2, 3, 4]).deliverBlock [] (firstBlock none) = .error .nilPointer ∧
    ¬ (plainWire [1, 2, 3, 4]).Iterates [] (firstBlock none) := by
  have haccepted : ∀ transactions ∈ [some ⟨1, []⟩, some ⟨1, replicate 9 0⟩, none],
      succeeds ((plainWire [1, 2, 3, 4]).accept (firstBlock transactions)) (fun _ => true) = true := by
    decide +kernel
  have hindex : (plainWire [1, 2, 3, 4]).deliverBlock [] (firstBlock (some ⟨1, []⟩)) =
      .error .indexOutOfRange := by decide +kernel
  have hbehind : (plainWire [1, 2, 3, 4]).deliverBlock (replicate 7 0)
      (firstBlock (some ⟨1, replicate 9 0⟩)) =
        .ok (⟨1, replicate 9 0, replicate 7 0, 12, 1, [], 0⟩, [[]]) := by decide +kernel
  have hnil : (plainWire [1, 2, 3, 4]).deliverBlock [] (firstBlock none) = .error .nilPointer := by
    decide +kernel
  refine ⟨fun transactions htransactions => ?_, hindex, ?_, hbehind, ?_, hnil, ?_⟩
  · obtain ⟨info, hinfo, -⟩ := exists_of_succeeds (haccepted transactions htransactions)
    exact ⟨info, hinfo⟩
  · rintro ⟨_, _, _, _, -, -, hrun, -⟩
    rw [hindex] at hrun
    cases hrun
  · rintro ⟨block, transactions, _, _, hblock, htransactions, hrun, -, -, hinside⟩
    have hdecoded : (plainWire [1, 2, 3, 4]).unmarshalBlock
        (firstBlock (some ⟨1, replicate 9 0⟩)).data = some ⟨2, none, [], 1, some ⟨1, replicate 9 0⟩⟩ :=
      (plainWire [1, 2, 3, 4]).unmarshalBlock_marshalBlock _
    rw [hbehind] at hrun
    cases hrun
    cases hdecoded.symm.trans hblock
    cases htransactions
    exact absurd hinside (by decide)
  · rintro ⟨_, _, _, _, -, -, hrun, -⟩
    rw [hnil] at hrun
    cases hrun

end Blockmania.Broadcast
