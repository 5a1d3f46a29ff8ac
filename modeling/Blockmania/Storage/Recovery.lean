/-
# Recovery

After a restart a node reads from the database what it had in memory before: the blocks
it received and has not referenced yet, and the interpreted rounds that the application
has not acknowledged. A block is made of the same fields that were passed on when it was
received. A round is a list of block keys, each after its length, and its blocks are
looked up one by one.
-/

import Mathlib.Logic.Equiv.List
import Blockmania.Graph.Run
import Blockmania.Broadcast.Pool
import Blockmania.Storage.Blocks

namespace Blockmania

/-- The numbers and the number of blocks of a round fit into their fields. -/
structure Interpreted.Fits (data : Interpreted) : Prop where
  round : data.round < 2 ^ 64
  consumed : data.consumed < 2 ^ 64
  length : data.blocks.length < 2 ^ 63

namespace Storage

open Math Broadcast List FiniteMap

variable {β : Type}

/-- What is made of the blocks that were loaded. -/
theorem exists_mapM_getBlockData {wire : Wire β} {P : BlockID → SignedData β → Prop}
    {Q : BlockID → BlockData β → Prop} {ids : List BlockID} {blocks : List (SignedData β)}
    (h : Forall₂ P ids blocks)
    (hdata : ∀ id block, P id block → ∃ info, getBlockData wire block = .ok info ∧ Q id info) :
    ∃ infos, blocks.mapM (fun block => (getBlockData wire block).mapError StoreError.fault) =
      .ok infos ∧ Forall₂ Q ids infos := by
  induction h with
  | nil => exact ⟨[], rfl, .nil⟩
  | cons hfirst _ ih =>
    obtain ⟨infos, hinfos, hall⟩ := ih
    obtain ⟨info, hinfo, hholds⟩ := hdata _ _ hfirst
    refine ⟨info :: infos, ?_, .cons hholds hall⟩
    rw [mapM_cons]
    exact bind_eq_ok.mpr ⟨info, mapError_eq_ok.mpr hinfo, bind_eq_ok.mpr ⟨infos, hinfos, rfl⟩⟩

/-- What stands in one of two related lists has a partner in the other. -/
theorem exists_mem_of_forall₂ {α γ : Type} {R : α → γ → Prop} {xs : List α} {ys : List γ}
    (h : Forall₂ R xs ys) {x : α} (hx : x ∈ xs) : ∃ y ∈ ys, R x y := by
  induction h with
  | nil => cases hx
  | cons hfirst _ ih =>
    rcases mem_cons.mp hx with rfl | hx
    · exact ⟨_, mem_cons_self, hfirst⟩
    · obtain ⟨y, hy, hrel⟩ := ih hx
      exact ⟨y, mem_cons_of_mem _ hy, hrel⟩

/-- A block is recovered as it was received. Blocks are stored once they are accepted,
and the store returns what was set: no two blocks were stored under one id. Whatever is
stored for an accepted block, the same fields are made of it as were passed on when it
came in. After a restart, these are the fields that are passed on for exactly those
blocks that no own block references. -/
theorem recovered_eq_received (wire : Wire β) (codec : Codec β) (log : List (Transaction β))
    (hfits : ∀ t ∈ log, t.Fits) (haccepted : ∀ id block, .setBlock id block ∈ log →
      ∃ info, wire.accept block = .ok info ∧ info.id = id)
    (hreturns : ∀ id block block', Passed log id block → Passed log id block' → block = block') :
    (∀ signed info, wire.accept signed = .ok info → .setBlock info.id signed ∈ log →
      ∀ val, (commitAll codec log)[blockKey info.id]? = some val →
        ∃ block, codec.unmarshal val = some block ∧ getBlockData wire block = .ok info) ∧
    ∃ infos, getNotIncluded wire codec (commitAll codec log) = .ok infos ∧
      ∀ info, info ∈ infos ↔
        (∃ signed, wire.accept signed = .ok info ∧ .setBlock info.id signed ∈ log) ∧
          ¬ Referenced log info.id := by
  obtain ⟨maps, hmaps, haccounted, hpassed⟩ := exists_maps codec log hfits
  have hmem : ∀ id : BlockID, id ∈ waitingIDs maps ↔ Received log id ∧ ¬ Referenced log id :=
    fun id => mem_waitingIDs.trans ((haccounted.notIncluded id).trans (haccounted.waiting id))
  refine ⟨fun signed info haccept hset val hval => ?_, ?_⟩
  · rw [blockKey, hmaps.blocks.lookup (hfits _ hset)] at hval
    obtain ⟨block, hblock, rfl⟩ := Option.map_eq_some_iff.mp hval
    refine ⟨block, codec.unmarshal_marshal block, ?_⟩
    rw [hreturns _ _ _ (hpassed _ _ hblock) (Or.inl hset)]
    exact (getBlockData_of_accept haccept).1
  · obtain ⟨blocks, hload, hblocks⟩ := loadBlocks_ok hmaps
      (fun id block => Transaction.setBlock id block ∈ log) (waitingIDs maps) fun id hid => by
        have hwaiting := (haccounted.waiting id).mpr ((hmem id).mp hid)
        obtain ⟨block, hblock, hfound⟩ := haccounted.blocks id hwaiting
        obtain ⟨signed, hset⟩ := ((hmem id).mp hid).1
        rw [hreturns id block signed hfound (Or.inl hset)] at hblock
        exact ⟨hmaps.included.fits id false hwaiting, signed, hblock, hset⟩
    have hdata : ∀ id block, Transaction.setBlock id block ∈ log →
        ∃ info, getBlockData wire block = .ok info ∧ info.id = id ∧
          ∃ signed, wire.accept signed = .ok info ∧ Transaction.setBlock id signed ∈ log := by
      intro id block hset
      obtain ⟨info, haccept, hid⟩ := haccepted id block hset
      exact ⟨info, (getBlockData_of_accept haccept).1, hid, block, haccept, hset⟩
    obtain ⟨infos, hinfos, hall⟩ := exists_mapM_getBlockData hblocks hdata
    refine ⟨infos, ?_, fun info => ⟨fun hinfo => ?_, ?_⟩⟩
    · rw [getNotIncluded, readNotIncluded, hmaps.scan, hload]
      exact hinfos
    · obtain ⟨id, hid, rfl, hsigned⟩ := exists_mem_of_forall₂ hall.flip hinfo
      exact ⟨hsigned, ((hmem _).mp hid).2⟩
    · rintro ⟨⟨signed, haccept, hset⟩, hfree⟩
      obtain ⟨info', hinfo', -, signed', haccept', hset'⟩ :=
        exists_mem_of_forall₂ hall ((hmem info.id).mpr ⟨⟨signed, hset⟩, hfree⟩)
      rw [hreturns _ _ _ (Or.inl hset') (Or.inl hset), haccept] at haccept'
      cases haccept'
      exact hinfo'

/-- Signed data by its number. -/
def numberedCodec : Codec (List Nat) where
  marshal signed := replicate (Encodable.encode (signed.data, signed.signature)) 0
  unmarshal bytes := (Encodable.decode bytes.length).map fun x : List Nat × List Nat => ⟨x.1, x.2⟩
  unmarshal_marshal signed := by simp

/-- Two first blocks are received, one of them twice, and the other is referenced by it and
by an own block. -/
theorem recovered_eq_received_twice :
    let wire := plainWire [1, 2, 3]
    let first := wire.signBlock ⟨2, none, [], 1, none⟩
    ∃ info, wire.accept first = .ok info ∧
      let second := wire.signBlock ⟨3, none, [info.ref], 1, none⟩
      let own := wire.signBlock ⟨1, none, [info.ref], 1, none⟩
      ∃ info', wire.accept second = .ok info' ∧ info'.deps = [info.id] ∧
        ∃ infos, getNotIncluded wire numberedCodec (commitAll numberedCodec
          [.setBlock info.id first, .setBlock info'.id second,
            .setOwnBlock own own ⟨⟨[9], 1, 1⟩, [⟨info.id, [], .zero⟩], .zero⟩,
            .setBlock info'.id second]) = .ok infos ∧ info' ∈ infos ∧ info ∉ infos := by
  intro wire first
  have haccepts : succeeds (wire.accept first) (fun info =>
      succeeds (wire.accept (wire.signBlock ⟨3, none, [info.ref], 1, none⟩)) fun info' =>
        info.id.Fits ∧ info'.id.Fits ∧ info.id.node = 2 ∧ info'.id.node = 3 ∧
          info'.deps = [info.id]) = true := by decide +kernel
  obtain ⟨info, haccept, hrest⟩ := exists_of_succeeds haccepts
  obtain ⟨info', haccept', hrest⟩ := exists_of_succeeds hrest
  obtain ⟨hfits, hfits', hnode, hnode', hdeps⟩ := of_decide_eq_true hrest
  refine ⟨info, haccept, info', haccept', hdeps, ?_⟩
  set second := wire.signBlock ⟨3, none, [info.ref], 1, none⟩
  set own := wire.signBlock ⟨1, none, [info.ref], 1, none⟩
  generalize hgraph : BlockGraph.mk ⟨[9], 1, 1⟩ [⟨info.id, [], .zero⟩] .zero = graph
  generalize hlog : [Transaction.setBlock info.id first, .setBlock info'.id second,
    .setOwnBlock own own graph, .setBlock info'.id second] = log
  have hset : ∀ id block, .setBlock id block ∈ log →
      id = info.id ∧ block = first ∨ id = info'.id ∧ block = second := by
    rw [← hlog]
    simp +contextual
  have hown : ∀ block blockRef graph', .setOwnBlock block blockRef graph' ∈ log →
      block = own ∧ graph' = graph := by
    rw [← hlog]
    simp +contextual
  have hpassed : ∀ id block, Passed log id block →
      block = if id.node = 2 then first else if id.node = 3 then second else own := by
    rintro id block (hid | ⟨blockRef, graph', hid, rfl⟩)
    · rcases hset _ _ hid with ⟨rfl, rfl⟩ | ⟨rfl, rfl⟩
      · rw [if_pos hnode]
      · rw [hnode', if_neg (by decide), if_pos rfl]
    · obtain ⟨rfl, rfl⟩ := hown _ _ _ hid
      rw [← hgraph]
      rfl
  have hgraphFits : graph.block.Fits ∧ ∀ id ∈ references graph, id.Fits := by
    rw [← hgraph]
    have hone : 1 < 2 ^ 64 := by decide
    exact ⟨⟨hone, hone⟩, fun id hid => mem_singleton.mp hid ▸ hfits⟩
  obtain ⟨-, infos, hread, hmem⟩ := recovered_eq_received wire numberedCodec log
    (by simpa [← hlog, Transaction.Fits, hfits, hfits'] using hgraphFits)
    (fun id block hid => by
      rcases hset _ _ hid with ⟨rfl, rfl⟩ | ⟨rfl, rfl⟩
      · exact ⟨info, haccept, rfl⟩
      · exact ⟨info', haccept', rfl⟩)
    fun id block block' h h' => (hpassed id block h).trans (hpassed id block' h').symm
  refine ⟨infos, hread, (hmem info').mpr ⟨⟨second, haccept', by simp [← hlog]⟩, ?_⟩,
    fun hinfo => ((hmem info).mp hinfo).2 ⟨own, own, graph, by simp [← hlog], ?_⟩⟩
  · rintro ⟨block, blockRef, graph', hid, href⟩
    obtain ⟨-, rfl⟩ := hown _ _ _ hid
    rw [← hgraph] at href
    rw [mem_singleton.mp href, hnode] at hnode'
    cases hnode'
  · simp [← hgraph, references]

/-- The loop that writes the keys of a round. -/
def putKeys : List Bytes → Nat → Bytes → Except Fault Bytes
  | [], _, enc => .ok enc
  | key :: keys, idx, enc => do
    -- a longer key would lose the upper bytes of its length
    let enc ← putAt enc idx (littleEndianBytes 2 key.length)
    let enc ← copyAt enc (idx + 2) key
    putKeys keys (idx + (2 + key.length)) enc

/-- The value of a round. -/
def encodeInterpreted (data : Interpreted) : Except Fault Bytes := do
  let keys := data.blocks.map blockKey
  let size := 8 + (keys.map fun key => 2 + key.length).sum
  let enc ← putAt (replicate size 0) 0 (littleEndianBytes 8 data.blocks.length)
  putKeys keys 8 enc

def setInterpreted (db : Badger) (data : Interpreted) : Except Fault Badger := do
  let enc ← encodeInterpreted data
  let lastVal := littleEndianBytes 8 data.round ++ littleEndianBytes 8 data.consumed
  return (db.insert (interpretedKey data.round) enc).insert [lastInterpretedPrefix] lastVal

/-- The loop that reads the keys of a round and looks up its blocks. -/
def readBlocks (codec : Codec β) (db : Badger) (val : Bytes) :
    Nat → Nat → Except StoreError (List (SignedData β))
  | 0, _ => .ok []
  | n + 1, idx => do
    let ksize ← (slice val [] idx (idx + 2)).mapError StoreError.fault
    let key ← (slice val [] (idx + 2) (idx + 2 + littleEndian ksize)).mapError StoreError.fault
    match db[key]? with
    | none => .error .keyNotFound
    | some val' =>
      match codec.unmarshal val' with
      | none => .error .undecodable
      | some block => do
        let blocks ← readBlocks codec db val n (idx + (2 + littleEndian ksize))
        return block :: blocks

def getInterpreted (codec : Codec β) (db : Badger) (round : Nat) :
    Except StoreError (List (SignedData β)) :=
  match db[interpretedKey round]? with
  | none => .error .keyNotFound
  | some val => do
    let size ← (slice val [] 0 8).mapError StoreError.fault
    -- a negative number of blocks is none
    let size := if littleEndian size < 2 ^ 63 then littleEndian size else 0
    readBlocks codec db val size 8

def getLastInterpreted (db : Badger) : Except StoreError (Nat × Nat) :=
  match db[([lastInterpretedPrefix] : Bytes)]? with
  | none => .error .keyNotFound
  | some val => do
    let round ← (slice val [] 0 8).mapError StoreError.fault
    let consumed ← (slice val [] 8 16).mapError StoreError.fault
    return (littleEndian round, littleEndian consumed)

/-- One call of `setInterpreted` after another. -/
def setAllInterpreted : Badger → List Interpreted → Except Fault Badger
  | db, [] => .ok db
  | db, data :: calls => do
    let db ← setInterpreted db data
    setAllInterpreted db calls

/-- A key after its length. -/
def sizedKey (key : Bytes) : Bytes := littleEndianBytes 2 key.length ++ key

/-- The keys are written one after another, and they fill the value. -/
theorem putKeys_eq (keys : List Bytes) (enc : Bytes) (idx : Nat)
    (hlength : enc.length = idx + (keys.map fun key => 2 + key.length).sum) :
    putKeys keys idx enc = .ok (enc.take idx ++ keys.flatMap sizedKey) := by
  induction keys generalizing enc idx with
  | nil =>
    rw [map_nil, sum_nil, Nat.add_zero] at hlength
    rw [putKeys, flatMap_nil, append_nil, ← hlength, take_length]
  | cons key keys ih =>
    rw [map_cons, sum_cons] at hlength
    obtain ⟨enc₁, hput, hlength₁, htake₁⟩ := putAt_of_le enc idx (littleEndianBytes 2 key.length)
      (by rw [length_littleEndianBytes]; omega)
    rw [length_littleEndianBytes] at htake₁
    obtain ⟨enc₂, hcopy, hlength₂, htake₂⟩ := putAt_of_le enc₁ (idx + 2) key (by omega)
    have hcopied : copyAt enc₁ (idx + 2) key = .ok enc₂ := (copyAt_of_le (by omega)).trans hcopy
    have hrest := ih enc₂ (idx + (2 + key.length)) (by omega)
    rw [← Nat.add_assoc, htake₂, htake₁] at hrest
    rw [putKeys, hput]
    change (copyAt enc₁ (idx + 2) key >>= _) = _
    rw [hcopied]
    change putKeys keys (idx + (2 + key.length)) enc₂ = _
    rw [← Nat.add_assoc, hrest, flatMap_cons, sizedKey, append_assoc, append_assoc, append_assoc]

/-- The value of a round is the number of its blocks and their keys. -/
theorem encodeInterpreted_eq (data : Interpreted) :
    encodeInterpreted data = .ok (littleEndianBytes 8 data.blocks.length ++
      (data.blocks.map blockKey).flatMap sizedKey) := by
  obtain ⟨enc, hput, hlength, htake⟩ := putAt_of_le
    (replicate (8 + ((data.blocks.map blockKey).map fun key => 2 + key.length).sum) 0) 0
    (littleEndianBytes 8 data.blocks.length)
    (by rw [length_littleEndianBytes, length_replicate]; omega)
  rw [length_replicate] at hlength
  rw [length_littleEndianBytes, Nat.zero_add, take_zero, nil_append] at htake
  rw [encodeInterpreted, hput]
  change putKeys (data.blocks.map blockKey) 8 enc = _
  rw [putKeys_eq _ enc 8 hlength, htake]

variable {db db' : Badger} {data : Interpreted} {id : BlockID} {block : SignedData β}

section Rounds

variable {codec : Codec β} {stored : BlockID → SignedData β}

/-- The block is stored, and the length of its key fits into two bytes. -/
structure Holds (codec : Codec β) (db : Badger) (id : BlockID) (block : SignedData β) : Prop where
  length : (blockKey id).length < 65536
  value : ∃ val, db[blockKey id]? = some val ∧ codec.unmarshal val = some block

/-- The keys are read as they were written, and nothing is read behind them. -/
theorem readBlocks_eq (ids : List BlockID) : ∀ (val : Bytes) (idx : Nat),
    idx ≤ val.length → val.drop idx = (ids.map blockKey).flatMap sizedKey →
    (∀ id ∈ ids, Holds codec db id (stored id)) →
    readBlocks codec db val ids.length idx = .ok (ids.map stored) := by
  induction ids with
  | nil => exact fun val idx _ _ _ => rfl
  | cons id ids ih =>
    intro val idx hidx hval hholds
    obtain ⟨hlength, val', hval', hblock⟩ := hholds id mem_cons_self
    rw [map_cons, flatMap_cons, sizedKey, append_assoc] at hval
    obtain ⟨hsize, hval, hidx⟩ := slice_of hidx hval
    obtain ⟨hkey, hval, hidx⟩ := slice_of hidx hval
    rw [length_littleEndianBytes] at hsize hkey hval hidx
    have hksize : littleEndian (littleEndianBytes 2 (blockKey id).length) = (blockKey id).length := by
      rw [littleEndian_littleEndianBytes]
      exact Nat.mod_eq_of_lt hlength
    have hrest := ih val (idx + 2 + (blockKey id).length) hidx hval
      fun id' hid' => hholds id' (mem_cons_of_mem _ hid')
    rw [Nat.add_assoc] at hrest
    rw [length_cons, readBlocks]
    refine bind_eq_ok.mpr ⟨_, mapError_eq_ok.mpr hsize, ?_⟩
    rw [hksize]
    refine bind_eq_ok.mpr ⟨_, mapError_eq_ok.mpr hkey, ?_⟩
    rw [hval']
    dsimp only
    rw [hblock]
    exact bind_eq_ok.mpr ⟨_, hrest, rfl⟩

/-- What a call of `setInterpreted` changes. -/
theorem setInterpreted_eq (db : Badger) (data : Interpreted) :
    setInterpreted db data = .ok ((db.insert (interpretedKey data.round)
      (littleEndianBytes 8 data.blocks.length ++ (data.blocks.map blockKey).flatMap sizedKey)).insert
        [lastInterpretedPrefix]
        (littleEndianBytes 8 data.round ++ littleEndianBytes 8 data.consumed)) := by
  rw [setInterpreted, encodeInterpreted_eq]
  rfl

theorem interpretedKey_ne_last (round : Nat) : [lastInterpretedPrefix] ≠ interpretedKey round := by
  intro h
  exact absurd (List.cons.inj h).1 (by decide)

/-- The values that a call of `setInterpreted` leaves. -/
theorem lookup_setInterpreted (hset : setInterpreted db data = .ok db') :
    db'[interpretedKey data.round]? = some (littleEndianBytes 8 data.blocks.length ++
      (data.blocks.map blockKey).flatMap sizedKey) ∧
    db'[([lastInterpretedPrefix] : Bytes)]? =
      some (littleEndianBytes 8 data.round ++ littleEndianBytes 8 data.consumed) := by
  rw [setInterpreted_eq] at hset
  cases hset
  rw [lookup_insert_of_ne _ (interpretedKey_ne_last _), lookup_insert_self, lookup_insert_self]
  exact ⟨rfl, rfl⟩

/-- Blocks stay as they are. -/
theorem Holds.setInterpreted (h : Holds codec db id block) (hset : setInterpreted db data = .ok db') :
    Holds codec db' id block := by
  obtain ⟨val, hval, hblock⟩ := h.value
  rw [setInterpreted_eq] at hset
  cases hset
  have hlast : [lastInterpretedPrefix] ≠ blockKey id :=
    fun heq => absurd (List.cons.inj heq).1 (by decide)
  have hround : interpretedKey data.round ≠ blockKey id :=
    fun heq => absurd (List.cons.inj heq).1 (by decide)
  refine ⟨h.length, val, ?_, hblock⟩
  rw [lookup_insert_of_ne _ hlast, lookup_insert_of_ne _ hround, hval]

theorem Holds.setAllInterpreted (calls : List Interpreted) (h : Holds codec db id block)
    (hrun : setAllInterpreted db calls = .ok db') :
    Holds codec db' id block := by
  induction calls generalizing db db' with
  | nil =>
    cases hrun
    exact h
  | cons data calls ih =>
    obtain ⟨db₁, hset, hrun⟩ := bind_eq_ok.mp hrun
    exact ih (h.setInterpreted hset) hrun

/-- A round is read back. -/
theorem getInterpreted_of_value
    (hvalue : db[interpretedKey data.round]? = some (littleEndianBytes 8 data.blocks.length ++
      (data.blocks.map blockKey).flatMap sizedKey)) (hlength : data.blocks.length < 2 ^ 63)
    (hholds : ∀ id ∈ data.blocks, Holds codec db id (stored id)) :
    getInterpreted codec db data.round = .ok (data.blocks.map stored) := by
  have hbytes : (littleEndianBytes 8 data.blocks.length ++
      (data.blocks.map blockKey).flatMap sizedKey).drop 0 =
      littleEndianBytes 8 data.blocks.length ++ (data.blocks.map blockKey).flatMap sizedKey :=
    drop_zero
  obtain ⟨hsize, hrest, hidx⟩ := slice_of (Nat.zero_le _) hbytes
  rw [length_littleEndianBytes] at hsize hrest hidx
  have hcount : littleEndian (littleEndianBytes 8 data.blocks.length) = data.blocks.length := by
    rw [littleEndian_littleEndianBytes]
    exact Nat.mod_eq_of_lt (Nat.lt_trans hlength (by decide))
  rw [getInterpreted, hvalue]
  refine bind_eq_ok.mpr ⟨_, mapError_eq_ok.mpr hsize, ?_⟩
  rw [hcount, if_pos hlength]
  exact readBlocks_eq data.blocks _ 8 hidx hrest hholds

theorem getLastInterpreted_of_value (hfits : data.Fits)
    (hvalue : db[([lastInterpretedPrefix] : Bytes)]? =
      some (littleEndianBytes 8 data.round ++ littleEndianBytes 8 data.consumed)) :
    getLastInterpreted db = .ok (data.round, data.consumed) := by
  have hread : ∀ n < 2 ^ 64, littleEndian (littleEndianBytes 8 n) = n := fun n hn => by
    rw [littleEndian_littleEndianBytes]
    exact Nat.mod_eq_of_lt hn
  rw [getLastInterpreted, hvalue]
  refine bind_eq_ok.mpr ⟨littleEndianBytes 8 data.round, mapError_eq_ok.mpr rfl,
    bind_eq_ok.mpr ⟨littleEndianBytes 8 data.consumed, mapError_eq_ok.mpr rfl, ?_⟩⟩
  rw [hread _ hfits.round, hread _ hfits.consumed]
  rfl

/-- A later round leaves the value of an earlier one. -/
theorem lookup_setAllInterpreted {round : Nat} (hround : round < 2 ^ 64) (calls : List Interpreted)
    (hrun : setAllInterpreted db calls = .ok db')
    (hother : ∀ data ∈ calls, data.round < 2 ^ 64 ∧ round ≠ data.round) :
    db'[interpretedKey round]? = db[interpretedKey round]? := by
  induction calls generalizing db db' with
  | nil =>
    cases hrun
    rfl
  | cons data calls ih =>
    obtain ⟨db₁, hset, hrun⟩ := bind_eq_ok.mp hrun
    obtain ⟨hfits, hne⟩ := hother data mem_cons_self
    rw [ih hrun fun data' hdata' => hother data' (mem_cons_of_mem _ hdata')]
    rw [setInterpreted_eq] at hset
    cases hset
    rw [lookup_insert_of_ne _ (interpretedKey_ne_last round), lookup_insert_of_ne]
    intro heq
    exact hne ((encodeNumber_inj hfits hround).mp (List.cons.inj heq).2).symm

/-- Interpreted rounds are recovered as they were delivered. -/
theorem interpreted_roundTrip (codec : Codec β) (db : Badger) (calls : List Interpreted)
    (stored : BlockID → SignedData β)
    (hrounds : calls.Pairwise fun data data' => data.round < data'.round)
    (hfits : ∀ data ∈ calls, data.Fits)
    (hholds : ∀ data ∈ calls, ∀ id ∈ data.blocks, Holds codec db id (stored id)) :
    ∃ db', setAllInterpreted db calls = .ok db' ∧
      (∀ data ∈ calls, getInterpreted codec db' data.round = .ok (data.blocks.map stored)) ∧
      ∀ data, calls.getLast? = some data →
        getLastInterpreted db' = .ok (data.round, data.consumed) := by
  induction calls generalizing db with
  | nil =>
    refine ⟨db, rfl, fun data hdata => ?_, fun data hdata => ?_⟩
    · cases hdata
    · cases hdata
  | cons data calls ih =>
    obtain ⟨hlater, hrounds⟩ := pairwise_cons.mp hrounds
    obtain ⟨db₁, hset⟩ : ∃ db₁, setInterpreted db data = .ok db₁ := ⟨_, setInterpreted_eq db data⟩
    obtain ⟨hvalue, hlastValue⟩ := lookup_setInterpreted hset
    obtain ⟨db', hrun, hread, hlast⟩ := ih db₁ hrounds
      (fun data' hdata' => hfits data' (mem_cons_of_mem _ hdata'))
      fun data' hdata' id hid =>
        (hholds data' (mem_cons_of_mem _ hdata') id hid).setInterpreted hset
    have hall : setAllInterpreted db (data :: calls) = .ok db' := bind_eq_ok.mpr ⟨db₁, hset, hrun⟩
    refine ⟨db', hall, fun data' hdata' => ?_, fun data' hdata' => ?_⟩
    · rcases mem_cons.mp hdata' with rfl | hdata'
      · refine getInterpreted_of_value ?_ (hfits data' mem_cons_self).length fun id hid =>
          (hholds data' mem_cons_self id hid).setAllInterpreted _ hall
        rw [lookup_setAllInterpreted (hfits data' mem_cons_self).round calls hrun
          fun data hdata => ⟨(hfits data (mem_cons_of_mem _ hdata)).round,
            Nat.ne_of_lt (hlater data hdata)⟩]
        exact hvalue
      · exact hread data' hdata'
    · cases calls with
      | nil =>
        cases hrun
        cases hdata'
        exact getLastInterpreted_of_value (hfits data mem_cons_self) hlastValue
      | cons next calls => exact hlast data' hdata'

/-- Two rounds, of which the second one is empty. -/
theorem interpreted_roundTrip_two :
    let id : BlockID := ⟨[7, 0], 2, 1⟩
    let db : Badger := (∅ : Badger).insert (blockKey id) (plainCodec.marshal ⟨[1], [2]⟩)
    ∃ db', setAllInterpreted db [⟨[id, id], 4, 1⟩, ⟨[], 5, 2⟩] = .ok db' ∧
      getInterpreted plainCodec db' 1 = .ok [⟨[1], [2]⟩, ⟨[1], [2]⟩] ∧
      getLastInterpreted db' = .ok (2, 5) := by
  intro id db
  have hholds : Holds plainCodec db id ⟨[1], [2]⟩ := by
    refine ⟨by decide, _, lookup_insert_self _ _ _, ?_⟩
    exact plainCodec.unmarshal_marshal _
  obtain ⟨db', hrun, hread, hlast⟩ := interpreted_roundTrip plainCodec db
    [⟨[id, id], 4, 1⟩, ⟨[], 5, 2⟩] (fun _ => ⟨[1], [2]⟩) (by decide)
    (forall_mem_cons.mpr ⟨⟨by decide, by decide, by decide⟩,
      forall_mem_singleton.mpr ⟨by decide, by decide, by decide⟩⟩)
    (forall_mem_cons.mpr ⟨forall_mem_cons.mpr ⟨hholds, forall_mem_singleton.mpr hholds⟩,
      forall_mem_singleton.mpr fun id' hid' => (by cases hid')⟩)
  exact ⟨db', hrun, hread _ mem_cons_self, hlast _ rfl⟩

end Rounds

end Storage

end Blockmania
