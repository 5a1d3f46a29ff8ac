/-
# Sending own blocks to a peer

A node sends its own blocks to each peer in batches, and an acknowledgement tells it the
last round of a batch that the peer has stored. It remembers that round, writes it to its
database from time to time, and starts the next batch behind it. Connections break, both
processes may die at any time, and what is still on its way on an old connection may
arrive later; but the answer to a batch is only read from the connection on which it was
sent.

A run is any interleaving of what the sender, the receiver and the connections between
them do. The rounds of the sender are 64-bit numbers, and no run gets to the last of them.
-/

import Blockmania.Broadcast.OwnBlocks
import Blockmania.Broadcast.References

namespace Blockmania.Broadcast

open Math List FiniteMap

variable {β : Type}

namespace Node

/-- The blocks of a database have their own ids, and the blocks of which it knows
whether they are included are among them. -/
structure Filed (wire : Wire β) (db : Database β) : Prop where
  included : ∀ id : BlockID, (db.included[id]?).isSome → (db.blocks[id]?).isSome
  named : ∀ (id : BlockID) (signed : SignedData β), db.blocks[id]? = some signed →
    ∃ block, wire.unmarshalBlock signed.data = some block ∧
      (wire.reference signed.data block).id = id

/-- All blocks that a node knows of are in its database, under their ids. -/
structure Stocked (wire : Wire β) (n : Node β) : Prop
    extends Holds (fun info => (n.db.blocks[info.id]?).isSome)
      (fun info => (n.db.blocks[info.id]?).isSome) n, Filed wire n.db

theorem stocked_start (wire : Wire β) (self : Nat) : (start self).Stocked wire := by
  refine ⟨holds_start self _ _, ?_⟩
  constructor <;> simp [start, Database.empty]

variable {wire : Wire β} {n n' : Node β} {id : BlockID} {info : BlockData β} {signed : SignedData β}
  {block : Block β} {db : Database β}

/-- The id of a reloaded block is the one under which it is stored. -/
theorem Stocked.id_of_getBlockData (h : n.Stocked wire) (hsigned : n.db.blocks[id]? = some signed)
    (hinfo : getBlockData wire signed = .ok info) : info.id = id := by
  obtain ⟨block, hblock, hid⟩ := h.named id signed hsigned
  rw [getBlockData, hblock] at hinfo
  obtain ⟨prev, -, hinfo⟩ := bind_eq_ok.mp hinfo
  obtain ⟨deps, -, hinfo⟩ := bind_eq_ok.mp hinfo
  cases hinfo
  exact hid

/-- An accepted block is named by its content. -/
theorem id_of_accept (haccept : wire.accept signed = .ok info) : ∃ block,
      wire.unmarshalBlock signed.data = some block ∧
      info.id = (wire.reference signed.data block).id := by
  have hdata := (getBlockData_of_accept haccept).1
  unfold getBlockData at hdata
  split at hdata
  · cases hdata
  rename_i block hblock
  obtain ⟨prev, -, hdata⟩ := bind_eq_ok.mp hdata
  obtain ⟨deps, -, hdata⟩ := bind_eq_ok.mp hdata
  cases hdata
  exact ⟨block, hblock, rfl⟩

/-- A block is written to the database. -/
theorem lookup_insert_block (db : Database β) (id id' : BlockID) (signed : SignedData β)
    (h : (db.blocks[id']?).isSome ∨ id' = id) : ((db.blocks.insert id signed)[id']?).isSome := by
  rw [lookup_insert]
  split
  · rfl
  · rename_i hne
    exact h.resolve_right (Ne.symm hne)

theorem Filed.named_insert (h : Filed wire db)
    (hblock : wire.unmarshalBlock signed.data = some block)
    (hid : (wire.reference signed.data block).id = id) (id' : BlockID) (signed' : SignedData β)
    (hsigned : (db.blocks.insert id signed)[id']? = some signed') :
    ∃ block, wire.unmarshalBlock signed'.data = some block ∧
      (wire.reference signed'.data block).id = id' := by
  rw [lookup_insert] at hsigned
  split at hsigned
  · rename_i heq
    cases hsigned
    exact ⟨block, hblock, hid.trans heq⟩
  · exact h.named id' signed' hsigned

/-- An accepted block is stored, if not now then before. -/
theorem Filed.setBlock (h : Filed wire db) (haccept : wire.accept signed = .ok info) :
    Filed wire (db.setBlock info.id signed) ∧
      ((db.setBlock info.id signed).blocks[info.id]?).isSome ∧
      ∀ id : BlockID, (db.blocks[id]?).isSome →
        ((db.setBlock info.id signed).blocks[id]?).isSome := by
  obtain ⟨block, hblock, hid⟩ := id_of_accept haccept
  unfold Database.setBlock
  split
  · exact ⟨h, h.included info.id ‹_›, fun _ hstored => hstored⟩
  · have hgrows : ∀ id : BlockID, (db.blocks[id]?).isSome →
        ((db.blocks.insert info.id signed)[id]?).isSome := fun id hstored =>
      lookup_insert_block _ _ _ _ (.inl hstored)
    refine ⟨⟨fun id hincluded => ?_, h.named_insert hblock hid.symm⟩,
      lookup_insert_block _ _ _ _ (.inr rfl), hgrows⟩
    dsimp only at hincluded ⊢
    rw [lookup_insert] at hincluded
    split at hincluded
    · exact lookup_insert_block _ _ _ _ (.inr (Eq.symm ‹_›))
    · exact hgrows id (h.included id hincluded)

/-- An own block is stored with the blocks it references. -/
theorem Filed.setOwnBlock (h : Filed wire db) {refs : List (BlockData β)}
    (hrefs : ∀ info ∈ refs, (db.blocks[info.id]?).isSome)
    (hblock : wire.unmarshalBlock signed.data = some block) (ref : SignedData β) :
    Filed wire (db.setOwnBlock (wire.reference signed.data block).id signed ref
      (refs.map BlockData.id)) := by
  refine ⟨fun id hincluded => lookup_insert_block _ _ _ _ (.inl ?_), h.named_insert hblock rfl⟩
  dsimp only [Database.setOwnBlock] at hincluded
  rw [lookup_insertAll] at hincluded
  split at hincluded
  · rename_i hmem
    obtain ⟨info, hinfo, rfl⟩ := mem_map.mp hmem
    exact hrefs info hinfo
  · exact h.included id hincluded

/-- Every piece of work keeps what is stored. -/
theorem Stocked.changes (h : n.Stocked wire) {s : Step β} (hchanges : Changes wire n s n') :
    n'.Stocked wire ∧ ∀ id : BlockID, (n.db.blocks[id]?).isSome → (n'.db.blocks[id]?).isSome := by
  have hgrows : ∀ id : BlockID, (n.db.blocks[id]?).isSome → (n'.db.blocks[id]?).isSome := by
    cases hchanges with
    | received haccept => exact (h.setBlock haccept).2.2
    | committed => exact fun id hstored => lookup_insert_block _ _ _ _ (.inl hstored)
    | _ => exact fun _ hstored => hstored
  refine ⟨⟨?_, ?_⟩, hgrows⟩
  · have hheld : n.Holds (fun info => (n'.db.blocks[info.id]?).isSome)
        (fun info => (n'.db.blocks[info.id]?).isSome) :=
      ⟨fun info hinfo => hgrows _ (h.inbox info hinfo),
        fun id info hinfo => hgrows _ (h.pending id info hinfo),
        fun info hinfo => hgrows _ (h.blocks info hinfo),
        fun info hinfo => hgrows _ (h.refs info hinfo)⟩
    apply hheld.changes hchanges
    · intro signed info haccept _ hdb
      rw [hdb]
      exact (h.setBlock haccept).2.1
    · exact fun _ _ hstored _ => hstored
    · intro infos hinfos info hinfo
      obtain ⟨id, -, signed, hsigned, hdata⟩ := of_getNotIncluded hinfos info hinfo
      rw [h.id_of_getBlockData hsigned hdata]
      exact hgrows _ (Option.isSome_of_eq_some hsigned)
  · cases hchanges with
    | received haccept => exact (h.setBlock haccept).1
    | committed hgen hblock hsigned href =>
      have hrefs := h.refs
      rw [hgen] at hrefs
      rw [hsigned]
      exact h.setOwnBlock hrefs (wire.unmarshalBlock_marshalBlock _) _
    | _ => exact h.toFiled

end Node

/-- What the sender knows about its own blocks, and about the blocks that one of its
peers has. -/
structure Sender (β : Type) where
  store : Store (SignedData β)
  /-- The entry of the sent map in the database; a missing one counts as round 0. -/
  persisted : Nat
  ownBlocks : OwnBlocks (SignedData β)
  round : Nat
  gen : Gen (SignedData β)
  sent : Nat
  /-- What `writeSentMap` has copied. -/
  copied : Option Nat

namespace Sender

/-- `loadState` on the given database. -/
def loadState (store : Store (SignedData β)) (persisted : Nat) : Sender β where
  store
  persisted
  ownBlocks := ⟨∅, 0⟩
  round := store.getLastRound
  gen := .waiting store.getLastRound
  sent := persisted
  copied := none

def getOwnBlock (s : Sender β) (round : Nat) : Option (SignedData β × Sender β) :=
  match s.ownBlocks.get round with
  | some block => some (block, s)
  | none =>
    match s.store.getOwnBlock round with
    | some block => some (block, { s with ownBlocks := s.ownBlocks.set round block })
    | none => none

/-- The loop of `getUnsent`, over the given number of rounds from `i` on. -/
def collect (wire : Wire β) (maxPayload : Nat) :
    Nat → Nat → Nat → Sender β → Except Fault (List (SignedData β) × Sender β)
  | 0, _, _, s => .ok ([], s)
  | n + 1, i, total, s =>
    match s.getOwnBlock i with
    | none => .error .fatal
    | some (block, s) =>
      let total := total + block.size wire
      if total > maxPayload then
        if i = s.sent + 1 then .error .fatal else .ok ([], s)
      else do
        let (blocks, s) ← collect wire maxPayload n (i + 1) total s
        return (block :: blocks, s)

/-- `getUnsent`. It waits if there is nothing to send. -/
def getUnsent (wire : Wire β) (maxPayload : Nat) (s : Sender β) :
    Except Fault (List (SignedData β) × Sender β) :=
  collect wire maxPayload (s.round - s.sent) (s.sent + 1) 0 s

end Sender

/-! ## Connections -/

/-- A connection, and what is on it. -/
inductive Exchange (β : Type)
  | quiet
  /-- A batch is on its way. -/
  | sent (blocks : List (SignedData β))
  /-- `handleBroadcastList` has these blocks to process, and `last` is the round of the
  last one it has processed. -/
  | handling (blocks : List (SignedData β)) (last : Nat)
  /-- The acknowledgement is on its way. -/
  | answered (last : Nat)
  | closed

/-- The process that has accepted a connection dies. What it has sent may still
arrive. -/
def Exchange.interrupt : Exchange β → Exchange β
  | .sent _ | .handling _ _ => .closed
  | exchange => exchange

/-- The two nodes, and the connections that the sender has ever had to the receiver. It
uses the first one. -/
structure Transfer (β : Type) where
  sender : Sender β
  receiver : Node β
  connections : List (Exchange β)

/-- What may happen next. -/
inductive Occurrence (β : Type)
  /-- `genBlocks` builds and signs a block. -/
  | build (previous : Option (SignedData β)) (references : List (SignedData β))
      (transactions : Transactions)
  /-- The block is put into the cache. -/
  | cache
  /-- It is written to the database. -/
  | commit
  /-- The round counter is updated. -/
  | publish
  /-- The cache is pruned after every 50th round. -/
  | tidy
  /-- Another peer asks for an own block. -/
  | serve (round : Nat)
  /-- `maintainBroadcast` sends a batch. -/
  | send
  /-- The receiver reads the batch. -/
  | arrive (i : Nat)
  /-- The receiver processes a block of the batch. -/
  | process (i : Nat)
  /-- The receiver acknowledges the batch. -/
  | respond (i : Nat)
  /-- `maintainBroadcast` reads the acknowledgement. -/
  | acknowledge
  /-- `maintainBroadcast` gives the connection up and opens a new one. -/
  | reconnect
  /-- The other end of a connection is closed. -/
  | close (i : Nat)
  /-- `writeSentMap` copies the map. -/
  | copy
  /-- `writeSentMap` stores the copy. -/
  | write
  /-- The sender dies and is started again. -/
  | restart
  /-- The receiver does a piece of work, or is started again. -/
  | work (step : Step β)

namespace Transfer

def start (self : Nat) : Transfer β := ⟨.loadState ⟨∅, none⟩ 0, .start self, [.quiet]⟩

/-- The sender dies and is started again. -/
def restart (t : Transfer β) : Transfer β := { t with
  sender := .loadState t.sender.store t.sender.persisted
  connections := .quiet :: t.connections }

variable (wire : Wire β) (node maxPayload : Nat)

/-- One occurrence. What cannot happen now changes nothing. -/
def step (t : Transfer β) : Occurrence β → Transfer β
  | .build previous references transactions =>
    match t.sender.gen with
    | .waiting round =>
      -- so that no counter wraps around
      if round + 2 < 2 ^ 64 then
        let signed := wire.signBlock ⟨node, previous, references, round + 1, some transactions⟩
        { t with sender := { t.sender with gen := .built (round + 1) signed } }
      else t
    | _ => t
  | .cache =>
    match t.sender.gen with
    | .built round signed => { t with sender := { t.sender with
        ownBlocks := t.sender.ownBlocks.set round signed
        gen := .cached round signed } }
    | _ => t
  | .commit =>
    match t.sender.gen with
    | .cached round signed => { t with sender := { t.sender with
        store := t.sender.store.setOwnBlock round signed
        gen := .committed round } }
    | _ => t
  | .publish =>
    match t.sender.gen with
    | .committed round => { t with sender := { t.sender with round, gen := .published round } }
    | _ => t
  | .tidy =>
    match t.sender.gen with
    | .published round => { t with sender := { t.sender with
        ownBlocks := if round % 50 = 0 then t.sender.ownBlocks.prune 50 else t.sender.ownBlocks
        gen := .waiting round } }
    | _ => t
  | .serve round =>
    match t.sender.getOwnBlock round with
    | some (_, sender) => { t with sender }
    | none => t
  | .send =>
    match t.connections with
    | .quiet :: connections =>
      match t.sender.getUnsent wire maxPayload with
      | .error _ => t.restart
      | .ok ([], sender) => { t with sender }
      | .ok (blocks, sender) => { t with sender, connections := .sent blocks :: connections }
    | _ => t
  | .arrive i =>
    match t.connections[i]? with
    | some (.sent blocks) => { t with connections := t.connections.set i (.handling blocks 0) }
    | _ => t
  | .process i =>
    match t.connections[i]? with
    | some (.handling (signed :: blocks) _) =>
      match wire.accept signed with
      | .error _ => { t with connections := t.connections.set i .closed }
      | .ok info => { t with
          receiver := { t.receiver with
            db := t.receiver.db.setBlock info.id signed
            depgraph := { t.receiver.depgraph with inbox := t.receiver.depgraph.inbox ++ [info] } }
          connections := t.connections.set i (.handling blocks info.id.round) }
    | _ => t
  | .respond i =>
    match t.connections[i]? with
    | some (.handling [] last) => { t with connections := t.connections.set i (.answered last) }
    | _ => t
  | .acknowledge =>
    match t.connections with
    | .answered last :: connections => { t with
        sender := { t.sender with sent := last }
        connections := .quiet :: connections }
    | _ => t
  | .reconnect => { t with connections := .quiet :: t.connections }
  | .close i => { t with connections := t.connections.set i .closed }
  | .copy => { t with sender := { t.sender with copied := some t.sender.sent } }
  | .write =>
    match t.sender.copied with
    | some sent => { t with sender := { t.sender with persisted := sent, copied := none } }
    | none => t
  | .restart => t.restart
  | .work s =>
    match t.receiver.step wire s, s with
    | .ok receiver, .restart =>
      { t with receiver, connections := t.connections.map Exchange.interrupt }
    | .ok receiver, _ => { t with receiver }
    -- the receiver has died, and has to be started again
    | .error _, _ => { t with connections := t.connections.map Exchange.interrupt }

def run (t : Transfer β) : List (Occurrence β) → Transfer β := foldl (step wire node maxPayload) t

end Transfer

/-! ## What holds in every state -/

/-- The signed data is a block of the given round. -/
def Numbered (wire : Wire β) (round : Nat) (signed : SignedData β) : Prop :=
  ∃ block, wire.unmarshalBlock signed.data = some block ∧ block.round = round

namespace Sender

/-- The own blocks of a sender are numbered from one, and the cache has no others but
the one that is about to be committed. -/
structure Sound (wire : Wire β) (s : Sender β) : Prop where
  full : ∀ round, 1 ≤ round → round ≤ s.store.getLastRound →
    ∃ signed, s.store.getOwnBlock round = some signed
  bounded : ∀ round signed, s.store.getOwnBlock round = some signed →
    round ≤ s.store.getLastRound
  numbered : ∀ round signed, s.store.getOwnBlock round = some signed → Numbered wire round signed
  gen : Service.GenAt s.store.getLastRound s.gen
  coming : ∀ round signed, s.gen = .built round signed ∨ s.gen = .cached round signed →
    Numbered wire round signed
  cache : ∀ round signed, s.ownBlocks.get round = some signed →
    s.store.getOwnBlock round = some signed ∨ s.gen = .cached round signed
  round : s.round ≤ s.store.getLastRound

variable {wire : Wire β} {s s' : Sender β}

/-- A process that starts on the database of the last one. -/
theorem Sound.load (h : s.Sound wire) : (loadState s.store s.persisted).Sound wire := { h with
  gen := rfl
  coming := fun round signed hgen => by simp [loadState] at hgen
  cache := fun round signed hcache => by simp [loadState, OwnBlocks.get] at hcache
  round := Nat.le_refl _ }

variable {signed : SignedData β} {blocks : List (SignedData β)}

/-- Rounds that were committed are looked up in the database or in the cache alike. -/
theorem Sound.getOwnBlock (h : s.Sound wire) {round : Nat}
    (hget : s.getOwnBlock round = some (signed, s')) :
    (∃ ownBlocks, s' = { s with ownBlocks }) ∧ s'.Sound wire ∧
      (round ≤ s.store.getLastRound → s.store.getOwnBlock round = some signed) := by
  unfold Sender.getOwnBlock at hget
  split at hget
  · rename_i block hcached
    cases hget
    refine ⟨⟨_, rfl⟩, h, fun hle => ?_⟩
    rcases h.cache round signed hcached with hstored | hgen
    · exact hstored
    · have hlast := h.gen
      rw [hgen] at hlast
      dsimp only [Service.GenAt] at hlast
      omega
  · split at hget
    · rename_i block hstored
      cases hget
      refine ⟨⟨_, rfl⟩, { h with cache := fun round' signed' hcached => ?_ }, fun _ => hstored⟩
      dsimp only at hcached
      rw [OwnBlocks.get_set] at hcached
      split at hcached
      · rename_i heq
        cases hcached
        rw [← heq]
        exact .inl hstored
      · exact h.cache round' signed' hcached
    · cases hget

/-- The blocks are the own ones of the rounds behind `last`. -/
def Follows (store : Store (SignedData β)) (last : Nat) (blocks : List (SignedData β)) : Prop :=
  ∀ i signed, blocks[i]? = some signed → store.getOwnBlock (last + 1 + i) = some signed

theorem Follows.nil (store : Store (SignedData β)) (last : Nat) : Follows store last [] :=
  fun i signed h => by simp at h

theorem follows_cons {store : Store (SignedData β)} {last : Nat} :
    Follows store last (signed :: blocks) ↔
      store.getOwnBlock (last + 1) = some signed ∧ Follows store (last + 1) blocks := by
  constructor
  · intro h
    refine ⟨h 0 signed rfl, fun i signed' hsigned => ?_⟩
    rw [Nat.add_right_comm (last + 1) 1 i]
    exact h (i + 1) signed' hsigned
  · rintro ⟨hfirst, hrest⟩ i signed' hsigned
    cases i with
    | zero =>
      cases hsigned
      exact hfirst
    | succ i =>
      rw [← Nat.add_assoc, Nat.add_right_comm (last + 1) i 1]
      exact hrest i signed' hsigned

/-- A batch consists of the own blocks of consecutive rounds. It is not empty, as a
block that is too large by itself is fatal. -/
theorem Sound.collect {maxPayload : Nat} (n : Nat) {last total : Nat} (h : s.Sound wire)
    (hlast : last + n ≤ s.store.getLastRound)
    (hrun : Sender.collect wire maxPayload n (last + 1) total s = .ok (blocks, s')) :
    (∃ ownBlocks, s' = { s with ownBlocks }) ∧ s'.Sound wire ∧ Follows s.store last blocks ∧
      (0 < n → last = s.sent → blocks ≠ []) := by
  induction n generalizing last total s blocks with
  | zero =>
    cases hrun
    exact ⟨⟨_, rfl⟩, h, .nil _ _, fun hpos => absurd hpos (Nat.lt_irrefl 0)⟩
  | succ n ih =>
    rw [Sender.collect] at hrun
    split at hrun
    · cases hrun
    rename_i signed s₁ hget
    obtain ⟨⟨ownBlocks, rfl⟩, h₁, hstored⟩ := h.getOwnBlock hget
    have hstored := hstored (by omega)
    dsimp only at hrun
    split at hrun
    · split at hrun
      · cases hrun
      · rename_i hfirst
        cases hrun
        exact ⟨⟨_, rfl⟩, h₁, .nil _ _, fun _ heq => absurd (by rw [heq]) hfirst⟩
    · obtain ⟨⟨rest, s₂⟩, hrest, hrun⟩ := bind_eq_ok.mp hrun
      cases hrun
      obtain ⟨⟨ownBlocks', rfl⟩, h₂, hfollows, -⟩ := ih h₁ (by dsimp only; omega) hrest
      exact ⟨⟨_, rfl⟩, h₂, follows_cons.mpr ⟨hstored, hfollows⟩, fun _ _ => cons_ne_nil _ _⟩

/-- No own block is missing, and only the first one of a batch can be fatal. -/
theorem Sound.collect_eq_error {maxPayload : Nat} (n : Nat) {last total : Nat} (h : s.Sound wire)
    (hlast : last + n ≤ s.store.getLastRound) (hsent : s.sent ≤ last) :
    (∃ fault, Sender.collect wire maxPayload n (last + 1) total s = .error fault) ↔
      0 < n ∧ last = s.sent ∧ ∃ signed, s.store.getOwnBlock (last + 1) = some signed ∧
        maxPayload < total + signed.size wire := by
  induction n generalizing last total s with
  | zero => simp [Sender.collect]
  | succ n ih =>
    obtain ⟨signed, hsigned⟩ := h.full (last + 1) (Nat.succ_pos last) (by omega)
    have hfound : ∃ found, s.getOwnBlock (last + 1) = some found := by
      rw [Sender.getOwnBlock, hsigned]
      split <;> exact ⟨_, rfl⟩
    obtain ⟨⟨signed', s'⟩, hget⟩ := hfound
    obtain ⟨⟨ownBlocks, rfl⟩, hsound, hsame⟩ := h.getOwnBlock hget
    cases hsigned.symm.trans (hsame (by omega))
    have hrest := @ih _ (last + 1) (total + signed.size wire) hsound (by dsimp only; omega)
      (by dsimp only; omega)
    rw [Sender.collect, hget, hsigned]
    dsimp only
    split
    · rename_i hlarge
      by_cases hfirst : last = s.sent
      · rw [if_pos (by rw [hfirst])]
        exact iff_of_true ⟨_, rfl⟩ ⟨Nat.succ_pos n, hfirst, signed, rfl, hlarge⟩
      · rw [if_neg (by omega)]
        exact iff_of_false (by simp) (by simp [hfirst])
    · rename_i hfits
      refine iff_of_false ?_ (by simp; omega)
      rintro ⟨fault, hfault⟩
      cases hcollect : Sender.collect wire maxPayload n (last + 1 + 1) (total + signed.size wire)
        { s with ownBlocks } with
      | ok result =>
        rw [hcollect] at hfault
        cases hfault
      | error fault =>
        have := (hrest.mp ⟨fault, hcollect⟩).2.1
        dsimp only at this
        omega

/-- What `getUnsent` returns are the own blocks behind the last one that was sent. -/
theorem Sound.getUnsent (h : s.Sound wire) {maxPayload : Nat}
    (hsent : s.sent ≤ s.store.getLastRound) (hrun : s.getUnsent wire maxPayload = .ok (blocks, s')) :
    (∃ ownBlocks, s' = { s with ownBlocks }) ∧ s'.Sound wire ∧ Follows s.store s.sent blocks ∧
      (s.sent < s.round → blocks ≠ []) := by
  have hround := h.round
  obtain ⟨hsame, hsound, hfollows, hne⟩ := Sound.collect (s.round - s.sent) h (by omega) hrun
  exact ⟨hsame, hsound, hfollows, fun hlt => hne (by omega) rfl⟩

/-- Committing the next block keeps all others. -/
theorem Sound.commit (h : s.Sound wire) {round : Nat} {signed : SignedData β}
    (hgen : s.gen = .cached round signed) :
    Sound wire { s with store := s.store.setOwnBlock round signed, gen := .committed round } ∧
      ∀ round' signed', s.store.getOwnBlock round' = some signed' →
        (s.store.setOwnBlock round signed).getOwnBlock round' = some signed' := by
  have hlast := h.gen
  rw [hgen] at hlast
  dsimp only [Service.GenAt] at hlast
  have hkeeps : ∀ round' signed', s.store.getOwnBlock round' = some signed' →
      (s.store.setOwnBlock round signed).getOwnBlock round' = some signed' :=
    fun round' signed' => Service.getOwnBlock_setOwnBlock hlast h.bounded
  have hlookup : ∀ round', (s.store.setOwnBlock round signed).getOwnBlock round' =
      if round = round' then some signed else s.store.getOwnBlock round' := fun round' =>
    lookup_insert _ _ _ _
  have hnew : (s.store.setOwnBlock round signed).getLastRound = round := rfl
  refine ⟨⟨fun round' hpos hle => ?_, fun round' signed' hstored => ?_,
    fun round' signed' hstored => ?_, rfl, fun round' signed' hgen' => ?_,
    fun round' signed' hcached => ?_, ?_⟩, hkeeps⟩
  · dsimp only at hle ⊢
    rw [hlookup]
    split
    · exact ⟨signed, rfl⟩
    · exact h.full round' hpos (by omega)
  · dsimp only at hstored ⊢
    rw [hlookup] at hstored
    split at hstored
    · omega
    · have := h.bounded round' signed' hstored
      omega
  · dsimp only at hstored
    rw [hlookup] at hstored
    split at hstored
    · rename_i heq
      cases hstored
      rw [← heq]
      exact h.coming round signed (.inr hgen)
    · exact h.numbered round' signed' hstored
  · simp at hgen'
  · rcases h.cache round' signed' hcached with hstored | hgen'
    · exact .inl (hkeeps round' signed' hstored)
    · rw [hgen] at hgen'
      cases hgen'
      exact .inl ((hlookup round).trans (if_pos rfl))
  · have := h.round
    dsimp only
    omega

end Sender

/-- The database has a block under the id of the signed one. -/
def Kept (wire : Wire β) (db : Database β) (signed : SignedData β) : Prop :=
  ∃ block, wire.unmarshalBlock signed.data = some block ∧
    (db.blocks[(wire.reference signed.data block).id]?).isSome

/-- The receiver has the own blocks of all rounds up to the given one. -/
def Reaches (wire : Wire β) (store : Store (SignedData β)) (db : Database β) (last : Nat) : Prop :=
  ∀ round, 1 ≤ round → round ≤ last →
    ∃ signed, store.getOwnBlock round = some signed ∧ Kept wire db signed

/-- What is on a connection. A batch starts behind a round up to which the receiver has
all blocks, and an acknowledgement names such a round. -/
def Carries (wire : Wire β) (store : Store (SignedData β)) (db : Database β) : Exchange β → Prop
  | .quiet | .closed => True
  | .sent blocks => ∃ last, Reaches wire store db last ∧ Sender.Follows store last blocks
  | .handling blocks last => ∃ last', Reaches wire store db last' ∧
      Sender.Follows store last' blocks ∧ (last = 0 ∨ last = last')
  | .answered last => Reaches wire store db last

variable {wire : Wire β} {store store' : Store (SignedData β)} {db db' : Database β}

/-- Nobody forgets a block. -/
structure Later (store store' : Store (SignedData β)) (db db' : Database β) : Prop where
  own : ∀ round signed, store.getOwnBlock round = some signed →
    store'.getOwnBlock round = some signed
  blocks : ∀ id : BlockID, (db.blocks[id]?).isSome → (db'.blocks[id]?).isSome

variable {last : Nat} {exchange : Exchange β}

theorem Reaches.mono (h : Reaches wire store db last) (hlater : Later store store' db db') :
    Reaches wire store' db' last := by
  intro round hpos hle
  obtain ⟨signed, hsigned, block, hblock, hstored⟩ := h round hpos hle
  exact ⟨signed, hlater.own round signed hsigned, block, hblock, hlater.blocks _ hstored⟩

theorem Carries.mono (h : Carries wire store db exchange) (hlater : Later store store' db db') :
    Carries wire store' db' exchange := by
  cases exchange with
  | quiet => trivial
  | closed => trivial
  | sent blocks =>
    obtain ⟨last, hreaches, hfollows⟩ := h
    exact ⟨last, hreaches.mono hlater, fun i signed hi => hlater.own _ _ (hfollows i signed hi)⟩
  | handling blocks last =>
    obtain ⟨last', hreaches, hfollows, hlast⟩ := h
    exact ⟨last', hreaches.mono hlater, fun i signed hi => hlater.own _ _ (hfollows i signed hi), hlast⟩
  | answered last => exact Reaches.mono h hlater

theorem Carries.interrupt (h : Carries wire store db exchange) :
    Carries wire store db exchange.interrupt := by
  cases exchange with
  | quiet => trivial
  | closed => trivial
  | sent blocks => trivial
  | handling blocks last => trivial
  | answered last => exact h

theorem reaches_zero (wire : Wire β) (store : Store (SignedData β)) (db : Database β) :
    Reaches wire store db 0 := fun round hpos hle => absurd hpos (by omega)

/-- One more block. -/
theorem Reaches.succ {signed : SignedData β} (h : Reaches wire store db last)
    (hsigned : store.getOwnBlock (last + 1) = some signed) (hkept : Kept wire db signed) :
    Reaches wire store db (last + 1) := by
  intro round hpos hle
  rcases Nat.eq_or_lt_of_le hle with rfl | hlt
  · exact ⟨signed, hsigned, hkept⟩
  · exact h round hpos (by omega)

namespace Transfer

/-- The invariant. -/
structure Sound (wire : Wire β) (t : Transfer β) : Prop where
  sender : t.sender.Sound wire
  receiver : t.receiver.Stocked wire
  sent : Reaches wire t.sender.store t.receiver.db t.sender.sent
  persisted : Reaches wire t.sender.store t.receiver.db t.sender.persisted
  copied : ∀ sent, t.sender.copied = some sent → Reaches wire t.sender.store t.receiver.db sent
  connections : ∀ exchange ∈ t.connections, Carries wire t.sender.store t.receiver.db exchange

theorem sound_start (wire : Wire β) (self : Nat) : (start self).Sound wire where
  sender := {
    full := fun round hpos hle => by
      simp only [start, Sender.loadState, Store.getLastRound, Option.getD_none] at hle
      omega
    bounded := fun round signed h => by simp [start, Sender.loadState, Store.getOwnBlock] at h
    numbered := fun round signed h => by simp [start, Sender.loadState, Store.getOwnBlock] at h
    gen := rfl
    coming := fun round signed h => by simp [start, Sender.loadState] at h
    cache := fun round signed h => by simp [start, Sender.loadState, OwnBlocks.get] at h
    round := Nat.le_refl _ }
  receiver := Node.stocked_start wire self
  sent := reaches_zero _ _ _
  persisted := reaches_zero _ _ _
  copied := fun sent h => by simp [start, Sender.loadState] at h
  connections := fun exchange h => by
    rw [mem_singleton.mp h]
    trivial

variable {t : Transfer β}

section

variable (h : t.Sound wire)
include h

/-- The sender has a block of every round that the receiver has. -/
theorem Sound.sent_le : t.sender.sent ≤ t.sender.store.getLastRound := by
  by_contra hlt
  obtain ⟨signed, hsigned, -⟩ := h.sent t.sender.sent (by omega) (Nat.le_refl _)
  exact hlt (h.sender.bounded _ signed hsigned)

/-- The sender changes in what it has at hand, but not in what it has stored. -/
theorem Sound.setSender {sender : Sender β} (hsender : sender.Sound wire)
    (hstore : sender.store = t.sender.store) (hsent : sender.sent = t.sender.sent)
    (hpersisted : sender.persisted = t.sender.persisted) (hcopied : sender.copied = t.sender.copied) :
    Sound wire { t with sender } where
  sender := hsender
  receiver := h.receiver
  sent := by
    dsimp only
    rw [hstore, hsent]
    exact h.sent
  persisted := by
    dsimp only
    rw [hstore, hpersisted]
    exact h.persisted
  copied := by
    dsimp only
    rw [hstore, hcopied]
    exact h.copied
  connections := by
    dsimp only
    rw [hstore]
    exact h.connections

/-- Something happens on a connection. -/
theorem Sound.setConnection (i : Nat)
    (hexchange : Carries wire t.sender.store t.receiver.db exchange) :
    Sound wire { t with connections := t.connections.set i exchange } := by
  refine { h with connections := fun other hother => ?_ }
  rcases mem_or_eq_of_mem_set hother with hother | rfl
  · exact h.connections other hother
  · exact hexchange

/-- Somebody learns of new blocks. -/
theorem Sound.later {receiver : Node β} {gen : Gen (SignedData β)}
    (hsender : Sender.Sound wire { t.sender with store, gen }) (hreceiver : receiver.Stocked wire)
    (hlater : Later t.sender.store store t.receiver.db receiver.db) :
    Sound wire { t with sender := { t.sender with store, gen }, receiver } where
  sender := hsender
  receiver := hreceiver
  sent := h.sent.mono hlater
  persisted := h.persisted.mono hlater
  copied := fun sent hsent => (h.copied sent hsent).mono hlater
  connections := fun exchange hexchange => (h.connections exchange hexchange).mono hlater

theorem Sound.restart : t.restart.Sound wire := { h with
  sender := h.sender.load
  sent := h.persisted
  copied := fun sent hsent => (nomatch hsent)
  connections := fun exchange hexchange => by
    rcases mem_cons.mp hexchange with rfl | hexchange
    · trivial
    · exact h.connections exchange hexchange }

/-- A batch is sent on the connection in use. -/
theorem Sound.send (node maxPayload : Nat) :
    (t.step wire node maxPayload .send).Sound wire := by
  rw [step]
  split
  · rename_i connections hconnections
    split
    · exact h.restart
    · rename_i sender hrun
      obtain ⟨⟨ownBlocks, rfl⟩, hsender, -⟩ := h.sender.getUnsent h.sent_le hrun
      exact h.setSender hsender rfl rfl rfl rfl
    · rename_i blocks sender _ hrun
      obtain ⟨⟨ownBlocks, rfl⟩, hsender, hfollows, -⟩ := h.sender.getUnsent h.sent_le hrun
      have hnext := h.setSender hsender rfl rfl rfl rfl
      refine { hnext with connections := fun exchange hexchange => ?_ }
      rcases mem_cons.mp hexchange with rfl | hexchange
      · exact ⟨t.sender.sent, h.sent, hfollows⟩
      · refine h.connections exchange ?_
        rw [hconnections]
        exact mem_cons_of_mem _ hexchange
  · exact h

/-- The receiver processes a block of a batch. -/
theorem Sound.process {i : Nat} {signed : SignedData β} {blocks : List (SignedData β)}
    (hhandling : t.connections[i]? = some (.handling (signed :: blocks) last)) {info : BlockData β}
    (haccept : wire.accept signed = .ok info) :
    Sound wire { t with
      receiver := { t.receiver with
        db := t.receiver.db.setBlock info.id signed
        depgraph := { t.receiver.depgraph with inbox := t.receiver.depgraph.inbox ++ [info] } }
      connections := t.connections.set i (.handling blocks info.id.round) } := by
  obtain ⟨last', hreaches, hfollows, -⟩ := h.connections _ (mem_of_getElem? hhandling)
  obtain ⟨hsigned, hfollows⟩ := Sender.follows_cons.mp hfollows
  obtain ⟨hreceiver, hgrows⟩ := h.receiver.changes (.received haccept)
  obtain ⟨-, hstored, -⟩ := h.receiver.setBlock haccept
  obtain ⟨block, hblock, hid⟩ := Node.id_of_accept haccept
  obtain ⟨block', hblock', hround⟩ := h.sender.numbered _ signed hsigned
  have hlater : Later t.sender.store t.sender.store t.receiver.db
      (t.receiver.db.setBlock info.id signed) := ⟨fun _ _ h => h, hgrows⟩
  have hkept : Kept wire (t.receiver.db.setBlock info.id signed) signed := by
    refine ⟨block, hblock, ?_⟩
    rw [← hid]
    exact hstored
  have hnumber : info.id.round = last' + 1 := by
    cases hblock.symm.trans hblock'
    rw [hid]
    exact hround
  refine (h.later h.sender hreceiver hlater).setConnection i ?_
  exact ⟨last' + 1, (hreaches.mono hlater).succ hsigned hkept, hfollows, .inr hnumber⟩

/-- The receiver does something else. -/
theorem Sound.work (node maxPayload : Nat) (s : Step β) :
    (t.step wire node maxPayload (.work s)).Sound wire := by
  have hinterrupt : ∀ {t' : Transfer β}, t'.Sound wire →
      Sound wire { t' with connections := t'.connections.map Exchange.interrupt } := by
    intro t' h'
    refine { h' with connections := fun exchange hexchange => ?_ }
    obtain ⟨before, hbefore, rfl⟩ := mem_map.mp hexchange
    exact (h'.connections before hbefore).interrupt
  have hreceiver : ∀ {receiver : Node β}, t.receiver.step wire s = .ok receiver →
      Sound wire { t with receiver } := by
    intro receiver hstep
    obtain ⟨hstocked, hgrows⟩ := h.receiver.changes (Node.changes_of_step hstep)
    exact h.later h.sender hstocked ⟨fun _ _ h => h, hgrows⟩
  cases hstep : t.receiver.step wire s with
  | error fault =>
    simp only [step, hstep]
    exact hinterrupt h
  | ok receiver =>
    cases s with
    | restart =>
      simp only [step, hstep]
      exact hinterrupt (hreceiver hstep)
    | _ =>
      simp only [step, hstep]
      exact hreceiver hstep

end

/-- Whatever happens keeps the invariant. -/
theorem Sound.step (h : t.Sound wire) (node maxPayload : Nat) (occurrence : Occurrence β) :
    (t.step wire node maxPayload occurrence).Sound wire := by
  cases occurrence with
  | build previous references transactions =>
    rw [Transfer.step]
    split
    · rename_i round hgen
      split
      swap
      · exact h
      have hlast := h.sender.gen
      rw [hgen] at hlast
      refine h.setSender { h.sender with
        gen := congrArg (· + 1) hlast
        coming := fun round' signed' hcoming => ?_
        cache := fun round' signed' hcached => ?_ } rfl rfl rfl rfl
      · rcases hcoming with hcoming | hcoming
        · cases hcoming
          exact ⟨_, wire.unmarshalBlock_marshalBlock _, rfl⟩
        · cases hcoming
      · refine (h.sender.cache round' signed' hcached).imp_right fun hother => ?_
        exact nomatch hgen.symm.trans hother
    · exact h
  | cache =>
    rw [Transfer.step]
    split
    · rename_i round signed hgen
      have hlast := h.sender.gen
      rw [hgen] at hlast
      refine h.setSender { h.sender with
        gen := hlast
        coming := fun round' signed' hcoming => ?_
        cache := fun round' signed' hcached => ?_ } rfl rfl rfl rfl
      · rcases hcoming with hcoming | hcoming
        · cases hcoming
        · cases hcoming
          exact h.sender.coming round signed (.inl hgen)
      · dsimp only at hcached
        rw [OwnBlocks.get_set] at hcached
        split at hcached
        · rename_i heq
          cases hcached
          exact .inr (heq ▸ rfl)
        · refine (h.sender.cache round' signed' hcached).imp_right fun hother => ?_
          exact nomatch hgen.symm.trans hother
    · exact h
  | commit =>
    rw [Transfer.step]
    split
    · rename_i round signed hgen
      obtain ⟨hsender, hkeeps⟩ := h.sender.commit hgen
      exact h.later hsender h.receiver ⟨hkeeps, fun _ h => h⟩
    · exact h
  | publish =>
    rw [Transfer.step]
    split
    · rename_i round hgen
      have hlast := h.sender.gen
      rw [hgen] at hlast
      refine h.setSender { h.sender with
        gen := hlast
        coming := fun _ _ hcoming => (by simp at hcoming)
        cache := fun round' signed' hcached => ?_
        round := hlast.le } rfl rfl rfl rfl
      refine (h.sender.cache round' signed' hcached).imp_right fun hother => ?_
      exact nomatch hgen.symm.trans hother
    · exact h
  | tidy =>
    rw [Transfer.step]
    split
    · rename_i round hgen
      have hlast := h.sender.gen
      rw [hgen] at hlast
      refine h.setSender { h.sender with
        gen := hlast
        coming := fun _ _ hcoming => (by simp at hcoming)
        cache := fun round' signed' hcached => ?_ } rfl rfl rfl rfl
      have hbefore : t.sender.ownBlocks.get round' = some signed' := by
        dsimp only at hcached
        split at hcached
        · exact OwnBlocks.get_of_get_prune hcached
        · exact hcached
      refine (h.sender.cache round' signed' hbefore).imp_right fun hother => ?_
      exact nomatch hgen.symm.trans hother
    · exact h
  | serve round =>
    rw [Transfer.step]
    split
    · rename_i signed sender hget
      obtain ⟨⟨ownBlocks, rfl⟩, hsender, -⟩ := h.sender.getOwnBlock hget
      exact h.setSender hsender rfl rfl rfl rfl
    · exact h
  | send => exact h.send node maxPayload
  | arrive i =>
    rw [Transfer.step]
    split
    · rename_i blocks hsent
      obtain ⟨last, hreaches, hfollows⟩ := h.connections _ (mem_of_getElem? hsent)
      exact h.setConnection i ⟨last, hreaches, hfollows, .inl rfl⟩
    · exact h
  | process i =>
    rw [Transfer.step]
    split
    · rename_i signed blocks last hhandling
      split
      · exact h.setConnection i trivial
      · exact h.process hhandling ‹_›
    · exact h
  | respond i =>
    rw [Transfer.step]
    split
    · rename_i last hhandling
      obtain ⟨last', hreaches, -, hlast⟩ := h.connections _ (mem_of_getElem? hhandling)
      refine h.setConnection i ?_
      rcases hlast with rfl | rfl
      · exact reaches_zero _ _ _
      · exact hreaches
    · exact h
  | acknowledge =>
    rw [Transfer.step]
    split
    · rename_i last connections hconnections
      have hacknowledged : Carries wire t.sender.store t.receiver.db (.answered last) :=
        h.connections _ (by rw [hconnections]; exact mem_cons_self)
      refine { h with
        sender := { h.sender with }
        sent := hacknowledged
        connections := fun exchange hexchange => ?_ }
      rcases mem_cons.mp hexchange with rfl | hexchange
      · trivial
      · refine h.connections exchange ?_
        rw [hconnections]
        exact mem_cons_of_mem _ hexchange
    · exact h
  | reconnect =>
    refine { h with connections := fun exchange hexchange => ?_ }
    rcases mem_cons.mp hexchange with rfl | hexchange
    · trivial
    · exact h.connections exchange hexchange
  | close i => exact h.setConnection i trivial
  | copy =>
    exact { h with
      sender := { h.sender with }
      copied := fun sent hsent => Option.some.inj hsent ▸ h.sent }
  | write =>
    rw [Transfer.step]
    split
    · rename_i sent hcopied
      exact { h with
        sender := { h.sender with }
        persisted := h.copied sent hcopied
        copied := fun _ hsent => (nomatch hsent) }
    · exact h
  | restart => exact h.restart
  | work s => exact h.work node maxPayload s

theorem Sound.run (h : t.Sound wire) (node maxPayload : Nat) (occurrences : List (Occurrence β)) :
    (t.run wire node maxPayload occurrences).Sound wire := by
  induction occurrences generalizing t with
  | nil => exact h
  | cons occurrence occurrences ih => exact ih (h.step node maxPayload occurrence)

/-- Acknowledged means stored. In every state, for all rounds up to the one that the
sender remembers, in memory or in its database, the receiver has a block under the id of
the sender's own block of that round, with the same digest. A batch consists of the own
blocks of the rounds behind the remembered one, and is not empty if there are any. There is
a batch unless the first of these blocks is too large by itself. -/
theorem stored_of_sent (wire : Wire β) (self node maxPayload : Nat)
    (occurrences : List (Occurrence β)) :
    let t := (start self).run wire node maxPayload occurrences
    (∀ round, 1 ≤ round → round ≤ t.sender.sent ∨ round ≤ t.sender.persisted →
      ∃ signed block stored, t.sender.store.getOwnBlock round = some signed ∧
        wire.unmarshalBlock signed.data = some block ∧ block.round = round ∧
        t.receiver.db.blocks[(wire.reference signed.data block).id]? = some stored ∧
        wire.digest stored.data = wire.digest signed.data) ∧
      (∀ blocks sender, t.sender.getUnsent wire maxPayload = .ok (blocks, sender) →
        Sender.Follows t.sender.store t.sender.sent blocks ∧
          (t.sender.sent < t.sender.round → blocks ≠ [])) ∧
      ((∃ fault, t.sender.getUnsent wire maxPayload = .error fault) ↔
        t.sender.sent < t.sender.round ∧ ∃ signed,
          t.sender.store.getOwnBlock (t.sender.sent + 1) = some signed ∧
          maxPayload < signed.size wire) := by
  intro t
  have h : t.Sound wire := (sound_start wire self).run node maxPayload occurrences
  refine ⟨fun round hpos hle => ?_, fun blocks sender hrun => ?_, ?_⟩
  · have hkept : ∃ signed, t.sender.store.getOwnBlock round = some signed ∧
        Kept wire t.receiver.db signed :=
      hle.elim (h.sent round hpos) (h.persisted round hpos)
    obtain ⟨signed, hsigned, block, hblock, hstored⟩ := hkept
    obtain ⟨stored, hstored⟩ := Option.isSome_iff_exists.mp hstored
    obtain ⟨block', hblock', hround⟩ := h.sender.numbered round signed hsigned
    cases hblock.symm.trans hblock'
    obtain ⟨other, -, hid⟩ := h.receiver.named _ stored hstored
    exact ⟨signed, block, stored, hsigned, hblock, hround, hstored, congrArg BlockID.hash hid⟩
  · obtain ⟨-, -, hfollows, hne⟩ := h.sender.getUnsent h.sent_le hrun
    exact ⟨hfollows, hne⟩
  · have hround := h.sender.round
    have hsent := h.sent_le
    rw [Sender.getUnsent, h.sender.collect_eq_error _ (by omega) le_rfl]
    simp

end Transfer

end Blockmania.Broadcast
