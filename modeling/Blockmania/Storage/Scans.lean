/-
# Scans of the blocks of a node

The blocks of a node are read in the order of their rounds, from some round on. A scan
seeks to the key that ends with the round and goes on as long as keys begin with the node.
Keys sort as the ids they stand for, so it visits the blocks of that node from that round
on and no others.
-/

import Blockmania.Storage.Blocks
import Mathlib.Data.Set.List

namespace Blockmania

/-- Ids in the order of node, round and hash. -/
def BlockID.Precedes (a b : BlockID) : Prop :=
  a.node < b.node ∨ a.node = b.node ∧ (a.round < b.round ∨ a.round = b.round ∧ a.hash < b.hash)

namespace Storage

open Math Broadcast List

/-- The loop of `decodeBlockRound`, from index `i` on: where the round starts and where it
ends. -/
def roundBounds : Nat → Bytes → Nat → Nat × Nat
  | _, [], rstart => (rstart, 0)
  | i, char :: chars, rstart =>
    if char = 0x00 then
      if rstart = 0 then roundBounds (i + 1) chars (i + 2) else (rstart, i + 1)
    else roundBounds (i + 1) chars rstart

def decodeBlockRound (d : Bytes) : Except ReadError Nat :=
  if d = [] then .error (.fault .indexOutOfRange)
  else
    let (rstart, rend) := roundBounds 0 (d.drop 1) 0
    if rend < rstart then .error (.fault .indexOutOfRange)
    else do
      let digits ← (slice d [] rstart rend).mapError ReadError.fault
      let round ← (Lexinum.decode digits).mapError ReadError.malformed
      return round.toNat

theorem roundBounds_append {u : Bytes} (hu : 0x00 ∉ u) (v : Bytes) (rstart : Nat) :
    ∀ i, roundBounds i (u ++ v) rstart = roundBounds (i + u.length) v rstart := by
  induction u with
  | nil => exact fun i => rfl
  | cons char u ih =>
    intro i
    rw [mem_cons, not_or] at hu
    rw [cons_append, roundBounds, if_neg (Ne.symm hu.1), ih hu.2, length_cons]
    congr 1
    omega

/-- The round stands between the first two zero bytes. -/
theorem roundBounds_encodeBlockID (id : BlockID) :
    roundBounds 0 (encodeBlockID id) 0 = ((encodeNumber id.node).length + 2,
      (encodeNumber id.node).length + 2 + (encodeNumber id.round).length) := by
  rw [encodeBlockID, roundBounds_append (zero_not_mem_encodeNumber _), roundBounds, if_pos rfl,
    if_pos rfl, roundBounds_append (zero_not_mem_encodeNumber _), roundBounds, if_pos rfl,
    if_neg (by omega)]
  congr 1 <;> omega

/-- The round of a block is read back from its key. -/
theorem decodeBlockRound_key (p : UInt8) {id : BlockID} (h : id.Fits) :
    decodeBlockRound (p :: encodeBlockID id) = .ok id.round := by
  obtain ⟨round, hround, hround'⟩ := decode_encodeNumber h.2
  have hlength : (nodePrefix p id.node).length = (encodeNumber id.node).length + 2 := by
    simp [nodePrefix]
  have hdrop : (p :: encodeBlockID id).drop ((encodeNumber id.node).length + 2) =
      encodeNumber id.round ++ 0x00 :: id.hash := by
    rw [key_eq, ← hlength, drop_left]
  have hslice := (slice_of (by rw [key_eq, ← hlength, length_append]; omega) hdrop).1
  rw [decodeBlockRound, if_neg (cons_ne_nil _ _), drop_one, tail_cons, roundBounds_encodeBlockID]
  dsimp only
  rw [if_neg (by omega), hslice]
  change (Except.mapError ReadError.malformed (Lexinum.decode (encodeNumber id.round)) >>=
    fun round => pure round.toNat) = _
  rw [hround]
  exact congrArg Except.ok hround'

/-- Keys of one kind compare as their ids. -/
theorem key_lt_key_iff (p : UInt8) {a b : BlockID} (ha : a.Fits) (hb : b.Fits) :
    p :: encodeBlockID a < p :: encodeBlockID b ↔ a.Precedes b := by
  rw [cons_lt_cons_iff, BlockID.Precedes, ← encodeBlockID_lt_iff ha hb]
  simp

section Scans

variable {V : Type} {p : UInt8} {enc : V → Bytes} {db : Badger} {m : FiniteMap BlockID V}
  {nodeID start : Nat}

/-- The entry of a block. -/
def keyed (p : UInt8) (enc : V → Bytes) (x : BlockID × V) : Bytes × Bytes :=
  (p :: encodeBlockID x.1, enc x.2)

/-- What a scan visits. -/
theorem Mirrors.mem_scan (h : Mirrors p enc db m) (hnode : nodeID < 2 ^ 64)
    (hstart : start < 2 ^ 64) {key val : Bytes} :
    (key, val) ∈ db.scan (nodePrefix p nodeID ++ encodeNumber start) (nodePrefix p nodeID) ↔
      ∃ x : BlockID × V, m[x.1]? = some x.2 ∧ x.1.node = nodeID ∧ start ≤ x.1.round ∧
        keyed p enc x = (key, val) := by
  rw [Badger.mem_scan (prefix_append _ _)]
  constructor
  · rintro ⟨hval, hpre, hfrom⟩
    -- a key that begins with the node has the right first byte
    obtain ⟨rest, rfl⟩ : ∃ rest, key = p :: rest := by
      obtain ⟨rest, rfl⟩ := hpre
      exact ⟨_, rfl⟩
    obtain ⟨id, v, hv, rfl, rfl⟩ := (h.entries _ _).mp hval
    have hfits := h.fits id v hv
    obtain rfl := (nodePrefix_isPrefix_iff hfits hnode).mp hpre
    rw [key_lt_iff hfits hstart, not_lt] at hfrom
    exact ⟨(id, v), hv, rfl, hfrom, rfl⟩
  · rintro ⟨⟨id, v⟩, hv, hid, hround, heq⟩
    cases heq
    have hfits := h.fits id v hv
    refine ⟨(h.entries _ _).mpr ⟨id, v, hv, rfl, rfl⟩, ?_, ?_⟩
    · exact (nodePrefix_isPrefix_iff hfits hnode).mpr hid
    · rw [← hid, key_lt_iff hfits hstart]
      exact not_lt.mpr hround

/-- A scan visits the blocks of the node from `start` on, by round and by hash. -/
theorem Mirrors.scan_eq (h : Mirrors p enc db m) (hnode : nodeID < 2 ^ 64)
    (hstart : start < 2 ^ 64) :
    ∃ blocks : List (BlockID × V),
      db.scan (nodePrefix p nodeID ++ encodeNumber start) (nodePrefix p nodeID) =
        blocks.map (keyed p enc) ∧
      (∀ id v, (id, v) ∈ blocks ↔ m[id]? = some v ∧ id.node = nodeID ∧ start ≤ id.round) ∧
      blocks.Pairwise fun x y =>
        x.1.round < y.1.round ∨ x.1.round = y.1.round ∧ x.1.hash < y.1.hash := by
  let Visited : Set (BlockID × V) :=
    {x | m[x.1]? = some x.2 ∧ x.1.node = nodeID ∧ start ≤ x.1.round}
  have hrange : db.scan (nodePrefix p nodeID ++ encodeNumber start) (nodePrefix p nodeID) ∈
      Set.range (List.map fun x : Visited => keyed p enc x) := by
    rw [Set.range_list_map]
    intro entry hentry
    obtain ⟨x, hx, hnodeID, hround, heq⟩ := (h.mem_scan hnode hstart).mp hentry
    exact ⟨⟨x, hx, hnodeID, hround⟩, heq⟩
  obtain ⟨visited, hvisited⟩ := hrange
  have hscan : db.scan (nodePrefix p nodeID ++ encodeNumber start) (nodePrefix p nodeID) =
      (visited.map Subtype.val).map (keyed p enc) := by
    rw [← hvisited, map_map]
    rfl
  refine ⟨visited.map Subtype.val, hscan, fun id v => ?_, ?_⟩
  · constructor
    · intro hmem
      obtain ⟨x, -, hx⟩ := mem_map.mp hmem
      have hproperty := x.2
      rw [hx] at hproperty
      exact hproperty
    · rintro ⟨hv, hid, hround⟩
      have hentry : keyed p enc (id, v) ∈ (visited.map Subtype.val).map (keyed p enc) :=
        hscan ▸ (h.mem_scan hnode hstart).mpr ⟨(id, v), hv, hid, hround, rfl⟩
      obtain ⟨⟨id', v'⟩, hmem, heq⟩ := mem_map.mp hentry
      obtain ⟨x, -, hx⟩ := mem_map.mp hmem
      have hv' : m[id']? = some v' := by
        have hproperty := x.2.1
        rwa [hx] at hproperty
      -- the key tells the id, and the map the value
      obtain rfl := (encodeBlockID_inj (h.fits id' v' hv') (h.fits id v hv)).mp
        (List.cons.inj (Prod.mk.inj heq).1).2
      obtain rfl := Option.some.inj (hv'.symm.trans hv)
      exact hmem
  · have hordered := Badger.ordered_scan db (nodePrefix p nodeID ++ encodeNumber start)
      (nodePrefix p nodeID)
    rw [hscan, Badger.Ordered, pairwise_map, pairwise_map] at hordered
    rw [pairwise_map]
    refine hordered.imp fun {x y} hlt => ?_
    rw [keyed, keyed, key_lt_key_iff p (h.fits _ _ x.2.1) (h.fits _ _ y.2.1)] at hlt
    have hsame : x.1.1.node = y.1.1.node := x.2.2.1.trans y.2.2.1.symm
    exact (hlt.resolve_left hsame.not_lt).2

/-- Keys sort as their ids, ids and rounds are read back from keys, and a scan visits the
right blocks, whatever blocks there are. -/
theorem keys_sort_and_scan :
    (∀ a b : BlockID, a.Fits → b.Fits → (blockKey a < blockKey b ↔ a.Precedes b) ∧
      (blockGraphKey a < blockGraphKey b ↔ a.Precedes b)) ∧
    (∀ id : BlockID, id.Fits → decodeBlockID ((blockKey id).drop 1) = .ok id ∧
      decodeBlockID ((blockGraphKey id).drop 1) = .ok id ∧
      decodeBlockRound (blockKey id) = .ok id.round) ∧
    ∀ (V : Type) (p : UInt8) (enc : V → Bytes) (db : Badger) (m : FiniteMap BlockID V),
      Mirrors p enc db m → ∀ nodeID start, nodeID < 2 ^ 64 → start < 2 ^ 64 →
        ∃ blocks : List (BlockID × V),
          db.scan (nodePrefix p nodeID ++ encodeNumber start) (nodePrefix p nodeID) =
            blocks.map (keyed p enc) ∧
          (∀ id v, (id, v) ∈ blocks ↔ m[id]? = some v ∧ id.node = nodeID ∧ start ≤ id.round) ∧
          blocks.Pairwise fun x y =>
            x.1.round < y.1.round ∨ x.1.round = y.1.round ∧ x.1.hash < y.1.hash := by
  refine ⟨fun a b ha hb => ⟨key_lt_key_iff _ ha hb, key_lt_key_iff _ ha hb⟩, fun id hid => ?_, ?_⟩
  · exact ⟨decodeBlockID_encodeBlockID hid, decodeBlockID_encodeBlockID hid,
      decodeBlockRound_key _ hid⟩
  · exact fun V p enc db m h nodeID start hnode hstart => h.scan_eq hnode hstart

/-- Two blocks of one round, the hash of one of which begins with the separator, and an
earlier one. -/
def forkedBlocks : FiniteMap BlockID Bytes :=
  ((∅ : FiniteMap BlockID Bytes).insert ⟨[0, 7], 1, 300⟩ [1]).insert ⟨[5], 1, 300⟩ [2] |>.insert
    ⟨[6], 1, 2⟩ [3]

theorem scan_forkedBlocks :
    ∃ blocks : List (BlockID × Bytes),
      Badger.scan (((∅ : Badger).insert (blockKey ⟨[0, 7], 1, 300⟩) [1]).insert
          (blockKey ⟨[5], 1, 300⟩) [2] |>.insert (blockKey ⟨[6], 1, 2⟩) [3])
        (nodePrefix blockPrefix 1 ++ encodeNumber 3) (nodePrefix blockPrefix 1) =
          blocks.map (keyed blockPrefix id) ∧
      ∀ id v, (id, v) ∈ blocks ↔ forkedBlocks[id]? = some v ∧ id.node = 1 ∧ 3 ≤ id.round := by
  have hempty : Mirrors blockPrefix id (∅ : Badger) (∅ : FiniteMap BlockID Bytes) := by
    refine ⟨?_, ?_⟩ <;> simp
  have hmirrors := ((hempty.insert (by decide : BlockID.Fits ⟨[0, 7], 1, 300⟩) [1]).insert
    (by decide : BlockID.Fits ⟨[5], 1, 300⟩) [2]).insert (by decide : BlockID.Fits ⟨[6], 1, 2⟩) [3]
  obtain ⟨blocks, hscan, hmem, -⟩ := keys_sort_and_scan.2.2 Bytes blockPrefix id _ _ hmirrors 1 3
    (by decide) (by decide)
  exact ⟨blocks, hscan, hmem⟩

end Scans

end Storage

end Blockmania
