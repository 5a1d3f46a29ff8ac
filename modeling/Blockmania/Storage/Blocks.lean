/-
# Received and own blocks in the database

For every block the database has up to three keys: one for the block itself, one that
tells whether an own block references it, and one as long as none does. Blocks are
stored as they are received, in any order and as often as they come, and own blocks
mark what they reference. After a restart the blocks without such a mark are loaded.

`Database` says the same with one finite map for each kind of key. It is kept in step
with the keys by every transaction, so what holds of the maps holds of the keys.
-/

import Mathlib.Data.Prod.Lex
import Blockmania.Storage.GraphCodec
import Blockmania.Broadcast.Depgraph

namespace Blockmania.Storage

open Math Broadcast List FiniteMap

variable {β : Type}

/-- How signed data is stored. -/
structure Codec (β : Type) where
  marshal : SignedData β → Bytes
  unmarshal : Bytes → Option (SignedData β)
  unmarshal_marshal : ∀ signed, unmarshal (marshal signed) = some signed

/-- A transaction that writes a block. -/
inductive Transaction (β : Type)
  | setBlock (id : BlockID) (block : SignedData β)
  | setOwnBlock (block blockRef : SignedData β) (graph : BlockGraph)

/-- The blocks an own block references. -/
def references (graph : BlockGraph) : List BlockID := graph.deps.map Dep.block

def setBlock (codec : Codec β) (db : Badger) (id : BlockID) (block : SignedData β) : Badger :=
  if db[includedKey id]?.isSome then db
  else
    let db := db.insert (includedKey id) [0]
    let db := db.insert (notIncludedKey id) []
    db.insert (blockKey id) (codec.marshal block)

def setOwnBlock (codec : Codec β) (db : Badger) (block blockRef : SignedData β) (graph : BlockGraph) :
    Badger :=
  let val := codec.marshal block
  let db := db.insert (blockKey graph.block) val
  let db := db.insert [lastBlockRefPrefix] (codec.marshal blockRef)
  let db := db.insert (blockGraphKey graph.block) (encodeBlockGraph graph)
  let db := db.insert [lastHashPrefix] graph.block.hash
  let db := db.insert [lastRoundPrefix] (littleEndianBytes 8 graph.block.round)
  let db := (references graph).foldl (fun db ref => db.insert (includedKey ref) [1]) db
  let db := (references graph).foldl (fun db ref => db.erase (notIncludedKey ref)) db
  db.insert (ownBlockKey graph.block.round) val

namespace Transaction

/-- All ids in a transaction are made of words. -/
def Fits : Transaction β → Prop
  | setBlock id _ => id.Fits
  | setOwnBlock _ _ graph => graph.block.Fits ∧ ∀ id ∈ references graph, id.Fits

instance : DecidablePred (Fits (β := β))
  | setBlock id _ => inferInstanceAs (Decidable id.Fits)
  | setOwnBlock _ _ graph =>
    inferInstanceAs (Decidable (graph.block.Fits ∧ ∀ id ∈ references graph, id.Fits))

def commit (codec : Codec β) (db : Badger) : Transaction β → Badger
  | setBlock id block => Storage.setBlock codec db id block
  | setOwnBlock block blockRef graph => Storage.setOwnBlock codec db block blockRef graph

/-- What a transaction does to the maps. -/
def apply (db : Database β) : Transaction β → Database β
  | setBlock id block => db.setBlock id block
  | setOwnBlock block blockRef graph =>
    db.setOwnBlock graph.block block blockRef (references graph)

end Transaction

/-- Why blocks cannot be loaded. -/
inductive StoreError
  | keyNotFound
  | undecodable
  | fault (f : Fault)
  deriving DecidableEq, Repr

/-- The blocks whose keys are those of the given entries, but for the first byte. -/
def loadBlocks (codec : Codec β) (db : Badger) :
    List (Bytes × Bytes) → Except StoreError (List (SignedData β))
  | [] => .ok []
  | (key, _) :: entries =>
    match db[blockPrefix :: key.drop 1]? with
    | none => .error .keyNotFound
    | some val =>
      match codec.unmarshal val with
      | none => .error .undecodable
      | some block => do
        let blocks ← loadBlocks codec db entries
        return block :: blocks

def readNotIncluded (codec : Codec β) (db : Badger) : Except StoreError (List (SignedData β)) :=
  loadBlocks codec db (db.scan [notIncludedPrefix] [notIncludedPrefix])

def getNotIncluded (wire : Wire β) (codec : Codec β) (db : Badger) :
    Except StoreError (List (BlockData β)) := do
  let blocks ← readNotIncluded codec db
  blocks.mapM fun block => (getBlockData wire block).mapError StoreError.fault

variable {ids : List BlockID} {f : Badger → BlockID → Badger}

section Mirrors

variable {V : Type} {p q : UInt8} {enc : V → Bytes} {db : Badger} {m : FiniteMap BlockID V}
  {id : BlockID}

/-- The entries whose keys begin with `p` are those of the map. -/
structure Mirrors (p : UInt8) (enc : V → Bytes) (db : Badger) (m : FiniteMap BlockID V) : Prop where
  fits : ∀ (id : BlockID) v, m[id]? = some v → id.Fits
  entries : ∀ (key val : Bytes), db[p :: key]? = some val ↔
    ∃ (id : BlockID) (v : V), m[id]? = some v ∧ key = encodeBlockID id ∧ val = enc v

section

variable (h : Mirrors p enc db m)
include h

theorem Mirrors.lookup (hid : id.Fits) :
    db[p :: encodeBlockID id]? = (m[id]?).map enc := by
  cases hv : m[id]? with
  | some v => exact (h.entries _ _).mpr ⟨id, v, hv, rfl, rfl⟩
  | none =>
    rw [Option.map_none, Option.eq_none_iff_forall_not_mem]
    intro val hval
    obtain ⟨id', v, hv', hkey, -⟩ := (h.entries _ _).mp hval
    rw [encodeBlockID_inj hid (h.fits id' v hv')] at hkey
    rw [hkey, hv'] at hv
    cases hv

/-- A key of another kind does not matter. -/
theorem Mirrors.insert_other (hne : q ≠ p) (key val : Bytes) :
    Mirrors p enc (db.insert (q :: key) val) m where
  fits := h.fits
  entries key' val' := by
    rw [lookup_insert_of_ne _ fun heq => hne (List.cons.inj heq).1]
    exact h.entries key' val'

theorem Mirrors.erase_other (hne : q ≠ p) (key : Bytes) :
    Mirrors p enc (db.erase (q :: key)) m where
  fits := h.fits
  entries key' val' := by
    rw [lookup_erase, if_neg fun heq => hne (List.cons.inj heq).1]
    exact h.entries key' val'

/-- The value of one block changes. -/
theorem Mirrors.update (hid : id.Fits) (new : Option V) {db' : Badger} {m' : FiniteMap BlockID V}
    (hdb : ∀ key, db'[key]? = if p :: encodeBlockID id = key then new.map enc else db[key]?)
    (hm : ∀ id', m'[id']? = if id = id' then new else m[id']?) : Mirrors p enc db' m' where
  fits id' v' hv' := by
    rw [hm] at hv'
    split at hv'
    · rename_i heq
      exact heq ▸ hid
    · exact h.fits id' v' hv'
  entries key val := by
    rw [hdb]
    by_cases hkey : encodeBlockID id = key
    · subst hkey
      rw [if_pos rfl, Option.map_eq_some_iff]
      constructor
      · rintro ⟨v, hv, rfl⟩
        exact ⟨id, v, by rw [hm, if_pos rfl, hv], rfl, rfl⟩
      · rintro ⟨id', v', hv', hkey, rfl⟩
        rw [hm] at hv'
        split at hv'
        · exact ⟨v', hv', rfl⟩
        · rename_i hne
          exact absurd ((encodeBlockID_inj hid (h.fits id' v' hv')).mp hkey) hne
    · have hsame {id' : BlockID} (hid' : key = encodeBlockID id') : m'[id']? = m[id']? := by
        rw [hm, if_neg fun heq : id = _ => hkey (heq ▸ hid'.symm)]
      rw [if_neg fun heq => hkey (List.cons.inj heq).2, h.entries]
      constructor
      · rintro ⟨id', v', hv', hid', hval⟩
        exact ⟨id', v', (hsame hid').trans hv', hid', hval⟩
      · rintro ⟨id', v', hv', hid', hval⟩
        exact ⟨id', v', (hsame hid').symm.trans hv', hid', hval⟩

theorem Mirrors.insert (hid : id.Fits) (v : V) :
    Mirrors p enc (db.insert (p :: encodeBlockID id) (enc v)) (m.insert id v) :=
  h.update hid (some v) (fun _ => lookup_insert _ _ _ _) fun _ => lookup_insert _ _ _ _

theorem Mirrors.erase (hid : id.Fits) :
    Mirrors p enc (db.erase (p :: encodeBlockID id)) (m.erase id) :=
  h.update hid none (fun _ => lookup_erase _ _ _) fun _ => lookup_erase _ _ _

end

/-- Several blocks change, one after another. -/
theorem Mirrors.foldl {f' : FiniteMap BlockID V → BlockID → FiniteMap BlockID V}
    (hf : ∀ id ∈ ids, ∀ db m, Mirrors p enc db m → Mirrors p enc (f db id) (f' m id))
    (h : Mirrors p enc db m) :
    Mirrors p enc (ids.foldl f db) (ids.foldl f' m) := by
  induction ids generalizing db m with
  | nil => exact h
  | cons id ids ih =>
    exact ih (fun id' hid' => hf id' (mem_cons_of_mem _ hid')) (hf id mem_cons_self db m h)

/-- Several keys of another kind do not matter either. -/
theorem Mirrors.foldl_other (hf : ∀ db id, Mirrors p enc db m → Mirrors p enc (f db id) m) :
    ∀ {db : Badger}, Mirrors p enc db m → Mirrors p enc (ids.foldl f db) m := by
  induction ids with
  | nil => exact fun h => h
  | cons id ids ih => exact fun h => ih (hf _ id h)

end Mirrors

/-- The value of an included key. -/
def flag (inc : Bool) : Bytes := [if inc then 1 else 0]

/-- The keys of the database say the same as the maps. -/
structure Represents (codec : Codec β) (db : Badger) (maps : Database β) : Prop where
  blocks : Mirrors blockPrefix codec.marshal db maps.blocks
  included : Mirrors includedPrefix flag db maps.included
  notIncluded : Mirrors notIncludedPrefix (fun _ : Unit => []) db maps.notIncluded

variable {codec : Codec β} {db : Badger} {maps : Database β}

theorem represents_empty (codec : Codec β) : Represents codec ∅ .empty := by
  refine ⟨⟨?_, ?_⟩, ⟨?_, ?_⟩, ⟨?_, ?_⟩⟩ <;> simp [Database.empty]

theorem Represents.setBlock (h : Represents codec db maps) {id : BlockID} (hid : id.Fits)
    (block : SignedData β) : Represents codec (setBlock codec db id block) (maps.setBlock id block) := by
  have hset : (db[includedKey id]?).isSome = (maps.included[id]?).isSome := by
    rw [includedKey, h.included.lookup hid, Option.isSome_map]
  unfold Storage.setBlock Database.setBlock
  rw [hset]
  split
  · exact h
  · exact ⟨((h.blocks.insert_other (by decide) _ _).insert_other (by decide) _ _).insert hid block,
      ((h.included.insert hid false).insert_other (by decide) _ _).insert_other (by decide) _ _,
      ((h.notIncluded.insert_other (by decide) _ _).insert hid ()).insert_other (by decide) _ _⟩

theorem Represents.setOwnBlock (h : Represents codec db maps) {graph : BlockGraph}
    (hblock : graph.block.Fits) (hrefs : ∀ id ∈ references graph, id.Fits)
    (block blockRef : SignedData β) :
    Represents codec (setOwnBlock codec db block blockRef graph)
      (maps.setOwnBlock graph.block block blockRef (references graph)) where
  blocks := by
    refine Mirrors.insert_other ?_ (by decide) _ _
    refine Mirrors.foldl_other (fun _ _ h => h.erase_other (by decide) _) ?_
    refine Mirrors.foldl_other (fun _ _ h => h.insert_other (by decide) _ _) ?_
    exact ((((h.blocks.insert hblock block).insert_other (by decide) _ _).insert_other (by decide) _
      _).insert_other (by decide) _ _).insert_other (by decide) _ _
  included := by
    refine Mirrors.insert_other ?_ (by decide) _ _
    refine Mirrors.foldl_other (fun _ _ h => h.erase_other (by decide) _) ?_
    refine Mirrors.foldl (fun id hid _ _ h => h.insert (hrefs id hid) true) ?_
    exact ((((h.included.insert_other (by decide) _ _).insert_other (by decide) _ _).insert_other
      (by decide) _ _).insert_other (by decide) _ _).insert_other (by decide) _ _
  notIncluded := by
    refine Mirrors.insert_other ?_ (by decide) _ _
    refine Mirrors.foldl (fun id hid _ _ h => by exact h.erase (hrefs id hid)) ?_
    refine Mirrors.foldl_other (fun _ _ h => h.insert_other (by decide) _ _) ?_
    exact ((((h.notIncluded.insert_other (by decide) _ _).insert_other (by decide) _ _).insert_other
      (by decide) _ _).insert_other (by decide) _ _).insert_other (by decide) _ _

variable {t : Transaction β}

/-- Every transaction keeps the keys in step with the maps. -/
theorem Represents.commit (h : Represents codec db maps) (ht : t.Fits) :
    Represents codec (t.commit codec db) (t.apply maps) := by
  cases t with
  | setBlock id block => exact h.setBlock ht block
  | setOwnBlock block blockRef graph => exact h.setOwnBlock ht.1 ht.2 block blockRef

variable {block : SignedData β}

/-! ## What the maps say of the log -/

section Log

variable {log : List (Transaction β)} {id : BlockID}

/-- The block was received. -/
def Received (log : List (Transaction β)) (id : BlockID) : Prop :=
  ∃ block, Transaction.setBlock id block ∈ log

/-- An own block references the block. -/
def Referenced (log : List (Transaction β)) (id : BlockID) : Prop :=
  ∃ block blockRef graph, Transaction.setOwnBlock block blockRef graph ∈ log ∧ id ∈ references graph

/-- The block was passed to a transaction under the id. -/
def Passed (log : List (Transaction β)) (id : BlockID) (block : SignedData β) : Prop :=
  Transaction.setBlock id block ∈ log ∨
    ∃ blockRef graph, Transaction.setOwnBlock block blockRef graph ∈ log ∧ graph.block = id

/-- What the maps hold after the transactions of a log. -/
structure Accounted (log : List (Transaction β)) (maps : Database β) : Prop where
  included : ∀ id : BlockID, maps.included[id]? = some true ↔ Referenced log id
  waiting : ∀ id : BlockID, maps.included[id]? = some false ↔ Received log id ∧ ¬ Referenced log id
  notIncluded : ∀ id : BlockID, (maps.notIncluded[id]?).isSome ↔ maps.included[id]? = some false
  blocks : ∀ id : BlockID, maps.included[id]? = some false →
    ∃ block, maps.blocks[id]? = some block ∧ Passed log id block

theorem accounted_empty : Accounted [] (.empty : Database β) := by
  refine ⟨?_, ?_, ?_, ?_⟩ <;> simp [Database.empty, Received, Referenced]

theorem received_append :
    Received (log ++ [t]) id ↔ Received log id ∨ ∃ block, t = .setBlock id block := by
  simp only [Received, mem_append, mem_singleton, exists_or, eq_comm]

theorem referenced_append :
    Referenced (log ++ [t]) id ↔ Referenced log id ∨
      ∃ block blockRef graph, t = .setOwnBlock block blockRef graph ∧ id ∈ references graph := by
  simp only [Referenced, mem_append, mem_singleton, or_and_right, exists_or, eq_comm]

theorem Passed.append (h : Passed log id block) (t : Transaction β) :
    Passed (log ++ [t]) id block := by
  rcases h with h | ⟨blockRef, graph, h, heq⟩
  · exact .inl (mem_append_left _ h)
  · exact .inr ⟨blockRef, graph, mem_append_left _ h, heq⟩

theorem Accounted.setBlock (h : Accounted log maps) (new : BlockID) (block : SignedData β) :
    Accounted (log ++ [.setBlock new block]) (maps.setBlock new block) := by
  have hreferenced : ∀ id, Referenced (log ++ [.setBlock new block]) id ↔ Referenced log id := by
    simp [referenced_append]
  have hreceived : ∀ id, Received (log ++ [.setBlock new block]) id ↔ Received log id ∨ new = id := by
    simp [received_append]
  unfold Database.setBlock
  split
  · -- the block was set before, or an own block references it
    rename_i hset
    refine ⟨fun id => (h.included id).trans (hreferenced id).symm, fun id => ?_, h.notIncluded,
      fun id hid => ?_⟩
    · rw [h.waiting, hreferenced, hreceived]
      constructor
      · exact fun ⟨hid, hnot⟩ => ⟨.inl hid, hnot⟩
      · rintro ⟨hid | rfl, hnot⟩
        · exact ⟨hid, hnot⟩
        · obtain ⟨inc, hinc⟩ := Option.isSome_iff_exists.mp hset
          cases inc with
          | true => exact absurd ((h.included _).mp hinc) hnot
          | false => exact (h.waiting _).mp hinc
    · obtain ⟨block', hblock', hpassed⟩ := h.blocks id hid
      exact ⟨block', hblock', hpassed.append _⟩
  · rename_i hset
    have hnone : maps.included[new]? = none := by simpa using hset
    have hnot : ¬ Referenced log new := by
      rw [← h.included, hnone]
      simp
    refine ⟨fun id => ?_, fun id => ?_, fun id => ?_, fun id hid => ?_⟩
    · rw [lookup_insert, hreferenced]
      split
      · rename_i heq
        subst heq
        simp [hnot]
      · exact h.included id
    · rw [lookup_insert, hreferenced, hreceived]
      split
      · rename_i heq
        subst heq
        simp [hnot]
      · rename_i hne
        simp only [hne, or_false]
        exact h.waiting id
    · simp only [lookup_insert]
      split
      · simp
      · exact h.notIncluded id
    · rw [lookup_insert] at hid ⊢
      split
      · rename_i heq
        subst heq
        exact ⟨block, rfl, .inl (mem_append_right _ mem_cons_self)⟩
      · rename_i hne
        rw [if_neg hne] at hid
        obtain ⟨block', hblock', hpassed⟩ := h.blocks id hid
        exact ⟨block', hblock', hpassed.append _⟩

theorem Accounted.setOwnBlock (h : Accounted log maps) (block blockRef : SignedData β)
    (graph : BlockGraph) :
    Accounted (log ++ [.setOwnBlock block blockRef graph])
      (maps.setOwnBlock graph.block block blockRef (references graph)) := by
  have hreferenced : ∀ id, Referenced (log ++ [.setOwnBlock block blockRef graph]) id ↔
      Referenced log id ∨ id ∈ references graph := by
    intro id
    rw [referenced_append]
    refine or_congr_right ⟨?_, fun hid => ⟨block, blockRef, graph, rfl, hid⟩⟩
    rintro ⟨_, _, _, heq, hid⟩
    cases heq
    exact hid
  have hreceived : ∀ id, Received (log ++ [.setOwnBlock block blockRef graph]) id ↔
      Received log id := by
    simp [received_append]
  have hkept : ∀ id, (maps.setOwnBlock graph.block block blockRef (references graph)).included[id]? =
      if id ∈ references graph then some true else maps.included[id]? :=
    fun id => lookup_insertAll _ _ _ _
  refine ⟨fun id => ?_, fun id => ?_, fun id => ?_, fun id hid => ?_⟩
  · rw [hkept, hreferenced, ← h.included]
    split
    · rename_i hmem
      simp [hmem]
    · rename_i hmem
      simp [hmem]
  · rw [hkept, hreferenced, hreceived]
    split
    · rename_i hmem
      simp [hmem]
    · rename_i hmem
      rw [h.waiting]
      simp [hmem]
  · rw [hkept]
    dsimp only [Database.setOwnBlock]
    rw [lookup_eraseAll]
    split
    · simp
    · exact h.notIncluded id
  · rw [hkept] at hid
    split at hid
    · cases hid
    · obtain ⟨block', hblock', hpassed⟩ := h.blocks id hid
      dsimp only [Database.setOwnBlock]
      rw [lookup_insert]
      split
      · rename_i heq
        exact ⟨block, rfl, .inr ⟨blockRef, graph, mem_append_right _ mem_cons_self, heq⟩⟩
      · exact ⟨block', hblock', hpassed.append _⟩

/-- Every transaction is accounted for. -/
theorem Accounted.commit (h : Accounted log maps) (t : Transaction β) :
    Accounted (log ++ [t]) (t.apply maps) := by
  cases t with
  | setBlock id block => exact h.setBlock id block
  | setOwnBlock block blockRef graph => exact h.setOwnBlock block blockRef graph

/-- The maps hold what was passed to a transaction. -/
theorem passed_of_blocks
    (h : ∀ (id : BlockID) block, maps.blocks[id]? = some block → Passed log id block) :
    ∀ (id : BlockID) block, (t.apply maps).blocks[id]? = some block →
      Passed (log ++ [t]) id block := by
  intro id block hblock
  cases t with
  | setBlock new signed =>
    simp only [Transaction.apply, Database.setBlock] at hblock
    split at hblock
    · exact (h id block hblock).append _
    · dsimp only at hblock
      rw [lookup_insert] at hblock
      split at hblock
      · rename_i heq
        subst heq
        cases hblock
        exact .inl (mem_append_right _ mem_cons_self)
      · exact (h id block hblock).append _
  | setOwnBlock signed blockRef graph =>
    simp only [Transaction.apply, Database.setOwnBlock] at hblock
    rw [lookup_insert] at hblock
    split at hblock
    · rename_i heq
      cases hblock
      exact .inr ⟨blockRef, graph, mem_append_right _ mem_cons_self, heq⟩
    · exact (h id block hblock).append _

end Log

/-- The database after the transactions of a log. -/
def commitAll (codec : Codec β) (log : List (Transaction β)) : Badger :=
  log.foldl (fun db t => t.commit codec db) ∅

/-- After any transactions, some maps say the same as the keys, and account for them. -/
theorem exists_maps (codec : Codec β) (log : List (Transaction β)) (hfits : ∀ t ∈ log, t.Fits) :
    ∃ maps, Represents codec (commitAll codec log) maps ∧ Accounted log maps ∧
      ∀ (id : BlockID) block, maps.blocks[id]? = some block → Passed log id block := by
  induction log using List.reverseRecOn with
  | nil =>
    refine ⟨.empty, represents_empty codec, accounted_empty, fun id block hblock => ?_⟩
    simp [Database.empty] at hblock
  | append_singleton log t ih =>
    obtain ⟨maps, hrepresents, haccounted, hpassed⟩ :=
      ih fun t' ht' => hfits t' (mem_append_left _ ht')
    refine ⟨t.apply maps, ?_, haccounted.commit t, passed_of_blocks hpassed⟩
    rw [commitAll, foldl_append]
    exact hrepresents.commit (hfits t (mem_append_right _ mem_cons_self))

/-- The order of ids as an order of tuples. -/
theorem keyOrder_iff {a b : BlockID} : keyOrder a b = true ↔
    toLex (a.node, toLex (a.round, Hash.code a.hash)) ≤
      toLex (b.node, toLex (b.round, Hash.code b.hash)) := by
  have hhash : Hash.code a.hash ≤ Hash.code b.hash ↔ ¬ b.hash < a.hash := by
    rw [← not_lt]
    exact code_lt_code_iff.not
  rw [Prod.Lex.toLex_le_toLex, Prod.Lex.toLex_le_toLex]
  dsimp only
  rw [hhash, keyOrder]
  by_cases hnode : a.node = b.node
  · by_cases hround : a.round = b.round
    · simp [hnode, hround]
    · simp [hnode, hround]
  · simp [hnode]

/-- Sorted ids have sorted encodings. -/
theorem encodeBlockID_lt_of_keyOrder {a b : BlockID} (ha : a.Fits) (hb : b.Fits)
    (h : keyOrder a b = true) (hne : a ≠ b) : encodeBlockID a < encodeBlockID b := by
  rw [encodeBlockID_lt_iff ha hb]
  rw [keyOrder] at h
  split at h
  · rename_i hnode
    refine .inr ⟨hnode, ?_⟩
    split at h
    · rename_i hround
      refine .inr ⟨hround, ?_⟩
      have hle : ¬ b.hash < a.hash := by simpa using h
      rw [← code_lt_code_iff] at hle ⊢
      refine lt_of_le_of_ne (not_lt.mp hle) fun heq => hne ?_
      cases a
      cases b
      cases hnode
      cases hround
      cases Hash.code_injective heq
      rfl
    · exact .inl (by simpa using h)
  · exact .inl (by simpa using h)

/-- The blocks that wait, in the order in which they are loaded. -/
def waitingIDs (maps : Database β) : List BlockID :=
  maps.notIncluded.keys.insertionSort fun a b => keyOrder a b

theorem mem_waitingIDs {id : BlockID} : id ∈ waitingIDs maps ↔ (maps.notIncluded[id]?).isSome := by
  rw [waitingIDs, mem_insertionSort, Std.ExtTreeMap.mem_keys,
    Std.ExtTreeMap.isSome_getElem?_iff_mem]

/-- The scan visits the blocks that wait. -/
theorem Represents.scan (h : Represents codec db maps) :
    db.scan [notIncludedPrefix] [notIncludedPrefix] =
      (waitingIDs maps).map fun id => (notIncludedKey id, []) := by
  have hmem : ∀ id : BlockID, id ∈ waitingIDs maps ↔ maps.notIncluded[id]? = some () := by
    intro id
    rw [mem_waitingIDs]
    cases maps.notIncluded[id]? <;> simp
  have hfits : ∀ id ∈ waitingIDs maps, id.Fits :=
    fun id hid => h.notIncluded.fits id () ((hmem id).mp hid)
  have hsorted : (waitingIDs maps).Pairwise fun a b => keyOrder a b = true := by
    have : Std.Total fun a b : BlockID => keyOrder a b = true :=
      ⟨fun a b => by simpa only [keyOrder_iff] using le_total _ _⟩
    have : IsTrans BlockID fun a b => keyOrder a b = true :=
      ⟨fun a b c => by simpa only [keyOrder_iff] using le_trans⟩
    exact pairwise_insertionSort _ _
  have hnodup : (waitingIDs maps).Nodup := by
    refine (perm_insertionSort _ _).nodup_iff.mpr ?_
    refine Pairwise.imp ?_ (Std.ExtTreeMap.distinct_keys (t := maps.notIncluded))
    exact fun hab heq => hab (keyCompare_eq_iff.mpr heq)
  apply Badger.scan_eq (prefix_refl _)
  · rw [Badger.Ordered, pairwise_map]
    refine (hsorted.and hnodup).imp_of_mem fun ha hb hab => ?_
    exact cons_lt_cons_iff.mpr
      (.inr ⟨rfl, encodeBlockID_lt_of_keyOrder (hfits _ ha) (hfits _ hb) hab.1 hab.2⟩)
  · intro key val
    rw [mem_map]
    constructor
    · rintro ⟨id, hid, heq⟩
      cases heq
      refine ⟨?_, ⟨encodeBlockID id, rfl⟩, by simp [notIncludedKey]⟩
      exact (h.notIncluded.entries _ _).mpr ⟨id, (), (hmem id).mp hid, rfl, rfl⟩
    · rintro ⟨hval, ⟨rest, rfl⟩, -⟩
      obtain ⟨id, _, hid, rfl, rfl⟩ := (h.notIncluded.entries rest val).mp hval
      exact ⟨id, (hmem id).mpr hid, rfl⟩

theorem loadBlocks_cons (h : Represents codec db maps) {id : BlockID} (hid : id.Fits)
    (hblock : maps.blocks[id]? = some block) (entries : List (Bytes × Bytes)) :
    loadBlocks codec db ((notIncludedKey id, []) :: entries) = (do
      let blocks ← loadBlocks codec db entries
      return block :: blocks) := by
  have hval : db[blockPrefix :: encodeBlockID id]? = some (codec.marshal block) := by
    rw [h.blocks.lookup hid, hblock, Option.map_some]
  rw [loadBlocks, notIncludedKey, drop_succ_cons, drop_zero, hval]
  dsimp only
  rw [codec.unmarshal_marshal]

/-- Blocks that are stored are loaded, and what is known of them is known of what is
loaded. -/
theorem loadBlocks_ok (h : Represents codec db maps) (P : BlockID → SignedData β → Prop)
    (ids : List BlockID)
    (hids : ∀ id ∈ ids, id.Fits ∧ ∃ block, maps.blocks[id]? = some block ∧ P id block) :
    ∃ blocks, loadBlocks codec db (ids.map fun id => (notIncludedKey id, [])) = .ok blocks ∧
      Forall₂ P ids blocks := by
  induction ids with
  | nil => exact ⟨[], rfl, .nil⟩
  | cons id ids ih =>
    obtain ⟨blocks, hblocks, hall⟩ := ih fun id' hid' => hids id' (mem_cons_of_mem _ hid')
    obtain ⟨hid, block, hblock, hholds⟩ := hids id mem_cons_self
    refine ⟨block :: blocks, ?_, .cons hholds hall⟩
    rw [map_cons, loadBlocks_cons h hid hblock, hblocks]
    rfl

theorem mapError_eq_ok {ε ε' α : Type} {f : ε → ε'} {x : Except ε α} {a : α} :
    x.mapError f = .ok a ↔ x = .ok a := by
  cases x <;> simp [Except.mapError]

/-- What cannot be made of a loaded block is no missing key. -/
theorem getNotIncluded_ne_keyNotFound {wire : Wire β} {blocks : List (SignedData β)}
    (h : readNotIncluded codec db = .ok blocks) :
    getNotIncluded wire codec db ≠ .error .keyNotFound := by
  have hmap : ∀ blocks : List (SignedData β),
      blocks.mapM (fun block => (getBlockData wire block).mapError StoreError.fault) ≠
        .error .keyNotFound := by
    intro blocks
    induction blocks with
    | nil => exact fun heq => by cases heq
    | cons block blocks ih =>
      rw [mapM_cons]
      cases getBlockData wire block with
      | error f => exact fun heq => by cases heq
      | ok info =>
        intro heq
        cases hrest : blocks.mapM (fun block => (getBlockData wire block).mapError StoreError.fault) with
        | error e =>
          rw [hrest] at ih heq
          exact ih heq
        | ok infos =>
          rw [hrest] at heq
          cases heq
  rw [getNotIncluded, h]
  exact hmap blocks

theorem included_eq_iff (h : Represents codec db maps) {id : BlockID} (hid : id.Fits) (inc : Bool) :
    db[includedKey id]? = some (flag inc) ↔ maps.included[id]? = some inc := by
  rw [includedKey, h.included.lookup hid]
  cases maps.included[id]? with
  | none => simp
  | some inc' => cases inc <;> cases inc' <;> decide

theorem isSome_notIncluded_iff (h : Represents codec db maps) {id : BlockID} (hid : id.Fits) :
    (db[notIncludedKey id]?).isSome ↔ (maps.notIncluded[id]?).isSome := by
  rw [notIncludedKey, h.notIncluded.lookup hid, Option.isSome_map]

/-- No received block is forgotten. After any transactions, a block has a
`notIncluded` key exactly if its `included` key says 0, and then it is stored. A 1 stays.
Loading finds all keys it looks for, and it returns the data of the blocks that were
received and that no own block references, in the order of their ids. -/
theorem notIncluded_complete (codec : Codec β) (log : List (Transaction β))
    (hfits : ∀ t ∈ log, t.Fits) :
    (∀ id : BlockID, id.Fits →
      ((commitAll codec log)[notIncludedKey id]?.isSome ↔
        (commitAll codec log)[includedKey id]? = some [0]) ∧
      ((commitAll codec log)[notIncludedKey id]?.isSome →
        ∃ block, (commitAll codec log)[blockKey id]? = some (codec.marshal block) ∧
          Passed log id block)) ∧
    (∀ (t : Transaction β) (id : BlockID), t.Fits → id.Fits →
      (commitAll codec log)[includedKey id]? = some [1] →
      (commitAll codec (log ++ [t]))[includedKey id]? = some [1]) ∧
    (∀ wire : Wire β, getNotIncluded wire codec (commitAll codec log) ≠ .error .keyNotFound) ∧
    ∃ ids blocks, readNotIncluded codec (commitAll codec log) = .ok blocks ∧
      (∀ wire : Wire β, getNotIncluded wire codec (commitAll codec log) =
        blocks.mapM fun block => (getBlockData wire block).mapError StoreError.fault) ∧
      Forall₂ (Passed log) ids blocks ∧
      ids.Pairwise (fun a b => encodeBlockID a < encodeBlockID b) ∧
      ∀ id, id ∈ ids ↔ Received log id ∧ ¬ Referenced log id := by
  obtain ⟨maps, hmaps, haccounted, -⟩ := exists_maps codec log hfits
  have hmem : ∀ id : BlockID, id ∈ waitingIDs maps ↔ maps.included[id]? = some false :=
    fun id => mem_waitingIDs.trans (haccounted.notIncluded id)
  obtain ⟨blocks, hload, hblocks⟩ := loadBlocks_ok hmaps (Passed log) (waitingIDs maps)
    fun id hid => ⟨hmaps.included.fits id false ((hmem id).mp hid),
      haccounted.blocks id ((hmem id).mp hid)⟩
  have hread : readNotIncluded codec (commitAll codec log) = .ok blocks := by
    rw [readNotIncluded, hmaps.scan, hload]
  refine ⟨fun id hid => ⟨?_, fun hwaiting => ?_⟩, fun t id ht hid hone => ?_,
    fun wire => getNotIncluded_ne_keyNotFound hread, waitingIDs maps, blocks, hread,
    fun wire => by rw [getNotIncluded, hread]; rfl, hblocks, ?_, fun id => ?_⟩
  · exact (isSome_notIncluded_iff hmaps hid).trans
      ((haccounted.notIncluded id).trans (included_eq_iff hmaps hid false).symm)
  · rw [isSome_notIncluded_iff hmaps hid, haccounted.notIncluded] at hwaiting
    obtain ⟨block, hblock, hpassed⟩ := haccounted.blocks id hwaiting
    exact ⟨block, by rw [blockKey, hmaps.blocks.lookup hid, hblock, Option.map_some], hpassed⟩
  · have hmaps' : Represents codec (commitAll codec (log ++ [t])) (t.apply maps) := by
      rw [commitAll, foldl_append]
      exact hmaps.commit ht
    have hreferenced := (haccounted.included id).mp ((included_eq_iff hmaps hid true).mp hone)
    exact (included_eq_iff hmaps' hid true).mpr
      (((haccounted.commit t).included id).mpr (referenced_append.mpr (Or.inl hreferenced)))
  · have hordered := Badger.ordered_scan (commitAll codec log) [notIncludedPrefix] [notIncludedPrefix]
    rw [hmaps.scan, Badger.Ordered, pairwise_map] at hordered
    exact hordered.imp fun hab => (cons_lt_cons_iff.mp hab).elim
      (fun hlt => absurd hlt (by decide)) And.right
  · exact (hmem id).trans (haccounted.waiting id)

/-- The length of the data, one byte for each, and the data and the signature behind a
zero byte. -/
def plainCodec : Codec Bytes where
  marshal signed := replicate signed.data.length 1 ++ 0x00 :: (signed.data ++ signed.signature)
  unmarshal bytes := (splitAtZero bytes).map fun (size, rest) =>
    ⟨rest.take size.length, rest.drop size.length⟩
  unmarshal_marshal signed := by
    rw [splitAtZero_append (by simp)]
    simp

/-- Two blocks are received, one of them twice, and an own block references it. -/
def threeBlocks : List (Transaction Bytes) :=
  [.setBlock ⟨[7], 2, 1⟩ ⟨[1], [2]⟩, .setBlock ⟨[8], 3, 1⟩ ⟨[3], [4]⟩,
    .setOwnBlock ⟨[5], [6]⟩ ⟨[7], [8]⟩ ⟨⟨[9], 1, 1⟩, [⟨⟨[7], 2, 1⟩, [], .zero⟩], .zero⟩,
    .setBlock ⟨[7], 2, 1⟩ ⟨[1], [2]⟩]

theorem notIncluded_threeBlocks :
    ∃ ids blocks, readNotIncluded plainCodec (commitAll plainCodec threeBlocks) = .ok blocks ∧
      (∀ wire : Wire Bytes, getNotIncluded wire plainCodec (commitAll plainCodec threeBlocks) =
        blocks.mapM fun block => (getBlockData wire block).mapError StoreError.fault) ∧
      Forall₂ (Passed threeBlocks) ids blocks ∧
      ids.Pairwise (fun a b => encodeBlockID a < encodeBlockID b) ∧
      ∀ id, id ∈ ids ↔ Received threeBlocks id ∧ ¬ Referenced threeBlocks id := by
  exact (notIncluded_complete plainCodec threeBlocks (by decide)).2.2.2

end Blockmania.Storage
