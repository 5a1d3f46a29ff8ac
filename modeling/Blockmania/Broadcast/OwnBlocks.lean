/-
# Own blocks of a node

The broadcast service builds its own blocks in one goroutine and serves them to
peers from others. A block passes through a cache, the database and the round
counter, in that order, and a crash keeps the database only. `Service` is what
these goroutines share, `Action` is one uninterrupted piece of work of one of
them, and a run is any interleaving of actions.

What a block holds besides its round is of no interest here. A rebuilt block may
be any other one, so blocks are values of an arbitrary type.
-/

import Blockmania.Interpreter.Process

namespace Blockmania.Broadcast

open Math List FiniteMap

variable {β : Type}

/-- The cache of own blocks. -/
structure OwnBlocks (β : Type) where
  data : FiniteMap Nat β
  latest : Nat

namespace OwnBlocks

def get (o : OwnBlocks β) (round : Nat) : Option β := o.data[round]?

/-- Keep the rounds within `size` of the latest one that was set, unless the cache is small.
The size is compared as a signed number and subtracted as an unsigned one. -/
def prune (o : OwnBlocks β) (size : Int64) : OwnBlocks β :=
  if (o.data.size : Int) ≤ size.toInt then o
  else
    let limit := u64 (o.latest + (2 ^ 64 - size.toUInt64.toNat))
    { o with data := o.data.restrict fun round => decide (round ≥ limit) }

def set (o : OwnBlocks β) (round : Nat) (block : β) : OwnBlocks β where
  data := o.data.insert round block
  latest := round

/-- Setting a round adds its block and no other. -/
theorem get_set (o : OwnBlocks β) (round round' : Nat) (block : β) :
    (o.set round block).get round' = if round = round' then some block else o.get round' :=
  lookup_insert _ _ _ _

variable {o : OwnBlocks β}

/-- Pruning only forgets. -/
theorem get_of_get_prune {size : Int64} {round : Nat} {block : β}
    (h : (o.prune size).get round = some block) : o.get round = some block := by
  unfold prune at h
  split at h
  · exact h
  · simp only [get, lookup_restrict] at h
    split at h
    · exact h
    · cases h

/-- A cache after calls of `set`, in the order they were made in. -/
def setAll (sets : List (Nat × β)) : OwnBlocks β :=
  sets.foldl (fun o x => o.set x.1 x.2) ⟨∅, 0⟩

variable {size : Int64}

theorem toNat_toUInt64 (h : 0 ≤ size.toInt) :
    (size.toUInt64.toNat : Int) = size.toInt := by
  change 0 ≤ size.toBitVec.toInt at h
  change (size.toBitVec.toNat : Int) = size.toBitVec.toInt
  rw [BitVec.toInt_eq_toNat_cond] at h ⊢
  split_ifs at h ⊢ <;> omega

theorem setAll_append (sets : List (Nat × β)) (x : Nat × β) :
    setAll (sets ++ [x]) = (setAll sets).set x.1 x.2 := by
  simp only [setAll, foldl_append, foldl_cons, foldl_nil]

variable {sets : List (Nat × β)}

/-- Only rounds that were set are cached. -/
theorem mem_of_get_setAll {round : Nat} {block : β} (h : (setAll sets).get round = some block) :
    (round, block) ∈ sets := by
  induction sets using List.reverseRecOn with
  | nil => simp [setAll, get] at h
  | append_singleton sets x ih =>
    rw [setAll_append, get_set] at h
    split at h
    · rename_i hround
      cases hround
      cases h
      exact mem_append_right _ mem_cons_self
    · exact mem_append_left _ (ih h)

/-- The latest round is the one that was set last. -/
theorem latest_setAll_le {bound : Int} (hne : sets ≠ []) (h : ∀ x ∈ sets, (x.1 : Int) ≤ bound) :
    ((setAll sets).latest : Int) ≤ bound := by
  rw [← dropLast_append_getLast hne, setAll_append]
  exact h _ (getLast_mem hne)

/-- What pruning to `size` should do after the given calls of `set`. -/
structure PrunesRight (sets : List (Nat × β)) (size : Int64) : Prop where
  /-- Rounds within `size` of the highest one are kept. -/
  kept : ∀ round block, (setAll sets).get round = some block →
    (∀ x ∈ sets, (x.1 : Int) ≤ round + size.toInt) →
    ((setAll sets).prune size).get round = some block
  /-- What is kept is not changed. -/
  unchanged : ∀ round block, ((setAll sets).prune size).get round = some block →
    (setAll sets).get round = some block
  /-- The subtraction does not wrap around. -/
  noWrap : size.toInt < (setAll sets).data.size → size.toUInt64.toNat ≤ (setAll sets).latest

/-- Pruning keeps recent rounds if the round that was set last is not below the
size, or the cache is small. -/
theorem prunesRight_iff (sets : List (Nat × β)) (size : Int64) :
    PrunesRight sets size ↔ ((setAll sets).data.size : Int) ≤ size.toInt ∨
      size.toUInt64.toNat ≤ (setAll sets).latest := by
  refine ⟨fun h => (le_or_gt _ _).imp_right h.noWrap, fun h => ⟨?_, ?_, fun hlt =>
    h.resolve_left (not_le.mpr hlt)⟩⟩
  · intro round block hget hrecent
    unfold prune
    split
    · exact hget
    have hmem := mem_of_get_setAll hget
    have hround : (round : Int) ≤ round + size.toInt := hrecent _ hmem
    have hsize : (size.toUInt64.toNat : Int) = size.toInt := toNat_toUInt64 (by omega)
    have hlatest := latest_setAll_le (ne_nil_of_mem hmem) hrecent
    have hlimit : u64 ((setAll sets).latest + (2 ^ 64 - size.toUInt64.toNat)) ≤ round := by
      have hlt := size.toUInt64.toNat_lt
      unfold u64
      omega
    simp only [get, lookup_restrict]
    rw [if_pos (decide_eq_true hlimit)]
    exact hget
  · exact fun round block hget => get_of_get_prune hget

/-- An old round is read again after three new ones: all of them are dropped. -/
theorem not_prunesRight_reread :
    ¬ PrunesRight [(5, 'e'), (6, 'f'), (7, 'g'), (1, 'a')] 2 ∧
      ((setAll [(5, 'e'), (6, 'f'), (7, 'g'), (1, 'a')]).prune 2).data = ∅ := by
  refine ⟨fun h => ?_, by decide +kernel⟩
  have hkept := h.kept 7 'g' (by decide +kernel) (by decide +kernel)
  revert hkept
  decide +kernel

end OwnBlocks

/-- What the database knows about own blocks. -/
structure Store (β : Type) where
  own : FiniteMap Nat β
  lastRound : Option Nat

namespace Store

def getOwnBlock (s : Store β) (round : Nat) : Option β := s.own[round]?

/-- The round to continue from; a missing entry counts as round 0. -/
def getLastRound (s : Store β) : Nat := s.lastRound.getD 0

/-- One transaction stores the block and its round. -/
def setOwnBlock (s : Store β) (round : Nat) (block : β) : Store β where
  own := s.own.insert round block
  lastRound := some round

/-- The database has all of the given blocks. -/
def Has (s : Store β) (blocks : List (Nat × β)) : Prop :=
  ∀ x ∈ blocks, s.getOwnBlock x.1 = some x.2

theorem Has.append {s : Store β} {blocks blocks' : List (Nat × β)} (h : s.Has blocks)
    (h' : s.Has blocks') : s.Has (blocks ++ blocks') := fun x hx =>
  (mem_append.mp hx).elim (h x) (h' x)

end Store

/-- Where `genBlocks` stands, with its local round. -/
inductive Gen (β : Type)
  /-- Waiting for the next interval. -/
  | waiting (round : Nat)
  /-- A block was built and signed. -/
  | built (round : Nat) (block : β)
  /-- It is in the cache. -/
  | cached (round : Nat) (block : β)
  /-- It is in the database. -/
  | committed (round : Nat)
  /-- The round counter was updated. -/
  | published (round : Nat)

/-- Where a call of `getOwnBlock` stands. -/
inductive Fetch (β : Type)
  | idle
  /-- The cache does not have the round. -/
  | missed (round : Nat)
  /-- The database has it. -/
  | loaded (round : Nat) (block : β)

/-- A goroutine that collects own blocks for a peer: `handleGetRounds`, or
`getUnsent`, for which a missing block is fatal. -/
structure Reader (β : Type) where
  strict : Bool
  queue : List Nat
  fetch : Fetch β
  blocks : List (Nat × β)

/-- The state of the service, with the history of what peers were handed. -/
structure Service (β : Type) where
  store : Store β
  ownBlocks : OwnBlocks β
  round : Nat
  gen : Gen β
  readers : List (Reader β)
  handed : List (Nat × β)

namespace Service

/-- `loadState` on the given database, and the start of `genBlocks`. -/
def loadState (store : Store β) (handed : List (Nat × β)) : Service β where
  store
  ownBlocks := ⟨∅, 0⟩
  round := store.getLastRound
  gen := .waiting store.getLastRound
  readers := []
  handed

/-- A node that starts for the first time. -/
def start : Service β := loadState ⟨∅, none⟩ []

end Service

/-- A piece of work of one goroutine. -/
inductive Action (β : Type)
  /-- `genBlocks` builds and signs a block. -/
  | build (block : β)
  /-- `ownBlocks.set` in `setOwnBlock`. -/
  | cache
  /-- `store.setOwnBlock` commits. -/
  | commit
  /-- `s.round` is updated. -/
  | publish
  /-- The cache is pruned after every 50th round. -/
  | tidy
  /-- A peer asks for rounds. -/
  | getRounds (rounds : List Nat)
  /-- A broadcast loop collects the rounds from `last` on. The peer's own
  acknowledgements decide where it starts. -/
  | getUnsent (last : Nat)
  /-- `getOwnBlock` looks into the cache. -/
  | lookup (reader : Nat)
  /-- `getOwnBlock` reads the database. -/
  | load (reader : Nat)
  /-- `getOwnBlock` puts the block into the cache and returns it. -/
  | fill (reader : Nat)
  /-- The collected blocks are sent. -/
  | send (reader : Nat)
  /-- The process dies and is started again. -/
  | crash

namespace Service

/-- `getOwnBlock` of the next round in the queue, up to the cache lookup. -/
def lookup (s : Service β) (reader : Reader β) : Option (Reader β) :=
  match reader.fetch, reader.queue with
  | .idle, round :: queue =>
    match s.ownBlocks.get round with
    | some block => some { reader with queue, blocks := reader.blocks ++ [(round, block)] }
    | none => some { reader with queue, fetch := .missed round }
  | _, _ => none

/-- One action, if it is enabled. -/
def step (s : Service β) : Action β → Option (Service β)
  | .build block =>
    match s.gen with
    | .waiting round => some { s with gen := .built (u64 (round + 1)) block }
    | _ => none
  | .cache =>
    match s.gen with
    | .built round block =>
      some { s with ownBlocks := s.ownBlocks.set round block, gen := .cached round block }
    | _ => none
  | .commit =>
    match s.gen with
    | .cached round block =>
      some { s with store := s.store.setOwnBlock round block, gen := .committed round }
    | _ => none
  | .publish =>
    match s.gen with
    | .committed round => some { s with round, gen := .published round }
    | _ => none
  | .tidy =>
    match s.gen with
    | .published round =>
      some { s with
        ownBlocks := if round % 50 = 0 then s.ownBlocks.prune 50 else s.ownBlocks
        gen := .waiting round }
    | _ => none
  | .getRounds rounds => some { s with readers := s.readers ++ [⟨false, rounds, .idle, []⟩] }
  | .getUnsent last =>
    if last ≤ s.round then
      some { s with readers :=
        s.readers ++ [⟨true, range' last (s.round + 1 - last), .idle, []⟩] }
    else none
  | .lookup i => do
    let reader ← s.readers[i]?
    let reader ← s.lookup reader
    return { s with readers := s.readers.set i reader }
  | .load i => do
    let reader ← s.readers[i]?
    match reader.fetch with
    | .missed round =>
      match s.store.getOwnBlock round with
      | some block =>
        some { s with readers := s.readers.set i { reader with fetch := .loaded round block } }
      | none =>
        -- `handleGetRounds` skips the round, `getUnsent` gives up for good
        if reader.strict then some (loadState s.store s.handed)
        else some { s with readers := s.readers.set i { reader with fetch := .idle } }
    | _ => none
  | .fill i => do
    let reader ← s.readers[i]?
    match reader.fetch with
    | .loaded round block =>
      some { s with
        ownBlocks := s.ownBlocks.set round block
        readers := s.readers.set i
          { reader with fetch := .idle, blocks := reader.blocks ++ [(round, block)] } }
    | _ => none
  | .send i => do
    let reader ← s.readers[i]?
    match reader.fetch with
    | .idle =>
      -- `getUnsent` also returns early, when the payload is full
      if reader.queue = [] ∨ reader.strict then
        some { s with readers := s.readers.eraseIdx i, handed := s.handed ++ reader.blocks }
      else none
    | _ => none
  | .crash => some (loadState s.store s.handed)

/-- A sequence of actions. -/
def run (s : Service β) : List (Action β) → Option (Service β)
  | [] => some s
  | a :: as => do
    let s ← s.step a
    run s as

/-! ## What peers are shown -/

/-- No two blocks of one round were ever handed out. -/
def RevealsOnce (s : Service β) : Prop :=
  ∀ (round : Nat) (block block' : β),
    (round, block) ∈ s.handed → (round, block') ∈ s.handed → block = block'

/-- The action does not look up a round whose block is in the cache but not yet
in the database, and the round counter does not overflow. -/
def orderly (s : Service β) : Action β → Bool
  | .lookup i =>
    match s.gen, s.readers[i]? with
    | .cached round _, some reader => reader.queue.head? != some round
    | _, _ => true
  | .build _ =>
    match s.gen with
    | .waiting round => round + 1 < 2 ^ 64
    | _ => true
  | _ => true

/-- Every action of a run is orderly in the state it is taken in. -/
def orderlyRun (s : Service β) : List (Action β) → Bool
  | [] => true
  | a :: as => s.orderly a &&
    match s.step a with
    | some s' => orderlyRun s' as
    | none => true

/-- The last round is where `genBlocks` continues from. -/
def GenAt (last : Nat) : Gen β → Prop
  | .waiting round => round = last
  | .built round _ => round = last + 1
  | .cached round _ => round = last + 1
  | .committed round => round = last
  | .published round => round = last

/-- What holds between the pieces of work: everything outside the database comes
from it, but for the one block that is about to be committed. -/
structure Consistent (s : Service β) : Prop where
  stored : ∀ round block, s.store.getOwnBlock round = some block → round ≤ s.store.getLastRound
  gen : GenAt s.store.getLastRound s.gen
  cache : ∀ round block, s.ownBlocks.get round = some block →
    s.store.getOwnBlock round = some block ∨ s.gen = .cached round block
  readers : ∀ reader ∈ s.readers, s.store.Has reader.blocks ∧
    ∀ round block, reader.fetch = .loaded round block →
      s.store.getOwnBlock round = some block
  handed : s.store.Has s.handed

variable {store : Store β} {block : β} {round : Nat} {s s' : Service β}

theorem consistent_loadState {handed : List (Nat × β)}
    (hstored : ∀ round block, store.getOwnBlock round = some block → round ≤ store.getLastRound)
    (hhanded : store.Has handed) : (loadState store handed).Consistent where
  stored := hstored
  gen := rfl
  cache round block h := by
    simp [loadState, OwnBlocks.get] at h
  readers reader hreader := absurd hreader not_mem_nil
  handed := hhanded

theorem consistent_start : (start : Service β).Consistent :=
  consistent_loadState (fun round block h => by simp [Store.getOwnBlock] at h)
    (fun x hx => absurd hx not_mem_nil)

/-- Committing the next round keeps every stored block. -/
theorem getOwnBlock_setOwnBlock {round' : Nat} {block' : β} (hnext : round = store.getLastRound + 1)
    (hstored : ∀ round block, store.getOwnBlock round = some block → round ≤ store.getLastRound)
    (h : store.getOwnBlock round' = some block') :
    (store.setOwnBlock round block).getOwnBlock round' = some block' := by
  have hle := hstored round' block' h
  unfold Store.getOwnBlock Store.setOwnBlock at *
  rw [lookup_insert_of_ne _ (by omega)]
  exact h

section

variable (hs : s.Consistent)
include hs

/-- Between two blocks, the cache has stored blocks only. -/
theorem Consistent.stored_of_hit (hgen : s.gen ≠ .cached round block)
    (hhit : s.ownBlocks.get round = some block) :
    s.store.getOwnBlock round = some block :=
  (hs.cache round block hhit).resolve_right hgen

/-- Replacing one reader by a consistent one. -/
theorem Consistent.setReader (i : Nat) (reader : Reader β) (hblocks : s.store.Has reader.blocks)
    (hfetch : ∀ round block, reader.fetch = .loaded round block →
      s.store.getOwnBlock round = some block) :
    Consistent { s with readers := s.readers.set i reader } :=
  { hs with
    readers := fun reader' hmem => by
      rcases mem_or_eq_of_mem_set hmem with hold | rfl
      · exact hs.readers reader' hold
      · exact ⟨hblocks, hfetch⟩ }

/-- A new reader has collected nothing. -/
theorem Consistent.addReader (strict : Bool) (queue : List Nat) :
    Consistent { s with readers := s.readers ++ [⟨strict, queue, .idle, []⟩] } :=
  { hs with
    readers := fun reader hmem => by
      rcases mem_append.mp hmem with hold | hnew
      · exact hs.readers reader hold
      · rw [mem_singleton.mp hnew]
        exact ⟨fun x hx => absurd hx not_mem_nil, fun round block h => by cases h⟩ }

/-- A lookup that does not hit the block in flight returns a stored one. -/
theorem consistent_lookup {i : Nat} {reader reader' : Reader β}
    (hreader : s.readers[i]? = some reader) (horderly : s.orderly (.lookup i) = true)
    (h : s.lookup reader = some reader') :
    Consistent { s with readers := s.readers.set i reader' } := by
  obtain ⟨hblocks, -⟩ := hs.readers reader (mem_of_getElem? hreader)
  unfold lookup at h
  split at h
  · rename_i round queue hfetch hqueue
    split at h
    · rename_i block hhit
      cases h
      refine hs.setReader i _ (hblocks.append fun x hx => ?_) fun round block h => ?_
      · rw [mem_singleton.mp hx]
        rcases hs.cache round block hhit with hstored | hflight
        · exact hstored
        · simp [orderly, hflight, hreader, hqueue] at horderly
      · rw [hfetch] at h
        cases h
    · cases h
      exact hs.setReader i _ hblocks fun round block h => by cases h
  · cases h

/-- Every orderly action keeps the service consistent. -/
theorem consistent_step {a : Action β} (horderly : s.orderly a = true)
    (h : s.step a = some s') : s'.Consistent := by
  cases a with
  | build block =>
    simp only [step] at h
    split at h
    · rename_i round hgen
      cases h
      have hlast : round = s.store.getLastRound := by simpa [GenAt, hgen] using hs.gen
      have hnext : u64 (round + 1) = s.store.getLastRound + 1 := by
        have hsmall : round + 1 < 2 ^ 64 := by simpa [orderly, hgen] using horderly
        rw [u64, Nat.mod_eq_of_lt hsmall, hlast]
      exact { hs with
        gen := hnext
        cache := fun round' block' hhit => .inl (hs.stored_of_hit (by simp [hgen]) hhit) }
    · cases h
  | cache =>
    simp only [step] at h
    split at h
    · rename_i round block hgen
      cases h
      have hlast : round = s.store.getLastRound + 1 := by simpa [GenAt, hgen] using hs.gen
      refine { hs with gen := hlast, cache := fun round' block' hhit => ?_ }
      rw [OwnBlocks.get_set] at hhit
      split at hhit
      · rename_i hround
        cases hhit
        exact .inr (by rw [hround])
      · exact .inl (hs.stored_of_hit (by simp [hgen]) hhit)
    · cases h
  | commit =>
    simp only [step] at h
    split at h
    · rename_i round block hgen
      cases h
      have hlast : round = s.store.getLastRound + 1 := by simpa [GenAt, hgen] using hs.gen
      have hkeep : ∀ round' block', s.store.getOwnBlock round' = some block' →
          (s.store.setOwnBlock round block).getOwnBlock round' = some block' :=
        fun _ _ => getOwnBlock_setOwnBlock hlast hs.stored
      refine
        { stored := fun round' block' hfound => ?_
          gen := rfl
          cache := fun round' block' hhit => .inl ?_
          readers := fun reader hmem => ?_
          handed := fun x hx => hkeep _ _ (hs.handed x hx) }
      · simp only [Store.getOwnBlock, Store.setOwnBlock, lookup_insert] at hfound
        change round' ≤ round
        split at hfound
        · omega
        · have := hs.stored round' block' hfound
          omega
      · rcases hs.cache round' block' hhit with hstored | hflight
        · exact hkeep _ _ hstored
        · rw [hgen] at hflight
          cases hflight
          simp [Store.getOwnBlock, Store.setOwnBlock]
      · obtain ⟨hblocks, hfetch⟩ := hs.readers reader hmem
        exact ⟨fun x hx => hkeep _ _ (hblocks x hx), fun r b hr => hkeep _ _ (hfetch r b hr)⟩
    · cases h
  | publish =>
    simp only [step] at h
    split at h
    · rename_i round hgen
      cases h
      have hlast : round = s.store.getLastRound := by simpa [GenAt, hgen] using hs.gen
      exact { hs with
        gen := hlast
        cache := fun round' block' hhit => .inl (hs.stored_of_hit (by simp [hgen]) hhit) }
    · cases h
  | tidy =>
    simp only [step] at h
    split at h
    · rename_i round hgen
      cases h
      have hlast : round = s.store.getLastRound := by simpa [GenAt, hgen] using hs.gen
      refine { hs with gen := hlast, cache := fun round' block' hhit => .inl ?_ }
      have hold : s.ownBlocks.get round' = some block' := by
        dsimp only at hhit
        split at hhit
        · exact OwnBlocks.get_of_get_prune hhit
        · exact hhit
      exact hs.stored_of_hit (by simp [hgen]) hold
    · cases h
  | getRounds rounds =>
    cases h
    exact hs.addReader false rounds
  | getUnsent last =>
    simp only [step] at h
    split at h
    · cases h
      exact hs.addReader true _
    · cases h
  | lookup i =>
    obtain ⟨reader, hreader, h⟩ := Option.bind_eq_some_iff.mp h
    obtain ⟨reader', hlookup, h⟩ := Option.bind_eq_some_iff.mp h
    cases h
    exact consistent_lookup hs hreader horderly hlookup
  | load i =>
    obtain ⟨reader, hreader, h⟩ := Option.bind_eq_some_iff.mp h
    obtain ⟨hblocks, -⟩ := hs.readers reader (mem_of_getElem? hreader)
    split at h
    · rename_i round hfetch
      split at h
      · rename_i block hfound
        cases h
        exact hs.setReader i _ hblocks fun round' block' heq => by
          cases heq
          exact hfound
      · split at h
        · cases h
          exact consistent_loadState hs.stored hs.handed
        · cases h
          exact hs.setReader i _ hblocks fun round' block' heq => by cases heq
    · cases h
  | fill i =>
    obtain ⟨reader, hreader, h⟩ := Option.bind_eq_some_iff.mp h
    obtain ⟨hblocks, hloaded⟩ := hs.readers reader (mem_of_getElem? hreader)
    split at h
    · rename_i round block hfetch
      have hstored := hloaded round block hfetch
      have hset := hs.setReader i
        { reader with fetch := .idle, blocks := reader.blocks ++ [(round, block)] }
        (hblocks.append fun x hx => by rw [mem_singleton.mp hx]; exact hstored)
        (fun round' block' heq => by cases heq)
      cases h
      refine { hset with cache := fun round' block' hhit => ?_ }
      rw [OwnBlocks.get_set] at hhit
      split at hhit
      · rename_i hround
        cases hhit
        exact .inl (hround ▸ hstored)
      · exact hs.cache round' block' hhit
    · cases h
  | send i =>
    obtain ⟨reader, hreader, h⟩ := Option.bind_eq_some_iff.mp h
    obtain ⟨hblocks, -⟩ := hs.readers reader (mem_of_getElem? hreader)
    split at h
    · split at h
      · cases h
        exact { hs with
          readers := fun reader' hmem => hs.readers reader' (mem_of_mem_eraseIdx hmem)
          handed := hs.handed.append hblocks }
      · cases h
    · cases h
  | crash =>
    cases h
    exact consistent_loadState hs.stored hs.handed

/-- A run of orderly actions keeps the service consistent. -/
theorem consistent_run {as : List (Action β)}
    (horderly : s.orderlyRun as = true) (h : s.run as = some s') : s'.Consistent := by
  induction as generalizing s with
  | nil =>
    cases h
    exact hs
  | cons a as ih =>
    obtain ⟨mid, hstep, h⟩ := Option.bind_eq_some_iff.mp h
    obtain ⟨hfirst, hrest⟩ := Bool.and_eq_true_iff.mp horderly
    rw [hstep] at hrest
    exact ih (consistent_step hs hfirst hstep) hrest h

end

/-- A node that never serves a block before it is committed never reveals two
blocks of one round, whatever it crashes on. -/
theorem revealsOnce_of_orderlyRun {s : Service β} {as : List (Action β)}
    (hrun : start.run as = some s) (horderly : (start : Service β).orderlyRun as = true) :
    s.RevealsOnce := by
  intro round block block' hblock hblock'
  have hs := consistent_run consistent_start horderly hrun
  have hfst := hs.handed _ hblock
  have hsnd := hs.handed _ hblock'
  exact Option.some.inj (hfst.symm.trans hsnd)

/-- A block is committed, served, and served again from the database after a
crash, together with the next one. -/
def serveCommitted : List (Action Nat) :=
  [.build 10, .cache, .commit, .getRounds [1], .lookup 0, .send 0, .crash,
    .build 20, .cache, .commit, .getRounds [1, 2], .lookup 0, .load 0, .fill 0, .lookup 0, .send 0]

theorem revealsOnce_serveCommitted : ∃ s, start.run serveCommitted = some s ∧ s.RevealsOnce := by
  obtain ⟨s, hs⟩ : ∃ s, start.run serveCommitted = some s :=
    Option.isSome_iff_exists.mp (by decide +kernel)
  exact ⟨s, hs, revealsOnce_of_orderlyRun hs (by decide +kernel)⟩

/-- A block is served from the cache before it is committed. The crash loses
it, and its round is built and served again. -/
def serveCached : List (Action Nat) :=
  [.build 10, .cache, .getRounds [1], .lookup 0, .send 0, .crash,
    .build 20, .cache, .commit, .getRounds [1], .lookup 0, .send 0]

theorem not_revealsOnce_serveCached : ∃ s, start.run serveCached = some s ∧ ¬ s.RevealsOnce := by
  obtain ⟨s, hs⟩ : ∃ s, start.run serveCached = some s :=
    Option.isSome_iff_exists.mp (by decide +kernel)
  have hhanded : (start.run serveCached).map Service.handed = some [(1, 10), (1, 20)] := by
    decide +kernel
  rw [hs] at hhanded
  have hlist : s.handed = [(1, 10), (1, 20)] := Option.some.inj hhanded
  refine ⟨s, hs, fun honce => ?_⟩
  exact absurd (honce 1 10 20 (by simp [hlist]) (by simp [hlist])) (by decide)

end Service

end Blockmania.Broadcast
