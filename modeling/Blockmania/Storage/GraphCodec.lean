/-
# Stored block graphs

The database keeps every own block with the blocks it references, so that they can be
interpreted again after a restart. The value holds the previous block and the
references, each with its own previous block and links. A block id comes after its
length, a list after its size, and a previous block without a hash takes no more than
the length zero. The block itself is read from the key.
-/

import Blockmania.Storage.Keys
import Blockmania.Broadcast.Bytes

namespace Blockmania.Storage

open Blockmania.Broadcast List

/-- A block id after its length. -/
def encodeSizedID (id : BlockID) : Bytes :=
  littleEndianBytes 2 (encodeBlockID id).length ++ encodeBlockID id

/-- A previous block. -/
def encodePrev (prev : BlockID) : Bytes :=
  if prev.valid then encodeSizedID prev else [0x00, 0x00]

def encodeDep (dep : Dep) : Bytes :=
  encodeSizedID dep.block ++ (encodePrev dep.prev ++
    (littleEndianBytes 4 dep.deps.length ++ dep.deps.flatMap encodeSizedID))

def encodeBlockGraph (graph : BlockGraph) : Bytes :=
  encodePrev graph.prev ++ (littleEndianBytes 4 graph.deps.length ++ graph.deps.flatMap encodeDep)

/-- Why a stored block graph cannot be read: an error that is returned, or a crash. -/
inductive ReadError
  | malformed (e : Lexinum.Malformed)
  | fault (f : Fault)
  deriving DecidableEq, Repr

/-- A number of `w` bytes. -/
def readSize (w : Nat) (val : Bytes) (idx : Nat) : Except ReadError (Nat × Nat) := do
  let bytes ← (slice val [] idx (idx + w)).mapError ReadError.fault
  return (littleEndian bytes, idx + w)

/-- A block id of `ksize` bytes. -/
def readID (ksize : Nat) (val : Bytes) (idx : Nat) : Except ReadError (BlockID × Nat) := do
  let bytes ← (slice val [] idx (idx + ksize)).mapError ReadError.fault
  let id ← (decodeBlockID bytes).mapError ReadError.malformed
  return (id, idx + ksize)

def readSizedID (val : Bytes) (idx : Nat) : Except ReadError (BlockID × Nat) := do
  let (ksize, idx) ← readSize 2 val idx
  readID ksize val idx

def readPrev (val : Bytes) (idx : Nat) : Except ReadError (BlockID × Nat) := do
  let (ksize, idx) ← readSize 2 val idx
  if ksize > 0 then readID ksize val idx else return (.zero, idx)

/-- The loop over as many parts as were announced. -/
def readMany {α : Type} (read : Bytes → Nat → Except ReadError (α × Nat)) :
    Nat → Bytes → Nat → Except ReadError (List α × Nat)
  | 0, _, idx => return ([], idx)
  | n + 1, val, idx => do
    let (x, idx) ← read val idx
    let (xs, idx) ← readMany read n val idx
    return (x :: xs, idx)

def readLinks (val : Bytes) (idx : Nat) : Except ReadError (List BlockID × Nat) := do
  let (lsize, idx) ← readSize 4 val idx
  readMany readSizedID lsize val idx

def readDep (val : Bytes) (idx : Nat) : Except ReadError (Dep × Nat) := do
  let (id, idx) ← readSizedID val idx
  let (prev, idx) ← readPrev val idx
  let (links, idx) ← readLinks val idx
  return (⟨id, links, prev⟩, idx)

def readDeps (val : Bytes) (idx : Nat) : Except ReadError (List Dep × Nat) := do
  let (size, idx) ← readSize 4 val idx
  readMany readDep size val idx

/-- What `getBlockGraphs` makes of an entry. -/
def decodeBlockGraph (key val : Bytes) : Except ReadError BlockGraph := do
  let id ← (decodeBlockID (key.drop 1)).mapError ReadError.malformed
  let (prev, idx) ← readPrev val 0
  let (deps, _) ← readDeps val idx
  return ⟨id, deps, prev⟩

/-- An id that can be written: its parts are words, and its length fits into two bytes. -/
def Writable (id : BlockID) : Prop := id.Fits ∧ (encodeBlockID id).length < 65536

instance (id : BlockID) : Decidable (Writable id) := inferInstanceAs (Decidable (_ ∧ _))

theorem reads_readSize {w n : Nat} (hn : n < 256 ^ w) : Reads (readSize w) (littleEndianBytes w n) n := by
  intro val idx rest hidx hval
  obtain ⟨hslice, -, -⟩ := slice_of hidx hval
  rw [length_littleEndianBytes] at hslice ⊢
  rw [readSize, hslice]
  change Except.ok (littleEndian (littleEndianBytes w n), idx + w) = _
  rw [littleEndian_littleEndianBytes, Nat.mod_eq_of_lt hn]

theorem reads_readID {id : BlockID} (hid : id.Fits) :
    Reads (readID (encodeBlockID id).length) (encodeBlockID id) id := by
  intro val idx rest hidx hval
  obtain ⟨hslice, -, -⟩ := slice_of hidx hval
  rw [readID, hslice]
  change (decodeBlockID (encodeBlockID id)).mapError ReadError.malformed >>= _ = _
  rw [decodeBlockID_encodeBlockID hid]
  rfl

theorem reads_readSizedID {id : BlockID} (hid : Writable id) :
    Reads readSizedID (encodeSizedID id) id :=
  Reads.bind (reads_readSize (w := 2) hid.2) readID (reads_readID hid.1)

/-- A previous block without a hash is the zero one. -/
def normalPrev (prev : BlockID) : BlockID := if prev.valid then prev else .zero

theorem reads_readPrev {prev : BlockID} (hprev : prev.valid = true → Writable prev) :
    Reads readPrev (encodePrev prev) (normalPrev prev) := by
  unfold encodePrev normalPrev
  split
  · rename_i hvalid
    have hpos : (encodeBlockID prev).length > 0 := by
      rw [encodeBlockID, length_append, length_cons]
      omega
    refine Reads.bind (reads_readSize (w := 2) (hprev hvalid).2)
      (fun ksize val idx => if ksize > 0 then readID ksize val idx else return (.zero, idx)) ?_
    simp only [hpos, if_true]
    exact reads_readID (hprev hvalid).1
  · intro val idx rest hidx hval
    obtain ⟨hslice, -, -⟩ := slice_of hidx hval
    change slice val [] idx (idx + 2) = _ at hslice
    rw [readPrev, readSize, hslice]
    rfl

theorem reads_readMany {α : Type} {read : Bytes → Nat → Except ReadError (α × Nat)}
    {write : α → Bytes} {normal : α → α} {xs : List α}
    (h : ∀ x ∈ xs, Reads read (write x) (normal x)) :
    Reads (readMany read xs.length) (xs.flatMap write) (xs.map normal) := by
  induction xs with
  | nil =>
    intro val idx rest hidx hval
    rfl
  | cons x xs ih =>
    have hrest := ih fun y hy => h y (mem_cons_of_mem _ hy)
    exact (h x mem_cons_self).bind (fun x val idx => do
      let (xs, idx) ← readMany read xs.length val idx
      return (x :: xs, idx)) (hrest.map fun ys => normal x :: ys)

/-- A reference of which all ids can be written. -/
structure WritableDep (dep : Dep) : Prop where
  block : Writable dep.block
  prev : dep.prev.valid = true → Writable dep.prev
  links : ∀ link ∈ dep.deps, Writable link
  length : dep.deps.length < 2 ^ 32

/-- A block graph of which everything can be written. The block itself is part of the
key, so its length does not matter. -/
structure WritableGraph (graph : BlockGraph) : Prop where
  block : graph.block.Fits
  prev : graph.prev.valid = true → Writable graph.prev
  deps : ∀ dep ∈ graph.deps, WritableDep dep
  length : graph.deps.length < 2 ^ 32

/-- A reference as it is read. -/
def normalDep (dep : Dep) : Dep := { dep with prev := normalPrev dep.prev }

/-- A block graph as it is read: previous blocks without a hash are the zero one. -/
def normalGraph (graph : BlockGraph) : BlockGraph :=
  { graph with prev := normalPrev graph.prev, deps := graph.deps.map normalDep }

theorem reads_readDep {dep : Dep} (h : WritableDep dep) :
    Reads readDep (encodeDep dep) (normalDep dep) := by
  have hlinks : Reads readLinks (littleEndianBytes 4 dep.deps.length ++ dep.deps.flatMap encodeSizedID)
      dep.deps := by
    have hmany := reads_readMany fun link hlink => reads_readSizedID (h.links link hlink)
    rw [map_id'] at hmany
    exact Reads.bind (reads_readSize (w := 4) h.length) (readMany readSizedID) hmany
  have hrest := (reads_readPrev h.prev).bind (fun prev val idx => do
    let (links, idx) ← readLinks val idx
    return ((⟨dep.block, links, prev⟩ : Dep), idx)) 
    (hlinks.map fun links => (⟨dep.block, links, normalPrev dep.prev⟩ : Dep))
  exact (reads_readSizedID h.block).bind (fun id val idx => do
    let (prev, idx) ← readPrev val idx
    let (links, idx) ← readLinks val idx
    return ((⟨id, links, prev⟩ : Dep), idx)) hrest

/-- The value of a block graph is read to its end. -/
theorem readDeps_encodeBlockGraph {graph : BlockGraph} (h : WritableGraph graph) :
    ∃ idx, readPrev (encodeBlockGraph graph) 0 = .ok (normalPrev graph.prev, idx) ∧
      readDeps (encodeBlockGraph graph) idx =
        .ok (graph.deps.map normalDep, (encodeBlockGraph graph).length) := by
  have hdeps : Reads readDeps
      (littleEndianBytes 4 graph.deps.length ++ graph.deps.flatMap encodeDep)
      (graph.deps.map normalDep) :=
    Reads.bind (reads_readSize (w := 4) h.length) (readMany readDep)
      (reads_readMany fun dep hdep => reads_readDep (h.deps dep hdep))
  have hvalue := (reads_readPrev h.prev).bind (fun prev val idx => do
    let (deps, idx) ← readDeps val idx
    return ((deps, prev), idx)) (hdeps.map fun deps => (deps, _))
  have hread := hvalue (encodeBlockGraph graph) 0 [] (Nat.zero_le _)
    (by rw [drop_zero, append_nil]; rfl)
  obtain ⟨⟨prev, idx⟩, hprev, hread⟩ := bind_eq_ok.mp hread
  obtain ⟨⟨deps, idx'⟩, hdeps, hread⟩ := bind_eq_ok.mp hread
  cases hread
  rw [Nat.zero_add] at hdeps
  exact ⟨idx, hprev, hdeps⟩

theorem decodeBlockGraph_encode {graph : BlockGraph} (h : WritableGraph graph) :
    decodeBlockGraph (blockGraphKey graph.block) (encodeBlockGraph graph) = .ok (normalGraph graph) := by
  obtain ⟨idx, hprev, hdeps⟩ := readDeps_encodeBlockGraph h
  rw [decodeBlockGraph, blockGraphKey, drop_succ_cons, drop_zero,
    decodeBlockID_encodeBlockID h.block]
  exact bind_eq_ok.mpr ⟨graph.block, rfl, bind_eq_ok.mpr ⟨_, hprev, bind_eq_ok.mpr ⟨_, hdeps, rfl⟩⟩⟩

/-- A stored block graph is read back from its key and its value, and the value is
read to its end and not beyond. -/
theorem blockGraph_roundTrip (graph : BlockGraph) (h : WritableGraph graph) :
    decodeBlockGraph (blockGraphKey graph.block) (encodeBlockGraph graph) = .ok (normalGraph graph) ∧
      ∃ idx, readPrev (encodeBlockGraph graph) 0 = .ok (normalPrev graph.prev, idx) ∧
        readDeps (encodeBlockGraph graph) idx =
          .ok (graph.deps.map normalDep, (encodeBlockGraph graph).length) :=
  ⟨decodeBlockGraph_encode h, readDeps_encodeBlockGraph h⟩

/-- A block whose hash has zero bytes, with a reference to a first block. -/
def zeroHashes : BlockGraph :=
  ⟨⟨[0, 7, 0], 1, 2⟩, [⟨⟨[0], 2, 1⟩, [⟨[0, 0], 3, 1⟩, ⟨[], 4, 1⟩], ⟨[], 9, 9⟩⟩], ⟨[5], 1, 1⟩⟩

theorem writable_zeroHashes : WritableGraph zeroHashes := by
  refine ⟨by decide, fun _ => by decide, fun dep hdep => ?_, by decide⟩
  rw [mem_singleton.mp hdep]
  exact ⟨by decide, fun _ => by decide, by decide, by decide⟩

theorem roundTrip_zeroHashes :
    decodeBlockGraph (blockGraphKey zeroHashes.block) (encodeBlockGraph zeroHashes) =
      .ok ⟨⟨[0, 7, 0], 1, 2⟩, [⟨⟨[0], 2, 1⟩, [⟨[0, 0], 3, 1⟩, ⟨[], 4, 1⟩], .zero⟩], ⟨[5], 1, 1⟩⟩ :=
  (blockGraph_roundTrip zeroHashes writable_zeroHashes).1

end Blockmania.Storage
