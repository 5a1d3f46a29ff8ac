/-
# The graph

A graph interprets the own blocks of a node one after another, each after the
foreign blocks it references, and hands a round to its callback once every peer
has a decided value for it. A delivered round lets it forget: the states of own
blocks that mention no later round are dropped together with those of the blocks
they reference, and states cloned from then on leave out the delivered rounds.

The callback is modelled by the list of its calls. `trace` records the steps of
the interpreter, newest first, and is read by no operation.
-/

import Blockmania.Interpreter.Process

namespace Blockmania

open Math

/-- An own block that has not been consumed, with the highest round its causal
history is known to mention. -/
structure BlockInfo where
  data : BlockGraph
  max : Nat

/-- A delivered round. -/
structure Interpreted where
  blocks : List BlockID
  consumed : Nat
  round : Nat
  deriving DecidableEq, Repr

/-- The graph of one node. -/
structure Graph where
  params : Params
  blocks : List BlockInfo
  max : FiniteMap BlockID Nat
  resolved : FiniteMap Nat (FiniteMap Nat Hash)
  round : Nat
  statess : FiniteMap BlockID State
  heap : Heap
  callbacks : List Interpreted
  trace : List Event

/-- The ids a referenced block is bounded by: its predecessor unless it is of
round 1, and its links. -/
def Dep.links (dep : Dep) : List BlockID :=
  if dep.block.round ≠ 1 then dep.prev :: dep.deps else dep.deps

/-- The entry of a referenced block. The predecessor is its first dependency,
unless it is of round 1. -/
def Dep.entry (dep : Dep) : Entry := ⟨dep.block, dep.links, dep.prev⟩

/-- The entry of the own block. The predecessor is its first dependency, also
in round 1, where it is the zero block id. -/
def BlockGraph.entry (bg : BlockGraph) : Entry :=
  ⟨bg.block, bg.prev :: bg.deps.map Dep.block, bg.prev⟩

namespace Graph

/-- `New`. -/
def new (params : Params) (lastInterpreted : Nat) : Graph where
  params
  blocks := []
  max := ∅
  resolved := ∅
  round := u64 (lastInterpreted + 1)
  statess := ∅
  heap := Heap.empty
  callbacks := []
  trace := []

/-- The blocks of a resolved round in the order of their hashes. A node whose
instance was decided for no value contributes none. -/
def roundBlocks (round : Nat) (hashes : FiniteMap Nat Hash) : List BlockID :=
  ((hashes.toList.filter fun x => x.2 ≠ []).map fun x => BlockID.mk x.2 x.1 round).insertionSort
    fun a b => ¬ b.hash < a.hash

/-- Drop the leading own blocks that mention no round past `round`, with their
states and those of the blocks they reference. -/
def consume (round : Nat) : List BlockInfo → Nat → Graph → Nat × Graph
  | [], consumed, g => (consumed, { g with blocks := [] })
  | info :: rest, consumed, g =>
    if info.max > round then (consumed, { g with blocks := info :: rest })
    else
      let gone := info.data.block :: info.data.deps.map Dep.block
      consume round rest (u64 (consumed + 1))
        { g with
          max := gone.foldl (fun max b => max.erase b) g.max
          statess := gone.foldl (fun statess b => statess.erase b) g.statess }

/-- `deliverRound`. Every call removes a resolved round, so the number of
resolved rounds bounds the recursion. -/
def deliverRound : Nat → Graph → Nat → FiniteMap Nat Hash → Except Crash Graph
  | 0, g, _, _ => .ok g
  | fuel + 1, g, round, hashes =>
    let g := { g with resolved := g.resolved.erase round }
    match g.blocks with
    | [] => .error .noBlocks
    | first :: rest =>
      let (consumed, g) := consume round (first :: rest) (u64 (first.data.block.round + (2 ^ 64 - 1))) g
      let g := { g with
        round := u64 (g.round + 1)
        callbacks := g.callbacks ++ [⟨roundBlocks round hashes, consumed, round⟩] }
      match g.resolved[u64 (round + 1)]? with
      | some hashes =>
        if hashes.size = g.params.peerCount then deliverRound fuel g (u64 (round + 1)) hashes
        else .ok g
      | none => .ok g

/-- `deliver`. -/
def deliver (g : Graph) (d : Delivery) : Except Crash Graph :=
  let node := d.key.node
  let round := d.key.round
  if round < g.round then .ok g
  else
    let known := g.resolved[round]?.getD ∅
    match known[node]? with
    | some curhash =>
      if curhash ≠ d.hash then .error (.mismatchingHash d.key)
      else if round ≠ g.round then .ok g
      else if known.size = g.params.peerCount then
        deliverRound g.resolved.size g round known
      else .ok g
    | none =>
      let hashes := known.insert node d.hash
      let g := { g with resolved := g.resolved.insert round hashes }
      if round ≠ g.round then .ok g
      else if hashes.size = g.params.peerCount then
        deliverRound g.resolved.size g round hashes
      else .ok g

/-- The graph as the surroundings of the interpreter. -/
def host : Host Graph where
  output g dep := (g.statess[dep]?.map State.out).getD []
  deliver := deliver
  observe g event := { g with trace := event :: g.trace }

/-- `process`. -/
def process (g : Graph) (e : Entry) : Except (Halt Graph) Graph := do
  let (g, mem) ← interpret host g.params g.round g.heap g.statess[e.prev]? g e
  return { g with heap := mem.heap, statess := g.statess.insert e.block mem.state }

/-- Interpret entries one after another. -/
def processAll (g : Graph) : List Entry → Except (Halt Graph) Graph
  | [] => .ok g
  | e :: es => do
    let g ← process g e
    processAll g es

/-- The highest round among the known ones of `ids`, starting from `start`, and
whether one of them is not known any more. -/
def knownMax (max : FiniteMap BlockID Nat) (ids : List BlockID) (start : Nat) : Nat × Bool :=
  ids.foldl (fun (acc : Nat × Bool) id =>
    match max[id]? with
    | some m => (if m > acc.1 then m else acc.1, acc.2)
    | none => (acc.1, true)) (start, false)

/-- The bound recorded for a block with the given links. -/
def boundOf (g : Graph) (round : Nat) (links : List BlockID) (start : Nat) : Nat :=
  let (bound, rcheck) := knownMax g.max links start
  if rcheck ∧ round > bound then round else bound

/-- The first loop of `run`: bound every referenced block, and the own block by
all of them. -/
def boundDeps (g : Graph) (round : Nat) : List Dep → Nat → Graph × Nat
  | [], max => (g, max)
  | dep :: deps, max =>
    let depMax := boundOf g round dep.links dep.block.round
    let g := { g with max := g.max.insert dep.block depMax }
    boundDeps g round deps (if depMax > max then depMax else max)

/-- The bookkeeping of one iteration of `run`, before anything is interpreted. -/
def register (g : Graph) (bg : BlockGraph) : Graph :=
  let round := g.round
  let (g, max) := boundDeps g round bg.deps bg.block.round
  let max := boundOf g round (if bg.block.round ≠ 1 then [bg.prev] else []) max
  { g with
    max := g.max.insert bg.block max
    blocks := g.blocks ++ [⟨bg, max⟩] }

/-- One iteration of `run`. -/
def add (g : Graph) (bg : BlockGraph) : Except (Halt Graph) Graph :=
  processAll (register g bg) (bg.deps.map Dep.entry ++ [bg.entry])

/-- The run loop over the block graphs passed to `Add`. -/
def addAll (g : Graph) : List BlockGraph → Except (Halt Graph) Graph
  | [] => .ok g
  | bg :: bgs => do
    let g ← add g bg
    addAll g bgs

end Graph

/-- The block of a node in a round, in a graph where no node forks. Round 0 has
no block. -/
def blockAt (node round : Nat) : BlockID :=
  if round = 0 then .zero else ⟨[node.toUInt8, round.toUInt8], node, round⟩

/-- A block of another node that references `links` besides its predecessor. -/
def depAt (node round : Nat) (links : List BlockID) : Dep :=
  ⟨blockAt node round, links, blockAt node (round - 1)⟩

/-- A block of the node that runs the graph. -/
def ownAt (node round : Nat) (deps : List Dep) : BlockGraph :=
  ⟨blockAt node round, deps, blockAt node (round - 1)⟩

end Blockmania
