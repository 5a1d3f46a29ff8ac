/-
# Interpreting a block

A block is interpreted in four parts. Its state is cloned from its predecessor.
The delays of the blocks it references fix its timeout value, and a timeout is
filed for every peer's instance of its round. The timeouts that fall due make
it emit ViewChange messages. Last, the messages it emitted itself and those in
the output of every referenced block are processed one by one, and the answers
are processed in turn.

The interpretation needs three things from the graph it runs in: the output of
a referenced block, delivery of a decided value, and a record of what was
processed. They are passed as a `Host`, so that one interpreter serves the graph
and a single chain of blocks.
-/

import Blockmania.Interpreter.State
import Mathlib.Data.List.Sort

namespace Blockmania

open Math

/-- Reduction to an unsigned 64-bit value. -/
def u64 (n : Nat) : Nat := n % 2 ^ 64

/-- Reduction to an unsigned 32-bit value. -/
def u32 (n : Nat) : Nat := n % 2 ^ 32

/-- What is fixed for a whole run: the peers, and the growth policy of the
runtime's slices. -/
structure Params where
  peers : List Nat
  grow : Nat → Nat

namespace Params

def peerCount (p : Params) : Nat := p.peers.length

/-- The number of faulty nodes `New` provides for. -/
def faults (p : Params) : Nat := (p.peers.length - 1) / 3

def quorum2f (p : Params) : Nat := 2 * p.faults

def quorum2f1 (p : Params) : Nat := 2 * p.faults + 1

/-- The smallest network that provides for a faulty node, on a runtime that
doubles its slices. -/
def four : Params := ⟨[1, 2, 3, 4], fun cap => 2 * cap⟩

end Params

/-- The ways the interpreter can stop the program. -/
inductive Crash
  /-- A node id past the last word of a bitset. -/
  | indexOutOfRange
  /-- "Got multiple hashes in a view change". -/
  | multipleHashes (key : NodeRound)
  /-- "Mismatching block hash for delivery". -/
  | mismatchingHash (key : NodeRound)
  /-- `graph.blocks[0]` of an empty slice. -/
  | noBlocks
  deriving DecidableEq, Repr

/-- An index out of range ends the program. -/
def orPanic {α : Type} : Option α → Except Crash α
  | some a => .ok a
  | none => .error .indexOutOfRange

/-- A decided value on its way to `deliver`. -/
structure Delivery where
  key : NodeRound
  hash : Hash
  deriving DecidableEq, Repr

/-- What processing one message leaves behind. -/
structure Reply where
  mem : Memory
  resp : Option Message
  delivery : Option Delivery

/-- A message that changes nothing. -/
def Reply.ignore (mem : Memory) : Reply := ⟨mem, none, none⟩

/-- The PrePrepare case. -/
def processPrePrepare (p : Params) (mem : Memory) (v sender receiver : Nat) (m : PrePrepare) :
    Except Crash Reply :=
  let s := mem.state
  let pp : NodeRoundView := ⟨m.node, m.round, m.view⟩
  if v ≠ m.view then .ok (.ignore mem)
  else if s.data.prePrepared[pp]?.isSome then .ok (.ignore mem)
  else do
    let b ← orPanic ((s.getBitset p.peerCount m).setPrepare sender)
    let b ← orPanic (b.setPrepare receiver)
    let s := s.setBitset m b
    let s := { s with data := { s.data with prePrepared := s.data.prePrepared.insert pp m } }
    return ⟨{ mem with state := s }, some (.prepare ⟨m.hash, m.node, m.round, receiver, m.view⟩), none⟩

/-- The Prepare case. -/
def processPrepare (p : Params) (mem : Memory) (v receiver : Nat) (m : Vote) :
    Except Crash Reply :=
  let s := mem.state
  if v > m.view then .ok (.ignore mem)
  else if v < m.view then do
    -- a vote of a later view is remembered, but not counted
    let b ← orPanic ((s.getBitset p.peerCount m.pre).setPrepare m.sender)
    return .ignore { mem with state := s.setBitset m.pre b }
  else do
    let b ← orPanic ((s.getBitset p.peerCount m.pre).setPrepare m.sender)
    let s := s.setBitset m.pre b
    if b.prepareCount ≠ p.quorum2f1 then return .ignore { mem with state := s }
    else
      let committed ← orPanic (b.hasCommit receiver)
      if committed then return .ignore { mem with state := s }
      else
        let b ← orPanic (b.setCommit receiver)
        let s := s.setBitset m.pre b
        let pkey : NodeRoundView := ⟨m.node, m.round, m.view⟩
        let prepared := if s.data.prepared[pkey]?.isSome then s.data.prepared
          else s.data.prepared.insert pkey m.hash
        let s := { s with data := { s.data with prepared } }
        return ⟨{ mem with state := s }, some (.commit ⟨m.hash, m.node, m.round, receiver, m.view⟩),
          none⟩

/-- The Commit case. -/
def processCommit (p : Params) (mem : Memory) (v : Nat) (m : Vote) : Except Crash Reply :=
  let s := mem.state
  if v < m.view then .ok (.ignore mem)
  else do
    let b ← orPanic ((s.getBitset p.peerCount m.pre).setCommit m.sender)
    let s := s.setBitset m.pre b
    let nr : NodeRound := ⟨m.node, m.round⟩
    if b.commitCount ≠ p.quorum2f1 then return .ignore { mem with state := s }
    else if s.final[nr]?.isSome then return .ignore { mem with state := s }
    else
      let s := { s with final := s.final.insert nr m.hash }
      return ⟨{ mem with state := s }, none, some ⟨nr, m.hash⟩⟩

/-- The loop over the values of a vote map: the one hash that is not empty, or
`none` if there are two. -/
def mergeHashes : List Hash → Hash → Option Hash
  | [], hash => some hash
  | hval :: rest, hash =>
    if hval = [] then mergeHashes rest hash
    else if hash ≠ [] ∧ hval ≠ hash then none
    else mergeHashes rest hval

/-- The vote map of a key and where it lives. A missing one is allocated. -/
def Memory.openVotes (mem : Memory) (key : NodeRoundView) : Nat × FiniteMap Nat Hash × State :=
  let s := mem.state
  match s.data.viewChanged[key]? with
  | some epoch => (epoch, mem.heap.readVotes ⟨epoch, key⟩, s)
  | none => (mem.heap.clock, ∅, { s with data :=
      { s.data with viewChanged := s.data.viewChanged.insert key mem.heap.clock } })

/-- The ViewChange case. The vote map belongs to the local view, not to the
view the message asks for. -/
def processViewChange (p : Params) (mem : Memory) (v receiver : Nat) (m : Vote) :
    Except Crash Reply :=
  if v > m.view then .ok (.ignore mem)
  else
    let key : NodeRoundView := ⟨m.node, m.round, v⟩
    let (epoch, vcs, s) := mem.openVotes key
    -- the map is written in place, behind every state that shares it
    let vcs := vcs.insert m.sender m.hash
    let heap := mem.heap.writeVotes ⟨epoch, key⟩ vcs
    if vcs.size ≠ p.quorum2f1 then .ok (.ignore ⟨heap, s⟩)
    else
      let s := s.setView ⟨m.node, m.round⟩ m.view
      match mergeHashes vcs.values [] with
      | none => .error (.multipleHashes ⟨m.node, m.round⟩)
      | some hash =>
        .ok ⟨⟨heap, s⟩, some (.newView ⟨hash, m.node, m.round, receiver, m.view⟩), none⟩

/-- The NewView case. -/
def processNewView (p : Params) (mem : Memory) (v : Nat) (origin : BlockID) (m : Vote) :
    Except Crash Reply :=
  let s := mem.state
  let key : NodeRoundView := ⟨m.node, m.round, m.view⟩
  if v > m.view then .ok (.ignore mem)
  else if s.data.hnv[key]?.isSome then .ok (.ignore mem)
  else
    let s := s.setView ⟨m.node, m.round⟩ m.view
    let tval := u64 (origin.round + s.timeout + 5)
    let mem := Memory.addTimeout p.grow { mem with state := s } tval ⟨m.node, m.round, m.view⟩
    let s := mem.state
    let s := { s with data := { s.data with hnv := s.data.hnv.insert key true } }
    .ok ⟨{ mem with state := s }, some (.prePrepare ⟨m.hash, m.node, m.round, m.view⟩), none⟩

/-- `processMessage`, up to the delivery of a decided value, which is returned
to the caller. -/
def processMessage (p : Params) (mem : Memory) (sender receiver : Nat) (origin : BlockID)
    (msg : Message) : Except Crash Reply :=
  let key := msg.nodeRound
  if mem.state.data.final[key]?.isSome then .ok (.ignore mem)
  else
    let (v, s) := mem.state.getView key
    let mem := { mem with state := s }
    match msg with
    | .prePrepare m => processPrePrepare p mem v sender receiver m
    | .prepare m => processPrepare p mem v receiver m
    | .commit m => processCommit p mem v m
    | .viewChange m => processViewChange p mem v receiver m
    | .newView m => processNewView p mem v origin m

/-- Why a step of the interpretation of a block was taken. -/
inductive Cause
  | timeout (t : Timeout)
  | message (sender receiver : Nat) (msg : Message)

/-- One step of the interpretation of a block, with the memory before it. -/
structure Event where
  block : BlockID
  mem : Memory
  cause : Cause

/-- The surroundings of the interpreter. -/
structure Host (σ : Type) where
  /-- `graph.statess[dep].getOutput()`. -/
  output : σ → BlockID → List Message
  /-- `graph.deliver`. -/
  deliver : σ → Delivery → Except Crash σ
  /-- Note that a step is about to be taken. -/
  observe : σ → Event → σ

/-- A stopped run: why, and what the host looked like. -/
structure Halt (σ : Type) where
  crash : Crash
  host : σ

/-- What the loops of `processMessages` carry along. -/
structure Session (σ : Type) where
  host : σ
  mem : Memory
  processed : FiniteMap Message Bool

/-- What stays fixed during one call of `processMessages`. -/
structure Call where
  sender : Nat
  receiver : Nat
  origin : BlockID

/-- A crash in the given surroundings. -/
def haltAt {σ α : Type} (host : σ) : Except Crash α → Except (Halt σ) α
  | .ok a => .ok a
  | .error crash => .error ⟨crash, host⟩

section Loops

variable {σ : Type} (H : Host σ) (p : Params)

/-- Deliver what a message decided. -/
def settle (host : σ) : Option Delivery → Except (Halt σ) σ
  | none => .ok host
  | some delivery => haltAt host (H.deliver host delivery)

/-- Note that a message is about to be processed. -/
def Session.noting (call : Call) (session : Session σ) (msg : Message) : σ :=
  H.observe session.host ⟨call.origin, session.mem, .message call.sender call.receiver msg⟩

/-- One iteration of either loop of `processMessages`. -/
def answer (call : Call) (session : Session σ) (msg : Message) :
    Except (Halt σ) (Session σ × Option Message) :=
  if session.processed[msg]?.getD false then .ok (session, none)
  else do
    let host := session.noting H call msg
    let reply ← haltAt host
      (processMessage p session.mem call.sender call.receiver call.origin msg)
    let host ← settle H host reply.delivery
    return (⟨host, reply.mem, session.processed.insert msg true⟩, reply.resp)

/-- Run over a list of messages and collect the answers. -/
def pass (call : Call) : List Message → Session σ → Except (Halt σ) (Session σ × List Message)
  | [], session => .ok (session, [])
  | msg :: msgs, session => do
    let (session, resp) ← answer H p call session msg
    let (session, out) ← pass call msgs session
    return (session, resp.toList ++ out)

/-- The second loop of `processMessages` runs over the answers while it appends
to them, so it meets them generation by generation. An answer is of a later kind
than its message, which leaves at most `depth` generations. -/
def answers (call : Call) : Nat → List Message → Session σ →
    Except (Halt σ) (Session σ × List Message)
  | 0, out, session => .ok (session, out)
  | depth + 1, out, session => do
    let (session, next) ← pass H p call out session
    let (session, rest) ← answers call depth next session
    return (session, out ++ rest)

/-- `processMessages`. A ViewChange starts the longest cascade: it is answered
by a NewView, that by a PrePrepare, that by a Prepare and that by a Commit. -/
def processMessages (call : Call) (msgs : List Message) (session : Session σ) :
    Except (Halt σ) (Session σ × List Message) := do
  let (session, out) ← pass H p call msgs session
  answers H p call 4 out session

end Loops

/-- `state.delay` after a block of round `round` referenced `deps`. -/
def recordDelays (round : Nat) (deps : List BlockID) (delay : FiniteMap Nat Nat) :
    FiniteMap Nat Nat :=
  deps.foldl (fun delay dep => delay.insert dep.node (u64 (diff round dep.round * 10))) delay

/-- The timeout value for the recorded delays. -/
def timeoutValue (p : Params) (delay : FiniteMap Nat Nat) : Nat :=
  if delay.size > p.quorum2f1 then
    max 10 ((delay.values.insertionSort (· ≤ ·)).getD p.quorum2f 0)
  else
    delay.values.foldl max 10

namespace Memory

/-- Set the delays and the timeout value, and file the timeouts of the block's
own round. -/
def schedule (p : Params) (mem : Memory) (e : Entry) : Memory :=
  let delay := recordDelays e.block.round e.deps mem.state.delay
  let tval := timeoutValue p delay
  let mem := { mem with state := { mem.state with delay, timeout := tval } }
  p.peers.foldl (fun mem xnode =>
    mem.addTimeout p.grow (u64 (e.block.round + tval)) ⟨xnode, e.block.round, 0⟩) mem

/-- A timeout falls due: the body of the loop over `state.timeouts[round]`. -/
def expire (mem : Memory) (node : Nat) (t : Timeout) : Memory × Option Message :=
  let key : NodeRound := ⟨t.node, t.round⟩
  if mem.state.data.final[key]?.isSome then (mem, none)
  else
    let v := mem.state.data.view[key]?.getD 0
    if v > t.view then (mem, none)
    else
      let hval := mem.state.data.prepared[(⟨t.node, t.round, t.view⟩ : NodeRoundView)]?.getD []
      ({ mem with state := mem.state.setView key (u32 (v + 1)) },
        some (.viewChange ⟨hval, t.node, t.round, node, u32 (t.view + 1)⟩))

end Memory

section Entries

variable {σ : Type} (H : Host σ) (p : Params)

/-- The loop over the timeouts that fall due. -/
def expireAll (block : BlockID) : List Timeout → σ → Memory → σ × Memory × List Message
  | [], host, mem => (host, mem, [])
  | t :: ts, host, mem =>
    let host := H.observe host ⟨block, mem, .timeout t⟩
    let (mem, vc) := mem.expire block.node t
    let (host, mem, out) := expireAll block ts host mem
    (host, mem, vc.toList ++ out)

/-- The loop over the referenced blocks. -/
def processDeps (block : BlockID) : List BlockID → Session σ →
    Except (Halt σ) (Session σ × List Message)
  | [], session => .ok (session, [])
  | dep :: deps, session => do
    let (session, out) ← processMessages H p ⟨dep.node, block.node, block⟩
      (H.output session.host dep) session
    let (session, rest) ← processDeps block deps session
    return (session, out ++ rest)

/-- `findOrCreateState`, given the state of the predecessor if there is one. -/
def findOrCreateState (heap : Heap) (prev : Option State) (minround : Nat) (e : Entry) : Memory where
  heap := heap.tick
  state :=
    if e.prev.valid then
      match prev with
      | some s => s.clone minround
      | none => State.fresh
    else State.fresh

/-- The part of `process` that follows once the state is set up. -/
def conduct (block : BlockID) (deps : List BlockID) (host : σ) (mem : Memory) :
    Except (Halt σ) (σ × Memory) := do
  let (host, mem, vcs) := expireAll H block (mem.timeoutsAt block.round) host mem
  let out := .prePrepare ⟨block.hash, block.node, block.round, 0⟩ :: vcs
  let (session, own) ← processMessages H p ⟨block.node, block.node, block⟩ out ⟨host, mem, ∅⟩
  let (session, received) ← processDeps H p block deps session
  return (session.host,
    { session.mem with state := { session.mem.state with out := out ++ own ++ received } })

/-- `process`, up to storing the state. -/
def interpret (minround : Nat) (heap : Heap) (prev : Option State) (host : σ) (e : Entry) :
    Except (Halt σ) (σ × Memory) :=
  conduct H p e.block e.deps host ((findOrCreateState heap prev minround e).schedule p e)

end Entries

end Blockmania
