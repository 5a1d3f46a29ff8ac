/-
# One consensus instance

A state holds the data of many consensus instances, one per node and round, and
a message only ever touches the data of the instance it names. An `Instance` is
what a memory holds about one of them, with every reference followed. It has a
transition function of its own, and `processMessage` is that function on the
instance of the message and leaves every other instance alone. Interpreting a
block is therefore a product of independent instances, tied together by the
timeout value alone.
-/

import Blockmania.Interpreter.Process

namespace Blockmania

open Math FiniteMap

/-- What a memory holds about one instance. Views index the entries, and a hash
and a view index the votes. -/
@[ext]
structure Instance where
  /-- Whether `stateKV` marks the instance as final. -/
  closed : Bool
  view : Option Nat
  hnv : Nat → Option Bool
  prepared : Nat → Option Hash
  prePrepared : Nat → Option PrePrepare
  viewChanged : Nat → Option (FiniteMap Nat Hash)
  bitsets : Hash → Nat → Option Bitset
  final : Option Hash

/-- What processing a message leaves behind of its instance. -/
@[ext]
structure Outcome where
  inst : Instance
  resp : Option Message
  delivery : Option Delivery

namespace Instance

/-- An instance that nothing is known about. -/
def empty : Instance where
  closed := false
  view := none
  hnv _ := none
  prepared _ := none
  prePrepared _ := none
  viewChanged _ := none
  bitsets _ _ := none
  final := none

/-- The view the instance is in. -/
def current (i : Instance) : Nat := i.view.getD 0

/-- The votes on a value in a view. -/
def bitset (i : Instance) (size : Nat) (hash : Hash) (w : Nat) : Bitset :=
  (i.bitsets hash w).getD (Bitset.new size)

def setView (i : Instance) (w : Nat) : Instance := { i with view := some w }

def setBitset (i : Instance) (hash : Hash) (w : Nat) (b : Bitset) : Instance :=
  { i with bitsets := fun hash' w' =>
      if hash = hash' ∧ w = w' then some b else i.bitsets hash' w' }

def setPrePrepared (i : Instance) (w : Nat) (m : PrePrepare) : Instance :=
  { i with prePrepared := Function.update i.prePrepared w (some m) }

def setPrepared (i : Instance) (w : Nat) (hash : Hash) : Instance :=
  { i with prepared := Function.update i.prepared w (some hash) }

def setHnv (i : Instance) (w : Nat) : Instance :=
  { i with hnv := Function.update i.hnv w (some true) }

def setViewChanged (i : Instance) (w : Nat) (vcs : FiniteMap Nat Hash) : Instance :=
  { i with viewChanged := Function.update i.viewChanged w (some vcs) }

def setFinal (i : Instance) (hash : Hash) : Instance := { i with final := some hash }

/-- A message that changes nothing. -/
def ignore (i : Instance) : Outcome := ⟨i, none, none⟩

/-- The first acceptance of a value in the current view. -/
def stepPrePrepare (p : Params) (i : Instance) (v sender receiver : Nat) (m : PrePrepare) :
    Except Crash Outcome :=
  if v ≠ m.view then .ok i.ignore
  else if (i.prePrepared m.view).isSome then .ok i.ignore
  else do
    let b ← orPanic ((i.bitset p.peerCount m.hash m.view).setPrepare sender)
    let b ← orPanic (b.setPrepare receiver)
    return ⟨(i.setBitset m.hash m.view b).setPrePrepared m.view m,
      some (.prepare ⟨m.hash, m.node, m.round, receiver, m.view⟩), none⟩

/-- A vote, and the commitment of the receiver if it completes a quorum. -/
def stepPrepare (p : Params) (i : Instance) (v receiver : Nat) (m : Vote) :
    Except Crash Outcome :=
  if v > m.view then .ok i.ignore
  else do
    let b ← orPanic ((i.bitset p.peerCount m.hash m.view).setPrepare m.sender)
    let i := i.setBitset m.hash m.view b
    if v < m.view ∨ b.prepareCount ≠ p.quorum2f1 then return i.ignore
    else
      let committed ← orPanic (b.hasCommit receiver)
      if committed then return i.ignore
      else
        let b ← orPanic (b.setCommit receiver)
        let i := i.setBitset m.hash m.view b
        let i := if (i.prepared m.view).isSome then i else i.setPrepared m.view m.hash
        return ⟨i, some (.commit ⟨m.hash, m.node, m.round, receiver, m.view⟩), none⟩

/-- A commitment, and the decision if it completes a quorum. -/
def stepCommit (p : Params) (i : Instance) (v : Nat) (m : Vote) : Except Crash Outcome :=
  if v < m.view then .ok i.ignore
  else do
    let b ← orPanic ((i.bitset p.peerCount m.hash m.view).setCommit m.sender)
    let i := i.setBitset m.hash m.view b
    if b.commitCount ≠ p.quorum2f1 ∨ i.final.isSome then return i.ignore
    else return ⟨i.setFinal m.hash, none, some ⟨⟨m.node, m.round⟩, m.hash⟩⟩

/-- A vote against the current view, and the next view if it completes a
quorum. -/
def stepViewChange (p : Params) (i : Instance) (v receiver : Nat) (m : Vote) :
    Except Crash Outcome :=
  if v > m.view then .ok i.ignore
  else
    let vcs := ((i.viewChanged v).getD ∅).insert m.sender m.hash
    let i := i.setViewChanged v vcs
    if vcs.size ≠ p.quorum2f1 then .ok i.ignore
    else match mergeHashes vcs.values [] with
      | none => .error (.multipleHashes ⟨m.node, m.round⟩)
      | some hash => .ok ⟨i.setView m.view,
          some (.newView ⟨hash, m.node, m.round, receiver, m.view⟩), none⟩

/-- The first announcement of a view. -/
def stepNewView (i : Instance) (v : Nat) (m : Vote) : Outcome :=
  if v > m.view then i.ignore
  else if (i.hnv m.view).isSome then i.ignore
  else ⟨(i.setView m.view).setHnv m.view,
    some (.prePrepare ⟨m.hash, m.node, m.round, m.view⟩), none⟩

/-- The transition of an instance on a message that names it. -/
def step (p : Params) (i : Instance) (sender receiver : Nat) (msg : Message) :
    Except Crash Outcome :=
  if i.closed then .ok i.ignore
  else
    let v := i.current
    let i := i.setView v
    match msg with
    | .prePrepare m => i.stepPrePrepare p v sender receiver m
    | .prepare m => i.stepPrepare p v receiver m
    | .commit m => i.stepCommit p v m
    | .viewChange m => i.stepViewChange p v receiver m
    | .newView m => .ok (i.stepNewView v m)

/-- A view of the instance runs out. -/
def expire (i : Instance) (key : NodeRound) (node w : Nat) : Instance × Option Message :=
  if i.closed then (i, none)
  else if i.current > w then (i, none)
  else (i.setView (u32 (i.current + 1)),
    some (.viewChange ⟨(i.prepared w).getD [], key.node, key.round, node, u32 (w + 1)⟩))

end Instance

/-- What a memory holds about an instance. -/
def Memory.inst (mem : Memory) (key : NodeRound) : Instance where
  closed := mem.state.data.final[key]?.isSome
  view := mem.state.data.view[key]?
  hnv w := mem.state.data.hnv[(⟨key.node, key.round, w⟩ : NodeRoundView)]?
  prepared w := mem.state.data.prepared[(⟨key.node, key.round, w⟩ : NodeRoundView)]?
  prePrepared w := mem.state.data.prePrepared[(⟨key.node, key.round, w⟩ : NodeRoundView)]?
  viewChanged w := mem.state.data.viewChanged[(⟨key.node, key.round, w⟩ : NodeRoundView)]?.map
    fun epoch => mem.heap.readVotes ⟨epoch, ⟨key.node, key.round, w⟩⟩
  bitsets hash w := mem.state.bitsets[(⟨hash, key.node, key.round, w⟩ : PrePrepare)]?
  final := mem.state.final[key]?

/-- What a reply says about an instance. -/
def Reply.outcome (key : NodeRound) (reply : Reply) : Outcome :=
  ⟨reply.mem.inst key, reply.resp, reply.delivery⟩

section Projection

variable (mem : Memory) (key : NodeRound)

theorem inst_setView (w : Nat) :
    Memory.inst { mem with state := mem.state.setView key w } key = (mem.inst key).setView w := by
  simp [Memory.inst, Instance.setView, State.setView]

theorem inst_getView :
    Memory.inst { mem with state := (mem.state.getView key).2 } key =
      (mem.inst key).setView (mem.inst key).current := by
  unfold State.getView
  split
  · rename_i view hview
    simp [Memory.inst, Instance.setView, Instance.current, hview]
  · rename_i hview
    rw [← State.setView, inst_setView]
    simp [Instance.current, Memory.inst, hview]

theorem inst_setBitset (hash : Hash) (w : Nat) (b : Bitset) :
    Memory.inst { mem with state := mem.state.setBitset ⟨hash, key.node, key.round, w⟩ b } key =
      (mem.inst key).setBitset hash w b := by
  simp [Memory.inst, Instance.setBitset, State.setBitset, lookup_insert]

theorem inst_setPrePrepared (w : Nat) (m : PrePrepare) :
    Memory.inst { mem with state := { mem.state with data := { mem.state.data with
      prePrepared := mem.state.data.prePrepared.insert ⟨key.node, key.round, w⟩ m } } } key =
      (mem.inst key).setPrePrepared w m := by
  ext1 <;> try rfl
  funext w'
  simp [Memory.inst, Instance.setPrePrepared, Function.update_apply, lookup_insert, eq_comm]

theorem inst_setPrepared (w : Nat) (hash : Hash) :
    Memory.inst { mem with state := { mem.state with data := { mem.state.data with
      prepared := mem.state.data.prepared.insert ⟨key.node, key.round, w⟩ hash } } } key =
      (mem.inst key).setPrepared w hash := by
  ext1 <;> try rfl
  funext w'
  simp [Memory.inst, Instance.setPrepared, Function.update_apply, lookup_insert, eq_comm]

theorem inst_setHnv (w : Nat) :
    Memory.inst { mem with state := { mem.state with data := { mem.state.data with
      hnv := mem.state.data.hnv.insert ⟨key.node, key.round, w⟩ true } } } key =
      (mem.inst key).setHnv w := by
  ext1 <;> try rfl
  funext w'
  simp [Memory.inst, Instance.setHnv, Function.update_apply, lookup_insert, eq_comm]

theorem inst_setFinal (hash : Hash) :
    Memory.inst { mem with state := { mem.state with
      final := mem.state.final.insert key hash } } key = (mem.inst key).setFinal hash := by
  simp [Memory.inst, Instance.setFinal]

/-- Instances do not see the timeouts. -/
theorem inst_addTimeout (grow : Nat → Nat) (deadline : Nat) (t : Timeout) :
    (mem.addTimeout grow deadline t).inst key = mem.inst key := by
  ext1
  case viewChanged => simp [Memory.inst, Memory.addTimeout, Heap.readVotes]
  all_goals rfl

/-- Opening the vote map of a key gives the votes of its instance, and leaves
every other entry alone. -/
theorem openVotes_spec (key : NodeRoundView) :
    ∃ (epoch : Nat) (viewChanged : FiniteMap NodeRoundView Nat),
      mem.openVotes key = (epoch, ((mem.inst ⟨key.node, key.round⟩).viewChanged key.view).getD ∅,
        { mem.state with data := { mem.state.data with viewChanged } }) ∧
      viewChanged[key]? = some epoch ∧
      ∀ k : NodeRoundView, k ≠ key → viewChanged[k]? = mem.state.data.viewChanged[k]? := by
  unfold Memory.openVotes
  cases hfound : mem.state.data.viewChanged[key]? with
  | some epoch =>
    exact ⟨epoch, mem.state.data.viewChanged, by simp [Memory.inst, hfound], hfound, fun _ _ => rfl⟩
  | none =>
    exact ⟨mem.heap.clock, mem.state.data.viewChanged.insert key mem.heap.clock,
      by simp [Memory.inst, hfound], by simp,
      fun k hk => lookup_insert_of_ne _ hk.symm _⟩

/-- Writing the open vote map of a key. -/
theorem inst_writeVotes (w : Nat) (vcs : FiniteMap Nat Hash) (epoch : Nat)
    (viewChanged : FiniteMap NodeRoundView Nat)
    (hself : viewChanged[(⟨key.node, key.round, w⟩ : NodeRoundView)]? = some epoch)
    (hother : ∀ k : NodeRoundView, k ≠ ⟨key.node, key.round, w⟩ →
      viewChanged[k]? = mem.state.data.viewChanged[k]?) :
    Memory.inst ⟨mem.heap.writeVotes ⟨epoch, ⟨key.node, key.round, w⟩⟩ vcs,
      { mem.state with data := { mem.state.data with viewChanged } }⟩ key =
      (mem.inst key).setViewChanged w vcs := by
  ext1 <;> try rfl
  funext w'
  simp only [Memory.inst, Instance.setViewChanged, Function.update_apply]
  by_cases hw : w' = w
  · subst hw
    simp [hself, Heap.readVotes, Heap.writeVotes]
  · rw [if_neg hw, hother _ (by simpa using hw)]
    congr 1
    funext epoch'
    simp [Heap.readVotes, Heap.writeVotes, lookup_insert, Ne.symm hw]

end Projection

/-! ## Refinement -/

section Refinement

variable (p : Params) (mem : Memory)

/-- A map goes past the first step of a computation. -/
theorem map_bind_ok {ε α β γ : Type} (f : β → γ) (x : Except ε α) (k : α → Except ε β) :
    (x >>= k).map f = x >>= fun a => (k a).map f := by
  cases x <;> rfl

theorem processPrePrepare_outcome (v sender receiver : Nat) (m : PrePrepare) :
    (processPrePrepare p mem v sender receiver m).map (Reply.outcome ⟨m.node, m.round⟩) =
      (mem.inst ⟨m.node, m.round⟩).stepPrePrepare p v sender receiver m := by
  unfold processPrePrepare Instance.stepPrePrepare
  dsimp only
  rw [apply_ite (Except.map _)]
  refine if_congr Iff.rfl rfl ?_
  rw [apply_ite (Except.map _), map_bind_ok]
  refine if_congr Iff.rfl rfl (bind_congr fun b => ?_)
  rw [map_bind_ok]
  refine bind_congr fun b => congrArg Except.ok ?_
  refine Outcome.ext ?_ rfl rfl
  rw [← inst_setBitset mem ⟨m.node, m.round⟩, ← inst_setPrePrepared]
  rfl

theorem processPrepare_outcome (v receiver : Nat) (m : Vote) :
    (processPrepare p mem v receiver m).map (Reply.outcome ⟨m.node, m.round⟩) =
      (mem.inst ⟨m.node, m.round⟩).stepPrepare p v receiver m := by
  unfold processPrepare Instance.stepPrepare
  dsimp only
  rw [apply_ite (Except.map _)]
  refine if_congr Iff.rfl rfl ?_
  rw [apply_ite (Except.map _), map_bind_ok, map_bind_ok]
  by_cases hfuture : v < m.view
  · rw [if_pos hfuture]
    refine bind_congr fun b => ?_
    rw [if_pos (.inl hfuture)]
    exact congrArg Except.ok (Outcome.ext (inst_setBitset mem ⟨m.node, m.round⟩ _ _ b) rfl rfl)
  rw [if_neg hfuture]
  refine bind_congr fun b => ?_
  rw [apply_ite (Except.map _)]
  refine if_congr (by simp [hfuture]) ?_ ?_
  · exact congrArg Except.ok (Outcome.ext (inst_setBitset mem ⟨m.node, m.round⟩ _ _ b) rfl rfl)
  rw [map_bind_ok]
  refine bind_congr fun committed => ?_
  rw [apply_ite (Except.map _)]
  refine if_congr Iff.rfl ?_ ?_
  · exact congrArg Except.ok (Outcome.ext (inst_setBitset mem ⟨m.node, m.round⟩ _ _ b) rfl rfl)
  rw [map_bind_ok]
  refine bind_congr fun b' => congrArg Except.ok (Outcome.ext ?_ rfl rfl)
  rw [← inst_setBitset mem ⟨m.node, m.round⟩,
    ← inst_setBitset { mem with state := mem.state.setBitset _ b } ⟨m.node, m.round⟩]
  split
  · rename_i hprepared
    exact (if_pos hprepared).symm
  · rename_i hprepared
    rw [← inst_setPrepared]
    exact (if_neg hprepared).symm

theorem processCommit_outcome (v : Nat) (m : Vote) :
    (processCommit p mem v m).map (Reply.outcome ⟨m.node, m.round⟩) =
      (mem.inst ⟨m.node, m.round⟩).stepCommit p v m := by
  unfold processCommit Instance.stepCommit
  dsimp only
  rw [apply_ite (Except.map _), map_bind_ok]
  refine if_congr Iff.rfl rfl (bind_congr fun b => ?_)
  rw [← inst_setBitset mem ⟨m.node, m.round⟩]
  by_cases hcount : b.commitCount = p.quorum2f1
  swap
  · rw [if_pos hcount, if_pos (.inl hcount)]
    rfl
  rw [if_neg (by simpa using hcount), apply_ite (Except.map _)]
  refine if_congr (or_iff_right (not_not.mpr hcount)).symm rfl ?_
  refine congrArg Except.ok (Outcome.ext ?_ rfl rfl)
  rw [← inst_setFinal]
  rfl

theorem processViewChange_outcome (v receiver : Nat) (m : Vote) :
    (processViewChange p mem v receiver m).map (Reply.outcome ⟨m.node, m.round⟩) =
      (mem.inst ⟨m.node, m.round⟩).stepViewChange p v receiver m := by
  obtain ⟨epoch, viewChanged, hopen, hself, hother⟩ := openVotes_spec mem ⟨m.node, m.round, v⟩
  have hinst := fun vcs => inst_writeVotes mem ⟨m.node, m.round⟩ v vcs epoch viewChanged hself hother
  unfold processViewChange Instance.stepViewChange
  simp only [hopen]
  rw [apply_ite (Except.map _)]
  refine if_congr Iff.rfl rfl ?_
  rw [apply_ite (Except.map _)]
  refine if_congr Iff.rfl ?_ ?_
  · exact congrArg Except.ok (Outcome.ext (hinst _) rfl rfl)
  · cases mergeHashes _ _ with
    | none => rfl
    | some hash =>
      refine congrArg Except.ok (Outcome.ext ?_ rfl rfl)
      rw [← hinst, ← inst_setView]
      rfl

theorem processNewView_outcome (v : Nat) (origin : BlockID) (m : Vote) :
    (processNewView p mem v origin m).map (Reply.outcome ⟨m.node, m.round⟩) =
      .ok ((mem.inst ⟨m.node, m.round⟩).stepNewView v m) := by
  unfold processNewView Instance.stepNewView
  dsimp only
  rw [apply_ite (Except.map _), apply_ite Except.ok, apply_ite (Except.map _), apply_ite Except.ok]
  refine if_congr Iff.rfl rfl (if_congr Iff.rfl rfl ?_)
  refine congrArg Except.ok (Outcome.ext ?_ rfl rfl)
  rw [← inst_setView mem, ← inst_addTimeout _ _ p.grow, ← inst_setHnv]
  rfl

/-- A message acts on its own instance as the transition of that instance. -/
theorem processMessage_outcome (sender receiver : Nat) (origin : BlockID) (msg : Message) :
    (processMessage p mem sender receiver origin msg).map (Reply.outcome msg.nodeRound) =
      (mem.inst msg.nodeRound).step p sender receiver msg := by
  unfold processMessage Instance.step
  rw [apply_ite (Except.map _)]
  refine if_congr Iff.rfl rfl ?_
  have hview : (mem.state.getView msg.nodeRound).1 = (mem.inst msg.nodeRound).current := by
    unfold State.getView
    split <;> rename_i hview <;> simp [Instance.current, Memory.inst, hview]
  have hinst := inst_getView mem msg.nodeRound
  rw [← hview] at hinst ⊢
  generalize mem.state.getView msg.nodeRound = found at hinst
  dsimp only
  rw [← hinst]
  cases msg with
  | prePrepare m => exact processPrePrepare_outcome p _ _ sender receiver m
  | prepare m => exact processPrepare_outcome p _ _ receiver m
  | commit m => exact processCommit_outcome p _ _ m
  | viewChange m => exact processViewChange_outcome p _ _ receiver m
  | newView m => exact processNewView_outcome p _ _ origin m

end Refinement

/-- The transition a processed message made. -/
theorem step_of_processMessage {p : Params} {mem : Memory} {sender receiver : Nat}
    {origin : BlockID} {msg : Message} {reply : Reply}
    (h : processMessage p mem sender receiver origin msg = .ok reply) :
    (mem.inst msg.nodeRound).step p sender receiver msg =
      .ok ⟨reply.mem.inst msg.nodeRound, reply.resp, reply.delivery⟩ := by
  rw [← processMessage_outcome, h]
  rfl

/-- An expiring view acts on its own instance. -/
theorem expire_outcome (mem : Memory) (node : Nat) (t : Timeout) :
    ((mem.expire node t).1.inst ⟨t.node, t.round⟩, (mem.expire node t).2) =
      (mem.inst ⟨t.node, t.round⟩).expire ⟨t.node, t.round⟩ node t.view := by
  let project (r : Memory × Option Message) : Instance × Option Message :=
    (r.1.inst ⟨t.node, t.round⟩, r.2)
  change project (mem.expire node t) = _
  unfold Memory.expire Instance.expire
  dsimp only
  rw [apply_ite project, apply_ite project]
  refine if_congr Iff.rfl rfl (if_congr Iff.rfl rfl (Prod.ext ?_ rfl))
  exact inst_setView mem ⟨t.node, t.round⟩ _

/-- A clone keeps the instances of the rounds it does not prune and nothing of
the others. -/
theorem inst_clone (heap : Heap) (s : State) (minround : Nat) (key : NodeRound) :
    Memory.inst ⟨heap, s.clone minround⟩ key =
      if key.round < minround then Instance.empty else Memory.inst ⟨heap, s⟩ key := by
  by_cases hround : key.round < minround
  · simp [Memory.inst, State.clone, lookup_restrict, hround, Instance.empty]
  · simp [Memory.inst, State.clone, lookup_restrict, hround]

/-- Filing the timeouts of a round for all peers. -/
theorem inst_fileAll (grow : Nat → Nat) (deadline round : Nat) (key : NodeRound) (peers : List Nat) :
    ∀ mem : Memory, (peers.foldl (fun mem xnode =>
      mem.addTimeout grow deadline ⟨xnode, round, 0⟩) mem).inst key = mem.inst key := by
  induction peers with
  | nil => exact fun _ => rfl
  | cons xnode peers ih =>
    intro mem
    exact (ih _).trans (inst_addTimeout mem key grow deadline _)

theorem timeoutsAt_fileAll (grow : Nat → Nat) (deadline round d : Nat) (peers : List Nat) :
    ∀ mem : Memory, (peers.foldl (fun mem xnode =>
      mem.addTimeout grow deadline ⟨xnode, round, 0⟩) mem).timeoutsAt d =
        mem.timeoutsAt d ++ if deadline = d then peers.map fun xnode => ⟨xnode, round, 0⟩ else [] := by
  induction peers with
  | nil => simp
  | cons xnode peers ih =>
    intro mem
    rw [List.foldl_cons, ih, Memory.timeoutsAt_addTimeout]
    by_cases hd : deadline = d <;> simp [hd]

theorem state_fileAll (grow : Nat → Nat) (deadline round : Nat) (peers : List Nat) :
    ∀ mem : Memory, let mem' := peers.foldl (fun mem xnode =>
      mem.addTimeout grow deadline ⟨xnode, round, 0⟩) mem
    mem'.state.timeout = mem.state.timeout ∧ mem'.state.delay = mem.state.delay := by
  induction peers with
  | nil => exact fun _ => ⟨rfl, rfl⟩
  | cons xnode peers ih => exact fun mem => ih (mem.addTimeout grow deadline ⟨xnode, round, 0⟩)

theorem votes_schedule (p : Params) (mem : Memory) (e : Entry) :
    (mem.schedule p e).heap.votes = mem.heap.votes := by
  have hfile : ∀ (deadline : Nat) (peers : List Nat) (mem : Memory),
      (peers.foldl (fun mem xnode =>
        mem.addTimeout p.grow deadline ⟨xnode, e.block.round, 0⟩) mem).heap.votes =
        mem.heap.votes := by
    intro deadline peers
    induction peers with
    | nil => exact fun _ => rfl
    | cons xnode peers ih => exact fun mem => (ih _).trans (Heap.append_votes ..)
  exact hfile _ _ _

/-- Scheduling touches no instance. -/
theorem inst_schedule (p : Params) (mem : Memory) (e : Entry) (key : NodeRound) :
    (mem.schedule p e).inst key = mem.inst key :=
  inst_fileAll _ _ _ _ _ _

/-- Scheduling files a timeout for every peer's instance of the round. -/
theorem timeoutsAt_schedule (p : Params) (mem : Memory) (e : Entry) (d : Nat) :
    (mem.schedule p e).timeoutsAt d = mem.timeoutsAt d ++
      if u64 (e.block.round + timeoutValue p (recordDelays e.block.round e.deps mem.state.delay)) = d
      then p.peers.map fun xnode => ⟨xnode, e.block.round, 0⟩ else [] :=
  timeoutsAt_fileAll _ _ _ _ _ _

theorem timeout_schedule (p : Params) (mem : Memory) (e : Entry) :
    (mem.schedule p e).state.timeout =
      timeoutValue p (recordDelays e.block.round e.deps mem.state.delay) :=
  (state_fileAll _ _ _ _ _).1

theorem delay_schedule (p : Params) (mem : Memory) (e : Entry) :
    (mem.schedule p e).state.delay = recordDelays e.block.round e.deps mem.state.delay :=
  (state_fileAll _ _ _ _ _).2

end Blockmania
