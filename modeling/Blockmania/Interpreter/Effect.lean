/-
# What a message leaves alone

Processing a message writes to the instance it names, may file one timeout, and
otherwise leaves the memory as it was. The heap cells it writes are those its
state refers to and those it allocates in the current step, so two chains that
share no reference do not see each other. All of this is one relation between
the memory before and after, which is proved once for each kind of message.
-/

import Blockmania.Interpreter.Instance

namespace Blockmania

open Math FiniteMap

/-- Every reference of a state goes to a step in `E`. -/
structure State.Owns (E : Nat → Prop) (s : State) : Prop where
  votes : ∀ (k : NodeRoundView) (epoch : Nat), s.data.viewChanged[k]? = some epoch → E epoch
  timeouts : ∀ (d : Nat) (slice : Slice), s.timeouts[d]? = some slice → E slice.epoch

/-- Two heaps agree on everything that was not allocated in `E`. -/
structure Heap.SameOutside (E : Nat → Prop) (h h' : Heap) : Prop where
  votes : ∀ ref : VoteRef, ¬ E ref.epoch → h'.votes[ref]? = h.votes[ref]?
  arrays : ∀ ref : ArrayRef, ¬ E ref.epoch → h'.arrays[ref]? = h.arrays[ref]?

theorem Heap.SameOutside.refl (E : Nat → Prop) (h : Heap) : h.SameOutside E h :=
  ⟨fun _ _ => rfl, fun _ _ => rfl⟩

theorem Heap.SameOutside.trans {E : Nat → Prop} {h h' h'' : Heap} (hfst : h.SameOutside E h')
    (hsnd : h'.SameOutside E h'') : h.SameOutside E h'' :=
  ⟨fun ref hE => (hsnd.votes ref hE).trans (hfst.votes ref hE),
    fun ref hE => (hsnd.arrays ref hE).trans (hfst.arrays ref hE)⟩

namespace State.Owns

variable {E E' : Nat → Prop} {s : State}

theorem mono (howns : s.Owns E) (hsub : ∀ epoch, E epoch → E' epoch) : s.Owns E' :=
  ⟨fun k epoch hfound => hsub epoch (howns.votes k epoch hfound),
    fun d slice hfound => hsub slice.epoch (howns.timeouts d slice hfound)⟩

theorem fresh (E : Nat → Prop) : State.fresh.Owns E :=
  ⟨fun _ _ hfound => by simp [State.fresh, Data.empty] at hfound,
    fun _ _ hfound => by simp [State.fresh] at hfound⟩

/-- A clone refers to nothing its original does not refer to. -/
theorem clone (howns : s.Owns E) (minround : Nat) : (s.clone minround).Owns E := by
  constructor
  · intro k epoch hfound
    simp only [State.clone, lookup_restrict, Option.ite_none_right_eq_some] at hfound
    exact howns.votes k epoch hfound.2
  · intro d slice hfound
    simp only [State.clone, lookup_restrict, Option.ite_none_right_eq_some] at hfound
    exact howns.timeouts d slice hfound.2

end State.Owns

/-- Two memories that no message and no timeout can tell apart. -/
structure Memory.Same (mem mem' : Memory) : Prop where
  inst : ∀ key, mem'.inst key = mem.inst key
  timeoutsAt : ∀ d, mem'.timeoutsAt d = mem.timeoutsAt d

theorem Memory.Same.refl (mem : Memory) : mem.Same mem := ⟨fun _ => rfl, fun _ => rfl⟩

theorem Memory.Same.trans {mem mem' mem'' : Memory} (h : mem.Same mem') (h' : mem'.Same mem'') :
    mem.Same mem'' :=
  ⟨fun key => (h'.inst key).trans (h.inst key), fun d => (h'.timeoutsAt d).trans (h.timeoutsAt d)⟩

/-- A state does not see writes to what it does not refer to. -/
theorem Memory.Same.of_sameOutside {E E' : Nat → Prop} {h h' : Heap} {s : State}
    (howns : s.Owns E') (hdisjoint : ∀ epoch, E' epoch → ¬ E epoch) (hsame : h.SameOutside E h') :
    Memory.Same ⟨h, s⟩ ⟨h', s⟩ := by
  constructor
  · intro key
    ext1 <;> try rfl
    funext w
    simp only [Memory.inst]
    cases hfound : s.data.viewChanged[(⟨key.node, key.round, w⟩ : NodeRoundView)]? with
    | none => rfl
    | some epoch =>
      have hout := hdisjoint epoch (howns.votes _ epoch hfound)
      simp only [Option.map_some, Heap.readVotes]
      rw [hsame.votes ⟨epoch, _⟩ hout]
  · intro d
    simp only [Memory.timeoutsAt]
    cases hfound : s.timeouts[d]? with
    | none => simp [Heap.read, Slice.nil]
    | some slice =>
      have hout := hdisjoint slice.epoch (howns.timeouts d slice hfound)
      simp only [Option.getD_some, Heap.read]
      rw [hsame.arrays ⟨slice.epoch, d, slice.cap⟩ hout]

/-- A timeout and the deadline it was filed under. -/
structure Filing where
  deadline : Nat
  timeout : Timeout

/-- The timeouts that filings put under a deadline. -/
def filedAt (filings : List Filing) (d : Nat) : List Timeout :=
  (filings.filter fun f => f.deadline = d).map Filing.timeout

theorem filedAt_append (fs gs : List Filing) (d : Nat) :
    filedAt (fs ++ gs) d = filedAt fs d ++ filedAt gs d := by
  simp [filedAt]

/-- The memory changed in the instance `key` only, and the given timeouts were
filed. -/
structure Memory.Effect (key : NodeRound) (filings : List Filing) (mem mem' : Memory) : Prop where
  inst : ∀ key', key' ≠ key → mem'.inst key' = mem.inst key'
  timeoutsAt : ∀ d, mem'.timeoutsAt d = mem.timeoutsAt d ++ filedAt filings d
  owned : ∀ E : Nat → Prop, E mem.heap.clock → mem.state.Owns E →
    mem'.state.Owns E ∧ mem.heap.SameOutside E mem'.heap
  timeout : mem'.state.timeout = mem.state.timeout
  delay : mem'.state.delay = mem.state.delay
  out : mem'.state.out = mem.state.out
  clock : mem'.heap.clock = mem.heap.clock

namespace Memory.Effect

variable {key : NodeRound} {mem mem' mem'' : Memory} {fs gs : List Filing}

theorem refl (key : NodeRound) (mem : Memory) : Effect key [] mem mem where
  inst _ _ := rfl
  timeoutsAt _ := (List.append_nil _).symm
  owned E _ howns := ⟨howns, .refl E _⟩
  timeout := rfl
  delay := rfl
  out := rfl
  clock := rfl

theorem trans (h : Effect key fs mem mem') (h' : Effect key gs mem' mem'') :
    Effect key (fs ++ gs) mem mem'' where
  inst key' hne := (h'.inst key' hne).trans (h.inst key' hne)
  timeoutsAt d := by
    rw [h'.timeoutsAt, h.timeoutsAt, filedAt_append, List.append_assoc]
  owned E hclock howns := by
    obtain ⟨howns', hsame⟩ := h.owned E hclock howns
    obtain ⟨howns'', hsame'⟩ := h'.owned E (h.clock ▸ hclock) howns'
    exact ⟨howns'', hsame.trans hsame'⟩
  timeout := h'.timeout.trans h.timeout
  delay := h'.delay.trans h.delay
  out := h'.out.trans h.out
  clock := h'.clock.trans h.clock

/-- A write to the state that keeps its references. -/
theorem ofState {s : State}
    (hinst : ∀ key', key' ≠ key → Memory.inst { mem with state := s } key' = mem.inst key')
    (hvotes : s.data.viewChanged = mem.state.data.viewChanged)
    (htimeouts : s.timeouts = mem.state.timeouts) (htimeout : s.timeout = mem.state.timeout)
    (hdelay : s.delay = mem.state.delay) (hout : s.out = mem.state.out) :
    Effect key [] mem { mem with state := s } where
  inst := hinst
  timeoutsAt d := by
    simp only [Memory.timeoutsAt, htimeouts]
    exact (List.append_nil _).symm
  owned E _ howns := ⟨⟨by rw [hvotes]; exact howns.votes, by rw [htimeouts]; exact howns.timeouts⟩,
    .refl E _⟩
  timeout := htimeout
  delay := hdelay
  out := hout
  clock := rfl

theorem setView (w : Nat) : Effect key [] mem { mem with state := mem.state.setView key w } := by
  refine ofState (fun key' hne => ?_) rfl rfl rfl rfl rfl
  ext1 <;> try rfl
  exact lookup_insert_of_ne _ hne.symm _

theorem getView : Effect key [] mem { mem with state := (mem.state.getView key).2 } := by
  unfold State.getView
  split
  · exact refl key mem
  · exact setView 0

theorem setBitset (pp : PrePrepare) (hkey : ⟨pp.node, pp.round⟩ = key) (b : Bitset) :
    Effect key [] mem { mem with state := mem.state.setBitset pp b } := by
  subst hkey
  refine ofState (fun key' hne => ?_) rfl rfl rfl rfl rfl
  ext1 <;> try rfl
  funext hash w
  refine lookup_insert_of_ne _ (fun heq => hne ?_) _
  subst heq
  rfl

/-- Keys of other instances differ in every view. -/
theorem viewKey_ne {key' : NodeRound} (hne : key' ≠ key) (w w' : Nat) :
    (⟨key.node, key.round, w⟩ : NodeRoundView) ≠ ⟨key'.node, key'.round, w'⟩ := by
  intro heq
  cases key
  cases key'
  cases heq
  exact hne rfl

theorem setPrePrepared (w : Nat) (m : PrePrepare) :
    Effect key [] mem { mem with state := { mem.state with data := { mem.state.data with
      prePrepared := mem.state.data.prePrepared.insert ⟨key.node, key.round, w⟩ m } } } := by
  refine ofState (fun key' hne => ?_) rfl rfl rfl rfl rfl
  ext1 <;> try rfl
  exact funext fun w' => lookup_insert_of_ne _ (viewKey_ne hne w w') _

theorem setPrepared (w : Nat) (hash : Hash) :
    Effect key [] mem { mem with state := { mem.state with data := { mem.state.data with
      prepared := mem.state.data.prepared.insert ⟨key.node, key.round, w⟩ hash } } } := by
  refine ofState (fun key' hne => ?_) rfl rfl rfl rfl rfl
  ext1 <;> try rfl
  exact funext fun w' => lookup_insert_of_ne _ (viewKey_ne hne w w') _

theorem setHnv (w : Nat) :
    Effect key [] mem { mem with state := { mem.state with data := { mem.state.data with
      hnv := mem.state.data.hnv.insert ⟨key.node, key.round, w⟩ true } } } := by
  refine ofState (fun key' hne => ?_) rfl rfl rfl rfl rfl
  ext1 <;> try rfl
  exact funext fun w' => lookup_insert_of_ne _ (viewKey_ne hne w w') _

theorem setFinal (hash : Hash) :
    Effect key [] mem { mem with state := { mem.state with
      final := mem.state.final.insert key hash } } := by
  refine ofState (fun key' hne => ?_) rfl rfl rfl rfl rfl
  ext1 <;> try rfl
  exact lookup_insert_of_ne _ hne.symm _

/-- An append writes the array of its slice or a new one. -/
theorem append_owned {E : Nat → Prop} {h : Heap} {slice : Slice} (grow : Nat → Nat) (d : Nat)
    (t : Timeout) (hclock : E h.clock) (hslice : slice = Slice.nil ∨ E slice.epoch) :
    E (h.append grow d slice t).2.epoch ∧ h.SameOutside E (h.append grow d slice t).1 := by
  unfold Heap.append
  split
  · rename_i hroom
    have hE : E slice.epoch := by
      rcases hslice with rfl | hE
      · exact absurd hroom (Nat.lt_irrefl 0)
      · exact hE
    refine ⟨hE, ⟨fun _ _ => rfl, fun ref hout => ?_⟩⟩
    refine lookup_insert_of_ne _ (fun heq => hout ?_) _
    subst heq
    exact hE
  · refine ⟨hclock, ⟨fun _ _ => rfl, fun ref hout => ?_⟩⟩
    refine lookup_insert_of_ne _ (fun heq => hout ?_) _
    subst heq
    exact hclock

theorem addTimeout (grow : Nat → Nat) (d : Nat) (t : Timeout) :
    Effect key [⟨d, t⟩] mem (mem.addTimeout grow d t) where
  inst key' _ := inst_addTimeout mem key' grow d t
  timeoutsAt d' := by
    rw [Memory.timeoutsAt_addTimeout]
    by_cases hd : d = d'
    · subst hd
      simp [filedAt]
    · simp [filedAt, hd]
  owned E hclock howns := by
    have hslice : mem.state.timeouts[d]?.getD Slice.nil = Slice.nil ∨
        E (mem.state.timeouts[d]?.getD Slice.nil).epoch := by
      cases hfound : mem.state.timeouts[d]? with
      | none => exact .inl rfl
      | some slice => exact .inr (howns.timeouts d slice hfound)
    obtain ⟨hE, hsame⟩ := append_owned grow d t hclock hslice
    refine ⟨⟨howns.votes, fun d' slice hfound => ?_⟩, hsame⟩
    simp only [Memory.addTimeout, lookup_insert] at hfound
    split at hfound
    · cases hfound
      exact hE
    · exact howns.timeouts d' slice hfound
  timeout := rfl
  delay := rfl
  out := rfl
  clock := Heap.append_clock ..

/-- Opening a vote map and writing it back. -/
theorem writeVotes (w : Nat) {epoch : Nat} {old : FiniteMap Nat Hash} {s : State}
    (hopen : mem.openVotes ⟨key.node, key.round, w⟩ = (epoch, old, s)) (vcs : FiniteMap Nat Hash) :
    Effect key [] mem ⟨mem.heap.writeVotes ⟨epoch, ⟨key.node, key.round, w⟩⟩ vcs, s⟩ := by
  obtain ⟨epoch', viewChanged, hspec, hself, hother⟩ :=
    openVotes_spec mem ⟨key.node, key.round, w⟩
  obtain ⟨rfl, -, rfl⟩ : epoch' = epoch ∧ _ ∧
      { mem.state with data := { mem.state.data with viewChanged } } = s := by
    simpa using hspec.symm.trans hopen
  constructor <;> try rfl
  case inst =>
    intro key' hne
    ext1 <;> try rfl
    funext w'
    have hdiff := viewKey_ne hne w w'
    simp only [Memory.inst]
    rw [hother _ hdiff.symm]
    congr 1
    funext epoch''
    unfold Heap.readVotes Heap.writeVotes
    rw [lookup_insert_of_ne _ (fun heq => hdiff (congrArg VoteRef.key heq))]
  case timeoutsAt =>
    intro d
    exact (List.append_nil _).symm
  case owned =>
    intro E hclock howns
    have hE : E epoch' := by
      cases hfound : mem.state.data.viewChanged[(⟨key.node, key.round, w⟩ : NodeRoundView)]? with
      | some old =>
        have : epoch' = old := by simpa [Memory.openVotes, hfound] using (congrArg Prod.fst hspec).symm
        exact this ▸ howns.votes _ _ hfound
      | none =>
        have : epoch' = mem.heap.clock := by
          simpa [Memory.openVotes, hfound] using (congrArg Prod.fst hspec).symm
        exact this ▸ hclock
    refine ⟨⟨fun k e hfound => ?_, howns.timeouts⟩, ⟨fun ref hout => ?_, fun _ _ => rfl⟩⟩
    · by_cases hk : k = ⟨key.node, key.round, w⟩
      · subst hk
        rw [hself] at hfound
        cases hfound
        exact hE
      · rw [hother k hk] at hfound
        exact howns.votes k e hfound
    · refine lookup_insert_of_ne _ (fun heq => hout ?_) _
      subst heq
      exact hE

end Memory.Effect

/-- Scheduling writes to the step of the block and to what the state refers to. -/
theorem schedule_owned (p : Params) (e : Entry) {E : Nat → Prop} {mem : Memory}
    (hclock : E mem.heap.clock) (howns : mem.state.Owns E) :
    (mem.schedule p e).state.Owns E ∧ mem.heap.SameOutside E (mem.schedule p e).heap ∧
      (mem.schedule p e).heap.clock = mem.heap.clock := by
  have hfile : ∀ (deadline : Nat) (peers : List Nat) (mem' : Memory), mem'.state.Owns E →
      mem.heap.SameOutside E mem'.heap → mem'.heap.clock = mem.heap.clock →
      let last := peers.foldl (fun mem xnode =>
        mem.addTimeout p.grow deadline ⟨xnode, e.block.round, 0⟩) mem'
      last.state.Owns E ∧ mem.heap.SameOutside E last.heap ∧
        last.heap.clock = mem.heap.clock := by
    intro deadline peers
    induction peers with
    | nil => exact fun mem' howns' hsame hclock' => ⟨howns', hsame, hclock'⟩
    | cons xnode peers ih =>
      intro mem' howns' hsame hclock'
      have heffect : Memory.Effect ⟨xnode, e.block.round⟩ _ mem'
          (mem'.addTimeout p.grow deadline ⟨xnode, e.block.round, 0⟩) :=
        Memory.Effect.addTimeout p.grow deadline _
      obtain ⟨howns'', hsame'⟩ := heffect.owned E (hclock' ▸ hclock) howns'
      exact ih _ howns'' (hsame.trans hsame') (heffect.clock.trans hclock')
  exact hfile _ _ _ ⟨howns.votes, howns.timeouts⟩ (.refl E _) rfl

/-- A computation that succeeds did so at every step. -/
theorem bind_eq_ok {ε α β : Type} {x : Except ε α} {k : α → Except ε β} {r : β} :
    (x >>= k) = .ok r ↔ ∃ a, x = .ok a ∧ k a = .ok r := by
  cases x with
  | error e => simp [bind, Except.bind]
  | ok a => simp [bind, Except.bind]

/-- The timeout an answer goes with: an announced view runs out at `deadline`. -/
def filings (deadline : Nat) : Option Message → List Filing
  | some (.prePrepare m) => [⟨deadline, ⟨m.node, m.round, m.view⟩⟩]
  | _ => []

variable {m : Vote} {origin : BlockID}

section

open Memory.Effect

variable {p : Params} {mem : Memory} {v sender receiver : Nat} {reply : Reply}

theorem processPrePrepare_effect {m : PrePrepare}
    (h : processPrePrepare p mem v sender receiver m = .ok reply) (deadline : Nat) :
    Memory.Effect ⟨m.node, m.round⟩ (filings deadline reply.resp) mem reply.mem := by
  unfold processPrePrepare at h
  dsimp only at h
  split at h
  · cases h
    exact refl _ _
  split at h
  · cases h
    exact refl _ _
  obtain ⟨b, -, h⟩ := bind_eq_ok.mp h
  obtain ⟨b', -, h⟩ := bind_eq_ok.mp h
  cases h
  exact (setBitset m rfl b').trans (setPrePrepared m.view m)

theorem processPrepare_effect (h : processPrepare p mem v receiver m = .ok reply) (deadline : Nat) :
    Memory.Effect ⟨m.node, m.round⟩ (filings deadline reply.resp) mem reply.mem := by
  unfold processPrepare at h
  dsimp only at h
  split at h
  · cases h
    exact refl _ _
  split at h <;> obtain ⟨b, -, h⟩ := bind_eq_ok.mp h
  · cases h
    exact setBitset m.pre rfl b
  split at h
  · cases h
    exact setBitset m.pre rfl b
  obtain ⟨committed, -, h⟩ := bind_eq_ok.mp h
  split at h
  · cases h
    exact setBitset m.pre rfl b
  obtain ⟨b', -, h⟩ := bind_eq_ok.mp h
  cases h
  refine (setBitset m.pre rfl b).trans ((setBitset m.pre rfl b').trans (?_ : Memory.Effect _ [] _ _))
  dsimp only
  split
  · exact refl _ _
  · exact setPrepared m.view m.hash

theorem processCommit_effect (h : processCommit p mem v m = .ok reply) (deadline : Nat) :
    Memory.Effect ⟨m.node, m.round⟩ (filings deadline reply.resp) mem reply.mem := by
  unfold processCommit at h
  dsimp only at h
  split at h
  · cases h
    exact refl _ _
  obtain ⟨b, -, h⟩ := bind_eq_ok.mp h
  split at h
  · cases h
    exact setBitset m.pre rfl b
  split at h
  · cases h
    exact setBitset m.pre rfl b
  cases h
  exact (setBitset m.pre rfl b).trans (setFinal m.hash)

theorem processViewChange_effect (h : processViewChange p mem v receiver m = .ok reply)
    (deadline : Nat) :
    Memory.Effect ⟨m.node, m.round⟩ (filings deadline reply.resp) mem reply.mem := by
  unfold processViewChange at h
  split at h
  · cases h
    exact refl _ _
  obtain ⟨⟨epoch, old, s⟩, hopen⟩ : ∃ r, mem.openVotes ⟨m.node, m.round, v⟩ = r := ⟨_, rfl⟩
  have hwrite : ∀ vcs, Memory.Effect ⟨m.node, m.round⟩ [] mem _ := writeVotes v hopen
  simp only [hopen] at h
  split at h
  · cases h
    exact hwrite _
  split at h
  · cases h
  · cases h
    exact (hwrite _).trans (setView m.view)

theorem processNewView_effect (h : processNewView p mem v origin m = .ok reply) :
    Memory.Effect ⟨m.node, m.round⟩ (filings (u64 (origin.round + mem.state.timeout + 5)) reply.resp)
      mem reply.mem := by
  unfold processNewView at h
  dsimp only at h
  split at h
  · cases h
    exact refl _ _
  split at h
  · cases h
    exact refl _ _
  cases h
  exact (setView m.view).trans ((addTimeout p.grow _ _).trans (setHnv m.view))

/-- A message changes its own instance and files at most one timeout. -/
theorem processMessage_effect {msg : Message}
    (h : processMessage p mem sender receiver origin msg = .ok reply) :
    Memory.Effect msg.nodeRound (filings (u64 (origin.round + mem.state.timeout + 5)) reply.resp)
      mem reply.mem := by
  unfold processMessage at h
  dsimp only at h
  split at h
  · cases h
    exact refl _ _
  have hgot : Memory.Effect msg.nodeRound [] mem
      { mem with state := (mem.state.getView msg.nodeRound).2 } := getView
  rw [← hgot.timeout]
  refine hgot.trans ?_
  cases msg with
  | prePrepare m => exact processPrePrepare_effect h _
  | prepare m => exact processPrepare_effect h _
  | commit m => exact processCommit_effect h _
  | viewChange m => exact processViewChange_effect h _
  | newView m => exact processNewView_effect h

/-- An expiring view changes its own instance and files nothing. -/
theorem expire_effect (node : Nat) (t : Timeout) :
    Memory.Effect ⟨t.node, t.round⟩ [] mem (mem.expire node t).1 := by
  unfold Memory.expire
  dsimp only
  split
  · exact refl _ _
  split
  · exact refl _ _
  · exact setView _

end

end Blockmania
