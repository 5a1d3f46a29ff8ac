/-
# Node ids that fit

The votes on a value are kept in bit vectors with a word for every started block of 64
peers. A vote of a node whose id has no word stops the program. If the ids of all nodes
whose blocks are interpreted have a word, no vote does: the senders of votes are such
nodes, and no vector is ever longer or shorter than a new one.

Whether an id has a word shows in the first block of a node, which votes for itself.
-/

import Blockmania.Graph.Timeouts
import Blockmania.Interpreter.BitsetCells

namespace Blockmania

open Math List

/-- The words of a bit vector over the peers. -/
def Params.words (p : Params) : Nat := (p.peerCount + 63) >>> 6

/-- A node id has a word. -/
def Params.Fits (p : Params) (x : Nat) : Prop := x / 64 < p.words

/-- Both vectors have a word for every started block of 64 peers. -/
def Bitset.Sized (p : Params) (b : Bitset) : Prop :=
  b.commits.length = p.words ∧ b.prepares.length = p.words

/-- All votes on values of the instance are kept in vectors of the right size. -/
def Instance.Sized (p : Params) (i : Instance) : Prop :=
  ∀ hash w b, i.bitsets hash w = some b → b.Sized p

/-- The node that casts a vote has a word. -/
def Message.Fits (p : Params) : Message → Prop
  | .prepare m => p.Fits m.sender
  | .commit m => p.Fits m.sender
  | _ => True

variable {x : Nat}

section Steps

variable {p : Params} {b b' : Bitset} {i : Instance} {sender receiver : Nat} {msg : Message}
  {o : Outcome}

theorem Bitset.Sized.setPrepare (h : b.Sized p) (hset : b.setPrepare x = some b') :
    b'.Sized p := by
  obtain ⟨prepares, hprepares, rfl⟩ := Option.map_eq_some_iff.mp hset
  exact ⟨h.1, (Words.length_setBit hprepares).trans h.2⟩

theorem Bitset.Sized.setCommit (h : b.Sized p) (hset : b.setCommit x = some b') :
    b'.Sized p := by
  obtain ⟨commits, hcommits, rfl⟩ := Option.map_eq_some_iff.mp hset
  exact ⟨(Words.length_setBit hcommits).trans h.1, h.2⟩

/-- A vote of a node with a word can be recorded. -/
theorem Bitset.Sized.exists_setPrepare (h : b.Sized p) (hx : p.Fits x) :
    ∃ b', b.setPrepare x = some b' := by
  have hsome : (b.setPrepare x).isSome := by
    rw [Bitset.setPrepare, Option.isSome_map, Words.setBit_isSome, h.2]
    exact hx
  exact Option.isSome_iff_exists.mp hsome

theorem Bitset.Sized.exists_setCommit (h : b.Sized p) (hx : p.Fits x) :
    ∃ b', b.setCommit x = some b' := by
  have hsome : (b.setCommit x).isSome := by
    rw [Bitset.setCommit, Option.isSome_map, Words.setBit_isSome, h.1]
    exact hx
  exact Option.isSome_iff_exists.mp hsome

theorem Bitset.Sized.exists_hasCommit (h : b.Sized p) (hx : p.Fits x) :
    ∃ found, b.hasCommit x = some found :=
  ⟨_, Bitset.hasBit_of_lt (by rw [h.1]; exact hx)⟩

theorem Bitset.sized_new (p : Params) : (Bitset.new p.peerCount).Sized p :=
  ⟨length_replicate, length_replicate⟩

theorem Instance.sized_empty (p : Params) : Instance.empty.Sized p := by
  intro hash w b h
  cases h

theorem Instance.Sized.bitset (h : i.Sized p) (hash : Hash) (w : Nat) :
    (i.bitset p.peerCount hash w).Sized p := by
  unfold Instance.bitset
  cases hb : i.bitsets hash w with
  | none => exact Bitset.sized_new p
  | some b => exact h hash w b hb

theorem Instance.Sized.of_bitsets {j : Instance} (h : i.Sized p) (hbitsets : j.bitsets = i.bitsets) :
    j.Sized p := by
  intro hash w b hb
  rw [hbitsets] at hb
  exact h hash w b hb

theorem Instance.Sized.setBitset (h : i.Sized p) (hash : Hash) (w : Nat) (hb : b.Sized p) :
    (i.setBitset hash w b).Sized p := by
  intro hash' w' b' hb'
  simp only [Instance.setBitset] at hb'
  split at hb'
  · cases hb'
    exact hb
  · exact h hash' w' b' hb'

/-- A message changes the size of no vector. -/
theorem Instance.Sized.transition (h : i.Sized p) (htransition : i.Transition p sender receiver msg o) :
    o.inst.Sized p := by
  have hopened : i.opened.Sized p := h.of_bitsets rfl
  cases htransition with
  | closed => exact h
  | drop => exact hopened
  | accept _ _ _ hsender hreceiver =>
    exact (hopened.setBitset _ _ (((h.bitset _ _).setPrepare hsender).setPrepare hreceiver)).of_bitsets rfl
  | note _ _ hvote => exact hopened.setBitset _ _ ((h.bitset _ _).setPrepare hvote)
  | @commit m _ _ _ _ hvote _ _ hcommit =>
    have hset := hopened.setBitset m.hash m.view
      (((h.bitset _ _).setPrepare hvote).setCommit hcommit)
    dsimp only
    split
    · exact hset
    · exact hset.of_bitsets rfl
  | acknowledge _ _ hvote => exact hopened.setBitset _ _ ((h.bitset _ _).setCommit hvote)
  | decide _ _ hvote =>
    exact (hopened.setBitset _ _ ((h.bitset _ _).setCommit hvote)).of_bitsets rfl
  | protest => exact hopened.of_bitsets rfl
  | depose => exact hopened.of_bitsets rfl
  | enter => exact hopened.of_bitsets rfl

/-- An answer casts a vote of the receiver, if any. -/
theorem fits_of_transition (hreceiver : p.Fits receiver) (h : i.Transition p sender receiver msg o)
    {resp : Message} (hresp : o.resp = some resp) : resp.Fits p := by
  cases h <;> cases hresp
  · exact hreceiver
  · exact hreceiver
  · trivial
  · trivial

theorem orPanic_bind {α β : Type} {x : Option α} {a : α} (hx : x = some a) (k : α → Except Crash β) :
    (orPanic x >>= k) = k a := by
  rw [hx]
  rfl

/-- A vote of a node with a word stops nothing. -/
theorem step_ne_indexOutOfRange (h : i.Sized p) (hsender : p.Fits sender) (hreceiver : p.Fits receiver)
    (hmsg : msg.Fits p) : i.step p sender receiver msg ≠ .error .indexOutOfRange := by
  intro hcrash
  have hopened : (i.setView i.current).Sized p := h.of_bitsets rfl
  unfold Instance.step at hcrash
  split at hcrash
  · cases hcrash
  cases msg with
  | prePrepare m =>
    obtain ⟨b, hb⟩ := (hopened.bitset m.hash m.view).exists_setPrepare hsender
    obtain ⟨b', hb'⟩ := ((hopened.bitset m.hash m.view).setPrepare hb).exists_setPrepare hreceiver
    simp only [Instance.stepPrePrepare] at hcrash
    split at hcrash
    · cases hcrash
    split at hcrash
    · cases hcrash
    rw [orPanic_bind hb, orPanic_bind hb'] at hcrash
    cases hcrash
  | prepare m =>
    have hm : p.Fits m.sender := hmsg
    obtain ⟨b, hb⟩ := (hopened.bitset m.hash m.view).exists_setPrepare hm
    have hsized := (hopened.bitset m.hash m.view).setPrepare hb
    obtain ⟨found, hfound⟩ := hsized.exists_hasCommit hreceiver
    obtain ⟨b', hb'⟩ := hsized.exists_setCommit hreceiver
    simp only [Instance.stepPrepare] at hcrash
    split at hcrash
    · cases hcrash
    rw [orPanic_bind hb] at hcrash
    split at hcrash
    · cases hcrash
    rw [orPanic_bind hfound] at hcrash
    split at hcrash
    · cases hcrash
    rw [orPanic_bind hb'] at hcrash
    cases hcrash
  | commit m =>
    have hm : p.Fits m.sender := hmsg
    obtain ⟨b, hb⟩ := (hopened.bitset m.hash m.view).exists_setCommit hm
    simp only [Instance.stepCommit] at hcrash
    split at hcrash
    · cases hcrash
    rw [orPanic_bind hb] at hcrash
    split at hcrash <;> cases hcrash
  | viewChange m =>
    simp only [Instance.stepViewChange] at hcrash
    split at hcrash
    · cases hcrash
    split at hcrash
    · cases hcrash
    split at hcrash <;> cases hcrash
  | newView m => cases hcrash

end Steps

/-- The votes that a memory holds are kept in vectors of the right size. -/
def Memory.Sized (p : Params) (mem : Memory) : Prop := ∀ key, (mem.inst key).Sized p

section Memories

variable {p : Params} {mem : Memory}

/-- The heap holds no votes on values. -/
theorem Memory.Sized.of_heap {heap : Heap} {s : State} (h : Memory.Sized p ⟨heap, s⟩) (heap' : Heap)
    (out : List Message) : Memory.Sized p ⟨heap', { s with out }⟩ :=
  fun key => (h key).of_bitsets rfl

theorem Memory.Sized.processMessage {sender receiver : Nat} {origin : BlockID} {msg : Message}
    {reply : Reply} (h : mem.Sized p)
    (hreply : Blockmania.processMessage p mem sender receiver origin msg = .ok reply) :
    reply.mem.Sized p := by
  intro key
  by_cases hkey : key = msg.nodeRound
  · subst hkey
    exact (h _).transition (transition_of_processMessage hreply)
  · rw [(processMessage_effect hreply).inst key hkey]
    exact h key

theorem Memory.Sized.expire (h : mem.Sized p) (node : Nat) (t : Timeout) :
    (mem.expire node t).1.Sized p := by
  intro key
  by_cases hkey : key = ⟨t.node, t.round⟩
  · subst hkey
    have houtcome := expire_outcome mem node t
    rcases (mem.inst ⟨t.node, t.round⟩).expire_cases ⟨t.node, t.round⟩ node t.view with
      ⟨hexpired, -⟩ | ⟨hexpired, -⟩
    · rw [(Prod.mk.inj (houtcome.trans hexpired)).1]
      exact h _
    · rw [(Prod.mk.inj (houtcome.trans hexpired)).1]
      exact (h _).of_bitsets rfl
  · rw [(expire_effect node t).inst key hkey]
    exact h key

/-- A ViewChange casts no vote on a value. -/
theorem fits_of_expire {node : Nat} {t : Timeout} {vc : Message} (h : (mem.expire node t).2 = some vc) :
    vc.Fits p := by
  have houtcome := expire_outcome mem node t
  rcases (mem.inst ⟨t.node, t.round⟩).expire_cases ⟨t.node, t.round⟩ node t.view with
    ⟨hexpired, -⟩ | ⟨hexpired, -⟩
  · rw [(Prod.mk.inj (houtcome.trans hexpired)).2] at h
    cases h
  · rw [(Prod.mk.inj (houtcome.trans hexpired)).2] at h
    cases h
    trivial

end Memories

namespace Graph

/-- The blocks that a graph holds are of nodes with a word, and so are their votes. -/
structure Roomy (p : Params) (g : Graph) : Prop where
  node : ∀ (b : BlockID) (s : State), g.statess[b]? = some s → p.Fits b.node
  sized : ∀ (b : BlockID) (s : State), g.statess[b]? = some s → Memory.Sized p ⟨g.heap, s⟩
  out : ∀ (b : BlockID) (s : State), g.statess[b]? = some s → ∀ msg ∈ s.out, msg.Fits p

variable {g : Graph}

theorem Roomy.opened {p : Params} (h : Roomy p g) (e : Entry) : (g.opened e).Sized p := by
  intro key
  rcases g.opened_cases e with ⟨s, hs, hopened⟩ | ⟨hopened, -⟩
  · rw [hopened, inst_clone]
    split
    · exact Instance.sized_empty p
    · exact (h.sized _ s hs key).of_bitsets rfl
  · rw [hopened]
    intro hash w b hb
    simp [Memory.inst, State.fresh] at hb

variable {e : Entry}

/-- A block of a node with a word is not stopped by a vote. -/
theorem Roomy.process {p : Params} (h : Roomy p g) (hparams : g.params = p)
    (he : p.Fits e.block.node) :
    Ensures (process g e) (Roomy p) (fun halt => halt.crash ≠ .indexOutOfRange) := by
  let inv : Session Graph → List Message → Prop := fun session emitted =>
    Follows g session.host ∧ session.mem.Sized p ∧ ∀ msg ∈ emitted, msg.Fits p
  have hkept : ∀ sender source, p.Fits sender → (∀ msg, source msg → msg.Fits p) →
      Kept host p ⟨sender, e.block.node, e.block⟩ source inv
        (fun halt => halt.crash ≠ .indexOutOfRange) := by
    intro sender source hsender hsource session emitted msg hinv hmsg
    obtain ⟨⟨evs, hadvances⟩, hsized, hemitted⟩ := hinv
    have hfits : msg.Fits p := hmsg.elim (hsource msg) (hemitted msg)
    apply ensures_answer
    · exact fun _ => ⟨⟨evs, hadvances⟩, hsized, by simpa using hemitted⟩
    · rintro crash hcrash rfl
      exact step_ne_indexOutOfRange (hsized _) hsender he hfits (step_of_processMessage_error hcrash)
    intro reply hreply
    have hout : ∀ m ∈ emitted ++ reply.resp.toList, m.Fits p := by
      intro m hm
      rcases mem_append.mp hm with hm | hm
      · exact hemitted m hm
      · exact fits_of_transition he (transition_of_processMessage hreply) (Option.mem_toList.mp hm)
    have hnoted := hadvances.trans (Advances.observe session.host
      ⟨e.block, session.mem, .message sender e.block.node msg⟩)
    refine ensures_settle (fun _ => ⟨⟨_, hnoted⟩, hsized.processMessage hreply, hout⟩)
      (fun d host' _ hdeliver =>
        ⟨⟨_, hnoted.trans (advances_of_deliver hdeliver)⟩, hsized.processMessage hreply, hout⟩) ?_
    rintro d crash - hcrash rfl
    rcases deliver_eq_error hcrash with hcrash | ⟨hcrash, -⟩ <;> cases hcrash
  apply ensures_process
  rw [hparams]
  refine (ensures_conduct inv ⟨⟨[], Advances.refl g⟩, ?_, ?_⟩ ?_ (hkept _ _ he fun _ h => h.elim) ?_).mono ?_
  · intro key
    rw [inst_schedule]
    exact h.opened e key
  · intro msg hmsg
    rw [mem_singleton.mp hmsg]
    trivial
  · rintro t - host' mem emitted ⟨⟨evs, hadvances⟩, hsized, hemitted⟩
    refine ⟨⟨_, hadvances.trans (Advances.observe host' _)⟩, hsized.expire _ t, fun m hm => ?_⟩
    rcases mem_append.mp hm with hm | hm
    · exact hemitted m hm
    · exact fits_of_expire (Option.mem_toList.mp hm)
  · intro dep _ session emitted hinv
    obtain ⟨evs, hadvances⟩ := hinv.1
    cases hs : session.host.statess[dep]? with
    | none =>
      -- a block without a state sends nothing
      have hsilent : host.output session.host dep = [] := by simp [host, hs]
      rw [hsilent]
      change inv session (emitted ++ [])
      rwa [append_nil]
    | some s =>
      have hs' := hadvances.statess dep s hs
      refine ensures_processMessages (hkept dep.node (fun msg => msg.Fits p) (h.node dep s hs') fun _ h => h)
        emitted (fun msg hmsg => .inl ?_) hinv
      have houtput : host.output session.host dep = s.out := by simp [host, hs]
      rw [houtput] at hmsg
      exact h.out dep s hs' msg hmsg
  · rintro ⟨last, mem'⟩ ⟨mem, processed, emitted, ⟨⟨evs, hadvances⟩, hsized, hemitted⟩, rfl⟩
    have hold : ∀ (b : BlockID) (s : State), b ≠ e.block →
        (last.store e.block { mem with state := { mem.state with out := emitted } }).statess[b]? = some s →
        g.statess[b]? = some s := by
      intro b s hb hs
      simp only [store, FiniteMap.lookup_insert_of_ne _ (Ne.symm hb)] at hs
      exact hadvances.statess b s hs
    have hnew : ∀ s : State,
        (last.store e.block { mem with state := { mem.state with out := emitted } }).statess[e.block]? =
          some s → s = { mem.state with out := emitted } := by
      intro s hs
      simp only [store, FiniteMap.lookup_insert_self, Option.some.injEq] at hs
      exact hs.symm
    refine ⟨fun b s hs => ?_, fun b s hs => ?_, fun b s hs => ?_⟩ <;> by_cases hb : b = e.block
    · exact hb ▸ he
    · exact h.node b s (hold b s hb hs)
    · subst hb
      rw [hnew s hs]
      exact hsized.of_heap _ _
    · exact (h.sized b s (hold b s hb hs)).of_heap _ s.out
    · subst hb
      rw [hnew s hs]
      exact hemitted
    · exact h.out b s (hold b s hb hs)

/-- No run is stopped by a vote of a node whose id has a word. -/
theorem roomy_actAll {p : Params} {lastInterpreted : Nat} {acts : List Action}
    (hfits : ∀ e ∈ interpreted acts, p.Fits e.block.node) :
    Ensures (actAll (new p lastInterpreted) acts) (Roomy p)
      (fun halt => halt.crash ≠ .indexOutOfRange) := by
  apply ensures_actAll fun _ g => Roomy p g
  · intro done a rest g hsplit hrun h
    cases a with
    | register bg =>
      change Roomy p (g.register bg)
      rw [register_eq]
      exact { h with }
    | process e =>
      refine h.process ((params_actAll p lastInterpreted done).of_ok hrun) (hfits e ?_)
      rw [hsplit, interpreted_append]
      exact mem_append_right _ mem_cons_self
  · exact ⟨by simp [new], by simp [new], by simp [new]⟩

/-- The first block of a node shows that its id has a word. It accepts itself. -/
theorem fits_of_process {p : Params} {g' : Graph} (hparams : g.params = p)
    (hfirst : e.prev.valid = false) (h : process g e = .ok g') : p.Fits e.block.node := by
  obtain ⟨last, mem, hinterpret, -⟩ := process_eq_ok h
  have hopened : findOrCreateState g.heap g.statess[e.prev]? g.round e = ⟨g.heap.tick, State.fresh⟩ :=
    opened_of_invalid (by rw [hfirst]; exact Bool.false_ne_true)
  rw [interpret, hopened, hparams] at hinterpret
  -- nothing is due yet
  have hdue : (Memory.schedule p ⟨g.heap.tick, State.fresh⟩ e).timeoutsAt e.block.round = [] := by
    rw [timeoutsAt_schedule, if_neg, timeoutsAt_fresh]
    · rfl
    · exact deadline_ne_round p (delay_recordDelays (by simp [State.fresh])) _
  simp only [conduct, hdue, expireAll] at hinterpret
  obtain ⟨⟨session, own⟩, hown, -⟩ := bind_eq_ok.mp hinterpret
  obtain ⟨⟨mid, out⟩, hpass, -⟩ := bind_eq_ok.mp hown
  obtain ⟨⟨next, resp⟩, hanswer, -⟩ := bind_eq_ok.mp hpass
  rcases answer_eq_ok hanswer with ⟨hseen, -⟩ | ⟨-, reply, -, hreply, -⟩
  · simp at hseen
  have htransition := transition_of_processMessage hreply
  have hinst : (Memory.schedule p ⟨g.heap.tick, State.fresh⟩ e).inst
      (Message.nodeRound (.prePrepare ⟨e.block.hash, e.block.node, e.block.round, 0⟩)) =
        Instance.empty := by
    rw [inst_schedule, inst_fresh]
  rw [hinst] at htransition
  generalize Outcome.mk _ _ _ = o at htransition
  cases htransition with
  | closed hclosed => cases hclosed
  | drop _ hdrop => simp [Instance.Dropped, Instance.empty, Instance.current] at hdrop
  | accept _ _ _ hsender _ =>
    have hsome : ((Bitset.new p.peerCount).setPrepare e.block.node).isSome := by
      rw [Option.isSome_iff_exists]
      exact ⟨_, hsender⟩
    rw [Bitset.setPrepare, Option.isSome_map, Words.setBit_isSome, (Bitset.sized_new p).2] at hsome
    exact hsome

end Graph

end Blockmania
