/-
# Where timeouts come from

A timeout is on file for one of two reasons. A block files one for every peer's instance
of its own round, and a step that enters a view files the timeout of that view.

The blocks of a node share arrays of timeouts, so a block of a node that forks may find
timeouts that its own chain has not filed. It finds none that no block of its node has
filed. This is a property of the heap and not of any state, so it survives forks, pruning
and forgotten states.
-/

import Blockmania.Graph.Deadlines
import Blockmania.Graph.Mentions
import Blockmania.Graph.Origins

namespace Blockmania

open Math List FiniteMap

/-- An array that one of the steps `E` allocated holds a timeout under a deadline. -/
def Heap.Stores (h : Heap) (E : Nat → Prop) (d : Nat) (t : Timeout) : Prop :=
  ∃ ref : ArrayRef, E ref.epoch ∧ ref.deadline = d ∧ t ∈ h.cells ref

variable {grow : Nat → Nat} {mem : Memory} {ev : Event}

section Stores

variable {E : Nat → Prop} {d d' : Nat} {t t' : Timeout}

theorem Heap.Stores.of_append {h : Heap} {slice : Slice}
    (hslice : slice = Slice.nil ∨ E slice.epoch)
    (hstores : (h.append grow d slice t).1.Stores E d' t') :
    h.Stores E d' t' ∨ d' = d ∧ t' = t := by
  obtain ⟨ref, hepoch, rfl, hmem⟩ := hstores
  by_cases hd : d = ref.deadline
  swap
  · rw [cells_append_of_ne _ _ hd] at hmem
    exact .inl ⟨ref, hepoch, rfl, hmem⟩
  by_cases hroom : slice.len < slice.cap
  · rw [cells_append_of_room hroom] at hmem
    split at hmem
    · rcases mem_append.mp hmem with hbefore | hrest
      · exact .inl ⟨ref, hepoch, rfl, mem_of_mem_take hbefore⟩
      · rcases mem_cons.mp hrest with rfl | hafter
        · exact .inr ⟨hd.symm, rfl⟩
        · exact .inl ⟨ref, hepoch, rfl, mem_of_mem_drop hafter⟩
    · exact .inl ⟨ref, hepoch, rfl, hmem⟩
  · -- the slice moves, and takes the timeouts of its old array along
    unfold Heap.append Heap.cells at hmem
    rw [if_neg hroom] at hmem
    dsimp only at hmem
    rw [lookup_insert] at hmem
    split at hmem
    · rcases mem_append.mp hmem with hread | hlast
      · left
        rcases hslice with rfl | hslice
        · simp [Heap.read, Slice.nil] at hread
        · exact ⟨slice.ref d, hslice, hd, mem_of_mem_take hread⟩
      · exact .inr ⟨hd.symm, mem_singleton.mp hlast⟩
    · exact .inl ⟨ref, hepoch, rfl, hmem⟩

/-- A state reads what its arrays hold. -/
theorem stores_of_mem_timeoutsAt (howns : mem.state.Owns E) (ht : t ∈ mem.timeoutsAt d) :
    mem.heap.Stores E d t := by
  unfold Memory.timeoutsAt at ht
  cases hfound : mem.state.timeouts[d]? with
  | none => simp [hfound, Heap.read, Slice.nil] at ht
  | some slice =>
    rw [hfound] at ht
    exact ⟨slice.ref d, howns.timeouts d slice hfound, rfl, mem_of_mem_take ht⟩

theorem stores_addTimeout
    (howns : ∀ (d : Nat) (slice : Slice), mem.state.timeouts[d]? = some slice → E slice.epoch)
    (hstores : (mem.addTimeout grow d t).heap.Stores E d' t') :
    mem.heap.Stores E d' t' ∨ d' = d ∧ t' = t := by
  apply Heap.Stores.of_append _ hstores
  cases hfound : mem.state.timeouts[d]? with
  | none => exact .inl rfl
  | some slice => exact .inr (howns d slice hfound)

/-- A block first files the timeouts of its own round. -/
theorem stores_schedule {p : Params} {e : Entry} (hclock : E mem.heap.clock)
    (howns : mem.state.Owns E) (hstores : (mem.schedule p e).heap.Stores E d t) :
    mem.heap.Stores E d t ∨ t.node ∈ p.peers ∧ t.round = e.block.round ∧
      d = u64 (e.block.round +
        timeoutValue p (recordDelays e.block.round e.deps mem.state.delay)) := by
  have hfile : ∀ (deadline : Nat) (peers : List Nat) (mem : Memory), E mem.heap.clock →
      mem.state.Owns E → (peers.foldl (fun mem xnode =>
        mem.addTimeout p.grow deadline ⟨xnode, e.block.round, 0⟩) mem).heap.Stores E d t →
      mem.heap.Stores E d t ∨ t.node ∈ peers ∧ t.round = e.block.round ∧ d = deadline := by
    intro deadline peers
    induction peers with
    | nil => exact fun mem _ _ hstores => .inl hstores
    | cons xnode peers ih =>
      intro mem hclock howns hstores
      have heffect : Memory.Effect ⟨xnode, e.block.round⟩ _ mem
          (mem.addTimeout p.grow deadline ⟨xnode, e.block.round, 0⟩) :=
        Memory.Effect.addTimeout p.grow deadline _
      rcases ih _ (heffect.clock ▸ hclock) (heffect.owned E hclock howns).1 hstores with
        hbefore | ⟨hnode, hrest⟩
      · refine (stores_addTimeout howns.timeouts hbefore).imp_right ?_
        rintro ⟨rfl, rfl⟩
        exact ⟨mem_cons_self, rfl, rfl⟩
      · exact .inr ⟨mem_cons_of_mem _ hnode, hrest⟩
  let delay := recordDelays e.block.round e.deps mem.state.delay
  exact hfile _ p.peers
    { mem with state := { mem.state with delay := delay, timeout := timeoutValue p delay } } hclock
    ⟨howns.votes, howns.timeouts⟩ hstores

/-- A step stores the timeout of the view it enters. -/
theorem stores_reply {p : Params} {reply : Reply} (howns : ev.mem.state.Owns E)
    (hreply : ev.reply p = .ok reply) (hstores : reply.mem.heap.Stores E d t) :
    ev.mem.heap.Stores E d t ∨
      ∃ hash w, ev.answer p = some (.prePrepare ⟨hash, t.node, t.round, w⟩) := by
  have hcells : ∀ {mem mem' : Memory}, mem.SameSlices mem' → mem'.heap.Stores E d t →
      mem.heap.Stores E d t := by
    rintro mem mem' hsame ⟨ref, hepoch, hd, hmem⟩
    rw [Heap.cells, hsame.arrays] at hmem
    exact ⟨ref, hepoch, hd, hmem⟩
  rcases slices_reply hreply with ⟨-, hsame⟩ | ⟨f, mem, hfiled, hsame, hadded⟩
  · exact .inl (hcells hsame hstores)
  have howns' : ∀ (d : Nat) (slice : Slice), mem.state.timeouts[d]? = some slice → E slice.epoch := by
    rw [hsame.timeouts]
    exact howns.timeouts
  rcases stores_addTimeout howns' (hcells hadded hstores) with hbefore | ⟨-, rfl⟩
  · exact .inl (hcells hsame hbefore)
  · right
    unfold Event.filed filings at hfiled
    split at hfiled
    · rename_i m hanswer
      cases hfiled
      exact ⟨m.hash, m.view, hanswer⟩
    · cases hfiled

end Stores

/-- Delays are 64-bit values. -/
def State.DelaysFit (s : State) : Prop := ∀ x d : Nat, s.delay[x]? = some d → d < 2 ^ 64

variable {round : Nat}

theorem delay_recordDelays {deps : List BlockID} :
    ∀ {delay : FiniteMap Nat Nat}, (∀ x d : Nat, delay[x]? = some d → d < 2 ^ 64) →
      ∀ x d : Nat, (recordDelays round deps delay)[x]? = some d → d < 2 ^ 64 := by
  induction deps with
  | nil => exact fun h => h
  | cons dep deps ih =>
    intro delay h
    apply ih
    intro x d hd
    rw [lookup_insert] at hd
    split at hd
    · cases hd
      exact Nat.mod_lt _ (by decide)
    · exact h x d hd

/-- A block never files the timeouts of its own round under that round. -/
theorem deadline_ne_round (p : Params) {delay : FiniteMap Nat Nat}
    (h : ∀ x d : Nat, delay[x]? = some d → d < 2 ^ 64) (round : Nat) :
    u64 (round + timeoutValue p delay) ≠ round := by
  have hten := ten_le_timeoutOf p delay.values
  have hfits : timeoutOf p delay.values ≤ 2 ^ 64 - 1 := by
    rw [timeoutOf_le_iff]
    refine ⟨by decide, (min_le_left _ _).trans (countP_eq_length.mpr fun d hd => ?_).ge⟩
    obtain ⟨x, hx⟩ := mem_values.mp hd
    exact decide_eq_true (Nat.le_pred_of_lt (h x d hx))
  rw [timeoutValue_eq, u64]
  omega

/-! ## What is on file at a node -/

/-- Why a node has a timeout on file under a deadline: one of its blocks has filed it for
its own round, and not under that round, or a step has entered the view that it is of. -/
def OnFile (p : Params) (es : List Entry) (trace : List Event) (x d : Nat) (t : Timeout) : Prop :=
  (∃ e ∈ es, e.block.node = x ∧ t.node ∈ p.peers ∧ t.round = e.block.round ∧ d ≠ e.block.round) ∨
    ∃ ev ∈ trace, ∃ hash w, ev.answer p = some (.prePrepare ⟨hash, t.node, t.round, w⟩)

/-- Every timeout that falls due in a step of the trace, newest first, was on file at its
block. -/
def Accounted (p : Params) (es : List Entry) : List Event → Prop
  | [] => True
  | ev :: older => (∀ t, ev.cause = .timeout t → ∃ done e rest, es = done ++ e :: rest ∧
      e.block = ev.block ∧ OnFile p (done ++ [e]) older ev.block.node ev.block.round t) ∧
      Accounted p es older

variable {p : Params} {es es' : List Entry} {trace trace' : List Event} {x d : Nat} {t : Timeout}

theorem OnFile.mono (h : OnFile p es trace x d t) (hes : es ⊆ es') (hsub : trace ⊆ trace') :
    OnFile p es' trace' x d t := by
  rcases h with ⟨e, he, hrest⟩ | ⟨ev, hev, hrest⟩
  · exact .inl ⟨e, hes he, hrest⟩
  · exact .inr ⟨ev, hsub hev, hrest⟩

theorem Accounted.append (more : List Entry) :
    ∀ {trace : List Event}, Accounted p es trace → Accounted p (es ++ more) trace
  | [], _ => trivial
  | _ :: _, ⟨hnow, holder⟩ => by
    refine ⟨fun t ht => ?_, holder.append more⟩
    obtain ⟨done, e, rest, hsplit, hrest⟩ := hnow t ht
    exact ⟨done, e, rest ++ more, by rw [hsplit, append_assoc, cons_append], hrest⟩

namespace Graph

/-- Every timeout that a node can read was filed by a block of the node. -/
structure Archived (p : Params) (done : List Entry) (g : Graph) : Prop where
  trace : Accounted p done g.trace
  arrays : ∀ x d t, g.heap.Stores (epochs done x) d t → OnFile p done g.trace x d t
  unborn : ∀ ref : ArrayRef, g.heap.clock < ref.epoch → g.heap.cells ref = []
  delays : ∀ (b : BlockID) (s : State), g.statess[b]? = some s → s.DelaysFit

section Process

variable {done : List Entry} {g g' : Graph} {e : Entry}

theorem Archived.delays_opened (h : Archived g.params done g) (e : Entry) :
    (g.opened e).state.DelaysFit := by
  rcases g.opened_cases e with ⟨s, hs, hopened⟩ | ⟨hopened, -⟩
  · rw [hopened]
    exact h.delays e.prev s hs
  · rw [hopened]
    intro x d hd
    simp [State.fresh] at hd

/-- A block owns no step but its own besides those of the blocks before it. -/
theorem epochs_concat {epoch : Nat} (h : epochs (done ++ [e]) x epoch) :
    epochs done x epoch ∨ x = e.block.node ∧ epoch = done.length + 1 := by
  obtain ⟨i, e', he', rfl, rfl⟩ := h
  rcases lt_or_ge i done.length with hi | hi
  · rw [List.getElem?_append_left hi] at he'
    exact .inl ⟨i, e', he', rfl, rfl⟩
  · rw [List.getElem?_append_right hi, List.getElem?_singleton] at he'
    split at he'
    · cases he'
      exact .inr ⟨rfl, by omega⟩
    · cases he'

/-- What was stored before a block is interpreted was on file. -/
theorem Archived.of_stores (h : Archived g.params done g) (howned : Owned done g)
    (hstores : g.heap.Stores (epochs (done ++ [e]) x) d t) :
    OnFile g.params (done ++ [e]) g.trace x d t := by
  obtain ⟨ref, hepoch, hd, hmem⟩ := hstores
  rcases epochs_concat hepoch with hepoch | ⟨-, hepoch⟩
  · exact (h.arrays x d t ⟨ref, hepoch, hd, hmem⟩).mono (subset_append_left _ _) (List.Subset.refl _)
  · rw [h.unborn ref (by rw [howned.clock]; omega)] at hmem
    cases hmem

/-- The timeouts a block starts from, those of its own round included, are on file. -/
theorem Archived.scheduled (h : Archived g.params done g) (howned : Owned done g)
    (hprev : e.prev.valid = true → e.prev.node = e.block.node)
    (hstores : ((g.opened e).schedule g.params e).heap.Stores (epochs (done ++ [e]) e.block.node) d t) :
    OnFile g.params (done ++ [e]) g.trace e.block.node d t := by
  obtain ⟨hclock, howns⟩ := howned.opened hprev
  rcases stores_schedule hclock howns hstores with hbefore | ⟨hnode, hround, hdeadline⟩
  · exact h.of_stores howned hbefore
  · refine .inl ⟨e, by simp, rfl, hnode, hround, ?_⟩
    rw [hdeadline]
    exact deadline_ne_round _ (delay_recordDelays (h.delays_opened e)) _

/-- What is known while a block is interpreted. -/
structure Archiving (done : List Entry) (g : Graph) (e : Entry) (host : Graph) (mem : Memory) :
    Prop where
  older : g.trace ⊆ host.trace
  trace : Accounted g.params (done ++ [e]) host.trace
  statess : ∀ (b : BlockID) (s : State), host.statess[b]? = some s → g.statess[b]? = some s
  owns : mem.state.Owns (epochs (done ++ [e]) e.block.node)
  outside : g.heap.SameOutside (epochs (done ++ [e]) e.block.node) mem.heap
  clock : mem.heap.clock = g.heap.clock + 1
  delays : mem.state.DelaysFit
  arrays : ∀ d t, mem.heap.Stores (epochs (done ++ [e]) e.block.node) d t →
    OnFile g.params (done ++ [e]) host.trace e.block.node d t

/-- One more step of the block. -/
theorem Archiving.step (howned : Owned done g) {host' : Graph} {mem : Memory} (cause : Cause)
    {reply : Reply} (h : Archiving done g e host' mem) (hdue : ∀ t, cause = .timeout t →
      OnFile g.params (done ++ [e]) host'.trace e.block.node e.block.round t)
    (hreply : Event.reply g.params ⟨e.block, mem, cause⟩ = .ok reply) :
    Archiving done g e (host.observe host' ⟨e.block, mem, cause⟩) reply.mem := by
  have hclock : epochs (done ++ [e]) e.block.node mem.heap.clock :=
    ⟨done.length, e, by simp, rfl, by rw [h.clock, howned.clock]⟩
  have heffect := Event.effect hreply
  obtain ⟨howns, hsame⟩ := heffect.owned _ hclock h.owns
  refine ⟨List.Subset.trans h.older (subset_cons_self _ _),
    ⟨fun t ht => ⟨done, e, [], rfl, rfl, hdue t ht⟩, h.trace⟩, h.statess, howns,
    h.outside.trans hsame, heffect.clock.trans h.clock, ?_, fun d t hstores => ?_⟩
  · intro x d hd
    rw [heffect.delay] at hd
    exact h.delays x d hd
  rcases stores_reply h.owns hreply hstores with hbefore | ⟨hash, w, hanswer⟩
  · exact (h.arrays d t hbefore).mono (List.Subset.refl _) (subset_cons_self _ _)
  · exact .inr ⟨_, mem_cons_self, hash, w, hanswer⟩

/-- A block starts with the timeouts of its own round on file. -/
theorem Archived.archiving (h : Archived g.params done g) (howned : Owned done g)
    (hprev : e.prev.valid = true → e.prev.node = e.block.node) :
    Archiving done g e g ((g.opened e).schedule g.params e) := by
  obtain ⟨hclock, howns⟩ := howned.opened hprev
  obtain ⟨howns, hsame, hclock'⟩ := schedule_owned g.params e hclock howns
  refine ⟨List.Subset.refl _, h.trace.append [e], fun _ _ hs => hs, howns,
    ⟨hsame.votes, hsame.arrays⟩, hclock', ?_, fun d t => h.scheduled howned hprev⟩
  intro x d hd
  rw [delay_schedule] at hd
  exact delay_recordDelays (h.delays_opened e) x d hd

/-- A block leaves behind what it worked with. -/
theorem Archiving.archived (howned : Owned done g) (h : Archived g.params done g) {last : Graph}
    (hwork : Archiving done g e last mem) (out : List Message) :
    Archived g.params (done ++ [e])
      (last.store e.block { mem with state := { mem.state with out } }) := by
  refine ⟨hwork.trace, fun x d t hstores => ?_, fun ref href => ?_, fun b s hs => ?_⟩
  · by_cases hx : x = e.block.node
    · subst hx
      exact hwork.arrays d t hstores
    · -- the arrays of other nodes are as they were
      obtain ⟨ref, hepoch, hd, hmem⟩ := hstores
      have hsame := hwork.outside.arrays ref fun hown => hx (epochs_unique hepoch hown)
      change t ∈ (mem.heap.arrays[ref]?).getD [] at hmem
      rw [hsame] at hmem
      exact (h.of_stores howned ⟨ref, hepoch, hd, hmem⟩).mono (List.Subset.refl _) hwork.older
  · change mem.heap.clock < ref.epoch at href
    rw [hwork.clock] at href
    change (mem.heap.arrays[ref]?).getD [] = []
    rw [hwork.outside.arrays ref]
    · exact h.unborn ref (by omega)
    · rintro ⟨i, e', he', -, hepoch⟩
      have hi := (List.getElem?_eq_some_iff.mp he').1
      rw [howned.clock] at href
      simp at hi
      omega
  · simp only [store, lookup_insert] at hs
    split at hs
    · cases hs
      exact hwork.delays
    · exact h.delays b s (hwork.statess b s hs)

/-- Interpreting a block keeps every timeout on file. -/
theorem archived_process (hprev : e.prev.valid = true → e.prev.node = e.block.node)
    (howned : Owned done g) (h : Archived g.params done g) :
    Ensures (process g e) (Archived g.params (done ++ [e]))
      (fun halt => Accounted g.params (done ++ [e]) halt.host.trace) := by
  have hstart := h.archiving howned hprev
  have hnoted : ∀ {g' : Graph} {mem : Memory} (sender : Nat) (msg : Message),
      Archiving done g e g' mem → Accounted g.params (done ++ [e])
        (host.observe g' ⟨e.block, mem, .message sender e.block.node msg⟩).trace :=
    fun _ _ hwork => ⟨fun t ht => (by cases ht), hwork.trace⟩
  apply ensures_process
  refine (ensures_conduct_of_steps (Archiving done g e) hstart ?_
    (fun _ _ sender msg _ hwork _ => hnoted sender msg hwork) ?_).mono ?_
  · intro t ht host' mem hwork
    refine hwork.step howned (.timeout t) (fun t' ht' => ?_) rfl
    cases ht'
    exact (hstart.arrays _ _ (stores_of_mem_timeoutsAt hstart.owns ht)).mono (List.Subset.refl _)
      hwork.older
  · intro g' mem sender msg reply hwork hreply
    have hnext := hwork.step howned (.message sender e.block.node msg) (fun t ht => (by cases ht)) hreply
    refine ensures_settle (fun _ => hnext) (fun d host' _ hdeliver => ?_)
      (fun _ _ _ _ => hnoted sender msg hwork)
    have hadvances := advances_of_deliver hdeliver
    have htrace : host'.trace = _ := hadvances.trace
    exact ⟨htrace ▸ hnext.older, htrace ▸ hnext.trace,
      fun b s hs => hnext.statess b s (hadvances.statess b s hs), hnext.owns, hnext.outside,
      hnext.clock, hnext.delays, htrace ▸ hnext.arrays⟩
  · rintro ⟨last, mem'⟩ ⟨mem, out, hwork, rfl⟩
    exact hwork.archived howned h out

end Process

/-- Every timeout that falls due in a run was on file. -/
theorem archived_actAll {lastInterpreted : Nat} {acts : List Action}
    (hwf : ∀ e ∈ interpreted acts, e.WellFormed p.peers) :
    Ensures (actAll (new p lastInterpreted) acts) (Archived p (interpreted acts))
      (fun halt => Accounted p (interpreted acts) halt.host.trace) := by
  apply ensures_actAll fun done => Archived p (interpreted done)
  · intro done a rest g hsplit hdone h
    have hentries : interpreted acts = interpreted done ++ interpreted (a :: rest) := by
      rw [hsplit, interpreted_append]
    cases a with
    | register bg =>
      change Archived p (interpreted (done ++ [.register bg])) (g.register bg)
      rw [register_eq, interpreted_register]
      exact { h with }
    | process e =>
      have hparams : g.params = p := (params_actAll p lastInterpreted done).of_ok hdone
      have hbefore : ∀ e' ∈ interpreted done, e'.WellFormed p.peers := fun e' he' =>
        hwf e' (hentries ▸ mem_append_left _ he')
      have howned : Owned (interpreted done) g := (owned_actAll hbefore).of_ok hdone
      have hmem : e ∈ interpreted acts := hentries ▸ mem_append_right _ mem_cons_self
      have hprev := fun hvalid => ((hwf e hmem).of_prev hvalid).2.1
      subst hparams
      rw [interpreted_process]
      refine (archived_process hprev howned h).weaken fun halt hhalt => ?_
      have happend : interpreted acts = (interpreted done ++ [e]) ++ interpreted rest := by
        rw [hentries, append_assoc]
        rfl
      rw [happend]
      exact hhalt.append _
  · refine ⟨trivial, fun x d t hstores => ?_, fun ref _ => ?_, fun b s hs => ?_⟩
    · obtain ⟨ref, ⟨i, e, he, -⟩, -⟩ := hstores
      simp [interpreted] at he
    · simp [new, Heap.empty, Heap.cells]
    · simp [new] at hs

end Graph

/-- A block is one of the instance or references one. -/
def Sees (es : List Entry) (key : NodeRound) (c : BlockID) : Prop :=
  ∃ e ∈ es, e.block = c ∧ ∃ b, (b = c ∨ b ∈ e.deps) ∧ (∃ e' ∈ es, e'.block = b) ∧
    (⟨b.node, b.round⟩ : NodeRound) = key

/-- There is evidence for all that the steps of a trace have met, with the blocks of `es`
as its source. -/
structure Traced (p : Params) (es : List Entry) (trace : List Event) : Prop where
  grounded : ∀ key, AllGrounded p key (fun b => ∃ e ∈ es, e.block = b) (Sees es key) trace
  accounted : Accounted p es trace

theorem Traced.of_cons {older : List Event} (h : Traced p es (ev :: older)) : Traced p es older :=
  ⟨fun key => (h.grounded key).2, h.accounted.2⟩

/-- There is evidence for the steps of every run. -/
theorem Graph.traced_actAll {lastInterpreted : Nat} {acts : List Action}
    (hwf : ∀ e ∈ interpreted acts, e.WellFormed p.peers) :
    Ensures (actAll (new p lastInterpreted) acts) (fun g => Traced p (interpreted acts) g.trace)
      (fun halt => Traced p (interpreted acts) halt.host.trace) := by
  let proposed : BlockID → Prop := fun b => ∃ e ∈ interpreted acts, e.block = b
  have hjustified : ∀ key, Ensures (actAll (new p lastInterpreted) acts)
      (Justified p key proposed (Sees (interpreted acts) key))
      (StopsGrounded p key proposed (Sees (interpreted acts) key)) := fun key =>
    justified_actAll (fun e he => ⟨e, he, rfl⟩)
      fun e he b hb hsees hkey => ⟨e, he, rfl, b, hsees, hb, hkey⟩
  have harchived : Ensures (actAll (new p lastInterpreted) acts) _ _ := archived_actAll hwf
  cases hrun : actAll (new p lastInterpreted) acts with
  | ok g =>
    exact ⟨fun key => ((hjustified key).of_ok hrun).trace, (harchived.of_ok hrun).trace⟩
  | error halt =>
    refine ⟨fun key => ?_, harchived.of_error hrun⟩
    obtain ⟨ev, older, htrace, hall, -⟩ := (hjustified key).of_error hrun
    exact htrace ▸ hall

variable {key : NodeRound} {hash : Hash}

/-- Every step is about a peer and about the round of some block. -/
theorem Traced.key_of_mem (hwf : ∀ e ∈ es, e.WellFormed p.peers) :
    ∀ {trace : List Event}, Traced p es trace → ∀ ev ∈ trace,
      ev.key.node ∈ p.peers ∧ ∃ e ∈ es, e.block.round = ev.key.round
  | [], _ => by simp
  | ev :: older, h => by
    have hbefore := h.of_cons.key_of_mem hwf
    have hanswered : ∀ msg, Answered p older msg →
        msg.nodeRound.node ∈ p.peers ∧ ∃ e ∈ es, e.block.round = msg.nodeRound.round := by
      rintro msg ⟨ev', hev', hanswer⟩
      rw [Event.answer_key hanswer]
      exact hbefore ev' hev'
    intro ev' hev'
    rcases mem_cons.mp hev' with rfl | hev'
    swap
    · exact hbefore ev' hev'
    obtain ⟨block, mem, cause⟩ := ev'
    cases cause with
    | timeout t =>
      obtain ⟨done, e, rest, hsplit, -, hfile⟩ := h.accounted.1 t rfl
      rcases hfile with ⟨e', he', -, hnode, hround, -⟩ | ⟨ev', hev', value, w, hanswer⟩
      · refine ⟨hnode, e', ?_, hround.symm⟩
        rw [hsplit]
        simpa [or_assoc] using Or.inl he'
      · exact hanswered _ ⟨ev', hev', hanswer⟩
    | message sender receiver msg =>
      rcases (h.grounded msg.nodeRound).1.source sender receiver msg rfl rfl with
        hmsg | ⟨value, -, -, ⟨e, he, hblock⟩, -⟩
      · exact hanswered msg hmsg
      · refine ⟨?_, e, he, congrArg BlockID.round hblock⟩
        have hnode := (hwf e he).node
        rwa [hblock] at hnode

/-- An instance that is decided is one of a peer, and of the round of some block. -/
theorem Traced.key_of_certified (h : Traced p es trace) (hwf : ∀ e ∈ es, e.WellFormed p.peers)
    (hcertified : Certified p key trace hash) :
    key.node ∈ p.peers ∧ ∃ e ∈ es, e.block.round = key.round := by
  obtain ⟨w, nodes, hcard, hnodes⟩ := hcertified
  obtain ⟨y, hy⟩ := Finset.card_pos.mp ((Nat.succ_pos _).trans_le hcard)
  obtain ⟨ev, hev, hanswer⟩ := hnodes y hy
  have hkey : key = ev.key := Event.answer_key hanswer
  rw [hkey]
  exact h.key_of_mem hwf ev hev

/-- The blocks of a node that never forks come in the order of their rounds. -/
theorem OneChain.round_lt {peers : List Nat} {done rest : List Entry} {e e' : Entry}
    (hcausal : Causal peers es) (hone : OneChain es x) (hsplit : es = done ++ e :: rest)
    (he' : e' ∈ done) (hx : e.block.node = x) (hx' : e'.block.node = x) :
    e'.block.round < e.block.round := by
  have hbefore := rounds_of_oneChain hcausal hone done (e :: rest) hsplit
  have hnext := rounds_of_oneChain hcausal hone (done ++ [e]) rest (by simp [hsplit])
  rw [filter_append, map_append, hbefore, filter_singleton, hx] at hnext
  simp [range'_1_concat] at hnext
  have hmem : e'.block.round ∈ (done.filter fun e => e.block.node = x).map fun e => e.block.round :=
    mem_map.mpr ⟨e', mem_filter.mpr ⟨he', decide_eq_true hx'⟩, rfl⟩
  rw [hbefore, mem_range'_1] at hmem
  omega

variable {F : Finset Nat} {proposed lasting : BlockID → Prop}

/-- No timeout of the round falls due at a node outside `F`. -/
def Calm (F : Finset Nat) (round : Nat) (trace : List Event) : Prop :=
  ∀ ev ∈ trace, ev.block.node ∉ F → ∀ t, ev.cause = .timeout t → t.round ≠ round

/-- Without timeouts no view but the first is entered: those of `F` are too few to ask
for it. -/
theorem Calm.not_answered (hcalm : Calm F key.round trace) (hfaults : F.card ≤ p.faults)
    (hall : AllGrounded p key proposed lasting trace) (hash : Hash) (w : Nat) :
    ¬ Answered p trace (.prePrepare ⟨hash, key.node, key.round, w⟩) := by
  intro hanswered
  obtain ⟨ev, older, announcer, hsuffix, hall, hnewView⟩ := hall.of_prePrepare hanswered
  obtain ⟨ev', older', vote, hsuffix', hall', -, -, -, vcs, hsize, -, hvotes⟩ :=
    hall.of_newView rfl hnewView
  have hvoters : vcs.domain ⊆ F := by
    intro voter hvoter
    obtain ⟨value, hvalue⟩ := Option.isSome_iff_exists.mp (mem_domain.mp hvoter)
    obtain ⟨ballot, hballot, w', hcast⟩ := hvotes voter value hvalue
    obtain ⟨before, hbefore, hall'', hviewChange⟩ := hall'.of_ballot hballot hcast rfl
    obtain ⟨cause, before', t, hcause, -, -, htimeout, hkey, -, hnode, -⟩ :=
      hall''.of_viewChange rfl hviewChange
    by_contra hhonest
    apply hcalm cause _ (hnode ▸ hhonest) t htimeout
    · rw [← hkey, Event.key, htimeout]
    · apply older_subset hsuffix
      apply hsuffix'.subset
      apply older_subset hbefore
      exact hcause.subset mem_cons_self
  have hcard := Finset.card_le_card hvoters
  rw [← size_eq_card_domain, hsize] at hcard
  unfold Params.quorum2f1 at hcard
  omega

/-- No timeout of the last round falls due at a node that never forks: such a node files
it at its own block of the round, under another round, and has no later block. -/
theorem Traced.calm (hcausal : Causal p.peers es) (hone : ∀ x, x ∉ F → OneChain es x)
    (hfaults : F.card ≤ p.faults) (hlast : ∀ e ∈ es, e.block.round ≤ round) :
    ∀ {trace : List Event}, Traced p es trace → Calm F round trace
  | [], _ => by simp [Calm]
  | ev :: older, h => by
    have hbefore := h.of_cons.calm hcausal hone hfaults hlast
    intro ev' hev' hhonest t ht hround
    rcases mem_cons.mp hev' with rfl | hev'
    swap
    · exact hbefore ev' hev' hhonest t ht hround
    obtain ⟨done, e, rest, hsplit, hblock, hfile⟩ := h.accounted.1 t ht
    subst hround
    rcases hfile with ⟨e', he', hnode, -, hfiled, hdeadline⟩ | ⟨ev'', hev'', value, w, hanswer⟩
    · rcases mem_append.mp he' with he' | he'
      · have hlt := (hone _ hhonest).round_lt hcausal hsplit he' (congrArg BlockID.node hblock) hnode
        have hle := hlast e (by simp [hsplit])
        omega
      · rw [mem_singleton.mp he'] at hfiled hdeadline
        exact hdeadline (congrArg BlockID.round hblock.symm)
    · exact hbefore.not_answered hfaults (h.of_cons.grounded ⟨t.node, t.round⟩) value w
        ⟨ev'', hev'', hanswer⟩

end Blockmania
