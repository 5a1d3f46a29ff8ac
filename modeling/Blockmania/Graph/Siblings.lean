/-
# Blocks with the same predecessor

A node that forks has two blocks start from the state of one predecessor. Each gets
a clone, and the clones share vote maps and arrays of timeouts. What one block counts
into a shared vote map the other block finds there, and so does the predecessor. What
one block files into the room of a shared array is overwritten by what the other files
into the same cells.

As long as neither happens, and no round is delivered in between that takes something
from the state of the predecessor or from the blocks they reference, the two blocks can be
interpreted in either order.
-/

import Blockmania.Graph.Actions
import Blockmania.Interpreter.Sharing
import Blockmania.Interpreter.Simulation

namespace Blockmania

open Math List FiniteMap

namespace Graph

/-- The steps recorded since, oldest first. -/
def since (g g' : Graph) : List Event := (g'.trace.take (g'.trace.length - g.trace.length)).reverse

theorem since_of_trace {g g' : Graph} {evs : List Event} (h : g'.trace = evs.reverse ++ g.trace) :
    g.since g' = evs := by
  rw [since, h, length_append, Nat.add_sub_cancel, take_left, reverse_reverse]

theorem host_logs_trace (block : BlockID) : host.Logs block (fun g => g.trace.reverse) where
  observe _ _ _ := reverse_cons
  deliver _ _ _ h := congrArg List.reverse (advances_of_deliver h).trace

/-- Every state lies in memory that was allocated. -/
def Allocated (g : Graph) : Prop :=
  ∀ (b : BlockID) (s : State), g.statess[b]? = some s → s.Settled g.heap

/-- The memory a block starts from. -/
def opened (g : Graph) (e : Entry) : Memory := findOrCreateState g.heap g.statess[e.prev]? g.round e

/-- A block starts from a clone, or from nothing. -/
theorem opened_cases (g : Graph) (e : Entry) :
    (∃ s, g.statess[e.prev]? = some s ∧ g.opened e = ⟨g.heap.tick, s.clone g.round⟩) ∨
      g.opened e = ⟨g.heap.tick, State.fresh⟩ ∧ (e.prev.valid = true → g.statess[e.prev]? = none) := by
  unfold opened findOrCreateState
  split
  · cases hprev : g.statess[e.prev]? with
    | none => exact .inr ⟨rfl, fun _ => rfl⟩
    | some s => exact .inl ⟨s, rfl, rfl⟩
  · rename_i hinvalid
    exact .inr ⟨rfl, fun hvalid => absurd hvalid hinvalid⟩

theorem opened_of_invalid {g : Graph} {e : Entry} (h : ¬ e.prev.valid = true) :
    g.opened e = ⟨g.heap.tick, State.fresh⟩ := by
  unfold opened findOrCreateState
  rw [if_neg h]

theorem inst_fresh (heap : Heap) (key : NodeRound) :
    Memory.inst ⟨heap, State.fresh⟩ key = Instance.empty := by
  simp [Memory.inst, State.fresh, Data.empty, Instance.empty]

theorem timeoutsAt_fresh (heap : Heap) (d : Nat) : Memory.timeoutsAt ⟨heap, State.fresh⟩ d = [] := by
  simp [Memory.timeoutsAt, State.fresh, Heap.read, Slice.nil]

theorem Allocated.opened {g : Graph} (h : g.Allocated) (e : Entry) : (g.opened e).state.Settled g.heap := by
  unfold Graph.opened findOrCreateState
  dsimp only
  split
  · cases hprev : g.statess[e.prev]? with
    | none => exact State.Settled.fresh _
    | some s => exact (h e.prev s hprev).clone g.round
  · exact State.Settled.fresh _

/-- What the interpretation of a block does to a graph. -/
theorem Allocated.process {g g' : Graph} {e : Entry} (h : g.Allocated) (hprocess : g.process e = .ok g') :
    ∃ last mem, interpret host g.params g.round g.heap g.statess[e.prev]? g e = .ok (last, mem) ∧
      g' = last.store e.block mem ∧ g'.Allocated ∧
      Writes (g.opened e) (filedBy g.params (g.opened e).state.delay e (g.since g')) (g.since g') mem := by
  obtain ⟨last, mem, hinterpret, rfl⟩ := process_eq_ok hprocess
  obtain ⟨evs, htrace, -, hwrites⟩ := writes_interpret (host_logs_trace e.block) (h.opened e).placed hinterpret
  have hsince : g.since (last.store e.block mem) = evs := by
    apply since_of_trace
    have hreverse := congrArg List.reverse htrace
    rwa [reverse_reverse, reverse_append, reverse_reverse] at hreverse
  refine ⟨last, mem, hinterpret, rfl, fun b s hs => ?_, hsince ▸ hwrites⟩
  simp only [store, lookup_insert] at hs
  split at hs
  · cases hs
    refine ⟨?_, hwrites.filed.placed⟩
    have hclock : mem.heap.clock = g.heap.clock + 1 := hwrites.filed.clock
    apply hwrites.owns (· ≤ mem.heap.clock)
    · exact hclock.ge
    · exact (h.opened e).owns.mono fun epoch hepoch => by omega
  · obtain ⟨_, hadvances, -⟩ := (movesOn_interpret _ _ _ _ _ _).of_ok hinterpret
    exact (h b s (hadvances.statess b s hs)).of_filed hwrites.filed

theorem allocated_actAll {p : Params} {lastInterpreted : Nat} {acts : List Action} :
    Ensures (actAll (new p lastInterpreted) acts) Allocated (fun _ => True) := by
  refine lasts_actAll (fun _ _ _ hsettled => hsettled) (fun g e hsettled => ?_) ?_
  · cases hprocess : g.process e with
    | error halt => trivial
    | ok g' =>
      obtain ⟨-, -, -, -, hnext, -⟩ := hsettled.process hprocess
      exact hnext
  · intro b s hs
    simp [new] at hs

end Graph

/-! ## Independence -/

/-- Two states hold the same, each seen through its heap. -/
structure Memory.SameContent (mem mem' : Memory) : Prop where
  inst : ∀ key, mem.inst key = mem'.inst key
  timeoutsAt : ∀ d, mem.timeoutsAt d = mem'.timeoutsAt d
  delay : mem.state.delay = mem'.state.delay
  timeout : mem.state.timeout = mem'.state.timeout
  out : mem.state.out = mem'.state.out

variable {mem mem' : Memory}

theorem Memory.SameContent.trans {mem'' : Memory} (h : mem.SameContent mem')
    (h' : mem'.SameContent mem'') : mem.SameContent mem'' where
  inst key := (h.inst key).trans (h'.inst key)
  timeoutsAt d := (h.timeoutsAt d).trans (h'.timeoutsAt d)
  delay := h.delay.trans h'.delay
  timeout := h.timeout.trans h'.timeout
  out := h.out.trans h'.out

theorem Memory.SameContent.symm (h : mem.SameContent mem') :
    mem'.SameContent mem where
  inst key := (h.inst key).symm
  timeoutsAt d := (h.timeoutsAt d).symm
  delay := h.delay.symm
  timeout := h.timeout.symm
  out := h.out.symm

/-- Two states show the same, apart from the delays. -/
structure Memory.Alike (mem mem' : Memory) : Prop where
  inst : ∀ key, mem.inst key = mem'.inst key
  timeoutsAt : ∀ d, mem.timeoutsAt d = mem'.timeoutsAt d
  timeout : mem.state.timeout = mem'.state.timeout
  out : mem.state.out = mem'.state.out

/-- Two entries that start from the state of the block `a`. Blocks do not reference
blocks of their own node besides the predecessor. -/
structure Siblings (a : BlockID) (e₁ e₂ : Entry) : Prop where
  valid : a.valid = true
  prev₁ : e₁.prev = a
  prev₂ : e₂.prev = a
  fresh₁ : e₁.block ≠ a
  fresh₂ : e₂.block ≠ a
  apart₁ : e₂.block ∉ e₁.deps
  apart₂ : e₁.block ∉ e₂.deps

theorem Siblings.symm {a : BlockID} {e₁ e₂ : Entry} (h : Siblings a e₁ e₂) : Siblings a e₂ e₁ :=
  ⟨h.valid, h.prev₂, h.prev₁, h.fresh₂, h.fresh₁, h.apart₂, h.apart₁⟩

namespace Graph

end Graph

/-- Two lists of timeouts differ in a cell that both are written to, and one of them
is not moved out of the room. -/
def clash (room : Nat) (ts ts' : List Timeout) : Bool :=
  (decide (ts.length ≤ room) || decide (ts'.length ≤ room)) &&
    ((ts.zip ts').take room).any fun x => decide (x.1 ≠ x.2)

namespace Graph

/-- A block keeps its state while an entry is interpreted: no round is delivered, or none that
prunes it. -/
def keeps (g : Graph) (e : Entry) (g' : Graph) (b : BlockID) : Bool :=
  decide (g'.callbacks.length = g.callbacks.length) ||
    decide (b ≠ e.block) && (g.statess[b]?.isNone || g'.statess[b]?.isSome)

variable {g g' : Graph} {a : BlockID} {s : State} {e : Entry}

/-- A block starts from a clone of the state of its predecessor. -/
theorem opened_eq (hvalid : e.prev.valid = true) (hstate : g.statess[e.prev]? = some s) :
    g.opened e = ⟨g.heap.tick, s.clone g.round⟩ := by
  unfold opened findOrCreateState
  rw [if_pos hvalid, hstate]

/-- A block adds its own state, after steps and deliveries. -/
theorem advances_process (hprocess : g.process e = .ok g') :
    ∃ last mem evs, g' = last.store e.block mem ∧ Advances evs g last := by
  obtain ⟨last, mem, hinterpret, rfl⟩ := process_eq_ok hprocess
  obtain ⟨evs, hadvances, -⟩ := (movesOn_interpret _ _ _ _ _ _).of_ok hinterpret
  exact ⟨last, mem, evs, rfl, hadvances⟩

/-- As long as no round is delivered, a block adds its own state and forgets none. -/
theorem idle_process (hprocess : g.process e = .ok g')
    (hidle : g'.callbacks.length = g.callbacks.length) :
    g'.round = g.round ∧ g'.params = g.params ∧
      ∀ b, b ≠ e.block → g'.statess[b]? = g.statess[b]? := by
  obtain ⟨last, mem, evs, rfl, hadvances⟩ := advances_process hprocess
  obtain ⟨hstatess, hround⟩ := hadvances.idle hidle
  refine ⟨hround, hadvances.params, fun b hb => ?_⟩
  change (last.statess.insert e.block mem.state)[b]? = _
  rw [lookup_insert_of_ne _ hb.symm, hstatess]

/-- The callback is never uncalled. -/
theorem callbacks_process (hprocess : g.process e = .ok g') :
    g.callbacks.length ≤ g'.callbacks.length := by
  obtain ⟨last, mem, evs, rfl, hadvances⟩ := advances_process hprocess
  exact hadvances.callbacks

/-- A state that is still there is the same. -/
theorem Advances.statess_eq {evs : List Event} (h : Advances evs g g') {b : BlockID}
    (hkept : g.statess[b]?.isSome → g'.statess[b]?.isSome) : g'.statess[b]? = g.statess[b]? := by
  refine Option.ext fun s => ⟨h.statess b s, fun hs => ?_⟩
  obtain ⟨t, ht⟩ := Option.isSome_iff_exists.mp (hkept (by rw [hs]; rfl))
  rw [ht, ← h.statess b t ht, hs]

/-- A block that keeps its state keeps it to the end of the interpretation. -/
theorem statess_of_keeps {last : Graph} {mem : Memory} {evs : List Event} {b : BlockID}
    (h : Advances evs g last) (hkeeps : g.keeps e (last.store e.block mem) b = true) :
    last.statess[b]? = g.statess[b]? := by
  rw [keeps, Bool.or_eq_true, decide_eq_true_eq, Bool.and_eq_true, decide_eq_true_eq,
    Bool.or_eq_true] at hkeeps
  rcases hkeeps with hidle | ⟨hne, hkept⟩
  · rw [(h.idle hidle).1]
  · have hlast : (last.store e.block mem).statess[b]? = last.statess[b]? :=
      lookup_insert_of_ne _ hne.symm _
    rw [hlast, Option.isNone_iff_eq_none, ← Option.not_isSome_iff_eq_none, ← imp_iff_not_or] at hkept
    exact h.statess_eq hkept

/-- What `separate` says about the two interpretations. -/
structure Apart (g : Graph) (s : State) (e₁ e₂ : Entry) (g₁ g₁₂ : Graph) : Prop where
  clone : s.clone g₁.round = s.clone g.round
  keeps : ∀ b ∈ e₁.prev :: (e₁.deps ++ e₂.deps), g.keeps e₁ g₁ b = true ∧ g₁.keeps e₂ g₁₂ b = true
  votes : ∀ ev ∈ g.since g₁ ++ g₁.since g₁₂, ev.overwrites = false
  slots : ∀ (d : Nat) (slice : Slice), s.timeouts[d]? = some slice → g.round ≤ d →
    clash (slice.cap - slice.len) (filedAt (filedBy g.params s.delay e₁ (g.since g₁)) d)
      (filedAt (filedBy g.params s.delay e₂ (g₁.since g₁₂)) d) = false

section Apart

variable {e₁ e₂ : Entry} {g₁ g₁₂ : Graph}

end Apart

/-- Steps and deliveries lead from one graph to another. -/
def Follows (g g' : Graph) : Prop := ∃ evs, Advances evs g g'

/-- Two graphs that are moved on side by side. -/
theorem coupling_follows (g₁ g₂ : Graph) : Coupling host host (fun _ => true)
    (fun g g' => Follows g₁ g ∧ Follows g₂ g') where
  observe_left ev h := ⟨⟨_, h.1.choose_spec.trans (Advances.observe _ ev)⟩, h.2⟩
  observe_right ev h := ⟨h.1, ⟨_, h.2.choose_spec.trans (Advances.observe _ ev)⟩⟩
  deliver_left _ hdrop _ := absurd hdrop (by decide)
  deliver_right _ hdrop _ := absurd hdrop (by decide)
  deliver_both h _ hdeliver hdeliver' :=
    ⟨⟨_, h.1.choose_spec.trans (advances_of_deliver hdeliver)⟩,
      ⟨_, h.2.choose_spec.trans (advances_of_deliver hdeliver')⟩⟩

/-- One of the blocks has lost its state. -/
theorem lasts_lost (g : Graph) (deps : List BlockID) : host.Lasts (fun h : Graph =>
    ∃ dep ∈ deps, g.statess[dep]?.isSome ∧ h.statess[dep]? = none) where
  observe _ h := h
  deliver h hdeliver := by
    obtain ⟨dep, hdep, hsome, hnone⟩ := h
    refine ⟨dep, hdep, hsome, Option.eq_none_iff_forall_ne_some.mpr fun s hs => ?_⟩
    cases hnone.symm.trans ((advances_of_deliver hdeliver).statess dep s hs)

variable {deps : List BlockID} {mem : Memory} {p : Params} {r : Graph × Memory} {g₁' g₂ g₂' : Graph}

/-- A referenced block without a state is passed over. -/
theorem conduct_of_silent {block silent : BlockID} (hsilent : g.statess[silent]? = none)
    (h : conduct host p block (silent :: deps) g mem = .ok r) :
    conduct host p block deps g mem = .ok r := by
  have hlasts : host.Lasts (fun g => g.statess[silent]? = none) := by
    refine ⟨fun _ hnone => hnone, fun {g d g'} hnone hdeliver => ?_⟩
    cases hstate : g'.statess[silent]? with
    | none => rfl
    | some s => cases hnone.symm.trans ((advances_of_deliver hdeliver).statess silent s hstate)
  unfold conduct at h ⊢
  obtain ⟨⟨mid, own⟩, hown, h⟩ := bind_eq_ok.mp h
  have hmid : mid.host.statess[silent]? = none :=
    (hlasts.processMessages [] (hlasts.expireAll mem hsilent)).of_ok hown
  have hnothing : host.output mid.host silent = [] := by
    change (mid.host.statess[silent]?.map State.out).getD [] = []
    rw [hmid]
    rfl
  have hskip : processDeps host p block (silent :: deps) mid = processDeps host p block deps mid := by
    rw [processDeps, hnothing]
    cases hrest : processDeps host p block deps mid with
    | error halt =>
      change (processDeps host p block deps mid >>= _) = _
      rw [hrest]
      rfl
    | ok r =>
      change (processDeps host p block deps mid >>= _) = _
      rw [hrest]
      rfl
  refine bind_eq_ok.mpr ⟨(mid, own), hown, ?_⟩
  dsimp only at h ⊢
  rwa [hskip] at h

/-- The entry references the given blocks, and at most one more, which has no state. -/
def Receives (g : Graph) (e : Entry) (deps : List BlockID) : Prop :=
  e.deps = deps ∨ ∃ silent, e.deps = silent :: deps ∧ g.statess[silent]? = none

theorem Receives.conduct (h : g.Receives e deps)
    (hrun : Blockmania.conduct host p e.block e.deps g mem = .ok r) :
    Blockmania.conduct host p e.block deps g mem = .ok r := by
  rcases h with hdeps | ⟨silent, hdeps, hsilent⟩
  · rwa [hdeps] at hrun
  · rw [hdeps] at hrun
    exact conduct_of_silent hsilent hrun

/-- No state of a referenced block is lost in the interpretation. -/
theorem not_lost {last : Graph}
    (hinterpret : interpret host g.params g.round g.heap g.statess[e.prev]? g e = .ok (last, mem))
    (hkept : ∀ dep ∈ e.deps, g.keeps e (last.store e.block mem) dep = true)
    (hdeps : g.Receives e deps) :
    ¬ ∃ dep ∈ deps, g.statess[dep]?.isSome ∧ last.statess[dep]? = none := by
  rintro ⟨dep, hdep, hsome, hnone⟩
  obtain ⟨_, hadvances, -⟩ := (movesOn_interpret _ _ _ _ _ _).of_ok hinterpret
  have hmem : dep ∈ e.deps := by
    rcases hdeps with heq | ⟨silent, heq, -⟩ <;> simp [heq, hdep]
  rw [← statess_of_keeps hadvances (hkept dep hmem), hnone] at hsome
  cases hsome

/-- A block is interpreted alike in two graphs that start from the same, come to
the same timeout value and show the same outputs of the blocks it references, as long
as these keep their states. -/
theorem alike_process {g₁ : Graph} {e₁ e₂ : Entry} (hparams : g₁.params = g₂.params)
    (hblock : e₁.block = e₂.block) (hdeps₁ : g₁.Receives e₁ deps) (hdeps₂ : g₂.Receives e₂ deps)
    (hinst : ∀ key, (g₁.opened e₁).inst key = (g₂.opened e₂).inst key)
    (htimeouts : ∀ d, (g₁.opened e₁).timeoutsAt d = (g₂.opened e₂).timeoutsAt d)
    (hvalue : timeoutValue g₁.params (recordDelays e₁.block.round e₁.deps (g₁.opened e₁).state.delay) =
      timeoutValue g₁.params (recordDelays e₂.block.round e₂.deps (g₂.opened e₂).state.delay))
    (houtputs : ∀ dep ∈ deps, g₁.statess[dep]?.map State.out = g₂.statess[dep]?.map State.out)
    (h₁ : g₁.process e₁ = .ok g₁') (h₂ : g₂.process e₂ = .ok g₂')
    (hkept₁ : ∀ dep ∈ e₁.deps, g₁.keeps e₁ g₁' dep = true)
    (hkept₂ : ∀ dep ∈ e₂.deps, g₂.keeps e₂ g₂' dep = true) :
    ∃ t₁ t₂, g₁'.statess[e₁.block]? = some t₁ ∧ g₂'.statess[e₂.block]? = some t₂ ∧
      Memory.Alike ⟨g₁'.heap, t₁⟩ ⟨g₂'.heap, t₂⟩ := by
  obtain ⟨last, mem, hinterpret, rfl⟩ := process_eq_ok h₁
  obtain ⟨last', mem', hinterpret', rfl⟩ := process_eq_ok h₂
  refine ⟨mem.state, mem'.state, lookup_insert_self _ _ _, lookup_insert_self _ _ _, ?_⟩
  have hstart : Agree (fun _ => true) (fun _ => True) ((g₁.opened e₁).schedule g₁.params e₁)
      ((g₂.opened e₂).schedule g₁.params e₂) :=
    Agree.schedule (fun key _ => hinst key) (fun d _ => htimeouts d ▸ SameKept.refl _) hblock hvalue
  have houtput : ∀ dep ∈ deps, ∀ {h h' : Graph}, Follows g₁ h ∧ Follows g₂ h' →
      (¬ ∃ dep ∈ deps, g₁.statess[dep]?.isSome ∧ h.statess[dep]? = none) →
      (¬ ∃ dep ∈ deps, g₂.statess[dep]?.isSome ∧ h'.statess[dep]? = none) →
      SameKept (keptMessage fun _ => true) (host.output h dep) (host.output h' dep) := by
    rintro dep hdep h h' ⟨⟨evs, hadvances⟩, ⟨evs', hadvances'⟩⟩ hkept hkept'
    have hstatess := hadvances.statess_eq fun hsome =>
      Option.isSome_iff_ne_none.mpr fun hnone => hkept ⟨dep, hdep, hsome, hnone⟩
    have hstatess' := hadvances'.statess_eq fun hsome =>
      Option.isSome_iff_ne_none.mpr fun hnone => hkept' ⟨dep, hdep, hsome, hnone⟩
    change SameKept _ ((h.statess[dep]?.map State.out).getD []) ((h'.statess[dep]?.map State.out).getD [])
    rw [hstatess, hstatess', houtputs dep hdep]
    exact SameKept.refl _
  have hrun := hdeps₁.conduct hinterpret
  have hrun' := hdeps₂.conduct hinterpret'
  rw [← hparams, ← hblock] at hrun'
  obtain ⟨-, hagree, hout⟩ := coupled_conduct (coupling_follows g₁ g₂) (lasts_lost g₁ deps)
    (lasts_lost g₂ deps) trivial houtput ⟨⟨[], Advances.refl g₁⟩, ⟨[], Advances.refl g₂⟩⟩ hstart hrun
    hrun' (not_lost hinterpret hkept₁ hdeps₁) (not_lost hinterpret' hkept₂ hdeps₂)
  refine ⟨fun key => hagree.inst key rfl, fun d => ?_, hagree.timeout, ?_⟩
  · exact (hagree.timeoutsAt d trivial).eq_of_all fun _ => rfl
  · exact hout.eq_of_all fun _ => rfl

/-- The delays of a block that was interpreted. -/
theorem delay_process (h : g.process e = .ok g') (hs : g'.statess[e.block]? = some s) :
    s.delay = recordDelays e.block.round e.deps (g.opened e).state.delay ∧
      s.timeout = timeoutValue g.params s.delay := by
  obtain ⟨last, mem, hinterpret, rfl⟩ := process_eq_ok h
  obtain rfl : mem.state = s := Option.some.inj ((lookup_insert_self _ _ _).symm.trans hs)
  have hdelay := (delay_conduct hinterpret).trans (delay_schedule _ _ _)
  rw [timeout_conduct hinterpret, timeout_schedule, hdelay]
  exact ⟨rfl, rfl⟩

end Graph

end Blockmania
