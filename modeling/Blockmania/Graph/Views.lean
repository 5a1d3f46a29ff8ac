/-
# Views along a chain

The view of an instance is written by timeouts, by quorums against a view and by
announcements, while a pending timeout carries the view it was filed for. That view
is never ahead of the one the chain is in: a timeout is filed when its view is
entered, and views do not go back. A timeout that fires therefore finds the very view
it was filed for, asks for the next one and enters it, so it asks once.

This is about the timeouts a chain has filed itself. Cloned states share arrays of
timeouts, and a fork may put its own timeouts, of views this chain has not entered,
where this chain looks for its own.
-/

import Blockmania.Graph.Consumption

namespace Blockmania

open Math List
open BlockGraph (actions)

namespace Event

/-- The view that a step asks for with a ViewChange about the instance. -/
def asked (p : Params) (key : NodeRound) (ev : Event) : Option Nat :=
  match ev.answer p with
  | some (.viewChange m) => if (⟨m.node, m.round⟩ : NodeRound) = key then some m.view else none
  | _ => none

/-- The view after the one that runs out is a 32-bit value. -/
def fits (ev : Event) : Bool :=
  match ev.cause with
  | .timeout t => decide (t.view + 1 < 2 ^ 32)
  | .message .. => true

theorem asked_eq_some {p : Params} {key : NodeRound} {ev : Event} {w : Nat} :
    ev.asked p key = some w ↔
      ∃ m, ev.answer p = some (.viewChange m) ∧ (⟨m.node, m.round⟩ : NodeRound) = key ∧ m.view = w := by
  unfold asked
  split
  · rename_i m hanswer
    rw [hanswer]
    simp
  · rename_i hother
    constructor
    · intro h
      cases h
    · rintro ⟨m, hanswer, -⟩
      exact absurd hanswer (hother m)

end Event

/-- No message moves the view of an instance back, and a view that is entered is the
one the instance is in then. -/
theorem Instance.current_of_transition {p : Params} {i : Instance} {sender receiver : Nat}
    {msg : Message} {o : Outcome} (h : i.Transition p sender receiver msg o) :
    i.current ≤ o.inst.current ∧ (∀ m, o.resp = some (.prePrepare m) → o.inst.current = m.view) ∧
      ∀ m, o.resp ≠ some (.viewChange m) := by
  cases h with
  | closed | drop | accept | note | acknowledge | decide | protest =>
    refine ⟨le_rfl, fun m hm => ?_, fun m hm => ?_⟩ <;> cases hm
  | commit =>
    refine ⟨?_, fun m hm => ?_, fun m hm => ?_⟩
    · dsimp only
      split <;> exact le_rfl
    · cases hm
    · cases hm
  | depose _ hview =>
    refine ⟨hview, fun m hm => ?_, fun m hm => ?_⟩ <;> cases hm
  | enter _ hview =>
    refine ⟨hview, fun m hm => ?_, fun m hm => ?_⟩
    · cases hm
      rfl
    · cases hm

/-- The timeouts of an instance are of views it has reached. -/
def Memory.Pending (key : NodeRound) (mem : Memory) : Prop :=
  ∀ d, ∀ t ∈ mem.timeoutsAt d, (⟨t.node, t.round⟩ : NodeRound) = key → t.view ≤ (mem.inst key).current

theorem Memory.Pending.of_same {key : NodeRound} {mem mem' : Memory} (h : mem'.Pending key)
    (hsame : mem.Same mem') : mem.Pending key := by
  intro d t ht htkey
  rw [← hsame.inst key]
  exact h d t (hsame.timeoutsAt d ▸ ht) htkey

variable {p : Params} {key : NodeRound} {ev : Event} {reply : Reply}

/-- What a step does to the view of an instance, if a timeout that falls due is of
a view the instance has reached: the view does not go back, a ViewChange asks for the
view after the one that ran out, which is then the current one, and the timeout of a
view is filed when the view is entered. -/
theorem view_of_reply (hreply : ev.reply p = .ok reply) (hfits : ev.fits = true)
    (hdue : ∀ t, ev.cause = .timeout t → (⟨t.node, t.round⟩ : NodeRound) = key →
      t.view ≤ (ev.mem.inst key).current) :
    (ev.mem.inst key).current ≤ (reply.mem.inst key).current ∧
    (∀ w, ev.asked p key = some w → w = (ev.mem.inst key).current + 1 ∧
      (reply.mem.inst key).view = some w ∧ ∃ t, ev.cause = .timeout t ∧ (ev.mem.inst key).current = t.view) ∧
    ∀ f ∈ ev.filed p, (⟨f.timeout.node, f.timeout.round⟩ : NodeRound) = key →
      f.timeout.view ≤ (reply.mem.inst key).current := by
  by_cases hkey : key = ev.key
  swap
  · -- the step is about another instance
    have hsame := Event.reply_inst hreply hkey
    refine ⟨(congrArg Instance.current hsame).ge, fun w hw => ?_, fun f hf hfkey => ?_⟩
    · obtain ⟨m, hanswer, hm, -⟩ := Event.asked_eq_some.mp hw
      exact absurd (hm.symm.trans (Event.answer_key hanswer)) hkey
    · exact absurd (hfkey.symm.trans (Event.filed_key hf)) hkey
  subst hkey
  have hanswer := Event.answer_of_reply hreply
  rcases Event.reply_cases hreply with ⟨t, hcause, houtcome⟩ | ⟨sender, receiver, msg, hcause, htransition⟩
  · have htkey : (⟨t.node, t.round⟩ : NodeRound) = ev.key := by rw [Event.key, hcause]
    have hview := hdue t hcause htkey
    rcases (ev.mem.inst ev.key).expire_cases ev.key ev.block.node t.view with
      ⟨hexpired, -⟩ | ⟨hexpired, -, hle⟩
    · obtain ⟨hinst, hresp⟩ := Prod.mk.inj (houtcome.trans hexpired)
      rw [hresp] at hanswer
      refine ⟨(congrArg Instance.current hinst).ge, fun w hw => ?_, fun f hf _ => ?_⟩
      · obtain ⟨m, hm, -⟩ := Event.asked_eq_some.mp hw
        cases hanswer.symm.trans hm
      · rw [Event.filed, hanswer] at hf
        cases hf
    · obtain ⟨hinst, hresp⟩ := Prod.mk.inj (houtcome.trans hexpired)
      rw [hresp] at hanswer
      have hsame : (ev.mem.inst ev.key).current = t.view := le_antisymm hle hview
      have hsmall : t.view + 1 < 2 ^ 32 := by
        rw [Event.fits, hcause] at hfits
        exact of_decide_eq_true hfits
      have hnext : u32 (t.view + 1) = t.view + 1 := Nat.mod_eq_of_lt hsmall
      refine ⟨?_, fun w hw => ?_, fun f hf _ => ?_⟩
      · rw [hinst, hsame, hnext]
        exact Nat.le_succ _
      · obtain ⟨m, hm, -, rfl⟩ := Event.asked_eq_some.mp hw
        cases hanswer.symm.trans hm
        rw [hinst, hsame, hnext]
        exact ⟨rfl, rfl, t, hcause, rfl⟩
      · rw [Event.filed, hanswer] at hf
        cases hf
  · obtain ⟨hle, henter, hnone⟩ := Instance.current_of_transition htransition
    refine ⟨hle, fun w hw => ?_, fun f hf _ => ?_⟩
    · obtain ⟨m, hm, -⟩ := Event.asked_eq_some.mp hw
      exact absurd (hanswer.symm.trans hm) (hnone m)
    · rw [Event.filed, hanswer] at hf
      cases hresp : reply.resp with
      | none =>
        rw [hresp] at hf
        cases hf
      | some msg =>
        rw [hresp] at hf
        cases msg with
        | prePrepare m =>
          obtain rfl := mem_singleton.mp hf
          exact (henter m hresp).ge
        | prepare m | commit m | viewChange m | newView m => cases hf

/-- The timeouts stay those of views reached. -/
theorem Memory.Pending.of_reply (h : ev.mem.Pending key) (hreply : ev.reply p = .ok reply)
    (hfits : ev.fits = true)
    (hdue : ∀ t, ev.cause = .timeout t → (⟨t.node, t.round⟩ : NodeRound) = key →
      t.view ≤ (ev.mem.inst key).current) : reply.mem.Pending key := by
  obtain ⟨hle, -, hfiled⟩ := view_of_reply hreply hfits hdue
  intro d t ht htkey
  rw [(Event.effect hreply).timeoutsAt, mem_append] at ht
  rcases ht with ht | ht
  · exact (h d t ht htkey).trans hle
  · obtain ⟨f, hf, rfl⟩ := mem_map.mp ht
    exact hfiled f (mem_filter.mp hf).1 htkey

/-- Along these steps the view of an instance never goes back, a ViewChange asks for
each view at most once, and it asks for the view that is then stored, the one after
the view that ran out. -/
structure Forward (p : Params) (key : NodeRound) (evs : List Event) : Prop where
  step : ∀ ev ∈ evs, ∀ reply, ev.reply p = .ok reply →
    (ev.mem.inst key).current ≤ (reply.mem.inst key).current
  next : evs.Pairwise fun ev later => ∀ reply, ev.reply p = .ok reply →
    (reply.mem.inst key).current ≤ (later.mem.inst key).current
  once : evs.Pairwise fun ev later => ∀ w, ev.asked p key = some w → later.asked p key ≠ some w
  stored : ∀ ev ∈ evs, ∀ w, ev.asked p key = some w → ∃ t reply, ev.cause = .timeout t ∧
    ev.reply p = .ok reply ∧ (reply.mem.inst key).view = some w ∧ (ev.mem.inst key).current = t.view

/-- The steps move forward and have got to no view past `v`. -/
structure Behind (p : Params) (key : NodeRound) (evs : List Event) (v : Nat) : Prop where
  forward : Forward p key evs
  views : ∀ ev ∈ evs, ∀ reply, ev.reply p = .ok reply → (reply.mem.inst key).current ≤ v
  asked : ∀ ev ∈ evs, ∀ w, ev.asked p key = some w → w ≤ v

namespace Behind

variable {evs : List Event} {v : Nat}

theorem nil (p : Params) (key : NodeRound) (v : Nat) : Behind p key [] v :=
  ⟨⟨by simp, Pairwise.nil, Pairwise.nil, by simp⟩, by simp, by simp⟩

/-- One more step. -/
theorem concat (h : Behind p key evs (ev.mem.inst key).current) (hreply : ev.reply p = .ok reply)
    (hfits : ev.fits = true)
    (hdue : ∀ t, ev.cause = .timeout t → (⟨t.node, t.round⟩ : NodeRound) = key →
      t.view ≤ (ev.mem.inst key).current) :
    Behind p key (evs ++ [ev]) (reply.mem.inst key).current := by
  obtain ⟨hle, hasked, -⟩ := view_of_reply hreply hfits hdue
  have hsame : ∀ reply', ev.reply p = .ok reply' → reply' = reply := fun reply' hreply' =>
    Except.ok.inj (hreply'.symm.trans hreply)
  refine ⟨⟨fun ev' hev' => ?_, ?_, ?_, fun ev' hev' => ?_⟩, fun ev' hev' => ?_, fun ev' hev' => ?_⟩
  · rcases mem_append.mp hev' with hev' | hev'
    · exact h.forward.step ev' hev'
    · rw [mem_singleton.mp hev']
      intro reply' hreply'
      rw [hsame reply' hreply']
      exact hle
  · rw [pairwise_append]
    refine ⟨h.forward.next, pairwise_singleton _ _, fun ev' hev' later hlater => ?_⟩
    rw [mem_singleton.mp hlater]
    exact h.views ev' hev'
  · rw [pairwise_append]
    refine ⟨h.forward.once, pairwise_singleton _ _, fun ev' hev' later hlater w hw hagain => ?_⟩
    rw [mem_singleton.mp hlater] at hagain
    have hbefore := h.asked ev' hev' w hw
    have hnow := (hasked w hagain).1
    omega
  · rcases mem_append.mp hev' with hev' | hev'
    · exact h.forward.stored ev' hev'
    · rw [mem_singleton.mp hev']
      intro w hw
      obtain ⟨-, hstored, t, hcause, hview⟩ := hasked w hw
      exact ⟨t, reply, hcause, hreply, hstored, hview⟩
  · rcases mem_append.mp hev' with hev' | hev'
    · exact fun reply' hreply' => (h.views ev' hev' reply' hreply').trans hle
    · rw [mem_singleton.mp hev']
      intro reply' hreply'
      rw [hsame reply' hreply']
  · rcases mem_append.mp hev' with hev' | hev'
    · exact fun w hw => (h.asked ev' hev' w hw).trans hle
    · rw [mem_singleton.mp hev']
      intro w hw
      obtain ⟨-, hstored, -⟩ := hasked w hw
      rw [Instance.current, hstored]
      rfl

/-- The steps of a block move forward from where the chain has got to. -/
theorem steps {start mem : Memory} {block : BlockID} {pre : List Event}
    (hsteps : Steps p start evs mem) (h : Behind p key pre (start.inst key).current)
    (hpending : start.Pending key) (hdue : ∀ ev ∈ evs, ev.DueIn start block)
    (hfits : ∀ ev ∈ evs, ev.fits = true) :
    Behind p key (pre ++ evs) (mem.inst key).current ∧ mem.Pending key ∧
      (start.inst key).current ≤ (mem.inst key).current := by
  induction hsteps with
  | start =>
    rw [append_nil]
    exact ⟨h, hpending, le_rfl⟩
  | @step evs ev reply hsteps hreply ih =>
    obtain ⟨hbehind, hbefore, hle⟩ := ih (fun ev' hev' => hdue ev' (mem_append_left _ hev'))
      fun ev' hev' => hfits ev' (mem_append_left _ hev')
    have hev : ev ∈ evs ++ [ev] := mem_append_right _ (mem_singleton_self ev)
    -- what falls due was pending when the block began
    have hreached : ∀ t, ev.cause = .timeout t → (⟨t.node, t.round⟩ : NodeRound) = key →
        t.view ≤ (ev.mem.inst key).current := fun t hcause htkey =>
      (hpending block.round t ((hdue ev hev).2 t hcause) htkey).trans hle
    rw [← append_assoc]
    refine ⟨hbehind.concat hreply (hfits ev hev) hreached, hbefore.of_reply hreply (hfits ev hev) hreached, ?_⟩
    exact hle.trans (view_of_reply hreply (hfits ev hev) hreached).1

end Behind

namespace Graph

/-! ## Chains in a run -/

/-- The steps of the blocks of a chain, oldest first. -/
def stepsOf (g : Graph) (chain : List Entry) : List Event :=
  g.trace.reverse.filter fun ev => decide (ev.block ∈ chain.map Entry.block)

/-- What is known of the steps of a chain that ends in `b`: the state of `b` is ahead of
them and holds no timeout of a view ahead of it. If the state was forgotten, they have
not left the first view. -/
def Standing (p : Params) (key : NodeRound) (g : Graph) (b : BlockID) (evs : List Event) : Prop :=
  match g.statess[b]? with
  | some s => Behind p key evs (Memory.inst ⟨g.heap, s⟩ key).current ∧ Memory.Pending key ⟨g.heap, s⟩
  | none => Behind p key evs 0

theorem Standing.of_some {g : Graph} {b : BlockID} {evs : List Event} {s : State}
    (h : Standing p key g b evs) (hs : g.statess[b]? = some s) :
    Behind p key evs (Memory.inst ⟨g.heap, s⟩ key).current ∧ Memory.Pending key ⟨g.heap, s⟩ := by
  rw [Standing, hs] at h
  exact h

theorem Standing.of_none {g : Graph} {b : BlockID} {evs : List Event} (h : Standing p key g b evs)
    (hs : g.statess[b]? = none) : Behind p key evs 0 := by
  rw [Standing, hs] at h
  exact h

variable {block : BlockID} {mem : Memory}

theorem Standing.store {g : Graph} {b : BlockID} {evs : List Event} (h : Standing p key g b evs)
    (hne : b ≠ block) (hkept : ∀ s, g.statess[b]? = some s → ∀ d,
      Memory.timeoutsAt ⟨mem.heap, s⟩ d = Memory.timeoutsAt ⟨g.heap, s⟩ d) :
    Standing p key (g.store block mem) b evs := by
  have hlookup : (g.store block mem).statess[b]? = g.statess[b]? :=
    FiniteMap.lookup_insert_of_ne _ hne.symm _
  rw [Standing, hlookup]
  cases hs : g.statess[b]? with
  | none => exact h.of_none hs
  | some s =>
    refine ⟨(h.of_some hs).1, fun d t ht htkey => ?_⟩
    rw [show (g.store block mem).heap = mem.heap from rfl, hkept s hs d] at ht
    exact (h.of_some hs).2 d t ht htkey

theorem Standing.stored {g : Graph} {evs : List Event} (h : Behind p key evs (mem.inst key).current)
    (hpending : mem.Pending key) :
    Standing p key (g.store block mem) block evs := by
  have hlookup : (g.store block mem).statess[block]? = some mem.state :=
    FiniteMap.lookup_insert_self _ _ _
  rw [Standing, hlookup]
  exact ⟨h, hpending⟩

/-- The round does not go back while it fits its machine word. -/
theorem Advances.round_le {g g' : Graph} {evs : List Event} {start : Nat} (h : Advances evs g g')
    (hround : g.round = u64 (start + g.callbacks.length))
    (hlimit : start + g'.callbacks.length < 2 ^ 64) : g.round ≤ g'.round := by
  have hle := h.callbacks
  rw [h.round start hround, hround, u64, u64, Nat.mod_eq_of_lt hlimit, Nat.mod_eq_of_lt (by omega)]
  omega

section Runs

variable {bound : BlockID → Nat} {known done : List Entry} {g g' : Graph} {b : BlockID}
  {evs : List Event} {start : Nat} {e : Entry} {chain : List Entry}

/-- Delivered rounds forget only chains that are in the first view of every instance
that is left. -/
theorem standing_delivers (hbook : Bookkept bound known done g)
    (hround : g.round = u64 (start + g.callbacks.length)) (hdelivers : Delivers g g')
    (hlimit : start + g'.callbacks.length < 2 ^ 64)
    (h : ∀ key, g.round ≤ key.round → Standing p key g b evs) :
    g.round ≤ g'.round ∧ ∀ key, g'.round ≤ key.round → Standing p key g' b evs := by
  induction hdelivers with
  | refl => exact ⟨le_rfl, h⟩
  | observe _ ev ih => exact ih hlimit
  | note _ d ih => exact ih hlimit
  | @report g' g'' hdelivers hashes hresolved hfull hreport ih =>
    have hreports := reports_of_report hreport
    obtain ⟨evs', hadvances⟩ := hdelivers.follows
    have hnext := hadvances.round start hround
    obtain ⟨_, _, -, k, -, -, hcallbacks, -⟩ := hreports.blocks
    rw [hcallbacks, length_append, length_singleton] at hlimit
    have hbefore : start + g'.callbacks.length < 2 ^ 64 := by omega
    obtain ⟨hle, hstanding⟩ := ih hbefore
    have hbook' := hbook.delivers hround hdelivers hbefore
    have hlater : g''.round = g'.round + 1 := by
      rw [hreports.round, hnext, u64_succ, u64, u64, Nat.mod_eq_of_lt hbefore, Nat.mod_eq_of_lt (by omega)]
    refine ⟨by omega, fun key hkey => ?_⟩
    have hold := hstanding key (by omega)
    rcases hreports.lookup b with ⟨-, hsame⟩ | ⟨-, hnone, info, hinfo, hmax, hgone⟩
    · rw [Standing, hsame, hreports.heap]
      exact hold
    · rw [Standing, hnone]
      cases hs : g'.statess[b]? with
      | none => exact hold.of_none hs
      | some s =>
        -- the state mentions nothing of the rounds that are left
        have hbound := (hbook'.infos info hinfo b hgone).2
        have hempty := (hbook'.states b s hs).2.1.inst key (by omega)
        have hbehind := (hold.of_some hs).1
        rwa [hempty] at hbehind

/-- What the interpretation of a block consists of. -/
theorem steps_process (hprocess : g.process e = .ok g') :
    ∃ last mem mem', Delivers g last ∧ g' = last.store e.block mem ∧ mem.Same mem' ∧
      g'.trace.reverse = g.trace.reverse ++ g.since g' ∧
      Steps g.params ((g.opened e).schedule g.params e) (g.since g') mem' ∧
      ∀ ev ∈ g.since g', ev.DueIn ((g.opened e).schedule g.params e) e.block := by
  obtain ⟨last, mem, hinterpret, rfl⟩ := process_eq_ok hprocess
  obtain ⟨evs, mem', out, htrace, hsteps, hdue, rfl⟩ := steps_conduct (host_logs_trace e.block) hinterpret
  have hsince : g.since (last.store e.block { mem' with state := { mem'.state with out } }) = evs := by
    apply since_of_trace
    have hreverse := congrArg List.reverse htrace
    rwa [reverse_reverse, reverse_append, reverse_reverse] at hreverse
  have hdelivers := (delivers_interpret _ _ _ _ _ _).of_ok hinterpret
  refine ⟨last, _, mem', hdelivers, rfl, ⟨fun _ => rfl, fun _ => rfl⟩, ?_, hsince.symm ▸ hsteps,
    hsince.symm ▸ hdue⟩
  rw [hsince]
  exact htrace

/-- The steps of every chain are known as far as the state they lead to. -/
structure Tracked (p : Params) (done : List Entry) (g : Graph) : Prop where
  trace : ∀ ev ∈ g.trace, ev.block ∈ done.map Entry.block
  chains : ∀ chain e, (chain ++ [e]).Sublist done →
    (chain ++ [e]).IsChain (fun e next => next.prev = e.block) → ∀ key, g.round ≤ key.round →
    Standing p key g e.block (g.stepsOf (chain ++ [e]))

/-- The timeouts a block schedules are of the first view. -/
theorem pending_schedule (h : mem.Pending key) (p : Params) (e : Entry) :
    (mem.schedule p e).Pending key := by
  intro d t ht htkey
  rw [inst_schedule]
  rw [timeoutsAt_schedule, mem_append] at ht
  rcases ht with ht | ht
  · exact h d t ht htkey
  · split at ht
    · obtain ⟨xnode, -, rfl⟩ := mem_map.mp ht
      exact Nat.zero_le _
    · cases ht

theorem pending_fresh (heap : Heap) (key : NodeRound) : Memory.Pending key ⟨heap, State.fresh⟩ := by
  intro d t ht
  simp [Memory.timeoutsAt, State.fresh, Heap.read, Slice.nil] at ht

/-- A clone has the views of its original and no timeout besides those of it. -/
theorem pending_clone {heap : Heap} {s : State} {minround : Nat} (h : Memory.Pending key ⟨heap, s⟩)
    (hmin : minround ≤ key.round) :
    (Memory.inst ⟨heap.tick, s.clone minround⟩ key).current = (Memory.inst ⟨heap, s⟩ key).current ∧
      Memory.Pending key ⟨heap.tick, s.clone minround⟩ := by
  have hcurrent : (Memory.inst ⟨heap.tick, s.clone minround⟩ key).current =
      (Memory.inst ⟨heap, s⟩ key).current := by
    rw [inst_clone, if_neg (not_lt.mpr hmin)]
    rfl
  refine ⟨hcurrent, fun d t ht htkey => ?_⟩
  rw [hcurrent]
  rw [Memory.timeoutsAt_clone] at ht
  split at ht
  · cases ht
  · exact h d t ht htkey

/-- A block takes up its chain where its predecessor left it. -/
theorem Tracked.opened (h : Tracked p done g) (hbook : Bookkept bound known done g)
    (hvalid : ∀ e' ∈ done, e'.block.valid = true) (hchain : chain.Sublist done)
    (hlinked : (chain ++ [e]).IsChain fun e next => next.prev = e.block)
    (hkey : g.round ≤ key.round) :
    Behind p key (g.stepsOf chain) ((g.opened e).inst key).current ∧ (g.opened e).Pending key := by
  -- what the last block of the chain stands for, if there is one
  have hlast : g.stepsOf chain = [] ∨ ∃ last ∈ done, e.prev = last.block ∧
      Standing p key g last.block (g.stepsOf chain) := by
    rcases eq_nil_or_concat chain with rfl | ⟨front, last, rfl⟩
    · exact .inl (by simp [stepsOf])
    · rw [concat_eq_append] at hchain hlinked ⊢
      obtain ⟨hfront, -, hlink⟩ := isChain_append.mp hlinked
      refine .inr ⟨last, hchain.subset (by simp), hlink last (by simp) e (by simp), ?_⟩
      exact h.chains front last hchain hfront key hkey
  rcases opened_cases g e with ⟨s, hs, hopened⟩ | ⟨hopened, hnone⟩
  · obtain ⟨e₀, he₀, hprev⟩ := mem_map.mp (hbook.states e.prev s hs).1
    have hself := h.chains [] e₀ (singleton_sublist.mpr he₀) (isChain_singleton _) key hkey
    obtain ⟨hcurrent, hpending⟩ := pending_clone (hself.of_some (hprev.symm ▸ hs)).2 hkey
    rw [hopened]
    refine ⟨?_, hpending⟩
    rcases hlast with hnil | ⟨last, -, hlink, hstanding⟩
    · rw [hnil]
      exact Behind.nil _ _ _
    · rw [hcurrent]
      exact (hstanding.of_some (hlink ▸ hs)).1
  · rw [hopened]
    refine ⟨?_, pending_fresh _ _⟩
    rcases hlast with hnil | ⟨last, hmem, hlink, hstanding⟩
    · rw [hnil]
      exact Behind.nil _ _ _
    · exact hstanding.of_none (hlink ▸ hnone (hlink ▸ hvalid last hmem))

/-- A list that takes from `l ++ [a]` takes from `l` only, or ends in `a`. -/
theorem sublist_concat_cases {α : Type} {l l' : List α} {a b : α} (h : (l ++ [b]).Sublist (l' ++ [a])) :
    (l ++ [b]).Sublist l' ∨ b = a ∧ l.Sublist l' := by
  rw [← reverse_sublist, reverse_append, reverse_append] at h
  cases h with
  | cons _ h =>
    refine .inl (reverse_sublist.mp ?_)
    rwa [reverse_append]
  | cons_cons _ h => exact .inr ⟨rfl, reverse_sublist.mp h⟩

theorem stepsOf_process (htrace : g'.trace.reverse = g.trace.reverse ++ g.since g')
    (hblock : ∀ ev ∈ g.since g', ev.block = e.block) :
    g'.stepsOf chain = g.stepsOf chain ++ if e.block ∈ chain.map Entry.block then g.since g' else [] := by
  rw [stepsOf, htrace, filter_append]
  congr 1
  split
  · rename_i hmem
    exact filter_eq_self.mpr fun ev hev => by rw [hblock ev hev]; exact decide_eq_true hmem
  · rename_i hmem
    exact filter_eq_nil_iff.mpr fun ev hev => by rw [hblock ev hev]; simpa using hmem

/-- A block that took no step adds none. -/
theorem stepsOf_concat (hnew : ∀ ev ∈ g.trace, ev.block ≠ e.block) :
    g.stepsOf (chain ++ [e]) = g.stepsOf chain := by
  apply filter_congr
  intro ev hev
  have hne := hnew ev (mem_reverse.mp hev)
  simp [hne]

/-- Interpreting a block extends the chains that end in its predecessor and leaves
the others as they stand. -/
theorem Tracked.process {later : List Entry} (h : Tracked g.params done g)
    (hbook : Bookkept bound known done g) (hsplit : known = done ++ e :: later)
    (hnodup : (known.map Entry.block).Nodup) (hvalid : ∀ e ∈ known, e.block.valid = true)
    (hallocated : g.Allocated) (hspares : g.spares e = true)
    (hround : g.round = u64 (start + g.callbacks.length)) (hprocess : g.process e = .ok g')
    (hlimit : start + g'.callbacks.length < 2 ^ 64) (hfits : ∀ ev ∈ g'.trace, ev.fits = true) :
    Tracked g.params (done ++ [e]) g' := by
  obtain ⟨last, mem, mem', hdelivers, hstore, hsame, htrace, hsteps, hdue⟩ := steps_process hprocess
  have hblock : ∀ ev ∈ g.since g', ev.block = e.block := fun ev hev => (hdue ev hev).1
  have hfresh : ∀ e' ∈ done, e'.block ≠ e.block := by
    intro e' he' heq
    rw [hsplit, map_append, nodup_append'] at hnodup
    refine hnodup.2.2 (mem_map_of_mem he') ?_
    rw [heq]
    exact mem_cons_self
  have hsince : ∀ ev ∈ g.since g', ev.fits = true := by
    intro ev hev
    refine hfits ev ?_
    rw [← mem_reverse, htrace]
    exact mem_append_right _ hev
  have hlimit' : start + last.callbacks.length < 2 ^ 64 := by
    rw [hstore] at hlimit
    exact hlimit
  have hrounds : g'.round = last.round := by rw [hstore]; rfl
  obtain ⟨_, hadvances⟩ := hdelivers.follows
  have hgrows : g.round ≤ last.round := hadvances.round_le hround hlimit'
  refine ⟨fun ev hev => ?_, fun chain e' hchain hlinked key hkey => ?_⟩
  · rw [← mem_reverse, htrace, mem_append] at hev
    rw [map_append, mem_append]
    rcases hev with hev | hev
    · exact .inl (h.trace ev (mem_reverse.mp hev))
    · rw [hblock ev hev]
      exact .inr (mem_singleton_self _)
  rw [hrounds] at hkey
  rcases sublist_concat_cases hchain with hchain | ⟨rfl, hfront⟩
  · -- the chain ends in an earlier block
    have hsteps' : g'.stepsOf (chain ++ [e']) = g.stepsOf (chain ++ [e']) := by
      rw [stepsOf_process htrace hblock, if_neg, append_nil]
      intro hmem
      obtain ⟨e₀, he₀, heq⟩ := mem_map.mp hmem
      exact hfresh e₀ (hchain.subset he₀) heq
    have hlater :=
      (standing_delivers hbook hround hdelivers hlimit' (h.chains chain e' hchain hlinked)).2 key hkey
    rw [hsteps', hstore]
    apply hlater.store (hfresh e' (hchain.subset (by simp)))
    intro s hs d
    have hkept := timeoutsAt_of_spares hallocated hprocess hspares (hadvances.statess _ s hs) d
    rw [hstore] at hkept
    rw [hadvances.heap]
    exact hkept
  · -- the chain ends in this block
    have hsteps' : g'.stepsOf (chain ++ [e']) = g.stepsOf chain ++ g.since g' := by
      rw [stepsOf_process htrace hblock, if_pos (by simp), stepsOf_concat]
      intro ev hev heq
      obtain ⟨e₀, he₀, hevent⟩ := mem_map.mp (h.trace ev hev)
      exact hfresh e₀ he₀ (hevent.trans heq)
    obtain ⟨hbehind, hpending⟩ := h.opened hbook
      (fun e₀ he₀ => hvalid e₀ (hsplit ▸ mem_append_left _ he₀)) hfront hlinked (hgrows.trans hkey)
    rw [← inst_schedule g.params (g.opened e') e' key] at hbehind
    obtain ⟨hbehind', hpending', -⟩ := hbehind.steps hsteps (pending_schedule hpending _ _) hdue hsince
    rw [hsame.inst key] at hbehind'
    rw [hsteps', hstore]
    rw [hstore] at hbehind'
    exact Standing.stored hbehind' (hpending'.of_same hsame)

theorem undisturbed_of_append {rest : List Action} :
    ∀ {done : List Action} {g : Graph}, g.undisturbed (done ++ rest) = true → g.undisturbed done = true := by
  intro done
  induction done with
  | nil => exact fun _ => rfl
  | cons a done ih =>
    intro g h
    obtain ⟨hspares, hrest⟩ := Bool.and_eq_true_iff.mp h
    refine Bool.and_eq_true_iff.mpr ⟨hspares, ?_⟩
    cases hact : g.act a with
    | error halt => rfl
    | ok g' =>
      rw [hact] at hrest
      exact ih hrest

section Actions

variable {lastInterpreted node first : Nat} {bgs : List BlockGraph} {acts rest : List Action}

/-- Every chain is tracked in a run that disturbs no shared array and exhausts
neither the rounds nor the views. -/
theorem tracked_actAll (hown : OwnChain node first bgs)
    (hsplit : bgs.flatMap actions = acts ++ rest)
    (hundisturbed : (new p lastInterpreted).undisturbed acts = true)
    (hrun : actAll (new p lastInterpreted) acts = .ok g)
    (hlimit : lastInterpreted + 1 + g.callbacks.length < 2 ^ 64)
    (hfits : ∀ ev ∈ g.trace, ev.fits = true) : Tracked p (interpreted acts) g := by
  have hinv : Ensures (actAll (new p lastInterpreted) acts)
      (fun g => lastInterpreted + 1 + g.callbacks.length < 2 ^ 64 → (∀ ev ∈ g.trace, ev.fits = true) →
        Tracked p (interpreted acts) g) (fun _ => True) := by
    apply holds_actAll fun acts g => lastInterpreted + 1 + g.callbacks.length < 2 ^ 64 →
      (∀ ev ∈ g.trace, ev.fits = true) → Tracked p (interpreted acts) g
    · intro before bg after mid _ _ hmid hlimit hfits
      rw [register_eq] at hlimit hfits ⊢
      rw [interpreted_register]
      exact ⟨(hmid hlimit hfits).trace, (hmid hlimit hfits).chains⟩
    · intro before e after mid g' hbefore hrun hmid hprocess hlimit hfits
      have hacts := split_of_begins hsplit hbefore
      have hallocated : mid.Allocated := allocated_actAll.of_ok hrun
      rw [hbefore] at hundisturbed
      have hspares := spares_of_undisturbed hundisturbed hrun
      obtain ⟨later, hlater⟩ := registered_eq_of_process hacts
      have hround := (round_actAll p lastInterpreted before).of_ok hrun
      have hparams : mid.params = p := (params_actAll p lastInterpreted before).of_ok hrun
      have hentries := registered_split hacts
      have hnodup := hown.nodup
      rw [hentries, map_append, nodup_append'] at hnodup
      rw [interpreted_process]
      have hcallbacks := callbacks_process hprocess
      obtain ⟨_, _, _, -, -, -, htrace, -⟩ := steps_process hprocess
      obtain ⟨bound, hbook⟩ := bookkept_actAll hown hacts (undisturbed_of_append hundisturbed) hrun
        (by omega)
      have htracked := hmid (by omega) fun ev hev => hfits ev (by
        rw [← mem_reverse, htrace]
        exact mem_append_left _ (mem_reverse.mpr hev))
      rw [← hparams] at htracked ⊢
      refine htracked.process hbook hlater hnodup.1 (fun e' he' => hown.valid e' ?_) hallocated hspares
        hround hprocess hlimit hfits
      rw [hentries]
      exact mem_append_left _ he'
    · refine fun _ _ => ⟨by simp [new], fun chain e hchain => ?_⟩
      rw [show interpreted [] = [] from rfl, sublist_nil] at hchain
      simp at hchain
  exact hinv.of_ok hrun hlimit hfits

/-- Views move forward and timeouts fire once. In a run that disturbs no shared
array of timeouts and exhausts neither the rounds nor the views, along every chain of
interpreted blocks and for every instance of a round that is not yet delivered: the
view never decreases, each view is asked for once, and a ViewChange asks for the view
that is stored with it, the one after the view that ran out. -/
theorem forward_of_undisturbed {chain : List Entry} {key : NodeRound} (hown : OwnChain node first bgs)
    (hsplit : bgs.flatMap actions = acts ++ rest)
    (hrun : actAll (new p lastInterpreted) acts = .ok g)
    (hundisturbed : (new p lastInterpreted).undisturbed acts = true)
    (hlimit : lastInterpreted + 1 + g.callbacks.length < 2 ^ 64)
    (hfits : ∀ ev ∈ g.trace, ev.fits = true) (hchain : chain.Sublist (interpreted acts))
    (hlinked : chain.IsChain fun e next => next.prev = e.block) (hkey : g.round ≤ key.round) :
    Forward p key (g.stepsOf chain) := by
  have htracked := tracked_actAll hown hsplit hundisturbed hrun hlimit hfits
  rcases eq_nil_or_concat chain with rfl | ⟨front, last, rfl⟩
  · rw [show g.stepsOf [] = [] by simp [stepsOf]]
    exact (Behind.nil _ _ 0).forward
  · rw [concat_eq_append] at hchain hlinked ⊢
    have hstanding := htracked.chains front last hchain hlinked key hkey
    cases hs : g.statess[last.block]? with
    | none => exact (hstanding.of_none hs).forward
    | some s => exact (hstanding.of_some hs).1.forward

end Actions

end Runs

/-- A node that hears of no other. -/
def solitary : List BlockGraph := (range' 1 11).map fun round => ownAt 1 round []

/-- The chain of a node that hears of no other: the eleventh block asks for the second
view of the first round. -/
theorem forward_solitary :
    ∃ g, actAll (new .four 0) (solitary.flatMap actions) = .ok g ∧
      (g.stepsOf (interpreted (solitary.flatMap actions))).any
        (fun ev => decide (ev.asked .four ⟨2, 1⟩ = some 1)) = true ∧
      Forward .four ⟨2, 1⟩ (g.stepsOf (interpreted (solitary.flatMap actions))) := by
  have hcheck : succeeds (actAll (new .four 0) (solitary.flatMap actions)) (fun g =>
      (g.stepsOf (interpreted (solitary.flatMap actions))).any
        (fun ev => decide (ev.asked .four ⟨2, 1⟩ = some 1)) &&
      (g.trace.all Event.fits && decide (g.callbacks = []) && decide (g.round = 1))) = true := by
    decide +kernel
  have hundisturbed : (new .four 0).undisturbed (solitary.flatMap actions) = true := by decide +kernel
  obtain ⟨g, hrun, htest⟩ := exists_of_succeeds hcheck
  simp only [Bool.and_eq_true, decide_eq_true_eq] at htest
  obtain ⟨hasks, ⟨hfits, hcallbacks⟩, hround⟩ := htest
  have hown : OwnChain 1 1 solitary := by constructor <;> decide +kernel
  refine ⟨g, hrun, hasks, ?_⟩
  exact forward_of_undisturbed hown (append_nil _).symm hrun hundisturbed (by simp [hcallbacks])
    (all_eq_true.mp hfits) (List.Sublist.refl _) (by decide +kernel) hround.le

/-- The second node forks in round 16. Its other block enters the second view of the
first node's round 2 and files the timeout of it under round 31, in the array of the
chain that goes on, which is still in the first view there. -/
def overtaken : List BlockGraph :=
  ((range' 1 12).map fun round => ownAt 1 round []) ++
  [ownAt 1 13 (stretch 4 1 12 ++ stretch 5 1 12 ++
    depAt 3 1 [blockAt 1 12, blockAt 4 12, blockAt 5 12] ::
    depAt 2 1 [blockAt 1 4] :: stretch 2 2 10 ++
    [depAt 2 11 [blockAt 1 9], depAt 2 12 [blockAt 4 12, blockAt 5 12]] ++ stretch 2 13 30 ++
    [⟨twinAt 2 16, [blockAt 3 1], blockAt 2 15⟩, depAt 2 31 []])]

/-- The first thirty-one blocks of the second node. -/
def overtakenChain : List Entry :=
  (interpreted (overtaken.flatMap actions).dropLast).filter fun e =>
    e.block.node = 2 ∧ e.block ≠ twinAt 2 16

/-- Block 31 of the chain asks for the third view and stores the second. -/
theorem forward_overtaken :
    OwnChain 1 1 overtaken ∧ overtakenChain.Sublist (interpreted (overtaken.flatMap actions).dropLast) ∧
      overtakenChain.IsChain (fun e next => next.prev = e.block) ∧
      ∃ g, actAll (new .five 0) (overtaken.flatMap actions).dropLast = .ok g ∧ g.round = 1 ∧
        ¬ Forward .five ⟨1, 2⟩ (g.stepsOf overtakenChain) := by
  have hcheck : succeeds (actAll (new .five 0) (overtaken.flatMap actions).dropLast) (fun g =>
      decide (g.round = 1) && (g.stepsOf overtakenChain).any fun ev =>
        decide (ev.asked .five ⟨1, 2⟩ = some 2) &&
          succeeds (ev.reply .five) fun reply => decide ((reply.mem.inst ⟨1, 2⟩).view = some 1)) = true := by
    decide +kernel
  obtain ⟨g, hrun, htest⟩ := exists_of_succeeds hcheck
  simp only [Bool.and_eq_true, decide_eq_true_eq] at htest
  obtain ⟨hround, hstep⟩ := htest
  obtain ⟨ev, hev, hwrong⟩ := any_eq_true.mp hstep
  simp only [Bool.and_eq_true, decide_eq_true_eq] at hwrong
  obtain ⟨hasked, hreply⟩ := hwrong
  obtain ⟨reply, hreply, hview⟩ := exists_of_succeeds hreply
  refine ⟨by constructor <;> decide +kernel, filter_sublist, by decide +kernel, g, hrun, hround,
    fun hforward => ?_⟩
  obtain ⟨t, reply', -, hreply', hstored, -⟩ := hforward.stored ev hev 2 hasked
  rw [Except.ok.inj (hreply'.symm.trans hreply), of_decide_eq_true hview] at hstored
  cases hstored

end Graph

end Blockmania
