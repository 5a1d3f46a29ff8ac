/-
# The chains in a graph

A graph interprets the blocks of all nodes in one sequence and in one heap. The
blocks of a node that never forks lie on one chain all the same: each starts
from the state its predecessor left behind. The other nodes do not get in the
way, because the blocks of a node only write to memory that blocks of that node
allocated. The steps of such a node therefore form a trail, as if its chain were
interpreted alone, as long as no state on it is forgotten.
-/

import Blockmania.Graph.Actions
import Blockmania.Interpreter.Trail

namespace Blockmania

open Math List FiniteMap

/-- What `broadcast` checks of a block before it is referenced: it is by a peer,
and its predecessor is the block of the same node in the round before. A block
of round 1 has none. -/
structure Entry.WellFormed (peers : List Nat) (e : Entry) : Prop where
  valid : e.block.valid = true
  node : e.block.node ∈ peers
  round : 1 ≤ e.block.round
  first : e.block.round = 1 → e.prev.valid = false
  prev : e.block.round ≠ 1 → e.prev.valid = true ∧ e.prev.node = e.block.node ∧
    e.prev.round + 1 = e.block.round ∧ e.prev ∈ e.deps

/-- A block with a predecessor is not of round 1. -/
theorem Entry.WellFormed.of_prev {peers : List Nat} {e : Entry} (h : e.WellFormed peers)
    (hvalid : e.prev.valid = true) :
    e.block.round ≠ 1 ∧ e.prev.node = e.block.node ∧ e.prev.round + 1 = e.block.round ∧
      e.prev ∈ e.deps := by
  have hfirst : e.block.round ≠ 1 := by
    intro hfirst
    rw [h.first hfirst] at hvalid
    cases hvalid
  exact ⟨hfirst, (h.prev hfirst).2⟩

/-- The order `depgraph` enforces: every block comes once, after its predecessor
and after the blocks it references. -/
structure Causal (peers : List Nat) (es : List Entry) : Prop where
  wellFormed : ∀ e ∈ es, e.WellFormed peers
  nodup : (es.map Entry.block).Nodup
  closed : ∀ done e rest, es = done ++ e :: rest → ∀ b ∈ e.deps, b.valid = true →
    b ∈ done.map Entry.block

/-- A beginning of a causal order is one. -/
theorem Causal.of_append {peers : List Nat} {es more : List Entry} (h : Causal peers (es ++ more)) :
    Causal peers es where
  wellFormed e he := h.wellFormed e (mem_append_left _ he)
  nodup := by
    have hnodup := h.nodup
    rw [map_append] at hnodup
    exact hnodup.of_append_left
  closed done e rest hsplit := h.closed done e (rest ++ more) (by rw [hsplit]; simp)

/-- No other entry is about the same block. -/
theorem Causal.block_ne {peers : List Nat} {es done rest : List Entry} {e : Entry}
    (h : Causal peers es) (hsplit : es = done ++ e :: rest) :
    (∀ e' ∈ done, e'.block ≠ e.block) ∧ ∀ e' ∈ rest, e'.block ≠ e.block := by
  have hnodup := h.nodup
  rw [hsplit, map_append, map_cons, nodup_append', nodup_cons] at hnodup
  obtain ⟨-, ⟨hrest, -⟩, hdisjoint⟩ := hnodup
  constructor
  · intro e' he' heq
    exact hdisjoint (mem_map_of_mem he') (heq ▸ mem_cons_self)
  · intro e' he' heq
    exact hrest (heq ▸ mem_map_of_mem he')

instance (peers : List Nat) (e : Entry) : Decidable (e.WellFormed peers) :=
  decidable_of_iff (e.block.valid = true ∧ e.block.node ∈ peers ∧ 1 ≤ e.block.round ∧
    (e.block.round = 1 → e.prev.valid = false) ∧
    (e.block.round ≠ 1 → e.prev.valid = true ∧ e.prev.node = e.block.node ∧
      e.prev.round + 1 = e.block.round ∧ e.prev ∈ e.deps))
    ⟨fun ⟨hvalid, hnode, hround, hfirst, hprev⟩ => ⟨hvalid, hnode, hround, hfirst, hprev⟩,
      fun h => ⟨h.valid, h.node, h.round, h.first, h.prev⟩⟩

/-- Whether entries can follow the blocks in `done` in a causal order. -/
def causalAfter (peers : List Nat) : List BlockID → List Entry → Bool
  | _, [] => true
  | done, e :: es => decide (e.WellFormed peers ∧ e.block ∉ done ∧
      ∀ b ∈ e.deps, b.valid = true → b ∈ done) && causalAfter peers (done ++ [e.block]) es

/-- The order can be checked from left to right. -/
theorem causal_of_check {peers : List Nat} {es : List Entry} (h : causalAfter peers [] es = true) :
    Causal peers es := by
  have hcheck : ∀ (rest done : List Entry), causalAfter peers (done.map Entry.block) rest = true →
      (∀ e ∈ rest, e.WellFormed peers) ∧ (rest.map Entry.block).Nodup ∧
      (∀ e ∈ rest, e.block ∉ done.map Entry.block) ∧
      ∀ front e back, rest = front ++ e :: back → ∀ b ∈ e.deps, b.valid = true →
        b ∈ (done ++ front).map Entry.block := by
    intro rest
    induction rest with
    | nil => simp
    | cons first rest ih =>
      intro done hrest
      rw [causalAfter, Bool.and_eq_true, decide_eq_true_eq] at hrest
      obtain ⟨⟨hwf, hfresh, hdeps⟩, hrest⟩ := hrest
      have hdone : done.map Entry.block ++ [first.block] = (done ++ [first]).map Entry.block := by simp
      rw [hdone] at hrest
      obtain ⟨hwfs, hnodup, hfreshes, hclosed⟩ := ih (done ++ [first]) hrest
      refine ⟨?_, ?_, ?_, ?_⟩
      · intro e he
        rcases mem_cons.mp he with rfl | he
        · exact hwf
        · exact hwfs e he
      · rw [map_cons, nodup_cons]
        refine ⟨fun hmem => ?_, hnodup⟩
        obtain ⟨e, he, heq⟩ := mem_map.mp hmem
        apply hfreshes e he
        rw [heq, map_append]
        exact mem_append_right _ mem_cons_self
      · intro e he
        rcases mem_cons.mp he with rfl | he
        · exact hfresh
        · intro hmem
          apply hfreshes e he
          rw [map_append]
          exact mem_append_left _ hmem
      · intro front e back hsplit b hb hvalid
        cases front with
        | nil =>
          obtain ⟨rfl, -⟩ := List.cons.inj hsplit
          rw [append_nil]
          exact hdeps b hb hvalid
        | cons head front =>
          obtain ⟨rfl, htail⟩ := List.cons.inj hsplit
          have hmem := hclosed front e back htail b hb hvalid
          rwa [append_assoc] at hmem
  obtain ⟨hwf, hnodup, -, hclosed⟩ := hcheck es [] h
  exact ⟨hwf, hnodup, hclosed⟩

/-- A node never forks. Since the predecessor of a block is of the round before,
its blocks then lie on one chain that starts in round 1. -/
def OneChain (es : List Entry) (x : Nat) : Prop :=
  ∀ e ∈ es, ∀ e' ∈ es, e.block.node = x → e'.block.node = x →
    e.block.round = e'.block.round → e.block = e'.block

theorem OneChain.of_subset {es es' : List Entry} {x : Nat} (h : OneChain es x) (hsub : es' ⊆ es) :
    OneChain es' x := fun e he e' he' => h e (hsub he) e' (hsub he')

/-- The last block of a node. -/
def tip (done : List Entry) (x : Nat) : Option BlockID :=
  ((done.filter fun e => e.block.node = x).getLast?).map Entry.block

theorem tip_append_of_eq {done : List Entry} {e : Entry} {x : Nat} (hx : e.block.node = x) :
    tip (done ++ [e]) x = some e.block := by
  simp [tip, filter_append, hx]

theorem tip_append_of_ne {done : List Entry} {e : Entry} {x : Nat} (hx : e.block.node ≠ x) :
    tip (done ++ [e]) x = tip done x := by
  simp [tip, filter_append, hx]

theorem mem_of_tip {done : List Entry} {x : Nat} {b : BlockID} (h : tip done x = some b) :
    ∃ e ∈ done, e.block = b ∧ b.node = x := by
  obtain ⟨e, hlast, rfl⟩ := Option.map_eq_some_iff.mp h
  obtain ⟨hmem, hnode⟩ := mem_filter.mp (mem_of_getLast? hlast)
  exact ⟨e, hmem, rfl, of_decide_eq_true hnode⟩

section OneChain

variable {peers : List Nat} {es : List Entry} {x : Nat}

/-- The blocks of a node that never forks come in the order of their rounds. -/
theorem rounds_of_oneChain (hcausal : Causal peers es) (hone : OneChain es x) (done : List Entry) :
    ∀ rest, es = done ++ rest →
      (done.filter fun e => e.block.node = x).map (fun e => e.block.round) =
        range' 1 (done.filter fun e => e.block.node = x).length := by
  induction done using List.reverseRecOn with
  | nil => simp
  | append_singleton done e ih =>
    intro rest hsplit
    rw [append_assoc] at hsplit
    have hrounds := ih ([e] ++ rest) hsplit
    by_cases hx : e.block.node = x
    swap
    · simpa [filter_append, hx] using hrounds
    have hmem : e ∈ es := by simp [hsplit]
    have hwf := hcausal.wellFormed e hmem
    have hearlier : ∀ e' ∈ done, e' ∈ es := fun e' he' => by simp [hsplit, he']
    have hfresh := (hcausal.block_ne hsplit).1
    have hround : e.block.round = 1 + (done.filter fun e => e.block.node = x).length := by
      apply le_antisymm
      · by_cases hfirst : e.block.round = 1
        · omega
        obtain ⟨hvalid, hnode, hprev, hdep⟩ := hwf.prev hfirst
        obtain ⟨e', he', heq⟩ := mem_map.mp (hcausal.closed done e rest hsplit _ hdep hvalid)
        have hbefore : e'.block.round ∈ range' 1 (done.filter fun e => e.block.node = x).length := by
          rw [← hrounds]
          refine mem_map_of_mem (f := fun e => e.block.round) (mem_filter.mpr ⟨he', ?_⟩)
          rw [heq, hnode, hx]
          exact decide_eq_true rfl
        rw [mem_range'_1, heq] at hbefore
        omega
      · by_contra hlt
        have hused : e.block.round ∈ range' 1 (done.filter fun e => e.block.node = x).length := by
          have := hwf.round
          rw [mem_range'_1]
          omega
        rw [← hrounds] at hused
        obtain ⟨e', he', hsame⟩ := mem_map.mp hused
        obtain ⟨he', hx'⟩ := mem_filter.mp he'
        exact hfresh e' he' (hone e' (hearlier e' he') e hmem (of_decide_eq_true hx') hx hsame)
    rw [filter_append, map_append, hrounds, filter_singleton, hx]
    simp [range'_1_concat, hround]

/-- The predecessor of a block on one chain is the last block of its node. -/
theorem tip_eq_prev (hcausal : Causal peers es) (hone : OneChain es x) {done rest : List Entry}
    {e : Entry} (hsplit : es = done ++ e :: rest) (hx : e.block.node = x) :
    tip done x = if e.prev.valid = true then some e.prev else none := by
  have hmem : e ∈ es := by simp [hsplit]
  have hwf := hcausal.wellFormed e hmem
  have hdone := rounds_of_oneChain hcausal hone done (e :: rest) hsplit
  have hnext := rounds_of_oneChain hcausal hone (done ++ [e]) rest (by simp [hsplit])
  have hround : e.block.round = 1 + (done.filter fun e => e.block.node = x).length := by
    rw [filter_append, map_append, hdone, filter_singleton, hx] at hnext
    simpa [range'_1_concat] using hnext
  by_cases hfirst : e.block.round = 1
  · have hnone : (done.filter fun e => e.block.node = x) = [] := by
      rw [← length_eq_zero_iff]
      omega
    simp [tip, hnone, hwf.first hfirst]
  obtain ⟨hvalid, hnode, hprev, hdep⟩ := hwf.prev hfirst
  rw [if_pos hvalid]
  obtain ⟨e', he', heq⟩ := mem_map.mp (hcausal.closed done e rest hsplit _ hdep hvalid)
  have hlast := congrArg List.getLast? hdone
  rw [List.getLast?_map, List.getLast?_range', if_neg (by omega)] at hlast
  obtain ⟨last, hlast, hrounds⟩ := Option.map_eq_some_iff.mp hlast
  obtain ⟨hlastmem, hlastx⟩ := mem_filter.mp (mem_of_getLast? hlast)
  rw [tip, hlast, Option.map_some, ← heq]
  congr 1
  refine hone last (by simp [hsplit, hlastmem]) e' (by simp [hsplit, he'])
    (of_decide_eq_true hlastx) (by rw [heq, hnode, hx]) ?_
  rw [heq]
  omega

end OneChain

/-- The steps that interpreted a block of a node. -/
def epochs (done : List Entry) (x epoch : Nat) : Prop :=
  ∃ i e, done[i]? = some e ∧ e.block.node = x ∧ epoch = i + 1

theorem epochs_append {done more : List Entry} {x epoch : Nat} (h : epochs done x epoch) :
    epochs (done ++ more) x epoch := by
  obtain ⟨i, e, he, hx, hepoch⟩ := h
  refine ⟨i, e, ?_, hx, hepoch⟩
  rw [List.getElem?_append_left (List.getElem?_eq_some_iff.mp he).1, he]

theorem epochs_unique {done : List Entry} {x y epoch : Nat} (hx : epochs done x epoch)
    (hy : epochs done y epoch) : x = y := by
  obtain ⟨i, e, he, rfl, hepoch⟩ := hx
  obtain ⟨i', e', he', rfl, hepoch'⟩ := hy
  obtain rfl : i = i' := by omega
  rw [he] at he'
  cases he'
  rfl

namespace Graph

/-- Every state refers only to memory that blocks of its node allocated. -/
structure Owned (done : List Entry) (g : Graph) : Prop where
  clock : g.heap.clock = done.length
  owns : ∀ (b : BlockID) (s : State), g.statess[b]? = some s → s.Owns (epochs done b.node)

/-- A block starts from memory of its own node. -/
theorem Owned.opened {done : List Entry} {g : Graph} {e : Entry}
    (hprev : e.prev.valid = true → e.prev.node = e.block.node) (howned : Owned done g) :
    epochs (done ++ [e]) e.block.node (g.heap.clock + 1) ∧
      (findOrCreateState g.heap g.statess[e.prev]? g.round e).state.Owns
        (epochs (done ++ [e]) e.block.node) := by
  refine ⟨⟨done.length, e, by simp, rfl, by rw [howned.clock]⟩, ?_⟩
  unfold findOrCreateState
  dsimp only
  split
  · rename_i hvalid
    cases hfound : g.statess[e.prev]? with
    | none => exact State.Owns.fresh _
    | some s =>
      have howns := (howned.owns e.prev s hfound).mono fun epoch hepoch =>
        (epochs_append hepoch : epochs (done ++ [e]) e.prev.node epoch)
      rw [hprev hvalid] at howns
      exact howns.clone g.round
  · exact State.Owns.fresh _

/-- A block writes to memory of its own node only. -/
theorem owned_process {done : List Entry} {g g' : Graph} {e : Entry}
    (hprev : e.prev.valid = true → e.prev.node = e.block.node) (howned : Owned done g)
    (h : process g e = .ok g') :
    Owned (done ++ [e]) g' ∧
      g.heap.SameOutside (epochs (done ++ [e]) e.block.node) g'.heap := by
  obtain ⟨last, mem, hinterpret, rfl⟩ := process_eq_ok h
  obtain ⟨hclock, hstart⟩ := howned.opened hprev
  have hscheduled := schedule_owned g.params e hclock hstart
  have hconducted := owned_conduct (hscheduled.2.2 ▸ hclock) hscheduled.1 hinterpret
  obtain ⟨evs, hadvances, -⟩ := (movesOn_interpret _ _ _ _ _ _).of_ok hinterpret
  refine ⟨⟨?_, fun b s hs => ?_⟩, ?_⟩
  · change mem.heap.clock = _
    rw [hconducted.2.2, hscheduled.2.2, length_append, length_singleton, ← howned.clock]
    rfl
  · simp only [store, lookup_insert] at hs
    split at hs
    · rename_i hb
      cases hs
      exact hb ▸ hconducted.1
    · exact (howned.owns b s (hadvances.statess b s hs)).mono fun _ => epochs_append
  · have htick : g.heap.SameOutside (epochs (done ++ [e]) e.block.node) g.heap.tick :=
      ⟨fun _ _ => rfl, fun _ _ => rfl⟩
    exact (htick.trans hscheduled.2.1).trans hconducted.2.1

/-- A block does not change what another node can see. -/
theorem Owned.same_process {done : List Entry} {g g' : Graph} {e : Entry}
    (hprev : e.prev.valid = true → e.prev.node = e.block.node) (howned : Owned done g)
    (h : process g e = .ok g') {x : Nat} {s : State} (hx : e.block.node ≠ x)
    (howns : s.Owns (epochs done x)) : Memory.Same ⟨g.heap, s⟩ ⟨g'.heap, s⟩ :=
  Memory.Same.of_sameOutside (howns.mono fun _ => epochs_append)
    (fun _ hmine hother => hx (epochs_unique hother hmine)) (owned_process hprev howned h).2

/-- A new graph owns nothing, and every action keeps ownership. -/
theorem owned_actAll {peers : List Nat} {p : Params} {lastInterpreted : Nat} {acts : List Action}
    (hwf : ∀ e ∈ interpreted acts, e.WellFormed peers) :
    Ensures (actAll (new p lastInterpreted) acts) (Owned (interpreted acts)) (fun _ => True) := by
  apply holds_actAll fun done => Owned (interpreted done)
  · intro done bg rest g _ _ howned
    rw [register_eq, interpreted_register]
    exact ⟨howned.clock, howned.owns⟩
  · intro done e rest g g' hsplit _ howned hprocess
    have hmem : e ∈ interpreted acts := by simp [hsplit, interpreted, Action.entry?]
    rw [interpreted_process]
    exact (owned_process (fun hvalid => ((hwf e hmem).of_prev hvalid).2.1) howned hprocess).1
  · refine ⟨rfl, fun b s hs => ?_⟩
    simp [new] at hs

/-! ## Trails -/

/-- The state the next block of a node is cloned from. -/
def standing (g : Graph) (done : List Entry) (x : Nat) : State :=
  ((tip done x).bind fun b => g.statess[b]?).getD State.fresh

end Graph

/-- The steps of the blocks of a node, oldest first. -/
def eventsOf (x : Nat) (trace : List Event) : List Event :=
  (trace.filter fun ev => ev.block.node = x).reverse

variable {ev : Event} {trace : List Event}

theorem eventsOf_cons_of_eq {x : Nat} (hx : ev.block.node = x) :
    eventsOf x (ev :: trace) = eventsOf x trace ++ [ev] := by
  simp [eventsOf, hx]

theorem eventsOf_append_of_ne {x : Nat} {evs : List Event} (hne : ∀ ev ∈ evs, ev.block.node ≠ x) :
    eventsOf x (evs ++ trace) = eventsOf x trace := by
  have hnone : (evs.filter fun ev => ev.block.node = x) = [] := by
    rw [filter_eq_nil_iff]
    intro ev hev
    simpa using hne ev hev
  rw [eventsOf, eventsOf, filter_append, hnone, nil_append]

theorem mem_eventsOf {x : Nat} :
    ev ∈ eventsOf x trace ↔ ev ∈ trace ∧ ev.block.node = x := by
  simp [eventsOf]

/-- The steps of a node form a trail that starts from nothing, from the first
block on that `lasting` holds of. -/
def HasTrail (p : Params) (round : Nat) (lasting : BlockID → Prop) (x : Nat) (trace : List Event) :
    Prop :=
  ∃ pre heap mem, Trail p round pre ⟨heap, State.fresh⟩ (eventsOf x trace) mem ∧
    ∀ ev ∈ pre, ¬ lasting ev.block

namespace Graph

/-- The trail of a node ends in the state its next block is cloned from. -/
structure Tracks (p : Params) (round : Nat) (lasting : BlockID → Prop) (x : Nat)
    (done : List Entry) (g : Graph) : Prop where
  trail : ∃ pre heap mem, Trail p round pre ⟨heap, State.fresh⟩ (eventsOf x g.trace) mem ∧
    (∀ ev ∈ pre, ¬ lasting ev.block) ∧ mem.Same ⟨g.heap, g.standing done x⟩
  lasts : ∀ ev ∈ eventsOf x g.trace, lasting ev.block → ∃ b ∈ tip done x, lasting b

section Tracks

variable {p : Params} {round : Nat} {lasting : BlockID → Prop} {x : Nat} {done : List Entry}
  {g g' : Graph} {e : Entry}

theorem Tracks.hasTrail (h : Tracks p round lasting x done g) :
    HasTrail p round lasting x g.trace := by
  obtain ⟨pre, heap, mem, trail, hpre, -⟩ := h.trail
  exact ⟨pre, heap, mem, trail, hpre⟩

/-- A block of the node starts from the state its chain has come to. -/
theorem findOrCreateState_standing
    (htip : tip done x = if e.prev.valid = true then some e.prev else none) (minround : Nat) :
    (findOrCreateState g.heap g.statess[e.prev]? minround e).state =
      (g.standing done x).clone minround := by
  unfold findOrCreateState standing
  rw [htip]
  by_cases hvalid : e.prev.valid = true
  · simp only [if_pos hvalid, Option.bind_some]
    cases g.statess[e.prev]? <;> simp
  · simp [hvalid]

/-- A block of the node itself extends the trail. -/
theorem tracks_process_of_eq (hx : e.block.node = x)
    (htip : tip done x = if e.prev.valid = true then some e.prev else none)
    (hlasting : lasting e.prev → e.prev.valid = true → lasting e.block)
    (hround : g.round ≤ round) (hparams : g.params = p) (h : Tracks p round lasting x done g) :
    Ensures (process g e) (Tracks p round lasting x (done ++ [e]))
      (fun halt => ∃ ev older, halt.host.trace = ev :: older ∧ HasTrail p round lasting x older) := by
  have hlogs : host.Logs e.block fun g => eventsOf x g.trace :=
    ⟨fun _ ev hblock => eventsOf_cons_of_eq (hblock ▸ hx),
      fun _ _ _ hdeliver => congrArg (eventsOf x) (advances_of_deliver hdeliver).trace⟩
  obtain ⟨pre, heap, mem, trail, hpre, hsame⟩ := h.trail
  have hinterpret := (trail_interpret hround hlogs (findOrCreateState_standing htip g.round)
    (trail.frame hsame)).and (movesOn_interpret p g.round g.heap g.statess[e.prev]? g e)
  apply ensures_process
  rw [hparams]
  cases hresult : interpret host p g.round g.heap g.statess[e.prev]? g e with
  | error halt =>
    rw [hresult] at hinterpret
    obtain ⟨⟨evs, ev, hlog, -, hstopped⟩, ev', evs', hadvances, hevs⟩ := hinterpret
    refine ⟨ev', evs' ++ g.trace, hadvances.trace, pre, heap, ev.mem, ?_, hpre⟩
    have hnode : ev'.block.node = x := by rw [hevs ev' mem_cons_self, hx]
    change eventsOf x halt.host.trace = evs ++ [ev] at hlog
    rw [hadvances.trace, cons_append, eventsOf_cons_of_eq hnode] at hlog
    rw [(append_inj' hlog rfl).1]
    exact hstopped
  | ok r =>
    rw [hresult] at hinterpret
    obtain ⟨last, mem'⟩ := r
    obtain ⟨htrail, evs, hadvances, hevs⟩ := hinterpret
    refine ⟨⟨pre, heap, mem', htrail, hpre, ?_⟩, fun ev hev hlast => ?_⟩
    · simp only [standing, tip_append_of_eq hx, store, Option.bind_some,
        lookup_insert_self, Option.getD_some]
      exact Memory.Same.refl mem'
    · refine ⟨e.block, tip_append_of_eq hx, ?_⟩
      rw [mem_eventsOf] at hev
      have hmem : ev ∈ evs ++ g.trace := hadvances.trace ▸ hev.1
      rcases mem_append.mp hmem with hev' | hev'
      · exact hevs ev hev' ▸ hlast
      · obtain ⟨b, hb, hblast⟩ := h.lasts ev (mem_eventsOf.mpr ⟨hev', hev.2⟩) hlast
        rw [htip, Option.mem_def] at hb
        split at hb
        · rename_i hvalid
          cases hb
          exact hlasting hblast hvalid
        · cases hb

/-- A block of another node goes unnoticed, unless a state is forgotten. -/
theorem tracks_process_of_ne (hx : e.block.node ≠ x) (howned : Owned done g)
    (hprev : e.prev.valid = true → e.prev.node = e.block.node)
    (hkept : ∀ e' ∈ done ++ [e], lasting e'.block → (g'.statess[e'.block]?).isSome)
    (hprocess : process g e = .ok g') (h : Tracks p round lasting x done g) :
    Tracks p round lasting x (done ++ [e]) g' := by
  obtain ⟨last, mem, hinterpret, hstore⟩ := process_eq_ok hprocess
  obtain ⟨evs, hadvances, hevs⟩ := (movesOn_interpret _ _ _ _ _ _).of_ok hinterpret
  have hsees : ∀ s : State, s.Owns (epochs done x) → Memory.Same ⟨g.heap, s⟩ ⟨g'.heap, s⟩ :=
    fun s => howned.same_process hprev hprocess hx
  subst hstore
  have hevents : eventsOf x (last.store e.block mem).trace = eventsOf x g.trace := by
    change eventsOf x last.trace = _
    rw [hadvances.trace]
    exact eventsOf_append_of_ne fun ev hev => by rwa [hevs ev hev]
  have htip : tip (done ++ [e]) x = tip done x := tip_append_of_ne hx
  have hframe : ∀ s : State, (∀ b, tip done x = some b → g.statess[b]? = some s ∨ s = State.fresh) →
      (tip done x = none → s = State.fresh) →
      Memory.Same ⟨g.heap, s⟩ ⟨(last.store e.block mem).heap, s⟩ := by
    intro s hs hnone
    apply hsees
    cases hb : tip done x with
    | none => exact hnone hb ▸ State.Owns.fresh _
    | some b =>
      rcases hs b hb with hfound | rfl
      · obtain ⟨-, -, -, hnode⟩ := mem_of_tip hb
        exact hnode ▸ howned.owns b s hfound
      · exact State.Owns.fresh _
  refine ⟨?_, fun ev hev hlast => htip ▸ h.lasts ev (hevents ▸ hev) hlast⟩
  rw [hevents]
  obtain ⟨pre, heap, mem', trail, hpre, hsame⟩ := h.trail
  by_cases hforgot : ∃ b, tip done x = some b ∧ (g.statess[b]?).isSome ∧
      (last.store e.block mem).statess[b]? = none
  · -- the state is gone, so no block of the node so far was to last
    obtain ⟨b, hb, -, hgone⟩ := hforgot
    refine ⟨eventsOf x g.trace, (last.store e.block mem).heap,
      ⟨(last.store e.block mem).heap, State.fresh⟩, Trail.start, fun ev hev hlast => ?_, ?_⟩
    · obtain ⟨b', hb', hblast⟩ := h.lasts ev hev hlast
      obtain rfl : b = b' := Option.some.inj (hb.symm.trans hb')
      obtain ⟨e', he', rfl, -⟩ := mem_of_tip hb
      have hsome := hkept e' (mem_append_left _ he') hblast
      rw [hgone] at hsome
      cases hsome
    · rw [standing, htip, hb, Option.bind_some, hgone]
      exact Memory.Same.refl _
  · have hstanding : (last.store e.block mem).standing (done ++ [e]) x = g.standing done x := by
      unfold standing
      rw [htip]
      cases hb : tip done x with
      | none => rfl
      | some b =>
        obtain ⟨-, -, -, hnode⟩ := mem_of_tip hb
        have hother : e.block ≠ b := by
          rintro rfl
          exact hx hnode
        rw [Option.bind_some, Option.bind_some]
        congr 1
        rw [store, lookup_insert_of_ne _ hother]
        cases hfound : last.statess[b]? with
        | some s => exact (hadvances.statess b s hfound).symm
        | none =>
          cases hbefore : g.statess[b]? with
          | none => rfl
          | some s =>
            refine absurd ⟨b, hb, by simp [hbefore], ?_⟩ hforgot
            rw [store, lookup_insert_of_ne _ hother, hfound]
    refine ⟨pre, heap, mem', trail, hpre, hsame.trans ?_⟩
    rw [hstanding]
    apply hframe
    · intro b hb
      unfold standing
      rw [hb, Option.bind_some]
      cases g.statess[b]? with
      | none => exact .inr rfl
      | some s => exact .inl rfl
    · intro hb
      unfold standing
      rw [hb]
      rfl

end Tracks

/-- Up to `limit` delivered rounds, a run neither prunes `round` nor forgets the
state of a block that is to last. -/
def Preserves (start : Graph) (acts : List Action) (round limit : Nat) (lasting : BlockID → Prop) :
    Prop :=
  ∀ done rest g, acts = done ++ rest → actAll start done = .ok g → g.callbacks.length ≤ limit →
    g.round ≤ round ∧ ∀ e ∈ interpreted done, lasting e.block → (g.statess[e.block]?).isSome

/-- The steps of a node that never forks form a trail. -/
theorem hasTrail_actAll {p : Params} {lastInterpreted round limit x : Nat} {acts : List Action}
    {lasting : BlockID → Prop} (hcausal : Causal p.peers (interpreted acts))
    (hone : OneChain (interpreted acts) x)
    (hlasting : ∀ e ∈ interpreted acts, ∀ b ∈ e.deps, lasting b → lasting e.block)
    (hpreserves : Preserves (new p lastInterpreted) acts round limit lasting) :
    Ensures (actAll (new p lastInterpreted) acts)
      (fun g => g.callbacks.length ≤ limit → HasTrail p round lasting x g.trace)
      (fun halt => halt.host.callbacks.length ≤ limit →
        ∃ ev older, halt.host.trace = ev :: older ∧ HasTrail p round lasting x older) := by
  refine (ensures_actAll (fun done g => g.params = p ∧ Owned (interpreted done) g ∧
    (g.callbacks.length ≤ limit → Tracks p round lasting x (interpreted done) g)) ?_ ?_).mono ?_
  · intro done a rest g hsplit hdone hinv
    obtain ⟨hparams, howned, htracks⟩ := hinv
    cases a with
    | register bg =>
      change Ensures (.ok (g.register bg)) _ _
      rw [register_eq, interpreted_register]
      refine ⟨hparams, ⟨howned.clock, howned.owns⟩, fun hlimit => ?_⟩
      exact ⟨(htracks hlimit).trail, (htracks hlimit).lasts⟩
    | process e =>
      have hentries := interpreted_split hsplit
      have hmem : e ∈ interpreted acts := by simp [hentries]
      have hprev : e.prev.valid = true → e.prev ∈ e.deps ∧ e.prev.node = e.block.node := by
        intro hvalid
        obtain ⟨-, hnode, -, hdep⟩ := (hcausal.wellFormed e hmem).of_prev hvalid
        exact ⟨hdep, hnode⟩
      have htip := tip_eq_prev hcausal hone hentries
      have hmoves := movesOn_process g e
      have hchain := fun hx hlimit => tracks_process_of_eq hx (htip hx)
        (fun hlast hvalid => hlasting e hmem _ (hprev hvalid).1 hlast)
        (hpreserves done _ g hsplit hdone hlimit).1 hparams (htracks hlimit)
      change Ensures (process g e) _ _
      rw [interpreted_process]
      cases hprocess : process g e with
      | error halt =>
        obtain ⟨ev, evs, hadvances, hevs⟩ := hmoves.of_error hprocess
        intro hlimit
        have hbefore := hadvances.callbacks.trans hlimit
        by_cases hx : e.block.node = x
        · exact (hchain hx hbefore).of_error hprocess
        · refine ⟨ev, evs ++ g.trace, hadvances.trace, ?_⟩
          have hevents : eventsOf x (evs ++ g.trace) = eventsOf x g.trace :=
            eventsOf_append_of_ne fun ev' hev' => by rwa [hevs ev' (mem_cons_of_mem _ hev')]
          rw [HasTrail, hevents]
          exact (htracks hbefore).hasTrail
      | ok g' =>
        obtain ⟨last, mem, ⟨evs, hadvances, -⟩, rfl⟩ := hmoves.of_ok hprocess
        refine ⟨hadvances.params.trans hparams,
          (owned_process (fun hvalid => (hprev hvalid).2) howned hprocess).1, fun hlimit => ?_⟩
        have hbefore : g.callbacks.length ≤ limit := hadvances.callbacks.trans hlimit
        by_cases hx : e.block.node = x
        · exact (hchain hx hbefore).of_ok hprocess
        · refine tracks_process_of_ne hx howned (fun hvalid => (hprev hvalid).2) ?_ hprocess
            (htracks hbefore)
          have hafter := hpreserves (done ++ [.process e]) rest _ (by simp [hsplit])
            (actAll_process hdone hprocess) hlimit
          rw [interpreted_process] at hafter
          exact hafter.2
  · refine ⟨rfl, ⟨rfl, fun b s hs => by simp [new] at hs⟩, fun _ => ⟨?_, by simp [new, eventsOf]⟩⟩
    exact ⟨[], Heap.empty, _, Trail.start, by simp, Memory.Same.refl _⟩
  · exact fun g hg hlimit => (hg.2.2 hlimit).hasTrail

end Graph

end Blockmania
