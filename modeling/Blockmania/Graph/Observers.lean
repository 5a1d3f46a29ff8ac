/-
# Observers

Two nodes that interpret the same blocks do not compute the same. A block of round 1
has the zero block id as its predecessor. Its author takes that id for a dependency
and records a delay for it, everybody else does not. The entry stays in the map of
delays along the whole chain, and where it counts, the author of a chain comes to
other timeout values than its observers.

Where it does not count, they agree on everything, as long as no block starts from a
state that other blocks have changed since it was stored.
-/

import Blockmania.Graph.Chains
import Blockmania.Graph.Siblings
import Blockmania.Math.OrderStatistics

namespace Blockmania

open Math List FiniteMap
open BlockGraph (actions entries)

/-- The second map of delays has an entry for the zero block id in addition. -/
def Padded (delay delay' : FiniteMap Nat Nat) : Prop := delay[0]? = none ∧ delay' = delay.insert 0 10

/-- An entry for the zero block id does not change the timeout value: there are fewer
delays than a quorum, or the delay at the quorum is at most 10, or it is also the one
before. -/
def padsWell (p : Params) (delay : FiniteMap Nat Nat) : Bool :=
  let vals := delay.values.insertionSort (· ≤ ·)
  decide (delay.size < p.quorum2f1) || decide (vals.getD p.quorum2f 0 ≤ 10) ||
    (decide (0 < p.quorum2f) && decide (vals.getD (p.quorum2f - 1) 0 = vals.getD p.quorum2f 0))

section Delays

variable {p : Params} {delay delay' : FiniteMap Nat Nat}

/-- The timeout value of at least a quorum of delays. -/
theorem timeoutValue_of_quorum (h : p.quorum2f1 ≤ delay.size) :
    timeoutValue p delay = max 10 ((delay.values.insertionSort (· ≤ ·)).getD p.quorum2f 0) := by
  unfold timeoutValue
  split
  · rfl
  · rename_i hsmall
    have hlength : (delay.values.insertionSort (· ≤ ·)).length = p.quorum2f + 1 := by
      rw [length_insertionSort, length_values]
      unfold Params.quorum2f1 Params.quorum2f at *
      omega
    rw [← foldl_max_of_sorted 0 10 (pairwise_insertionSort _ _) hlength]
    exact ((perm_insertionSort _ _).foldl_eq 10).symm

/-- When the additional entry does not matter. -/
theorem timeoutValue_insert_iff (hnew : delay[0]? = none) :
    timeoutValue p (delay.insert 0 10) = timeoutValue p delay ↔ padsWell p delay = true := by
  have hperm := values_insert_perm hnew 10
  have hsize : (delay.insert 0 10).size = delay.size + 1 := by
    rw [← length_values, hperm.length_eq, length_cons, length_values]
  have hquorum : p.quorum2f1 = p.quorum2f + 1 := rfl
  unfold padsWell
  simp only [Bool.or_eq_true, Bool.and_eq_true, decide_eq_true_eq]
  by_cases hsmall : delay.size < p.quorum2f1
  · refine iff_of_true ?_ (.inl (.inl hsmall))
    unfold timeoutValue
    rw [if_neg (by omega), if_neg (by omega), hperm.foldl_eq 10]
    rfl
  have hlength : p.quorum2f < (delay.values.insertionSort (· ≤ ·)).length := by
    rw [length_insertionSort, length_values]
    omega
  have hsorted := pairwise_insertionSort (· ≤ ·) delay.values
  rw [timeoutValue_of_quorum (by omega : p.quorum2f1 ≤ (delay.insert 0 10).size),
    timeoutValue_of_quorum (not_lt.mp hsmall), insertionSort_of_perm hperm]
  change max 10 (((delay.values.insertionSort (· ≤ ·)).orderedInsert (· ≤ ·) 10).getD p.quorum2f 0) = _ ↔ _
  rcases Nat.eq_zero_or_pos p.quorum2f with hzero | hpos
  · rw [hzero, max_getD_orderedInsert_zero]
    omega
  obtain ⟨k, hk⟩ : ∃ k, p.quorum2f = k + 1 := ⟨p.quorum2f - 1, by omega⟩
  have hstep : (delay.values.insertionSort (· ≤ ·)).getD k 0 ≤
      (delay.values.insertionSort (· ≤ ·)).getD (k + 1) 0 := by
    rw [getD_eq_getElem _ _ (by omega), getD_eq_getElem _ _ (by omega)]
    exact pairwise_iff_getElem.mp hsorted _ _ _ _ (Nat.lt_succ_self k)
  rw [hk, max_getD_orderedInsert 10 0 hsorted (by omega), Nat.add_sub_cancel]
  omega

/-- Delays recorded on both sides leave at most the additional entry. -/
theorem padded_recordDelays (round : Nat) :
    ∀ {deps : List BlockID} {delay delay' : FiniteMap Nat Nat}, Padded delay delay' →
      recordDelays round deps delay = recordDelays round deps delay' ∨
        Padded (recordDelays round deps delay) (recordDelays round deps delay') := by
  intro deps
  induction deps with
  | nil => exact fun h => .inr h
  | cons dep deps ih =>
    rintro delay delay' ⟨hnew, rfl⟩
    by_cases hnode : dep.node = 0
    · left
      change recordDelays round deps _ = recordDelays round deps _
      congr 1
      apply ext_lookup
      intro a
      simp only [lookup_insert, hnode]
      split <;> rfl
    · apply ih
      constructor
      · rw [lookup_insert_of_ne _ hnode]
        exact hnew
      · apply ext_lookup
        intro a
        simp only [lookup_insert]
        by_cases ha : dep.node = a
        · rw [if_pos ha, if_neg (by omega), if_pos ha]
        · rw [if_neg ha, if_neg ha]

/-- The same delays on both sides, up to the additional entry. -/
def Matching (delay delay' : FiniteMap Nat Nat) : Prop :=
  delay = delay' ∨ Padded delay delay' ∨ Padded delay' delay

/-- Whether two maps of delays that match lead to the same timeout value. -/
def even (p : Params) (delay delay' : FiniteMap Nat Nat) : Bool :=
  if delay.size < delay'.size then padsWell p delay
  else if delay'.size < delay.size then padsWell p delay' else true

theorem size_of_padded (h : Padded delay delay') : delay'.size = delay.size + 1 := by
  obtain ⟨hnew, rfl⟩ := h
  rw [← length_values, (values_insert_perm hnew 10).length_eq, length_cons, length_values]

theorem Matching.timeoutValue_eq_iff (h : Matching delay delay') :
    timeoutValue p delay = timeoutValue p delay' ↔ even p delay delay' = true := by
  unfold even
  rcases h with rfl | hpadded | hpadded
  · simp
  · have hsize := size_of_padded hpadded
    obtain ⟨hnew, rfl⟩ := hpadded
    rw [if_pos (by omega), ← timeoutValue_insert_iff hnew, eq_comm]
  · have hsize := size_of_padded hpadded
    obtain ⟨hnew, rfl⟩ := hpadded
    rw [if_neg (by omega), if_pos (by omega), ← timeoutValue_insert_iff hnew]

theorem Matching.recordDelays (h : Matching delay delay') (round : Nat) (deps : List BlockID) :
    Matching (recordDelays round deps delay) (recordDelays round deps delay') := by
  rcases h with rfl | hpadded | hpadded
  · exact .inl rfl
  · exact (padded_recordDelays round hpadded).imp_right .inl
  · exact (padded_recordDelays round hpadded).imp Eq.symm .inr

end Delays

/-- The delays of every block, as they follow from what is interpreted alone. -/
def delaysOf (es : List Entry) : FiniteMap BlockID (FiniteMap Nat Nat) :=
  es.foldl (fun delays e => delays.insert e.block (recordDelays e.block.round e.deps
    (if e.prev.valid then delays[e.prev]?.getD ∅ else ∅))) ∅

def delayAt (es : List Entry) (b : BlockID) : FiniteMap Nat Nat := (delaysOf es)[b]?.getD ∅

section Entries

variable {es done rest : List Entry} {e : Entry} {b : BlockID}

theorem delaysOf_concat (es : List Entry) (e : Entry) :
    delaysOf (es ++ [e]) = (delaysOf es).insert e.block (recordDelays e.block.round e.deps
      (if e.prev.valid then delayAt es e.prev else ∅)) := by
  rw [delaysOf, foldl_append]
  rfl

theorem lookup_delaysOf_append (hb : ∀ e ∈ rest, e.block ≠ b) :
    (delaysOf (done ++ rest))[b]? = (delaysOf done)[b]? := by
  induction rest using List.reverseRecOn with
  | nil => rw [append_nil]
  | append_singleton rest e ih =>
    rw [← append_assoc, delaysOf_concat, lookup_insert_of_ne _ (hb e (by simp))]
    exact ih fun e' he' => hb e' (mem_append_left _ he')

theorem isSome_delaysOf : ((delaysOf es)[b]?).isSome ↔ b ∈ es.map Entry.block := by
  induction es using List.reverseRecOn with
  | nil => simp [delaysOf]
  | append_singleton es e ih =>
    rw [delaysOf_concat, lookup_insert, map_append, mem_append, ← ih]
    split
    · rename_i heq
      simp [heq]
    · rename_i hne
      simp [Ne.symm hne]

/-- The delays of a block come from its references and its predecessor. -/
theorem delayAt_eq {peers : List Nat} (hcausal : Causal peers es) (he : e ∈ es) :
    delayAt es e.block = recordDelays e.block.round e.deps
      (if e.prev.valid then delayAt es e.prev else ∅) := by
  obtain ⟨done, rest, hsplit⟩ := append_of_mem he
  have hfresh := (hcausal.block_ne hsplit).2
  have hconcat : es = (done ++ [e]) ++ rest := hsplit.trans (append_cons _ _ _)
  unfold delayAt
  conv_lhs => rw [hconcat]
  rw [lookup_delaysOf_append hfresh, delaysOf_concat, lookup_insert_self, Option.getD_some]
  congr 1
  split
  · rename_i hvalid
    unfold delayAt
    rw [hsplit, lookup_delaysOf_append]
    rintro e' he' heq
    -- the predecessor comes before the block, so it does not come again
    obtain ⟨-, -, -, hdep⟩ := (hcausal.wellFormed e he).of_prev hvalid
    have hbefore := hcausal.closed done e rest hsplit e.prev hdep hvalid
    have hnodup := hcausal.nodup
    rw [hsplit, map_append, nodup_append'] at hnodup
    exact hnodup.2.2 hbefore (heq ▸ mem_map_of_mem he')
  · rfl

end Entries

namespace Graph

/-- What a run computes for a block, as long as no round is delivered. -/
def Computes (p : Params) (acts : List Action) (b : BlockID) (mem : Memory) : Prop :=
  ∃ done e rest g, acts = done ++ .process e :: rest ∧ e.block = b ∧
    actAll (new p 0) (done ++ [.process e]) = .ok g ∧ g.callbacks = [] ∧ g.heap = mem.heap ∧
    g.statess[b]? = some mem.state

theorem Computes.append {p : Params} {acts : List Action} {b : BlockID} {mem : Memory}
    (h : Computes p acts b mem) (more : List Action) : Computes p (acts ++ more) b mem := by
  obtain ⟨done, e, rest, g, rfl, hrest⟩ := h
  exact ⟨done, e, rest ++ more, g, by simp, hrest⟩

/-- What a graph that has delivered no round holds. -/
structure Recorded (p : Params) (done : List Action) (g : Graph) : Prop where
  params : g.params = p
  round : g.round = 1
  delays : ∀ b : BlockID, (delaysOf (interpreted done))[b]? = g.statess[b]?.map State.delay
  timeout : ∀ (b : BlockID) (s : State), g.statess[b]? = some s → s.timeout = timeoutValue p s.delay
  computed : ∀ (b : BlockID) (s : State), g.statess[b]? = some s → ∃ heap, Computes p done b ⟨heap, s⟩

theorem delay_opened (g : Graph) (e : Entry) :
    (g.opened e).state.delay = if e.prev.valid then (g.statess[e.prev]?.map State.delay).getD ∅ else ∅ := by
  unfold opened findOrCreateState
  dsimp only
  split
  · cases g.statess[e.prev]? <;> rfl
  · rfl

section Runs

variable {p : Params} {done : List Action} {g g' : Graph} {e : Entry}

theorem idle_before (hprocess : g.process e = .ok g') (hidle : g'.callbacks = []) : g.callbacks = [] := by
  have hle := callbacks_process hprocess
  rw [hidle] at hle
  exact length_eq_zero_iff.mp (Nat.le_zero.mp hle)

theorem Recorded.process (h : Recorded p done g) (hdone : actAll (new p 0) done = .ok g)
    (hprocess : g.process e = .ok g') (hidle : g'.callbacks = []) : Recorded p (done ++ [.process e]) g' := by
  have hbefore := idle_before hprocess hidle
  obtain ⟨hround, hparams, hkept⟩ := idle_process hprocess (by rw [hidle, hbefore])
  have hnew : ∃ s, g'.statess[e.block]? = some s := by
    obtain ⟨last, mem, -, rfl⟩ := process_eq_ok hprocess
    exact ⟨mem.state, lookup_insert_self _ _ _⟩
  obtain ⟨s, hs⟩ := hnew
  obtain ⟨hdelay, htimeout⟩ := delay_process hprocess hs
  refine ⟨hparams.trans h.params, hround.trans h.round, fun b => ?_, fun b t ht => ?_, fun b t ht => ?_⟩
  · rw [interpreted_process, delaysOf_concat, lookup_insert]
    split
    · rename_i heq
      rw [← heq, hs, Option.map_some, hdelay, delay_opened]
      unfold delayAt
      rw [h.delays]
    · rename_i hne
      rw [hkept b (Ne.symm hne), h.delays]
  · by_cases heq : b = e.block
    · subst heq
      cases hs.symm.trans ht
      rw [htimeout, h.params]
    · exact h.timeout b t ((hkept b heq).symm.trans ht)
  · by_cases heq : b = e.block
    · subst heq
      exact ⟨g'.heap, done, e, [], g', rfl, rfl, actAll_process hdone hprocess, hidle, rfl, ht⟩
    · obtain ⟨heap, hcomputes⟩ := h.computed b t ((hkept b heq).symm.trans ht)
      exact ⟨heap, hcomputes.append _⟩

theorem recorded_actAll (p : Params) (acts : List Action) :
    Ensures (actAll (new p 0) acts) (fun g => g.callbacks = [] → Recorded p acts g) (fun _ => True) := by
  apply holds_actAll fun done g => g.callbacks = [] → Recorded p done g
  · intro done bg rest g _ _ hrecorded
    rw [register_eq]
    intro hidle
    have h := hrecorded hidle
    refine ⟨h.params, h.round, ?_, h.timeout, fun b s hs => ?_⟩
    · rw [interpreted_register]
      exact h.delays
    · obtain ⟨heap, hcomputes⟩ := h.computed b s hs
      exact ⟨heap, hcomputes.append _⟩
  · intro done e rest g g' _ hdone hrecorded hprocess hidle
    exact (hrecorded (idle_before hprocess hidle)).process hdone hprocess hidle
  · intro _
    refine ⟨rfl, rfl, ?_, ?_, ?_⟩
    · simp [new, interpreted, delaysOf]
    · simp [new]
    · simp [new]

/-- The step that computed a block. -/
theorem Computes.cases {acts : List Action} {b : BlockID} {mem : Memory} (h : Computes p acts b mem) :
    ∃ done e rest g g', acts = done ++ .process e :: rest ∧ e.block = b ∧
      actAll (new p 0) done = .ok g ∧ g.process e = .ok g' ∧ g.callbacks = [] ∧ g'.callbacks = [] ∧
      g'.heap = mem.heap ∧ g'.statess[b]? = some mem.state ∧ Recorded p done g ∧
      Recorded p (done ++ [.process e]) g' := by
  obtain ⟨done, e, rest, g', hsplit, hblock, hrun, hidle, hheap, hstate⟩ := h
  have hrun' := hrun
  rw [actAll_append] at hrun'
  obtain ⟨g, hdone, hprocess⟩ := bind_eq_ok.mp hrun'
  obtain ⟨g'', hprocess, hlast⟩ := bind_eq_ok.mp hprocess
  cases hlast
  have hbefore := idle_before hprocess hidle
  exact ⟨done, e, rest, g, g', hsplit, hblock, hdone, hprocess, hbefore, hidle, hheap, hstate,
    (recorded_actAll p done).of_ok hdone hbefore, (recorded_actAll p _).of_ok hrun hidle⟩

end Runs

end Graph

/-- The blocks of a DAG: what precedes each and what it references. A block of round 1
has no predecessor. -/
structure Dag where
  prev : BlockID → BlockID
  links : BlockID → List BlockID
  first : ∀ b, b.round = 1 → prev b = BlockID.zero

namespace Dag

/-- The dependencies that every node takes a block to have. -/
def core (dag : Dag) (b : BlockID) : List BlockID :=
  if b.round = 1 then dag.links b else dag.prev b :: dag.links b

/-- The own blocks and the referenced ones are blocks of the DAG. -/
structure Depicts (dag : Dag) (bgs : List BlockGraph) : Prop where
  own : ∀ bg ∈ bgs, bg.prev = dag.prev bg.block ∧ bg.deps.map Dep.block = dag.links bg.block
  dep : ∀ bg ∈ bgs, ∀ dep ∈ bg.deps, dep.prev = dag.prev dep.block ∧ dep.deps = dag.links dep.block

/-- What is interpreted for a block of the DAG, by its author or by others. -/
structure Describes (dag : Dag) (e : Entry) : Prop where
  prev : e.prev = dag.prev e.block
  deps : e.deps = dag.core e.block ∨
    e.block.round = 1 ∧ e.deps = BlockID.zero :: dag.core e.block

theorem Depicts.describes {dag : Dag} {bgs : List BlockGraph} (h : dag.Depicts bgs) :
    ∀ e ∈ bgs.flatMap entries, dag.Describes e := by
  intro e he
  obtain ⟨bg, hbg, he⟩ := mem_flatMap.mp he
  rcases mem_append.mp he with he | he
  · obtain ⟨dep, hdep, rfl⟩ := mem_map.mp he
    obtain ⟨hprev, hlinks⟩ := h.dep bg hbg dep hdep
    refine ⟨hprev, .inl ?_⟩
    change dep.links = dag.core dep.block
    unfold Dep.links core
    by_cases hfirst : dep.block.round = 1
    · rw [if_neg (not_not.mpr hfirst), if_pos hfirst, hlinks]
    · rw [if_pos hfirst, if_neg hfirst, hprev, hlinks]
  · obtain rfl := mem_singleton.mp he
    obtain ⟨hprev, hlinks⟩ := h.own bg hbg
    refine ⟨hprev, ?_⟩
    change bg.prev :: bg.deps.map Dep.block = dag.core bg.block ∨ bg.block.round = 1 ∧
      bg.prev :: bg.deps.map Dep.block = BlockID.zero :: dag.core bg.block
    rw [hprev, hlinks]
    unfold core
    by_cases hfirst : bg.block.round = 1
    · right
      rw [if_pos hfirst, dag.first _ hfirst]
      exact ⟨hfirst, rfl⟩
    · left
      rw [if_neg hfirst]

end Dag

section Delays

variable {p : Params} {dag : Dag} {es es' : List Entry}

/-- A predecessor is a block that was interpreted before, of the round before. -/
theorem Causal.prev_mem (h : Causal p.peers es) {e : Entry} (he : e ∈ es) (hvalid : e.prev.valid = true) :
    e.block.round ≠ 1 ∧ e.prev.round + 1 = e.block.round ∧ ∃ e' ∈ es, e'.block = e.prev := by
  obtain ⟨hfirst, -, hround, hdep⟩ := (h.wellFormed e he).of_prev hvalid
  obtain ⟨done, rest, hsplit⟩ := append_of_mem he
  obtain ⟨e', he', heq⟩ := mem_map.mp (h.closed done e rest hsplit e.prev hdep hvalid)
  exact ⟨hfirst, hround, e', by simp [hsplit, he'], heq⟩

/-- Two nodes record the same delays, up to the entry for the zero block id. -/
theorem matching_delayAt (hcausal : Causal p.peers es) (hcausal' : Causal p.peers es')
    (hdag : ∀ e ∈ es, dag.Describes e) (hdag' : ∀ e ∈ es', dag.Describes e) :
    ∀ (n : Nat) (e e' : Entry), e ∈ es → e' ∈ es' → e.block = e'.block → e.block.round = n →
      Matching (delayAt es e.block) (delayAt es' e'.block) := by
  intro n
  induction n using Nat.strong_induction_on with
  | h n ih =>
    intro e e' he he' hblock hn
    rw [delayAt_eq hcausal he, delayAt_eq hcausal' he']
    have hprev : e.prev = e'.prev := by rw [(hdag e he).prev, (hdag' e' he').prev, hblock]
    by_cases hvalid : e.prev.valid = true
    · -- both have come to the predecessor with matching delays
      obtain ⟨hfirst, hround, before, hbefore, heq⟩ := hcausal.prev_mem he hvalid
      obtain ⟨-, -, before', hbefore', heq'⟩ := hcausal'.prev_mem he' (hprev ▸ hvalid)
      have hdeps := (hdag e he).deps.resolve_right fun h => hfirst h.1
      have hdeps' := (hdag' e' he').deps.resolve_right fun h => hfirst (hblock ▸ h.1)
      rw [if_pos hvalid, if_pos (hprev ▸ hvalid), hdeps, hdeps', ← hblock]
      apply Matching.recordDelays
      rw [← heq, ← heq']
      exact ih (n - 1) (by omega) before before' hbefore hbefore' (by rw [heq, heq', hprev])
        (by rw [heq]; omega)
    · -- the first block of a chain
      have hfirst : e.block.round = 1 := by
        by_contra hfirst
        exact hvalid ((hcausal.wellFormed e he).prev hfirst).1
      rw [if_neg hvalid, if_neg (hprev ▸ hvalid), ← hblock, hfirst]
      have hzero : recordDelays 1 (BlockID.zero :: dag.core e.block) ∅ =
          recordDelays 1 (dag.core e.block) ((∅ : FiniteMap Nat Nat).insert 0 10) := rfl
      have hpadded : Padded ∅ ((∅ : FiniteMap Nat Nat).insert 0 10) := ⟨by simp, rfl⟩
      rcases (hdag e he).deps with hdeps | ⟨-, hdeps⟩ <;>
        rcases (hdag' e' he').deps with hdeps' | ⟨-, hdeps'⟩ <;>
          rw [hdeps, hdeps', ← hblock]
      · exact .inl rfl
      · rw [hzero]
        exact Matching.recordDelays (.inr (.inl hpadded)) 1 _
      · rw [hzero]
        exact Matching.recordDelays (.inr (.inr hpadded)) 1 _
      · exact .inl rfl

end Delays

/-! ## Agreement of observers -/

/-- What two nodes are to agree on about a block. -/
structure Memory.SameResult (mem mem' : Memory) : Prop where
  out : mem.state.out = mem'.state.out
  timeout : mem.state.timeout = mem'.state.timeout
  timeouts : ∀ d, mem.timeoutsAt d = mem'.timeoutsAt d
  final : mem.state.final = mem'.state.final

theorem Memory.Alike.sameResult {mem mem' : Memory} (h : mem.Alike mem') : mem.SameResult mem' :=
  ⟨h.out, h.timeout, h.timeoutsAt, ext_lookup fun key => congrArg Instance.final (h.inst key)⟩

namespace Graph

/-- Nothing that a block starts from has changed since it was stored. -/
def Steady (p : Params) (acts : List Action) : Prop :=
  ∀ (done : List Action) (e : Entry) (rest : List Action) (g : Graph) (s : State) (mem : Memory),
    acts = done ++ .process e :: rest → actAll (new p 0) done = .ok g → g.callbacks = [] →
    e.prev.valid = true → g.statess[e.prev]? = some s → Computes p done e.prev mem →
    mem.Same ⟨g.heap, s⟩

theorem Steady.of_append {p : Params} {acts more : List Action} (h : Steady p (acts ++ more)) :
    Steady p acts := by
  intro done e rest g s mem hsplit
  exact h done e (rest ++ more) g s mem (by rw [hsplit]; simp)

/-- Two runs agree on every block that both compute. -/
def Observed (p : Params) (acts acts' : List Action) : Prop :=
  ∀ b mem mem', Computes p acts b mem → Computes p acts' b mem' → mem.SameResult mem'

variable {p : Params} {acts acts' : List Action} {b : BlockID} {mem : Memory}

/-- The delays of a block that was computed. -/
theorem Computes.delay (hcausal : Causal p.peers (interpreted acts)) (h : Computes p acts b mem) :
    b ∈ (interpreted acts).map Entry.block ∧ mem.state.delay = delayAt (interpreted acts) b ∧
      mem.state.timeout = timeoutValue p mem.state.delay := by
  obtain ⟨done, e, rest, g, g', rfl, rfl, -, -, -, -, -, hstate, -, hrecorded⟩ := h.cases
  have hentries : interpreted (done ++ .process e :: rest) = interpreted done ++ e :: interpreted rest :=
    interpreted_append _ _
  have hconcat : interpreted (done ++ .process e :: rest) =
      interpreted (done ++ [.process e]) ++ interpreted rest := by
    rw [hentries, interpreted_process, append_assoc]
    rfl
  refine ⟨by simp [hentries], ?_, hrecorded.timeout _ _ hstate⟩
  rw [delayAt, hconcat, lookup_delaysOf_append (hcausal.block_ne hentries).2, hrecorded.delays, hstate]
  rfl

/-- A block that was interpreted has a state. -/
theorem Recorded.statess {g : Graph} (h : Recorded p acts g) (b : BlockID) :
    (g.statess[b]?).isSome ↔ b ∈ (interpreted acts).map Entry.block := by
  rw [← isSome_delaysOf, h.delays, Option.isSome_map]

/-- A block of the DAG is interpreted with its dependencies, up to one without a state. -/
theorem receives_of_describes {dag : Dag} {g : Graph} {e : Entry} (h : dag.Describes e)
    (hzero : g.statess[BlockID.zero]? = none) : g.Receives e (dag.core e.block) :=
  h.deps.imp_right fun h => ⟨BlockID.zero, h.2, hzero⟩

/-- A run over blocks of a DAG in which what the blocks start from is steady. -/
structure Observes (p : Params) (dag : Dag) (acts : List Action) : Prop where
  causal : Causal p.peers (interpreted acts)
  describes : ∀ e ∈ interpreted acts, dag.Describes e
  steady : Steady p acts

variable {dag : Dag} {done rest : List Action} {g : Graph} {e : Entry}

theorem Observes.of_append {more : List Action} (h : Observes p dag (acts ++ more)) : Observes p dag acts := by
  have hcausal := h.causal
  rw [interpreted_append] at hcausal
  refine ⟨hcausal.of_append, fun e he => h.describes e ?_, h.steady.of_append⟩
  rw [interpreted_append]
  exact mem_append_left _ he

/-- A block without a hash has no state. -/
theorem Observes.statess_of_invalid (h : Observes p dag done) (hrecorded : Recorded p done g)
    {c : BlockID} (hc : c.valid = false) : g.statess[c]? = none := by
  rw [← Option.not_isSome_iff_eq_none, hrecorded.statess]
  intro hmem
  obtain ⟨e, he, rfl⟩ := mem_map.mp hmem
  rw [(h.causal.wellFormed e he).valid] at hc
  cases hc

/-- The dependencies of a block were computed before. -/
theorem Observes.computed (h : Observes p dag (done ++ .process e :: rest)) (hrecorded : Recorded p done g)
    {c : BlockID} (hc : c ∈ dag.core e.block) (hvalid : c.valid = true) :
    ∃ s heap, g.statess[c]? = some s ∧ Computes p done c ⟨heap, s⟩ := by
  have hentries : interpreted (done ++ .process e :: rest) = interpreted done ++ e :: interpreted rest :=
    interpreted_append _ _
  have hdep : c ∈ e.deps := by
    rcases (h.describes e (by simp [hentries])).deps with hdeps | ⟨-, hdeps⟩ <;> rw [hdeps]
    · exact hc
    · exact mem_cons_of_mem _ hc
  obtain ⟨s, hs⟩ := Option.isSome_iff_exists.mp ((hrecorded.statess c).mpr
    (h.causal.closed _ e _ hentries c hdep hvalid))
  obtain ⟨heap, hcomputed⟩ := hrecorded.computed c s hs
  exact ⟨s, heap, hs, hcomputed⟩

/-- What a block starts from is what was computed for its predecessor, or nothing. -/
theorem Observes.opened (h : Observes p dag (done ++ .process e :: rest)) (hrecorded : Recorded p done g)
    (hdone : actAll (new p 0) done = .ok g) (hidle : g.callbacks = []) :
    (dag.prev e.block).valid = true ∧ (∃ mem, Computes p done (dag.prev e.block) mem ∧
        (∀ key, (g.opened e).inst key = if key.round < 1 then Instance.empty else mem.inst key) ∧
        ∀ d, (g.opened e).timeoutsAt d = if d < 1 then [] else mem.timeoutsAt d) ∨
      (dag.prev e.block).valid = false ∧ g.opened e = ⟨g.heap.tick, State.fresh⟩ := by
  have hentries : interpreted (done ++ .process e :: rest) = interpreted done ++ e :: interpreted rest :=
    interpreted_append _ _
  have he : e ∈ interpreted (done ++ .process e :: rest) := by simp [hentries]
  rw [← (h.describes e he).prev]
  by_cases hvalid : e.prev.valid = true
  · left
    have hmem : e.prev ∈ dag.core e.block := by
      unfold Dag.core
      rw [if_neg (h.causal.prev_mem he hvalid).1, (h.describes e he).prev]
      exact mem_cons_self
    obtain ⟨s, heap, hs, hcomputed⟩ := h.computed hrecorded hmem hvalid
    have hsame := h.steady done e rest g s _ rfl hdone hidle hvalid hs hcomputed
    refine ⟨hvalid, _, hcomputed, fun key => ?_, fun d => ?_⟩
    · rw [opened_eq hvalid hs, hrecorded.round, inst_clone]
      exact congrArg (ite _ _) (hsame.inst key)
    · rw [opened_eq hvalid hs, hrecorded.round, Memory.timeoutsAt_clone, hsame.timeoutsAt d]
  · exact .inr ⟨Bool.eq_false_iff.mpr hvalid, opened_of_invalid hvalid⟩

/-- Where their timeout values are the same, two nodes compute the same. -/
theorem alike_of_computes :
    ∀ (n : Nat) (acts acts' : List Action), acts.length = n → Observes p dag acts →
      Observes p dag acts' →
      (∀ b mem mem', Computes p acts b mem → Computes p acts' b mem' →
        mem.state.timeout = mem'.state.timeout) →
      ∀ b mem mem', Computes p acts b mem → Computes p acts' b mem' → mem.Alike mem' := by
  intro n
  induction n using Nat.strong_induction_on with
  | h n ih =>
    intro acts acts' hlength hacts hacts' hvalue b mem mem' hb hb'
    have htimeout := hvalue b mem mem' hb hb'
    obtain ⟨done, e, rest, g, g₁, rfl, rfl, hdone, hprocess, hidle, hidle₁, hheap, hstate, hbefore, -⟩ :=
      hb.cases
    obtain ⟨done', e', rest', g', g₁', rfl, hblock, hdone', hprocess', hidle', hidle₁', hheap', hstate',
      hbefore', -⟩ := hb'.cases
    -- what both have come to before
    have hearlier : ∀ c m m', Computes p done c m → Computes p done' c m' → m.Alike m' := by
      apply ih done.length (by rw [← hlength]; simp) done done' rfl hacts.of_append hacts'.of_append
      intro c m m' hm hm'
      exact hvalue c m m' (hm.append _) (hm'.append _)
    have hopened : (∀ key, (g.opened e).inst key = (g'.opened e').inst key) ∧
        ∀ d, (g.opened e).timeoutsAt d = (g'.opened e').timeoutsAt d := by
      have hstart := hacts.opened hbefore hdone hidle
      have hstart' := hacts'.opened hbefore' hdone' hidle'
      rw [hblock] at hstart'
      rcases hstart with ⟨hvalid, m, hm, hinst, htimeouts⟩ | ⟨hinvalid, hfresh⟩ <;>
        rcases hstart' with ⟨hvalid', m', hm', hinst', htimeouts'⟩ | ⟨hinvalid', hfresh'⟩
      · have halike := hearlier _ m m' hm hm'
        exact ⟨fun key => by rw [hinst, hinst', halike.inst],
          fun d => by rw [htimeouts, htimeouts', halike.timeoutsAt]⟩
      · cases hvalid.symm.trans hinvalid'
      · cases hinvalid.symm.trans hvalid'
      · rw [hfresh, hfresh']
        exact ⟨fun key => by rw [inst_fresh, inst_fresh], fun d => by rw [timeoutsAt_fresh, timeoutsAt_fresh]⟩
    have houtputs : ∀ c ∈ dag.core e.block, g.statess[c]?.map State.out = g'.statess[c]?.map State.out := by
      intro c hc
      by_cases hvalid : c.valid = true
      · obtain ⟨s, heap, hs, hcomputed⟩ := hacts.computed hbefore hc hvalid
        obtain ⟨s', heap', hs', hcomputed'⟩ := hacts'.computed hbefore' (hblock ▸ hc) hvalid
        rw [hs, hs']
        exact congrArg some (hearlier c _ _ hcomputed hcomputed').out
      · have hinvalid := Bool.eq_false_iff.mpr hvalid
        rw [hacts.of_append.statess_of_invalid hbefore hinvalid,
          hacts'.of_append.statess_of_invalid hbefore' hinvalid]
    have hreceives := receives_of_describes
      (hacts.describes e (by simp [interpreted, Action.entry?]))
      (hacts.of_append.statess_of_invalid hbefore rfl)
    have hreceives' := receives_of_describes
      (hacts'.describes e' (by simp [interpreted, Action.entry?]))
      (hacts'.of_append.statess_of_invalid hbefore' rfl)
    rw [hblock] at hreceives'
    have hdelay := delay_process hprocess hstate
    have hdelay' := delay_process hprocess' (hblock ▸ hstate')
    obtain ⟨t, t', ht, ht', halike⟩ := alike_process (hbefore.params.trans hbefore'.params.symm)
      hblock.symm hreceives hreceives' hopened.1 hopened.2
      (by
        rw [← hdelay.1, ← hdelay'.1, ← hdelay.2, hbefore.params, ← hbefore'.params, ← hdelay'.2]
        exact htimeout)
      houtputs hprocess hprocess' (fun _ _ => by rw [keeps, hidle, hidle₁, decide_eq_true rfl]; rfl)
      (fun _ _ => by rw [keeps, hidle', hidle₁', decide_eq_true rfl]; rfl)
    cases hstate.symm.trans ht
    cases hstate'.symm.trans (hblock ▸ ht')
    rw [hheap, hheap'] at halike
    exact halike

theorem Computes.of_concat {a : Action} (h : Computes p (done ++ [a]) b mem) :
    Computes p done b mem ∨ ∃ e g, a = .process e ∧ e.block = b ∧
      actAll (new p 0) (done ++ [.process e]) = .ok g ∧ g.heap = mem.heap ∧
        g.statess[b]? = some mem.state := by
  obtain ⟨done', e, rest, g, hsplit, hblock, hrun, hidle, hheap, hstate⟩ := h
  rcases eq_nil_or_concat rest with rfl | ⟨rest, last, rfl⟩
  · obtain ⟨rfl, hlast⟩ := append_inj' hsplit rfl
    exact .inr ⟨e, g, (List.cons.inj hlast).1, hblock, hrun, hheap, hstate⟩
  · rw [concat_eq_append, ← cons_append, ← append_assoc] at hsplit
    obtain ⟨rfl, -⟩ := append_inj' hsplit rfl
    exact .inl ⟨done', e, rest, g, rfl, hblock, hrun, hidle, hheap, hstate⟩

/-- The last block of a node shows what it was stored with: the blocks of other nodes
write elsewhere. -/
theorem same_tip (hcausal : Causal p.peers (interpreted acts)) :
    Ensures (actAll (new p 0) acts) (fun g => g.callbacks = [] →
      ∀ (x : Nat) (b : BlockID) (s : State) (mem : Memory), tip (interpreted acts) x = some b →
        g.statess[b]? = some s → Computes p acts b mem → mem.Same ⟨g.heap, s⟩) (fun _ => True) := by
  apply holds_actAll fun done g => g.callbacks = [] →
    ∀ (x : Nat) (b : BlockID) (s : State) (mem : Memory), tip (interpreted done) x = some b →
      g.statess[b]? = some s → Computes p done b mem → mem.Same ⟨g.heap, s⟩
  · intro done bg rest g _ _ hsame
    rw [register_eq, interpreted_register]
    intro hidle x b s mem htip hs hcomputes
    rcases hcomputes.of_concat with hcomputes | ⟨e, -, heq, -⟩
    · exact hsame hidle x b s mem htip hs hcomputes
    · cases heq
  · intro done e rest g g' hsplit hdone hsame hprocess hidle x b s mem htip hs hcomputes
    have hbefore := idle_before hprocess hidle
    have hentries := interpreted_split hsplit
    have hearlier : Causal p.peers (interpreted done) := (hentries ▸ hcausal).of_append
    rw [interpreted_process] at htip
    by_cases hx : e.block.node = x
    · rw [tip_append_of_eq hx] at htip
      cases htip
      rcases hcomputes.of_concat with hcomputes | ⟨e', g'', heq, -, hrun, hheap, hstate⟩
      · obtain ⟨e', he', heq⟩ := mem_map.mp (hcomputes.delay hearlier).1
        exact absurd heq ((hcausal.block_ne hentries).1 e' he')
      · cases heq
        cases (actAll_process hdone hprocess).symm.trans hrun
        cases hs.symm.trans hstate
        rw [hheap]
        exact Memory.Same.refl _
    · rw [tip_append_of_ne hx] at htip
      obtain ⟨-, -, -, hnode⟩ := mem_of_tip htip
      have hne : b ≠ e.block := by
        rintro rfl
        exact hx hnode
      rw [(idle_process hprocess (by rw [hidle, hbefore])).2.2 b hne] at hs
      rcases hcomputes.of_concat with hcomputes | ⟨e', g'', heq, hblock, -⟩
      · have hprev : e.prev.valid = true → e.prev.node = e.block.node := by
          intro hvalid
          have hmem : e ∈ interpreted acts := by simp [hentries]
          exact ((hcausal.wellFormed e hmem).prev (hcausal.prev_mem hmem hvalid).1).2.1
        have howned := (owned_actAll hearlier.wellFormed).of_ok hdone
        exact (hsame hbefore x b s mem htip hs hcomputes).trans
          (howned.same_process hprev hprocess hx (hnode ▸ howned.owns b s hs))
      · cases heq
        exact absurd hblock.symm hne
  · intro _ x b s mem htip
    simp [interpreted, tip] at htip

/-- Where no node forks, nothing that a block starts from changes. -/
theorem steady_of_oneChain (hcausal : Causal p.peers (interpreted acts))
    (hone : ∀ x, OneChain (interpreted acts) x) : Steady p acts := by
  intro done e rest g s mem hsplit hdone hidle hvalid hs hcomputes
  have hentries := interpreted_split hsplit
  have htip := tip_eq_prev hcausal (hone e.block.node) hentries rfl
  rw [if_pos hvalid] at htip
  exact (same_tip (hentries ▸ hcausal).of_append).of_ok hdone hidle _ _ s mem htip hs hcomputes

/-- The blocks that a node interprets before it has delivered a round. -/
def Interprets (p : Params) (bgs : List BlockGraph) (b : BlockID) : Prop :=
  ∃ mem, Computes p (bgs.flatMap actions) b mem

/-- When two nodes compute the same for the blocks of a DAG. Their delays differ at
most in the entry for the zero block id, and it must not make a difference to any
timeout value. -/
theorem observed_iff {p : Params} {dag : Dag} {bgs bgs' : List BlockGraph} (hdag : dag.Depicts bgs)
    (hdag' : dag.Depicts bgs') (hcausal : Causal p.peers (bgs.flatMap entries))
    (hcausal' : Causal p.peers (bgs'.flatMap entries))
    (hsteady : Steady p (bgs.flatMap actions))
    (hsteady' : Steady p (bgs'.flatMap actions)) :
    Observed p (bgs.flatMap actions) (bgs'.flatMap actions) ↔
      ∀ b, Interprets p bgs b → Interprets p bgs' b →
        even p (delayAt (bgs.flatMap entries) b) (delayAt (bgs'.flatMap entries) b) =
          true := by
  have hvalue : ∀ b mem mem', Computes p (bgs.flatMap actions) b mem →
      Computes p (bgs'.flatMap actions) b mem' →
      (mem.state.timeout = mem'.state.timeout ↔
        even p (delayAt (bgs.flatMap entries) b)
          (delayAt (bgs'.flatMap entries) b) = true) := by
    intro b mem mem' hb hb'
    obtain ⟨hmem, hdelay, htimeout⟩ := hb.delay (interpreted_actions bgs ▸ hcausal)
    obtain ⟨hmem', hdelay', htimeout'⟩ := hb'.delay (interpreted_actions bgs' ▸ hcausal')
    rw [interpreted_actions] at hmem hmem' hdelay hdelay'
    obtain ⟨e, he, rfl⟩ := mem_map.mp hmem
    obtain ⟨e', he', heq⟩ := mem_map.mp hmem'
    rw [htimeout, htimeout', hdelay, hdelay']
    apply Matching.timeoutValue_eq_iff
    have hmatching := matching_delayAt hcausal hcausal' hdag.describes hdag'.describes _ e e' he he'
      heq.symm rfl
    rwa [heq] at hmatching
  constructor
  · rintro hobserved b ⟨mem, hb⟩ ⟨mem', hb'⟩
    exact (hvalue b mem mem' hb hb').mp (hobserved b mem mem' hb hb').timeout
  · intro heven b mem mem' hb hb'
    have hobserves : Observes p dag (bgs.flatMap actions) :=
      ⟨interpreted_actions bgs ▸ hcausal, interpreted_actions bgs ▸ hdag.describes, hsteady⟩
    have hobserves' : Observes p dag (bgs'.flatMap actions) :=
      ⟨interpreted_actions bgs' ▸ hcausal', interpreted_actions bgs' ▸ hdag'.describes, hsteady'⟩
    refine (alike_of_computes _ _ _ rfl hobserves hobserves' ?_ b mem mem' hb hb').sameResult
    intro c m m' hm hm'
    exact (hvalue c m m' hm hm').mpr (heven c ⟨m, hm⟩ ⟨m', hm'⟩)

end Graph

/-- A DAG in which no node forks. -/
def Dag.ofLinks (links : BlockID → List BlockID) : Dag where
  prev b := blockAt b.node (b.round - 1)
  links
  first b hfirst := by rw [hfirst]; rfl

/-- The first blocks of two nodes. -/
def pair : Dag := Dag.ofLinks fun b =>
  if b = blockAt 1 1 then [blockAt 2 1] else if b = blockAt 2 2 then [blockAt 1 1] else []

def pairAuthor : List BlockGraph := [ownAt 1 1 [depAt 2 1 []]]

def pairObserver : List BlockGraph := [ownAt 2 1 [], ownAt 2 2 [depAt 1 1 [blockAt 2 1]]]

/-- What the first block of a node references that is late: the third block of a fast
node, and the blocks before it. -/
def lateLinks : List BlockID := [blockAt 2 1, blockAt 3 1, blockAt 4 1, blockAt 4 2, blockAt 4 3]

def late : Dag := Dag.ofLinks fun b =>
  if b = blockAt 1 1 then lateLinks
  else if b = blockAt 2 2 then [blockAt 3 1, blockAt 4 1, blockAt 4 2, blockAt 4 3, blockAt 1 1] else []

def lateAuthor : List BlockGraph :=
  [ownAt 1 1 [depAt 2 1 [], depAt 3 1 [], depAt 4 1 [], depAt 4 2 [], depAt 4 3 []]]

def lateObserver : List BlockGraph :=
  [ownAt 2 1 [], ownAt 2 2 [depAt 3 1 [], depAt 4 1 [], depAt 4 2 [], depAt 4 3 [], depAt 1 1 lateLinks]]

namespace Graph

theorem oneChain_of_check {es : List Entry} (h : ∀ e ∈ es, ∀ e' ∈ es,
    e.block.node = e'.block.node → e.block.round = e'.block.round → e.block = e'.block) (x : Nat) :
    OneChain es x := by
  intro e he e' he' hx hx'
  exact h e he e' he' (hx.trans hx'.symm)

theorem observed_pair :
    Interprets Params.four pairAuthor (blockAt 1 1) ∧ Interprets Params.four pairObserver (blockAt 1 1) ∧
      Observed Params.four (pairAuthor.flatMap actions)
        (pairObserver.flatMap actions) := by
  have hdag : pair.Depicts pairAuthor := by constructor <;> decide
  have hdag' : pair.Depicts pairObserver := by constructor <;> decide
  have hcausal : Causal Params.four.peers (pairAuthor.flatMap entries) :=
    causal_of_check (by decide)
  have hcausal' : Causal Params.four.peers (pairObserver.flatMap entries) :=
    causal_of_check (by decide)
  have hsteady : Steady Params.four (pairAuthor.flatMap actions) := by
    apply steady_of_oneChain <;> rw [interpreted_actions]
    · exact hcausal
    · exact oneChain_of_check (by decide)
  have hsteady' : Steady Params.four (pairObserver.flatMap actions) := by
    apply steady_of_oneChain <;> rw [interpreted_actions]
    · exact hcausal'
    · exact oneChain_of_check (by decide)
  have hrun : succeeds (actAll (new Params.four 0) (pairAuthor.flatMap actions))
      (fun g => g.callbacks.isEmpty && g.statess[blockAt 1 1]?.isSome) = true := by decide +kernel
  have hrun' : succeeds (actAll (new Params.four 0) ((pairObserver.flatMap actions).take 4))
      (fun g => g.callbacks.isEmpty && g.statess[blockAt 1 1]?.isSome) = true := by decide +kernel
  have heven : ∀ b ∈ (pairAuthor.flatMap entries).map Entry.block,
      even Params.four (delayAt (pairAuthor.flatMap entries) b)
        (delayAt (pairObserver.flatMap entries) b) = true := by decide +kernel
  refine ⟨?_, ?_, (observed_iff hdag hdag' hcausal hcausal' hsteady hsteady').mpr ?_⟩
  · obtain ⟨g, hrun, hfacts⟩ := exists_of_succeeds hrun
    obtain ⟨hidle, hstate⟩ := Bool.and_eq_true_iff.mp hfacts
    obtain ⟨s, hs⟩ := Option.isSome_iff_exists.mp hstate
    exact ⟨⟨g.heap, s⟩, (pairAuthor.flatMap actions).take 2,
      (ownAt 1 1 [depAt 2 1 []]).entry, [], g, rfl, rfl, hrun, List.isEmpty_iff.mp hidle, rfl, hs⟩
  · obtain ⟨g, hrun, hfacts⟩ := exists_of_succeeds hrun'
    obtain ⟨hidle, hstate⟩ := Bool.and_eq_true_iff.mp hfacts
    obtain ⟨s, hs⟩ := Option.isSome_iff_exists.mp hstate
    exact ⟨⟨g.heap, s⟩, (pairObserver.flatMap actions).take 3,
      (depAt 1 1 [blockAt 2 1]).entry, (pairObserver.flatMap actions).drop 4, g, rfl, rfl,
      hrun, List.isEmpty_iff.mp hidle, rfl, hs⟩
  · rintro b ⟨mem, hb⟩ -
    have hmem := (hb.delay (interpreted_actions _ ▸ hcausal)).1
    rw [interpreted_actions] at hmem
    exact heven b hmem

/-- The author of a late block waits for 10 rounds, an observer for 20. -/
theorem not_observed_late :
    late.Depicts lateAuthor ∧ late.Depicts lateObserver ∧
      Causal Params.four.peers (lateAuthor.flatMap entries) ∧
      Causal Params.four.peers (lateObserver.flatMap entries) ∧
      ¬ Observed Params.four (lateAuthor.flatMap actions)
        (lateObserver.flatMap actions) := by
  refine ⟨by constructor <;> decide, by constructor <;> decide, causal_of_check (by decide),
    causal_of_check (by decide), fun hobserved => ?_⟩
  have hrun : succeeds (actAll (new Params.four 0) (lateAuthor.flatMap actions)) (fun g =>
      g.callbacks.isEmpty && decide (g.statess[blockAt 1 1]?.map State.timeout = some 10)) = true := by
    decide +kernel
  have hrun' : succeeds (actAll (new Params.four 0) ((lateObserver.flatMap actions).take 8))
      (fun g => g.callbacks.isEmpty &&
        decide (g.statess[blockAt 1 1]?.map State.timeout = some 20)) = true := by decide +kernel
  obtain ⟨g, hrun, hfacts⟩ := exists_of_succeeds hrun
  obtain ⟨g', hrun', hfacts'⟩ := exists_of_succeeds hrun'
  simp only [Bool.and_eq_true, decide_eq_true_eq, Option.map_eq_some_iff, List.isEmpty_iff] at hfacts hfacts'
  obtain ⟨hidle, s, hs, htimeout⟩ := hfacts
  obtain ⟨hidle', s', hs', htimeout'⟩ := hfacts'
  have hsame := hobserved (blockAt 1 1) ⟨g.heap, s⟩ ⟨g'.heap, s'⟩
    ⟨(lateAuthor.flatMap actions).take 6,
      (ownAt 1 1 [depAt 2 1 [], depAt 3 1 [], depAt 4 1 [], depAt 4 2 [], depAt 4 3 []]).entry, [], g,
      rfl, rfl, hrun, hidle, rfl, hs⟩
    ⟨(lateObserver.flatMap actions).take 7, (depAt 1 1 lateLinks).entry,
      (lateObserver.flatMap actions).drop 8, g', rfl, rfl, hrun', hidle', rfl, hs'⟩
  have heq : s.timeout = s'.timeout := hsame.timeout
  omega

end Graph

end Blockmania
