/-
# Timeout values and deadlines

The timeout value of a block comes from the delays of the blocks its chain has referenced.
If there are more of them than a quorum it is the one at the quorum, and otherwise the
largest. So a bound on a quorum of delays is a bound on the timeout value.

Rounds are words that a peer chooses, a delay is ten times a difference of rounds, and a
deadline is a sum of a round and a timeout value. None of them is checked, so a deadline
may wrap around to a round that has passed.
-/

import Blockmania.Broadcast.Wire
import Blockmania.Graph.Run
import Blockmania.Math.OrderStatistics

namespace Blockmania

open Math List

/-- The timeout value, from the delays in the order in which a loop over the map meets
them. -/
def timeoutOf (p : Params) (vals : List Nat) : Nat :=
  if vals.length > p.quorum2f1 then max 10 ((vals.insertionSort (· ≤ ·)).getD p.quorum2f 0)
  else vals.foldl max 10

section Values

variable {p : Params} {delay : FiniteMap Nat Nat} {vals : List Nat}

theorem timeoutValue_eq (p : Params) (delay : FiniteMap Nat Nat) :
    timeoutValue p delay = timeoutOf p delay.values := by
  rw [timeoutValue, timeoutOf, FiniteMap.length_values]

/-- The order of the loop does not matter. -/
theorem timeoutOf_of_perm {vals' : List Nat} (h : vals.Perm vals') :
    timeoutOf p vals = timeoutOf p vals' := by
  rw [timeoutOf, timeoutOf, h.length_eq, insertionSort_of_perm h, h.foldl_eq]

theorem ten_le_timeoutOf (p : Params) (vals : List Nat) : 10 ≤ timeoutOf p vals := by
  unfold timeoutOf
  split
  · exact le_max_left _ _
  · exact ((foldl_max_le_iff _ _).mp le_rfl).1

/-- A quorum of delays bounds the timeout value, or all of them if there are fewer. -/
theorem timeoutOf_le_iff {bound : Nat} :
    timeoutOf p vals ≤ bound ↔
      10 ≤ bound ∧ min vals.length p.quorum2f1 ≤ vals.countP (· ≤ bound) := by
  have hquorum : p.quorum2f1 = p.quorum2f + 1 := rfl
  have hcount : vals.countP (· ≤ bound) ≤ vals.length := countP_le_length
  unfold timeoutOf
  split
  · rename_i hmany
    rw [max_le_iff, getD_insertionSort_le_iff 0 bound (by omega), min_eq_right hmany.le]
    omega
  · rename_i hfew
    rw [foldl_max_le_iff, min_eq_left (not_lt.mp hfew)]
    refine and_congr_right fun _ => ?_
    constructor
    · intro hall
      exact (countP_eq_length.mpr (by simpa using hall)).ge
    · intro hlength
      simpa using countP_eq_length.mp (le_antisymm hcount hlength)

/-- A minority of delays cannot inflate the timeout. If a quorum of the delays of a block
is up to a bound, then so is its timeout value, unless it is the least one. In any case it is
the same for every order of the loop over the delays. -/
theorem timeout_resists_minority (p : Params) (mem : Memory) (e : Entry) :
    10 ≤ (mem.schedule p e).state.timeout ∧
      (∀ bound, p.quorum2f1 ≤ (mem.schedule p e).state.delay.values.countP (· ≤ bound) →
        (mem.schedule p e).state.timeout ≤ max 10 bound) ∧
      ∀ vals, vals.Perm (mem.schedule p e).state.delay.values →
        timeoutOf p vals = (mem.schedule p e).state.timeout := by
  have htimeout : (mem.schedule p e).state.timeout =
      timeoutOf p (mem.schedule p e).state.delay.values := by
    rw [timeout_schedule, delay_schedule, timeoutValue_eq]
  rw [htimeout]
  refine ⟨ten_le_timeoutOf _ _, fun bound hquorum => ?_, fun vals hvals => timeoutOf_of_perm hvals⟩
  rw [timeoutOf_le_iff]
  refine ⟨le_max_left _ _, (min_le_right _ _).trans (hquorum.trans ?_)⟩
  refine countP_mono_left fun d _ hd => ?_
  simp only [decide_eq_true_eq] at hd ⊢
  exact hd.trans (le_max_right _ _)

/-- A block that references a block far ahead and two blocks nearby. -/
def lagging : Entry :=
  ⟨⟨[1], 1, 5⟩, [⟨[2], 2, 4⟩, ⟨[3], 3, 3⟩, ⟨[1], 1, 4⟩, ⟨[4], 4, 1000⟩], ⟨[1], 1, 4⟩⟩

theorem timeout_lagging :
    Params.four.quorum2f1 ≤ (Memory.schedule .four ⟨Heap.empty, State.fresh⟩
        lagging).state.delay.values.countP (· ≤ 20) ∧
      (Memory.schedule .four ⟨Heap.empty, State.fresh⟩ lagging).state.timeout ≤ max 10 20 :=
  ⟨by decide +kernel, (timeout_resists_minority .four ⟨Heap.empty, State.fresh⟩ lagging).2.1 20
    (by decide +kernel)⟩

end Values

/-- The timeouts of a block's own round are filed under a later round, and so is the timeout
of every view that is announced while the block is interpreted. No product or sum on the
way wraps around. -/
structure Punctual (p : Params) (mem : Memory) (e : Entry) : Prop where
  products : ∀ dep ∈ e.deps, diff e.block.round dep.round * 10 < 2 ^ 64
  sum : e.block.round + (mem.schedule p e).state.timeout < 2 ^ 64
  ahead : ∀ d, (mem.schedule p e).timeoutsAt d ≠ mem.timeoutsAt d → e.block.round < d
  views : ∀ (mem' : Memory) (sender : Nat) (m : Vote) (reply : Reply),
    mem'.state.timeout = (mem.schedule p e).state.timeout →
    processMessage p mem' sender e.block.node e.block (.newView m) = .ok reply → reply.resp.isSome →
    e.block.round + mem'.state.timeout + 5 < 2 ^ 64 ∧
      ∀ d, reply.mem.timeoutsAt d ≠ mem'.timeoutsAt d → e.block.round < d

/-- Ten times the distance to every referenced block is a word, and there is room behind the
round for the least timeout value and for a quorum of delays, or all of them if there are
fewer. -/
def timely (p : Params) (mem : Memory) (e : Entry) : Bool :=
  let delay := recordDelays e.block.round e.deps mem.state.delay
  e.deps.all (fun dep => decide (diff e.block.round dep.round * 10 < 2 ^ 64)) &&
    decide (e.block.round + 15 < 2 ^ 64) &&
    decide (min delay.size p.quorum2f1 ≤
      delay.values.countP fun d => e.block.round + d + 5 < 2 ^ 64)

theorem timely_iff {p : Params} {mem : Memory} {e : Entry} : timely p mem e = true ↔
    (∀ dep ∈ e.deps, diff e.block.round dep.round * 10 < 2 ^ 64) ∧
      e.block.round + (mem.schedule p e).state.timeout + 5 < 2 ^ 64 := by
  rw [timeout_schedule, timeoutValue_eq]
  unfold timely
  generalize recordDelays e.block.round e.deps mem.state.delay = delay
  simp only [Bool.and_eq_true, all_eq_true, decide_eq_true_eq, and_assoc]
  refine and_congr_right fun _ => ?_
  have hten := ten_le_timeoutOf p delay.values
  by_cases hroom : e.block.round + 5 < 2 ^ 64
  · -- what is left behind the round is the bound
    obtain ⟨bound, hbound⟩ : ∃ bound, e.block.round + 5 + bound + 1 = 2 ^ 64 :=
      ⟨2 ^ 64 - (e.block.round + 6), by omega⟩
    have hle : ∀ d, e.block.round + d + 5 < 2 ^ 64 ↔ d ≤ bound := by
      intro d
      omega
    simp only [hle]
    rw [timeoutOf_le_iff, FiniteMap.length_values, and_congr_left_iff]
    omega
  · refine iff_of_false (fun h => ?_) fun h => ?_
    · omega
    · omega

theorem filedAt_filings_of_ne {deadline d : Nat} (h : deadline ≠ d) (resp : Option Message) :
    filedAt (filings deadline resp) d = [] := by
  rw [filedAt, map_eq_nil_iff, filter_eq_nil_iff]
  intro f hf
  unfold filings at hf
  split at hf
  · rw [mem_singleton.mp hf]
    simpa using h
  · cases hf

theorem Punctual.timely {p : Params} {mem : Memory} {e : Entry} (h : Punctual p mem e) :
    timely p mem e = true := by
  rw [timely_iff]
  refine ⟨h.products, ?_⟩
  -- a view that has not been announced yet
  exact (h.views ⟨Heap.empty, { State.fresh with timeout := (mem.schedule p e).state.timeout }⟩ 0
    ⟨[], 0, 0, 0, 0⟩ _ rfl rfl rfl).1

/-- Deadlines lie in the future exactly if there is room for them behind the round. -/
theorem punctual_iff_timely (p : Params) (mem : Memory) (e : Entry) :
    Punctual p mem e ↔ timely p mem e = true := by
  refine ⟨Punctual.timely, fun h => ?_⟩
  obtain ⟨hproducts, hroom⟩ := timely_iff.mp h
  have hten : 10 ≤ (mem.schedule p e).state.timeout := by
    rw [timeout_schedule, timeoutValue_eq]
    exact ten_le_timeoutOf _ _
  refine ⟨hproducts, by omega, fun d hd => ?_, fun mem' sender m reply htimeout hreply _ => ?_⟩
  · rw [timeoutsAt_schedule, ← timeout_schedule] at hd
    split at hd
    · rename_i heq
      rw [u64, Nat.mod_eq_of_lt (by omega)] at heq
      omega
    · exact absurd (append_nil _) hd
  · rw [htimeout]
    refine ⟨hroom, fun d hd => ?_⟩
    rw [(processMessage_effect hreply).timeoutsAt, htimeout, u64, Nat.mod_eq_of_lt hroom] at hd
    by_contra hlate
    refine hd (append_right_eq_self.mpr (filedAt_filings_of_ne ?_ _))
    omega

/-- The first block of the second node, which claims one of the last rounds. The reference
to the block before it names no hash. -/
def lateBlock : Broadcast.SignedData (List Nat) :=
  let wire := Broadcast.plainWire [1, 2, 3, 4]
  let previous := wire.marshalReference ⟨[], 2, 2 ^ 64 - 6⟩
  wire.signBlock ⟨2, some ⟨previous, wire.sign 2 previous⟩, [], 2 ^ 64 - 5, none⟩

/-- The block is accepted, and the first own block that references it has its timeouts filed
under the fifth round. -/
theorem lateBlock_not_punctual :
    ∃ info g s, (Broadcast.plainWire [1, 2, 3, 4]).accept lateBlock = .ok info ∧
      info.id.round = 2 ^ 64 - 5 ∧
      (Graph.new .four 0).add ⟨blockAt 1 1, [⟨info.id, info.deps, info.prev⟩], .zero⟩ = .ok g ∧
      g.statess[info.id]? = some s ∧
      Memory.timeoutsAt ⟨g.heap, s⟩ 5 = [1, 2, 3, 4].map (⟨·, 2 ^ 64 - 5, 0⟩) ∧
      ¬ Punctual .four
        (findOrCreateState Heap.empty none 1 (Dep.entry ⟨info.id, info.deps, info.prev⟩))
        (Dep.entry ⟨info.id, info.deps, info.prev⟩) := by
  have hcheck : succeeds ((Broadcast.plainWire [1, 2, 3, 4]).accept lateBlock) (fun info =>
      decide (info.id.round = 2 ^ 64 - 5) &&
      (succeeds ((Graph.new .four 0).add
          ⟨blockAt 1 1, [⟨info.id, info.deps, info.prev⟩], .zero⟩) fun g =>
        g.statess[info.id]?.any fun s =>
          decide (Memory.timeoutsAt ⟨g.heap, s⟩ 5 = [1, 2, 3, 4].map (⟨·, 2 ^ 64 - 5, 0⟩))) &&
      !timely .four
        (findOrCreateState Heap.empty none 1 (Dep.entry ⟨info.id, info.deps, info.prev⟩))
        (Dep.entry ⟨info.id, info.deps, info.prev⟩)) = true := by decide +kernel
  obtain ⟨info, haccept, hfacts⟩ := exists_of_succeeds hcheck
  simp only [Bool.and_eq_true, decide_eq_true_eq, Bool.not_eq_true'] at hfacts
  obtain ⟨⟨hround, hadd⟩, hlate⟩ := hfacts
  obtain ⟨g, hadd, hstate⟩ := exists_of_succeeds hadd
  obtain ⟨s, hs, hfiled⟩ := (Option.any_eq_true _ _).mp hstate
  refine ⟨info, g, s, haccept, hround, hadd, hs, of_decide_eq_true hfiled, fun hpunctual => ?_⟩
  rw [hpunctual.timely] at hlate
  cases hlate

end Blockmania
