/-
# Missing rounds

The rounds of a peer of which there is no block are found by a walk along the stored ones.
Up to a bound they are listed, and the peer is asked for them; it refuses to answer for
more rounds than the bound. The walk compares its counter with the bound after it has
listed a round, and before it counts it, so it lists one round too many if there are as
many.

The walk also counts past the last word. It does so from the start if the search begins
behind the last round, and when it meets the last round a second time.
-/

import Blockmania.Broadcast.Received
import Blockmania.Math.OrderStatistics
import Blockmania.Storage.Scans

namespace Blockmania.Broadcast

open Math List

namespace Missing

/-- The rounds from `next` on that the walk passes without a bound. -/
def walk : Nat → List Nat → List Nat
  | _, [] => []
  | next, round :: later => range' next (round - next) ++ walk (u64 (round + 1)) later

/-- The inner loop lists the rounds it passes, until there is one more than `limit`. -/
theorem gap_eq {limit : Nat} (n : Nat) {m : Missing} (hadded : m.added = m.rounds.length)
    (hlimit : m.rounds.length ≤ limit) (hroom : u64 (m.latest + 1) + n ≤ 2 ^ 64) :
    (gap limit n m).1.rounds =
        (m.rounds ++ range' (u64 (m.latest + 1)) n).take (limit + 1) ∧
      (gap limit n m).2 = decide (limit < m.rounds.length + n) ∧
      ((gap limit n m).2 = false →
        (gap limit n m).1.added = (gap limit n m).1.rounds.length) := by
  induction n generalizing m with
  | zero =>
    refine ⟨?_, ?_, fun _ => hadded⟩
    · rw [gap, range'_zero, append_nil, take_of_length_le (by omega)]
    · simpa [gap] using hlimit
  | succ n ih =>
    rw [gap, range'_succ]
    by_cases hfull : m.added = limit
    · dsimp only
      rw [if_pos hfull]
      refine ⟨?_, ?_, fun hall => by cases hall⟩
      · have hlength : (m.rounds ++ [u64 (m.latest + 1)]).length = limit + 1 := by
          rw [length_append, length_singleton]
          omega
        exact (take_left' hlength).symm.trans (by rw [← append_cons])
      · exact (decide_eq_true (by omega)).symm
    · dsimp only
      rw [if_neg hfull]
      have hnext : u64 (u64 (m.latest + 1) + 1) = u64 (m.latest + 1) + 1 ∨ n = 0 := by
        by_cases hn : n = 0
        · exact .inr hn
        · exact .inl (Nat.mod_eq_of_lt (by omega))
      have hle : u64 (u64 (m.latest + 1) + 1) ≤ u64 (m.latest + 1) + 1 := Nat.mod_le _ _
      have hspec := ih (m := ⟨m.rounds ++ [u64 (m.latest + 1)], m.added + 1, u64 (m.latest + 1)⟩)
        (by simp [hadded]) (by simp; omega) (by dsimp only; omega)
      dsimp only at hspec
      have hrange : range' (u64 (u64 (m.latest + 1) + 1)) n =
          range' (u64 (m.latest + 1) + 1) n := by
        rcases hnext with hnext | rfl
        · rw [hnext]
        · rfl
      rw [hrange, append_assoc, singleton_append, length_append, length_singleton] at hspec
      refine ⟨hspec.1, ?_, hspec.2.2⟩
      rw [hspec.2.1]
      congr 1
      rw [eq_iff_iff]
      omega

/-- The outer loop lists what the walk passes, until there is one round more than
`limit`. -/
theorem rounds_scan {limit : Nat} (later : List Nat) {m : Missing}
    (hadded : m.added = m.rounds.length) (hlimit : m.rounds.length ≤ limit)
    (hlater : ∀ round ∈ later, round < 2 ^ 64) :
    (scan limit later m).rounds =
        (m.rounds ++ walk (u64 (m.latest + 1)) later).take (limit + 1) ∧
      ((m.rounds ++ walk (u64 (m.latest + 1)) later).length ≤ limit →
        (scan limit later m).latest = later.getLast?.getD m.latest) := by
  induction later generalizing m with
  | nil =>
    refine ⟨?_, fun _ => rfl⟩
    rw [scan, walk, append_nil, take_of_length_le (by omega)]
  | cons round later ih =>
    obtain ⟨hround, hrest⟩ := forall_mem_cons.mp hlater
    have hbound : u64 (m.latest + 1) ≤ 2 ^ 64 := (Nat.mod_lt _ (by decide)).le
    obtain ⟨hrounds, hreturn, hcount⟩ := gap_eq (round - u64 (m.latest + 1)) hadded hlimit
      (by omega)
    rw [scan, walk, ← append_assoc]
    split
    · rename_i m' hgap
      rw [hgap] at hrounds hreturn
      have hmany : limit < m.rounds.length + (round - u64 (m.latest + 1)) :=
        of_decide_eq_true hreturn.symm
      refine ⟨hrounds.trans (take_append_of_le_length ?_).symm, fun hfew => ?_⟩
      · rw [length_append, length_range']
        omega
      · rw [length_append, length_append, length_range'] at hfew
        omega
    · rename_i m' hgap
      rw [hgap] at hrounds hreturn hcount
      have hfew : ¬ limit < m.rounds.length + (round - u64 (m.latest + 1)) :=
        of_decide_eq_false hreturn.symm
      rw [take_of_length_le (by rw [length_append, length_range']; omega)] at hrounds
      dsimp only at hrounds
      have hshort : m'.rounds.length ≤ limit := by
        rw [hrounds, length_append, length_range']
        omega
      obtain ⟨hscan, hlatest⟩ := ih (m := ⟨m'.rounds, m'.added, round⟩) (hcount rfl) hshort hrest
      dsimp only at hscan hlatest
      rw [← hrounds]
      refine ⟨hscan, fun hlength => ?_⟩
      rw [hlatest hlength, List.getLast?_cons]
      rfl

variable {later : List Nat} {next : Nat}

/-- The walk goes on behind a stored round, or there is nothing to go on to. -/
theorem eq_nil_or_u64_succ {round : Nat} (hleast : ∀ r ∈ later, round ≤ r)
    (hlater : ∀ r ∈ round :: later, r < 2 ^ 64) (honce : (round :: later).count (2 ^ 64 - 1) ≤ 1) :
    later = [] ∨ u64 (round + 1) = round + 1 ∧ later.count (2 ^ 64 - 1) ≤ 1 := by
  obtain ⟨hround, hlater⟩ := forall_mem_cons.mp hlater
  by_cases hlast : round = 2 ^ 64 - 1
  · left
    rw [eq_nil_iff_forall_not_mem]
    intro r hr
    have hsame : r = 2 ^ 64 - 1 := by
      have := hleast r hr
      have := hlater r hr
      omega
    rw [hlast, count_cons_self] at honce
    have := count_pos_iff.mpr (hsame ▸ hr)
    omega
  · rw [count_cons_of_ne hlast] at honce
    exact .inr ⟨Nat.mod_eq_of_lt (by omega), honce⟩

/-- What the walk passes lies between stored rounds, or before the first of them. -/
theorem mem_walk (hsorted : later.Pairwise (· ≤ ·)) (hnext : ∀ round ∈ later, next ≤ round + 1)
    (hlater : ∀ round ∈ later, round < 2 ^ 64) (honce : later.count (2 ^ 64 - 1) ≤ 1) {r : Nat} :
    r ∈ walk next later ↔ next ≤ r ∧ r ∉ later ∧ ∃ round ∈ later, r < round := by
  induction later generalizing next with
  | nil => simp [walk]
  | cons round later ih =>
    obtain ⟨hleast, hsorted⟩ := pairwise_cons.mp hsorted
    have hfirst := hnext round mem_cons_self
    rw [walk, mem_append, mem_range'_1]
    rcases eq_nil_or_u64_succ hleast hlater honce with rfl | ⟨hwrap, honce⟩
    · simp only [walk, not_mem_nil, or_false, mem_singleton, exists_eq_left]
      omega
    · rw [hwrap, ih hsorted (fun r' hr' => Nat.succ_le_succ (hleast r' hr'))
        (forall_mem_cons.mp hlater).2 honce]
      simp only [mem_cons, not_or, exists_eq_or_imp]
      constructor
      · rintro (⟨hge, hlt⟩ | ⟨hge, hnot, hbelow⟩)
        · refine ⟨hge, ⟨by omega, fun hmem => ?_⟩, .inl (by omega)⟩
          have := hleast r hmem
          omega
        · exact ⟨by omega, ⟨by omega, hnot⟩, .inr hbelow⟩
      · rintro ⟨hge, ⟨hne, hnot⟩, hbelow⟩
        by_cases hlt : r < round
        · exact .inl ⟨hge, by omega⟩
        · exact .inr ⟨by omega, hnot, hbelow.resolve_left hlt⟩

theorem walk_pairwise (hsorted : later.Pairwise (· ≤ ·)) (hlater : ∀ round ∈ later, round < 2 ^ 64)
    (honce : later.count (2 ^ 64 - 1) ≤ 1) :
    (walk next later).Pairwise (· < ·) := by
  induction later generalizing next with
  | nil => exact .nil
  | cons round later ih =>
    obtain ⟨hleast, hsorted⟩ := pairwise_cons.mp hsorted
    rw [walk]
    rcases eq_nil_or_u64_succ hleast hlater honce with rfl | ⟨hwrap, honce⟩
    · rw [walk, append_nil]
      exact pairwise_lt_range'
    · have hrest := (forall_mem_cons.mp hlater).2
      refine pairwise_append.mpr ⟨pairwise_lt_range', ih hsorted hrest honce, ?_⟩
      intro a ha b hb
      rw [hwrap, mem_walk hsorted (fun r' hr' => Nat.succ_le_succ (hleast r' hr')) hrest
        honce] at hb
      rw [mem_range'_1] at ha
      omega

/-- The walk begins anew when it meets the last round for the second time. -/
theorem zero_mem_walk (hsorted : later.Pairwise (· ≤ ·)) (hlater : ∀ round ∈ later, round < 2 ^ 64)
    (htwice : 1 < later.count (2 ^ 64 - 1)) :
    0 ∈ walk next later := by
  induction later generalizing next with
  | nil => cases htwice
  | cons round later ih =>
    obtain ⟨hleast, hsorted⟩ := pairwise_cons.mp hsorted
    obtain ⟨hround, hlater⟩ := forall_mem_cons.mp hlater
    rw [walk, mem_append]
    refine .inr ?_
    by_cases hlast : round = 2 ^ 64 - 1
    · rw [hlast, count_cons_self, Nat.lt_add_left_iff_pos, count_pos_iff] at htwice
      cases later with
      | nil => cases htwice
      | cons round' later =>
        have hsame : round' = 2 ^ 64 - 1 := by
          have := hleast round' mem_cons_self
          have := hlater round' mem_cons_self
          omega
        rw [hlast, hsame, walk, mem_append, mem_range'_1]
        exact .inl ⟨by decide, by decide⟩
    · rw [count_cons_of_ne hlast] at htwice
      exact ih hsorted hlater htwice

end Missing

/-! ## Requests -/

/-- The rounds behind `since` and before the highest stored one that have no block. -/
def gaps (stored : List Nat) (since : Nat) : List Nat :=
  (range (stored.foldl max 0)).filter fun r => decide (since < r) && !stored.contains r

/-- `handleGetRounds`, with the own blocks the database has. -/
def handleGetRounds {β : Type} (maxBlocks : Nat) (own : Nat → Option β) (rounds : List Nat) :
    Except String (List β) :=
  if rounds.length > maxBlocks then
    .error (s!"broadcast: requested {rounds.length} rounds exceeds max block limit of " ++
      s!"{maxBlocks}")
  else .ok (rounds.filterMap own)

/-- What was found are the first gaps, nothing is left out on the way, and the peer answers
for all of them or for those of them that are still missing after an answer. -/
structure FindsGaps (stored : List Nat) (since limit : Nat) (m : Missing) : Prop where
  rounds : m.rounds = (gaps stored since).take limit
  covered : ∀ r, since < r → r ≤ m.latest → r ∈ stored ∨ r ∈ m.rounds
  answered : ∀ {β : Type} (own : Nat → Option β) (request : List Nat), request.Sublist m.rounds →
    ∃ blocks, handleGetRounds limit own request = .ok blocks

/-- The gaps are within the limit, the last round has no two blocks, and the search begins
before the last round, unless there is nothing to find. -/
def findable (stored : List Nat) (since limit : Nat) : Prop :=
  (gaps stored since).length ≤ limit ∧ stored.count (2 ^ 64 - 1) ≤ 1 ∧
    (since + 1 < 2 ^ 64 ∨ ∀ r < stored.foldl max 0, r ∈ stored)

instance (stored : List Nat) (since limit : Nat) : Decidable (findable stored since limit) :=
  inferInstanceAs (Decidable (_ ∧ _ ∧ (_ ∨ _)))

section Search

variable {stored : List Nat} {since limit : Nat} {r : Nat}

theorem lt_foldl_max_iff {l : List Nat} : r < l.foldl max 0 ↔ ∃ round ∈ l, r < round := by
  rw [← not_le, foldl_max_le_iff]
  simp

theorem mem_gaps :
    r ∈ gaps stored since ↔ since < r ∧ r ∉ stored ∧ ∃ round ∈ stored, r < round := by
  rw [gaps, mem_filter, mem_range, lt_foldl_max_iff]
  simp only [Bool.and_eq_true, decide_eq_true_eq, Bool.not_eq_true', contains_eq_mem,
    decide_eq_false_iff_not]
  tauto

/-- What the walk of `getMissing` passes. -/
def passed (stored : List Nat) (since : Nat) : List Nat :=
  Missing.walk (u64 (since + 1)) (stored.filter fun round => u64 (since + 1) ≤ round)

theorem getMissing_spec (hstored : ∀ round ∈ stored, round < 2 ^ 64) :
    (getMissing stored since limit).rounds = (passed stored since).take (limit + 1) ∧
      ((passed stored since).length ≤ limit → (getMissing stored since limit).latest =
        (stored.filter fun round => u64 (since + 1) ≤ round).getLast?.getD since) :=
  @Missing.rounds_scan limit (stored.filter fun round => u64 (since + 1) ≤ round) ⟨[], 0, since⟩ rfl
    (Nat.zero_le _) fun round hround => hstored round (mem_of_mem_filter hround)

section Walk

variable (hsorted : stored.Pairwise (· ≤ ·)) (hstored : ∀ round ∈ stored, round < 2 ^ 64)
include hsorted hstored

theorem zero_mem_passed (htwice : 1 < stored.count (2 ^ 64 - 1)) : 0 ∈ passed stored since := by
  refine Missing.zero_mem_walk (hsorted.filter _)
    (fun round hround => hstored round (mem_of_mem_filter hround)) ?_
  rwa [count_filter]
  exact decide_eq_true (Nat.le_sub_one_of_lt (Nat.mod_lt _ (by decide)))

variable (honce : stored.count (2 ^ 64 - 1) ≤ 1)
include honce

theorem mem_passed : r ∈ passed stored since ↔
    u64 (since + 1) ≤ r ∧ r ∉ stored ∧ ∃ round ∈ stored, r < round := by
  rw [passed, Missing.mem_walk (hsorted.filter _)]
  · simp only [mem_filter, decide_eq_true_eq, not_and]
    constructor
    · rintro ⟨hge, hnot, round, ⟨hround, -⟩, hlt⟩
      exact ⟨hge, fun hmem => hnot hmem hge, round, hround, hlt⟩
    · rintro ⟨hge, hnot, round, hround, hlt⟩
      exact ⟨hge, fun hmem => absurd hmem hnot, round, ⟨hround, by omega⟩, hlt⟩
  · intro round hround
    have := of_decide_eq_true (mem_filter.mp hround).2
    omega
  · exact fun round hround => hstored round (mem_of_mem_filter hround)
  · exact (filter_sublist.count_le _).trans honce

/-- The walk passes the gaps, if it begins before the last round and does not begin
anew. -/
theorem passed_eq_gaps (hsince : since + 1 < 2 ^ 64) : passed stored since = gaps stored since := by
  have hpassed : (passed stored since).Pairwise (· < ·) := by
    refine Missing.walk_pairwise (hsorted.filter _)
      (fun round hround => hstored round (mem_of_mem_filter hround)) ?_
    exact (filter_sublist.count_le _).trans honce
  have hgaps : (gaps stored since).Pairwise (· < ·) := pairwise_lt_range.filter _
  refine Pairwise.eq_of_mem_iff hpassed hgaps fun r => ?_
  rw [mem_passed hsorted hstored honce, mem_gaps, u64, Nat.mod_eq_of_lt hsince, Nat.succ_le_iff]

/-- Behind the last round there is nothing to find, but the walk begins at the first. -/
theorem passed_eq_nil_iff (hsince : since + 1 = 2 ^ 64) :
    passed stored since = [] ↔ ∀ r < stored.foldl max 0, r ∈ stored := by
  rw [eq_nil_iff_forall_not_mem]
  simp only [mem_passed hsorted hstored honce, hsince, lt_foldl_max_iff]
  constructor
  · intro h r hbelow
    by_contra hnot
    exact h r ⟨Nat.zero_le _, hnot, hbelow⟩
  · rintro h r ⟨-, hnot, hbelow⟩
    exact hnot (h r hbelow)

end Walk

/-- Behind the last round there are no gaps. -/
theorem gaps_eq_nil (hstored : ∀ round ∈ stored, round < 2 ^ 64) (hsince : since + 1 = 2 ^ 64) :
    gaps stored since = [] := by
  rw [eq_nil_iff_forall_not_mem]
  intro r hr
  obtain ⟨hafter, -, round, hround, hbelow⟩ := mem_gaps.mp hr
  have := hstored round hround
  omega

/-- The peer answers for as many rounds as the limit. -/
theorem handleGetRounds_eq_ok {β : Type} {own : Nat → Option β} {request : List Nat} :
    (∃ blocks, handleGetRounds limit own request = .ok blocks) ↔ request.length ≤ limit := by
  unfold handleGetRounds
  split
  · rename_i hmany
    exact iff_of_false (fun ⟨_, h⟩ => by cases h) (by omega)
  · rename_i hfew
    exact iff_of_true ⟨_, rfl⟩ (by omega)

/-- The rounds up to the latest one are stored or are gaps. -/
theorem covered_of_latest (hafter : since < r)
    (hle : r ≤ (stored.filter fun round => u64 (since + 1) ≤ round).getLast?.getD since) :
    r ∈ stored ∨ r ∈ gaps stored since := by
  cases hlast : (stored.filter fun round => u64 (since + 1) ≤ round).getLast? with
  | none =>
    rw [hlast, Option.getD_none] at hle
    omega
  | some last =>
    rw [hlast, Option.getD_some] at hle
    have hmem : last ∈ stored := mem_of_mem_filter (mem_of_getLast? hlast)
    by_cases hr : r ∈ stored
    · exact .inl hr
    · refine .inr (mem_gaps.mpr ⟨hafter, hr, last, hmem, lt_of_le_of_ne hle ?_⟩)
      rintro rfl
      exact hr hmem

/-- The gaps are found exactly if there are no more than the limit, apart from the end of
the range of rounds. -/
theorem findsGaps_iff_findable (hsorted : stored.Pairwise (· ≤ ·))
    (hstored : ∀ round ∈ stored, round < 2 ^ 64) (hsince : since < 2 ^ 64) :
    FindsGaps stored since limit (getMissing stored since limit) ↔ findable stored since limit := by
  obtain ⟨hrounds, hlatest⟩ := @getMissing_spec stored since limit hstored
  constructor
  · intro h
    have hlength : (passed stored since).length ≤ limit := by
      have hanswered := handleGetRounds_eq_ok.mp
        (h.answered (fun _ => (none : Option Unit)) _ (.refl _))
      rw [hrounds, length_take] at hanswered
      omega
    have hpassed : passed stored since = (gaps stored since).take limit := by
      rw [← h.rounds, hrounds, take_of_length_le (by omega)]
    have honce : stored.count (2 ^ 64 - 1) ≤ 1 := by
      by_contra htwice
      have hzero : 0 ∈ passed stored since := zero_mem_passed hsorted hstored (not_le.mp htwice)
      rw [hpassed] at hzero
      exact absurd (mem_gaps.mp (mem_of_mem_take hzero)).1 (Nat.not_lt_zero _)
    by_cases hend : since + 1 < 2 ^ 64
    · rw [passed_eq_gaps hsorted hstored honce hend] at hlength
      exact ⟨hlength, honce, .inl hend⟩
    · have hnone := gaps_eq_nil hstored (by omega : since + 1 = 2 ^ 64)
      rw [hnone, take_nil, passed_eq_nil_iff hsorted hstored honce (by omega)] at hpassed
      exact ⟨by rw [hnone]; exact Nat.zero_le _, honce, .inr hpassed⟩
  · rintro ⟨hfew, honce, hstart⟩
    have hpassed : passed stored since = gaps stored since := by
      by_cases hend : since + 1 < 2 ^ 64
      · exact passed_eq_gaps hsorted hstored honce hend
      · rw [gaps_eq_nil hstored (by omega), passed_eq_nil_iff hsorted hstored honce (by omega)]
        exact hstart.resolve_left hend
    rw [hpassed] at hrounds hlatest
    rw [take_of_length_le (by omega)] at hrounds
    refine ⟨by rw [hrounds, take_of_length_le hfew], fun r hafter hle => ?_,
      fun own request hrequest => handleGetRounds_eq_ok.mpr ?_⟩
    · rw [hlatest hfew] at hle
      rw [hrounds]
      exact covered_of_latest hafter hle
    · rw [hrounds] at hrequest
      exact hrequest.length_le.trans hfew

end Search

namespace Receiver

/-- Work of one life of the process that does not take an answer of the peer. -/
def unanswered : Move → Bool
  | .accept _ _ | .settle | .crash => false
  | _ => true

variable {r : Receiver}

/-- A request stands until it is answered. -/
theorem filling_of_unanswered {rounds : List Nat} {latest : Nat} (moves : List Move)
    (hasking : r.filling = .asking rounds latest []) (hmoves : moves.all unanswered = true) :
    (r.run moves).filling = .asking rounds latest [] := by
  induction moves generalizing r with
  | nil => exact hasking
  | cons move moves ih =>
    obtain ⟨hmove, hmoves⟩ := Bool.and_eq_true_iff.mp hmoves
    refine ih (r := r.step move) ?_ hmoves
    cases move with
    | accept _ _ | settle | crash => cases hmove
    | enter _ | write =>
      rw [step]
      split <;> exact hasking
    | _ => simp [step, hasking]

/-- Whoever misses too many rounds asks for them in vain. If more rounds are missing than
the peer answers for, the request is for one round too many. It is refused, whatever blocks
the peer has, and made again for as long as the process lives. -/
theorem asks_in_vain {info : ReceivedInfo} (hlooked : r.filling = .looked info)
    (hsorted : r.stored.Pairwise (· ≤ ·)) (hstored : ∀ round ∈ r.stored, round + 1 < 2 ^ 64)
    (hmany : r.maxBlocks < (gaps r.stored info.sequence).length) (moves : List Move)
    (hmoves : moves.all unanswered = true) :
    ∃ rounds latest, ((r.step .scan).run moves).filling = .asking rounds latest [] ∧
      rounds = (gaps r.stored info.sequence).take (r.maxBlocks + 1) ∧
      ∀ own : Nat → Option Unit, ∃ text, handleGetRounds r.maxBlocks own rounds = .error text := by
  have hsmall : ∀ round ∈ r.stored, round < 2 ^ 64 := fun round hround =>
    Nat.lt_of_succ_lt (hstored round hround)
  have hlast : r.stored.count (2 ^ 64 - 1) = 0 :=
    count_eq_zero_of_not_mem fun hmem => absurd (hstored _ hmem) (by decide)
  obtain ⟨gap, hgap⟩ := exists_mem_of_length_pos (Nat.zero_lt_of_lt hmany)
  obtain ⟨hafter, -, top, htop, hbelow⟩ := mem_gaps.mp hgap
  have hbound := hsmall top htop
  have hrounds := (@getMissing_spec _ info.sequence r.maxBlocks hsmall).1
  rw [passed_eq_gaps hsorted hsmall (by omega) (by omega)] at hrounds
  have hlong : r.maxBlocks < (getMissing r.stored info.sequence r.maxBlocks).rounds.length := by
    rw [hrounds, length_take]
    omega
  refine ⟨_, (getMissing r.stored info.sequence r.maxBlocks).latest,
    filling_of_unanswered moves ?_ hmoves, hrounds, fun own => ⟨_, if_pos hlong⟩⟩
  simp only [step, hlooked]
  rw [if_neg (ne_nil_of_length_pos (Nat.zero_lt_of_lt hlong))]

/-- Three rounds are missing below the fourth, and the peer answers for one at a time. -/
theorem asks_in_vain_three : ∃ rounds latest,
    (((start 1).run [.store 4, .enter 4, .look, .scan]).run [.store 5, .enter 5, .look]).filling =
      .asking rounds latest [] ∧ rounds = [1, 2] ∧
      ∀ own : Nat → Option Unit, ∃ text, handleGetRounds 1 own rounds = .error text :=
  @asks_in_vain ((start 1).run [.store 4, .enter 4, .look]) ⟨4, 0⟩ rfl (by decide) (by decide)
    (by decide) [.store 5, .enter 5, .look] rfl

end Receiver

end Blockmania.Broadcast

namespace Blockmania.Storage

open Math Broadcast List

/-- The outer loop of `getMissing`, over the entries of the scan. -/
def takeMissing (limit : Nat) : List (Bytes × Bytes) → Missing → Except ReadError Missing
  | [], m => .ok m
  | (key, _) :: entries, m => do
    let next ← decodeBlockRound key
    match Missing.gap limit (next - u64 (m.latest + 1)) m with
    | (m, true) => return m
    | (m, false) => takeMissing limit entries { m with latest := next }

def getMissing (db : Badger) (nodeID since limit : Nat) : Except ReadError Missing :=
  takeMissing limit (db.scan (nodePrefix blockPrefix nodeID ++ encodeNumber (u64 (since + 1)))
    (nodePrefix blockPrefix nodeID)) ⟨[], 0, since⟩

section

variable {V : Type} {enc : V → Bytes} {db : Badger} {m : FiniteMap BlockID V} {nodeID : Nat}

/-- The rounds of the stored blocks of a node. -/
def roundsOf (m : FiniteMap BlockID V) (nodeID : Nat) : List Nat :=
  ((m.toList.filter fun x => x.1.node = nodeID).map fun x => x.1.round).insertionSort (· ≤ ·)

theorem takeMissing_keyed (limit : Nat) {blocks : List (BlockID × V)}
    (hblocks : ∀ x ∈ blocks, x.1.Fits) : ∀ found : Missing,
    takeMissing limit (blocks.map (keyed blockPrefix enc)) found =
      .ok (Missing.scan limit (blocks.map fun x => x.1.round) found) := by
  induction blocks with
  | nil => exact fun found => rfl
  | cons x blocks ih =>
    intro found
    obtain ⟨hfits, hblocks⟩ := forall_mem_cons.mp hblocks
    rw [map_cons, map_cons, keyed, takeMissing, decodeBlockRound_key _ hfits, Missing.scan]
    change (match Missing.gap limit (x.1.round - u64 (found.latest + 1)) found with
      | (found, true) => Except.ok found
      | (found, false) => takeMissing limit _ { found with latest := x.1.round }) = _
    rcases Missing.gap limit (x.1.round - u64 (found.latest + 1)) found with ⟨found', _ | _⟩
    · exact ih hblocks _
    · rfl

/-- The scan meets the rounds in their order. -/
theorem Mirrors.scan_rounds {p : UInt8} (h : Mirrors p enc db m) (hnode : nodeID < 2 ^ 64)
    {start : Nat} (hstart : start < 2 ^ 64) :
    ∃ blocks : List (BlockID × V),
      db.scan (nodePrefix p nodeID ++ encodeNumber start) (nodePrefix p nodeID) =
        blocks.map (keyed p enc) ∧ (∀ x ∈ blocks, x.1.Fits) ∧
      (blocks.map fun x => x.1.round) = (roundsOf m nodeID).filter fun round => start ≤ round := by
  obtain ⟨blocks, hscan, hmem, hordered⟩ := h.scan_eq hnode hstart
  refine ⟨blocks, hscan, fun x hx => h.fits x.1 x.2 ((hmem x.1 x.2).mp hx).1, ?_⟩
  have hsorted : (blocks.map fun x => x.1.round).Pairwise (· ≤ ·) := by
    rw [pairwise_map]
    exact hordered.imp fun hlt => hlt.elim le_of_lt fun heq => heq.1.le
  have hnodup : blocks.Nodup := by
    refine hordered.imp ?_
    rintro x y hlt rfl
    exact hlt.elim (lt_irrefl _) fun heq => List.lt_irrefl _ heq.2
  have hdistinct : m.toList.Nodup := by
    refine Std.ExtTreeMap.distinct_keys_toList.imp ?_
    rintro x y hne rfl
    exact hne (keyCompare_eq_iff.mpr rfl)
  have hperm : blocks.Perm ((m.toList.filter fun x => x.1.node = nodeID).filter
      fun x => start ≤ x.1.round) := by
    rw [perm_ext_iff_of_nodup hnodup ((hdistinct.filter _).filter _)]
    rintro ⟨id, v⟩
    rw [hmem, mem_filter, mem_filter, Std.ExtTreeMap.mem_toList_iff_getElem?_eq_some]
    simp only [decide_eq_true_eq, and_assoc]
  refine Perm.eq_of_pairwise (fun _ _ _ _ => le_antisymm) hsorted
    ((pairwise_insertionSort _ _).filter _) ?_
  have hfiltered : (((m.toList.filter fun x => x.1.node = nodeID).filter fun x =>
      start ≤ x.1.round).map fun x => x.1.round) =
        ((m.toList.filter fun x => x.1.node = nodeID).map fun x => x.1.round).filter
          fun round => start ≤ round := by
    rw [filter_map]
    rfl
  refine (hperm.map _).trans ?_
  rw [hfiltered]
  exact (perm_insertionSort _ _).symm.filter _

/-- The search in the database is the walk along the stored rounds. -/
theorem Mirrors.getMissing_eq (h : Mirrors blockPrefix enc db m) (hnode : nodeID < 2 ^ 64)
    (since limit : Nat) : Storage.getMissing db nodeID since limit =
      .ok (Broadcast.getMissing (roundsOf m nodeID) since limit) := by
  obtain ⟨blocks, hscan, hfits, hrounds⟩ :=
    h.scan_rounds hnode (Nat.mod_lt (since + 1) (by decide : 0 < 2 ^ 64))
  rw [Storage.getMissing, u64, hscan, takeMissing_keyed limit hfits, hrounds]
  rfl

/-- The gaps of a peer are found, and the peer answers, exactly if there are no more than
the limit, apart from the end of the range of rounds. -/
theorem getMissing_findsGaps_iff (h : Mirrors blockPrefix enc db m) (hnode : nodeID < 2 ^ 64)
    {since : Nat} (hsince : since < 2 ^ 64) (limit : Nat) :
    (∃ found, getMissing db nodeID since limit = .ok found ∧
      FindsGaps (roundsOf m nodeID) since limit found) ↔
        findable (roundsOf m nodeID) since limit := by
  have hsorted : (roundsOf m nodeID).Pairwise (· ≤ ·) := pairwise_insertionSort _ _
  have hstored : ∀ round ∈ roundsOf m nodeID, round < 2 ^ 64 := by
    intro round hround
    rw [roundsOf, (perm_insertionSort _ _).mem_iff, mem_map] at hround
    obtain ⟨x, hx, rfl⟩ := hround
    have hmem := mem_of_mem_filter hx
    rw [Std.ExtTreeMap.mem_toList_iff_getElem?_eq_some] at hmem
    exact (h.fits x.1 x.2 hmem).2
  rw [← findsGaps_iff_findable hsorted hstored hsince, h.getMissing_eq hnode]
  constructor
  · rintro ⟨found, hfound, hgaps⟩
    cases hfound
    exact hgaps
  · exact fun hgaps => ⟨_, rfl, hgaps⟩

/-- The only block of the second node is one of the fourth round. -/
def fourthOnly : Badger := (∅ : Badger).insert (blockKey ⟨[7], 2, 4⟩) [1]

theorem mirrors_fourthOnly :
    Mirrors blockPrefix id fourthOnly ((∅ : FiniteMap BlockID Bytes).insert ⟨[7], 2, 4⟩ [1]) := by
  have hempty : Mirrors blockPrefix id (∅ : Badger) (∅ : FiniteMap BlockID Bytes) := by
    refine ⟨?_, ?_⟩ <;> simp
  exact hempty.insert (by decide : BlockID.Fits ⟨[7], 2, 4⟩) [1]

/-- Three rounds are asked for if three may be. -/
theorem findsGaps_fourthOnly :
    ∃ found, getMissing fourthOnly 2 0 3 = .ok found ∧
      FindsGaps (roundsOf ((∅ : FiniteMap BlockID Bytes).insert ⟨[7], 2, 4⟩ [1]) 2) 0 3 found :=
  (getMissing_findsGaps_iff mirrors_fourthOnly (by decide) (by decide) 3).mpr (by decide +kernel)

/-- If only two may be, three rounds are asked for nevertheless, and the peer refuses to
answer. -/
theorem getMissing_fourthOnly :
    getMissing fourthOnly 2 0 2 = .ok ⟨[1, 2, 3], 2, 3⟩ ∧
      (gaps (roundsOf ((∅ : FiniteMap BlockID Bytes).insert ⟨[7], 2, 4⟩ [1]) 2) 0).take 2 = [1, 2] ∧
      ∀ own : Nat → Option Bytes, handleGetRounds 2 own [1, 2, 3] =
        .error "broadcast: requested 3 rounds exceeds max block limit of 2" := by
  refine ⟨?_, by decide +kernel, fun own => rfl⟩
  rw [mirrors_fourthOnly.getMissing_eq (by decide)]
  decide +kernel

end

end Blockmania.Storage
