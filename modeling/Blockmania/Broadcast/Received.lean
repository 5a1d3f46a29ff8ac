/-
# Filling in missing blocks

Of each peer a node remembers the latest round of which it has a block, and a round up
to which it should have all of them. Blocks come in any order. `fillMissingBlocks` looks
into the database for rounds that were left out, and asks the peer for them. Its local
variables are lost in a crash, and what was remembered is stored from time to time, so a
round that is missing below the stored sequence is never asked for again.

A run is any interleaving of blocks that come in, of this loop, of the loop that stores
what is remembered, and of crashes, for one peer. All numbers are 64-bit.
-/

import Blockmania.Interpreter.Process

namespace Blockmania.Broadcast

open List

/-- The local variables of `getMissing`. -/
structure Missing where
  rounds : List Nat
  added : Nat
  latest : Nat
  deriving DecidableEq, Repr

namespace Missing

/-- The inner loop of `getMissing`, over the given number of rounds, and whether it
returns. -/
def gap (limit : Nat) : Nat → Missing → Missing × Bool
  | 0, m => (m, false)
  | n + 1, m =>
    let i := u64 (m.latest + 1)
    let m := { m with latest := i, rounds := m.rounds ++ [i] }
    if m.added = limit then (m, true) else gap limit n { m with added := m.added + 1 }

/-- The outer loop of `getMissing`, over the rounds of the stored blocks. -/
def scan (limit : Nat) : List Nat → Missing → Missing
  | [], m => m
  | next :: later, m =>
    match gap limit (next - u64 (m.latest + 1)) m with
    | (m, true) => m
    | (m, false) => scan limit later { m with latest := next }

end Missing

/-- `getMissing`. The rounds of the stored blocks are in ascending order, as their keys
are. -/
def getMissing (stored : List Nat) (since limit : Nat) : Missing :=
  Missing.scan limit (stored.filter fun round => u64 (since + 1) ≤ round) ⟨[], 0, since⟩

structure ReceivedInfo where
  latest : Nat
  sequence : Nat
  deriving DecidableEq, Repr

namespace ReceivedInfo

/-- `set` of the received map. -/
def set (info : ReceivedInfo) (round : Nat) : ReceivedInfo where
  latest := if info.latest < round then round else info.latest
  sequence := if u64 (info.sequence + 1) = round then round else info.sequence

end ReceivedInfo

/-- Where `fillMissingBlocks` stands. -/
inductive Filling
  /-- There are no rounds to ask for. -/
  | idle
  /-- The received map was read. -/
  | looked (info : ReceivedInfo)
  /-- No round is missing. -/
  | found (info : ReceivedInfo) (latest : Nat)
  /-- The peer was asked, and `seen` are the rounds that were processed. -/
  | asking (rounds : List Nat) (latest : Nat) (seen : List Nat)
  /-- A block of the answer was stored. -/
  | accepting (rounds : List Nat) (latest : Nat) (seen : List Nat) (round : Nat)
  deriving DecidableEq, Repr

/-- What is known about the blocks of a peer. -/
structure Receiver where
  /-- The rounds of the blocks in the database. -/
  stored : List Nat
  /-- The entry of the received map in the database. -/
  persisted : ReceivedInfo
  info : ReceivedInfo
  /-- Rounds of blocks that were stored by other goroutines, but not yet entered into
  the received map. -/
  entering : List Nat
  filling : Filling
  /-- What `writeReceivedMap` has copied. -/
  copied : Option ReceivedInfo
  maxBlocks : Nat
  deriving DecidableEq, Repr

/-- A piece of work of one goroutine. -/
inductive Move
  /-- `processBlock` stores a block of the peer. -/
  | store (round : Nat)
  /-- `processBlock` enters it into the received map. -/
  | enter (round : Nat)
  /-- `fillMissingBlocks` reads the received map. -/
  | look
  /-- It reads the database. -/
  | scan
  /-- It sets the sequence, as no round is missing. -/
  | advance
  /-- `processBlock` stores a block of the answer. The block may be one of another node,
  of which nothing is said here. -/
  | accept (own : Bool) (round : Nat)
  /-- `processBlock` enters it into the received map and returns its round. -/
  | record
  /-- The answer was processed. -/
  | settle
  /-- `writeReceivedMap` copies the map. -/
  | copy
  /-- `writeReceivedMap` stores the copy. -/
  | write
  /-- The process dies and is started again. -/
  | crash

namespace Receiver

def start (maxBlocks : Nat) : Receiver where
  stored := []
  persisted := ⟨0, 0⟩
  info := ⟨0, 0⟩
  entering := []
  filling := .idle
  copied := none
  maxBlocks

/-- The end of an answer: the last requested round that was seen, and those that were
not. -/
def latestSeen (rounds seen : List Nat) : Nat :=
  (rounds.filter fun round => seen.contains round).getLast?.getD 0

def unseen (rounds seen : List Nat) : List Nat :=
  rounds.filter fun round => !seen.contains round

/-- One piece of work. What cannot be done now changes nothing. If the peer cannot be
reached, or its answer cannot be read, it is asked again for the same rounds. -/
def step (r : Receiver) : Move → Receiver
  | .store round =>
    let round := u64 round
    { r with
      stored := r.stored.orderedInsert (· ≤ ·) round
      entering := round :: r.entering }
  | .enter round =>
    if round ∈ r.entering then
      { r with info := r.info.set round, entering := r.entering.erase round }
    else r
  | .look =>
    match r.filling with
    | .idle =>
      if r.info.latest = r.info.sequence then r else { r with filling := .looked r.info }
    | _ => r
  | .scan =>
    match r.filling with
    | .looked info =>
      let m := getMissing r.stored info.sequence r.maxBlocks
      if m.rounds = [] then { r with filling := .found info m.latest }
      else { r with filling := .asking m.rounds m.latest [] }
    | _ => r
  | .advance =>
    match r.filling with
    | .found info latest =>
      if latest ≠ info.sequence ∧ latest ≠ 0 then
        { r with info := { r.info with sequence := latest }, filling := .idle }
      else { r with filling := .idle }
    | _ => r
  | .accept own round =>
    let round := u64 round
    match r.filling with
    | .asking rounds latest seen =>
      if own then
        { r with
          stored := r.stored.orderedInsert (· ≤ ·) round
          filling := .accepting rounds latest seen round }
      else { r with filling := .asking rounds latest (round :: seen) }
    | _ => r
  | .record =>
    match r.filling with
    | .accepting rounds latest seen round =>
      { r with info := r.info.set round, filling := .asking rounds latest (round :: seen) }
    | _ => r
  | .settle =>
    match r.filling with
    | .asking rounds latest seen =>
      let missing := unseen rounds seen
      let seen := latestSeen rounds seen
      let info :=
        if seen ≠ 0 then
          { r.info with sequence := if missing ≠ [] then latest else seen }
        else r.info
      { r with info, filling := if missing = [] then .idle else .asking missing latest [] }
    | _ => r
  | .copy => { r with copied := some r.info }
  | .write =>
    match r.copied with
    | some info => { r with persisted := info, copied := none }
    | none => r
  | .crash =>
    { r with info := r.persisted, entering := [], filling := .idle, copied := none }

def run (r : Receiver) : List Move → Receiver := foldl step r

/-- Every round up to the given one has a block. -/
def Filled (stored : List Nat) (last : Nat) : Prop :=
  ∀ round, 1 ≤ round → round ≤ last → round ∈ stored

instance (stored : List Nat) (last : Nat) : Decidable (Filled stored last) :=
  decidable_of_iff (∀ round ∈ range' 1 last, round ∈ stored) <| by
    simp only [Filled, mem_range'_1]
    exact ⟨fun h round hpos hle => h round (by omega), fun h round hround => h round (by omega) (by omega)⟩

/-- No round is missing up to the sequence, neither the one in memory nor the one that a
crash leaves. -/
def Gapless (r : Receiver) : Prop :=
  Filled r.stored r.info.sequence ∧ Filled r.stored r.persisted.sequence

instance (r : Receiver) : Decidable r.Gapless := inferInstanceAs (Decidable (_ ∧ _))

/-- An answer holds blocks of the peer only, and either none of the requested rounds or
all of them that are not in the database by then. -/
def fair (r : Receiver) : Move → Bool
  | .accept own _ => own
  | .settle =>
    match r.filling with
    | .asking rounds _ seen =>
      rounds.all (fun round => !seen.contains round) ||
        (unseen rounds seen).all fun round => r.stored.contains round
    | _ => true
  | _ => true

/-- Every piece of work is fair in the state in which it is done. -/
def fairRun (r : Receiver) : List Move → Bool
  | [] => true
  | move :: moves => r.fair move && fairRun (r.step move) moves

variable {last : Nat} {stored stored' : List Nat}

theorem Filled.mono (h : Filled stored last) (hsub : stored ⊆ stored') :
    Filled stored' last := fun round hpos hle =>
  hsub (h round hpos hle)

/-- Every round up to `last` is stored or listed, and so is every round up to a listed
one. -/
structure Lists (stored rounds : List Nat) (last : Nat) : Prop where
  last : ∀ round, 1 ≤ round → round ≤ last → round ∈ stored ∨ round ∈ rounds
  rounds : ∀ listed ∈ rounds, ∀ round, 1 ≤ round → round ≤ listed → round ∈ stored ∨ round ∈ rounds

theorem Lists.mono {rounds : List Nat} (h : Lists stored rounds last) (hsub : stored ⊆ stored') :
    Lists stored' rounds last where
  last := fun round hpos hle => (h.last round hpos hle).imp_left (hsub ·)
  rounds := fun listed hlisted round hpos hle => (h.rounds listed hlisted round hpos hle).imp_left (hsub ·)

end Receiver

namespace Missing

open Receiver

theorem u64_le (n : Nat) : u64 n ≤ n := Nat.mod_le _ _

variable {m : Missing} {stored : List Nat}

/-- The inner loop lists the round it comes to. -/
theorem lists_next (h : Lists stored m.rounds m.latest) :
    Lists stored (m.rounds ++ [u64 (m.latest + 1)]) (u64 (m.latest + 1)) := by
  have hnext : ∀ round, 1 ≤ round → round ≤ u64 (m.latest + 1) →
      round ∈ stored ∨ round ∈ m.rounds ++ [u64 (m.latest + 1)] := by
    intro round hpos hle
    rcases Nat.eq_or_lt_of_le hle with heq | hlt
    · exact .inr (by simp [heq])
    · have hbound := u64_le (m.latest + 1)
      exact (h.last round hpos (by omega)).imp_right (mem_append_left _)
  refine ⟨hnext, fun listed hlisted round hpos hle => ?_⟩
  rcases mem_append.mp hlisted with hlisted | hlisted
  · exact (h.rounds listed hlisted round hpos hle).imp_right (mem_append_left _)
  · rw [mem_singleton.mp hlisted] at hle
    exact hnext round hpos hle

theorem lists_gap (limit n : Nat) (h : Lists stored m.rounds m.latest) :
    Lists stored (gap limit n m).1.rounds (gap limit n m).1.latest := by
  induction n generalizing m with
  | zero => exact h
  | succ n ih =>
    rw [gap]
    split
    · exact lists_next h
    · exact ih (m := ⟨_, _, _⟩) (lists_next h)

/-- If the inner loop does not return it has come to the next stored round. -/
theorem next_le_of_gap {next : Nat} (hnext : next < 2 ^ 64) (limit n : Nat)
    (hn : next ≤ u64 (m.latest + 1) + n) (hend : n ≠ 0 → u64 (m.latest + 1) + n = next)
    (hreturn : (gap limit n m).2 = false) : next ≤ u64 ((gap limit n m).1.latest + 1) := by
  induction n generalizing m with
  | zero => exact hn
  | succ n ih =>
    have hbound : u64 (u64 (m.latest + 1) + 1) = u64 (m.latest + 1) + 1 :=
      Nat.mod_eq_of_lt (by have := hend (by omega); omega)
    rw [gap] at hreturn ⊢
    split at hreturn
    · cases hreturn
    · rename_i hlimit
      rw [if_neg hlimit]
      refine ih ?_ ?_ hreturn
      · dsimp only
        omega
      · dsimp only
        have := hend (by omega)
        omega

theorem lists_scan (limit : Nat) (later : List Nat)
    (hlater : ∀ next ∈ later, next ∈ stored ∧ next < 2 ^ 64) (h : Lists stored m.rounds m.latest) :
    Lists stored (scan limit later m).rounds (scan limit later m).latest := by
  induction later generalizing m with
  | nil => exact h
  | cons next later ih =>
    obtain ⟨⟨hstored, hnext⟩, hlater⟩ := forall_mem_cons.mp hlater
    have hgap := lists_gap limit (next - u64 (m.latest + 1)) h
    have hreach := next_le_of_gap hnext limit (next - u64 (m.latest + 1)) (m := m)
      (by omega) (by omega)
    rw [scan]
    split
    · rename_i m' heq
      rw [heq] at hgap
      exact hgap
    · rename_i m' heq
      rw [heq] at hgap hreach
      refine ih hlater ⟨fun round hpos hle => ?_, hgap.rounds⟩
      rcases Nat.eq_or_lt_of_le hle with rfl | hlt
      · exact .inl hstored
      · have hbound := u64_le (m'.latest + 1)
        have hreach := hreach rfl
        exact hgap.last round hpos (by dsimp only at *; omega)

end Missing

open Receiver in
/-- Every round up to the latest one is stored or missing. -/
theorem lists_getMissing {stored : List Nat} {since : Nat} (limit : Nat)
    (hstored : ∀ round ∈ stored, round < 2 ^ 64) (hsince : Filled stored since) :
    Lists stored (getMissing stored since limit).rounds (getMissing stored since limit).latest := by
  refine Missing.lists_scan limit _ (fun next hnext => ?_) ⟨fun round hpos hle => ?_, ?_⟩
  · have hmem := mem_of_mem_filter hnext
    exact ⟨hmem, hstored next hmem⟩
  · exact .inl (hsince round hpos hle)
  · exact fun listed hlisted => absurd hlisted not_mem_nil

/-! ## Runs -/

namespace Receiver

/-- What `fillMissingBlocks` has in its local variables. -/
def Holds (stored : List Nat) : Filling → Prop
  | .idle => True
  | .looked info => Filled stored info.sequence
  | .found _ latest => Filled stored latest
  | .asking rounds latest seen => Lists stored rounds latest ∧ seen ⊆ stored
  | .accepting rounds latest seen round => Lists stored rounds latest ∧ seen ⊆ stored ∧ round ∈ stored

variable {stored rounds seen : List Nat} {r : Receiver} {latest : Nat}

theorem Holds.mono {stored' : List Nat} {filling : Filling} (h : Holds stored filling)
    (hsub : stored ⊆ stored') : Holds stored' filling := by
  cases filling with
  | idle => trivial
  | looked info => exact Filled.mono h hsub
  | found info latest => exact Filled.mono h hsub
  | asking rounds latest seen => exact ⟨h.1.mono hsub, List.Subset.trans h.2 hsub⟩
  | accepting rounds latest seen round =>
    exact ⟨h.1.mono hsub, List.Subset.trans h.2.1 hsub, hsub h.2.2⟩

/-- The invariant. -/
structure Sound (r : Receiver) : Prop where
  stored : ∀ round ∈ r.stored, round < 2 ^ 64
  info : Filled r.stored r.info.sequence
  persisted : Filled r.stored r.persisted.sequence
  copied : ∀ info, r.copied = some info → Filled r.stored info.sequence
  entering : r.entering ⊆ r.stored
  filling : Holds r.stored r.filling

theorem filled_zero (stored : List Nat) : Filled stored 0 := fun round hpos hle =>
  absurd hpos (by omega)

theorem sound_start (maxBlocks : Nat) : (start maxBlocks).Sound where
  stored := fun _ hround => absurd hround not_mem_nil
  info := filled_zero _
  persisted := filled_zero _
  copied := fun _ hinfo => (nomatch hinfo)
  entering := nil_subset _
  filling := trivial

/-- The sequence moves on if the round behind it is stored. -/
theorem filled_set {info : ReceivedInfo} {round : Nat} (h : Filled stored info.sequence)
    (hround : round ∈ stored) :
    Filled stored (info.set round).sequence := by
  dsimp only [ReceivedInfo.set]
  split
  · rename_i heq
    intro round' hpos hle
    rcases Nat.eq_or_lt_of_le hle with rfl | hlt
    · exact hround
    · have hbound := Missing.u64_le (info.sequence + 1)
      exact h round' hpos (by omega)
  · exact h

theorem subset_insert (stored : List Nat) (round : Nat) :
    stored ⊆ stored.orderedInsert (· ≤ ·) round := fun _ h =>
  (mem_orderedInsert (· ≤ ·)).mpr (.inr h)

/-- A block is stored, and nothing else changes. -/
theorem Sound.insert (h : r.Sound) (round : Nat) :
    Sound { r with stored := r.stored.orderedInsert (· ≤ ·) (u64 round) } where
  stored := fun round' hround' => by
    rcases (mem_orderedInsert (· ≤ ·)).mp hround' with rfl | hround'
    · exact Nat.mod_lt _ (by decide)
    · exact h.stored round' hround'
  info := h.info.mono (subset_insert _ _)
  persisted := h.persisted.mono (subset_insert _ _)
  copied := fun info hinfo => (h.copied info hinfo).mono (subset_insert _ _)
  entering := List.Subset.trans h.entering (subset_insert _ _)
  filling := h.filling.mono (subset_insert _ _)

theorem mem_of_latestSeen (h : latestSeen rounds seen ≠ 0) :
    latestSeen rounds seen ∈ rounds ∧ latestSeen rounds seen ∈ seen := by
  unfold latestSeen at *
  cases hlast : (rounds.filter fun round => seen.contains round).getLast? with
  | none =>
    rw [hlast] at h
    exact absurd rfl h
  | some last =>
    have hmem := mem_filter.mp (mem_of_getLast? hlast)
    exact ⟨hmem.1, by simpa using hmem.2⟩

/-- What was not seen stays listed, as what was seen is stored. -/
theorem Lists.unseen (h : Lists stored rounds latest) (hseen : seen ⊆ stored) :
    Lists stored (unseen rounds seen) latest ∧ ∀ listed ∈ rounds, ∀ round, 1 ≤ round →
      round ≤ listed → round ∈ stored ∨ round ∈ Receiver.unseen rounds seen := by
  have hmissing : ∀ round, round ∈ stored ∨ round ∈ rounds →
      round ∈ stored ∨ round ∈ Receiver.unseen rounds seen := by
    intro round hround
    rcases hround with hround | hround
    · exact .inl hround
    · by_cases hmem : round ∈ seen
      · exact .inl (hseen hmem)
      · exact .inr (mem_filter.mpr ⟨hround, by simpa using hmem⟩)
  have hrounds : ∀ listed ∈ rounds, ∀ round, 1 ≤ round → round ≤ listed →
      round ∈ stored ∨ round ∈ Receiver.unseen rounds seen := fun listed hlisted round hpos hle =>
    hmissing round (h.rounds listed hlisted round hpos hle)
  refine ⟨⟨fun round hpos hle => hmissing round (h.last round hpos hle), ?_⟩, hrounds⟩
  exact fun listed hlisted => hrounds listed (mem_of_mem_filter hlisted)

/-- The end of a fair answer. The sequence is set only if some requested round was
seen, and then all others are stored. -/
theorem Sound.settle (h : r.Sound) (hasking : r.filling = .asking rounds latest seen)
    (hfair : r.fair .settle = true) :
    (r.step .settle).Sound := by
  have hholds := h.filling
  rw [hasking] at hholds
  obtain ⟨hlists, hrounds⟩ := hholds.1.unseen hholds.2
  have hsequence : latestSeen rounds seen ≠ 0 →
      Filled r.stored latest ∧ Filled r.stored (latestSeen rounds seen) := by
    intro hne
    obtain ⟨hmem, hseen⟩ := mem_of_latestSeen hne
    have hall : ∀ round ∈ unseen rounds seen, round ∈ r.stored := by
      simp only [fair, hasking, Bool.or_eq_true, all_eq_true, Bool.not_eq_eq_eq_not,
        Bool.not_true, contains_eq_mem, decide_eq_false_iff_not, decide_eq_true_eq] at hfair
      exact hfair.resolve_left fun hnone => hnone _ hmem hseen
    refine ⟨fun round hpos hle => ?_, fun round hpos hle => ?_⟩
    · exact (hlists.last round hpos hle).elim (fun hround => hround) (hall round)
    · exact (hrounds _ hmem round hpos hle).elim (fun hround => hround) (hall round)
  simp only [step, hasking]
  refine ⟨h.stored, ?_, h.persisted, h.copied, h.entering, ?_⟩
  · dsimp only
    split
    · rename_i hne
      dsimp only
      split
      · exact (hsequence hne).1
      · exact (hsequence hne).2
    · exact h.info
  · dsimp only
    split
    · trivial
    · exact ⟨hlists, nil_subset _⟩

/-- Every fair piece of work keeps the invariant. -/
theorem Sound.step {r : Receiver} (h : r.Sound) {move : Move} (hfair : r.fair move = true) :
    (r.step move).Sound := by
  have hfilling := h.filling
  cases move with
  | store round =>
    refine { h.insert round with entering := ?_ }
    intro round' hround'
    rcases mem_cons.mp hround' with rfl | hround'
    · exact (mem_orderedInsert (· ≤ ·)).mpr (.inl rfl)
    · exact subset_insert _ _ (h.entering hround')
  | enter round =>
    rw [Receiver.step]
    split
    · rename_i hround
      refine { h with info := filled_set h.info (h.entering hround), entering := ?_ }
      exact List.Subset.trans erase_subset h.entering
    · exact h
  | look =>
    rw [Receiver.step]
    split
    · split
      · exact h
      · exact { h with filling := h.info }
    · exact h
  | scan =>
    rw [Receiver.step]
    split
    · rename_i info hlooked
      rw [hlooked] at hfilling
      have hlists := lists_getMissing r.maxBlocks h.stored hfilling
      dsimp only
      split
      · rename_i hnone
        rw [hnone] at hlists
        refine { h with filling := fun round hpos hle => ?_ }
        exact (hlists.last round hpos hle).resolve_right not_mem_nil
      · exact { h with filling := ⟨hlists, nil_subset _⟩ }
    · exact h
  | advance =>
    rw [Receiver.step]
    split
    · rename_i info latest hfound
      rw [hfound] at hfilling
      split
      · exact { h with info := hfilling, filling := trivial }
      · exact { h with filling := trivial }
    · exact h
  | accept own round =>
    obtain rfl : own = true := hfair
    rw [Receiver.step]
    split
    · rename_i rounds latest seen hasking
      have hinsert := h.insert round
      have hholds := hinsert.filling
      dsimp only at hholds
      rw [hasking] at hholds
      refine { hinsert with filling := ⟨hholds.1, hholds.2, ?_⟩ }
      exact (mem_orderedInsert (· ≤ ·)).mpr (.inl rfl)
    · exact h
  | record =>
    rw [Receiver.step]
    split
    · rename_i rounds latest seen round haccepting
      rw [haccepting] at hfilling
      obtain ⟨hlists, hseen, hround⟩ := hfilling
      exact { h with
        info := filled_set h.info hround
        filling := ⟨hlists, cons_subset.mpr ⟨hround, hseen⟩⟩ }
    · exact h
  | settle =>
    cases hasking : r.filling with
    | asking rounds latest seen => exact h.settle hasking hfair
    | _ => simpa only [Receiver.step, hasking] using h
  | copy => exact { h with copied := fun info hinfo => Option.some.inj hinfo ▸ h.info }
  | write =>
    rw [Receiver.step]
    split
    · rename_i info hcopied
      exact { h with
        persisted := h.copied info hcopied
        copied := fun _ hinfo => (nomatch hinfo) }
    · exact h
  | crash =>
    exact { h with
      info := h.persisted
      copied := fun _ hinfo => (nomatch hinfo)
      entering := nil_subset _
      filling := trivial }

theorem Sound.run (h : r.Sound) {moves : List Move} (hfair : r.fairRun moves = true) :
    (r.run moves).Sound := by
  induction moves generalizing r with
  | nil => exact h
  | cons move moves ih =>
    rw [fairRun, Bool.and_eq_true] at hfair
    exact ih (h.step hfair.1) hfair.2

/-- The stored sequence is a true prefix as long as answers are fair. -/
theorem gapless_of_fairRun {maxBlocks : Nat} {moves : List Move}
    (h : (start maxBlocks).fairRun moves = true) : ((start maxBlocks).run moves).Gapless := by
  have hsound := (sound_start maxBlocks).run h
  exact ⟨hsound.info, hsound.persisted⟩

/-- A block of round 4 comes in, the peer is asked for the three rounds before it, and
answers with the given ones. What is remembered is stored, and the process dies. -/
def catchUp (answer : List Nat) : List Move :=
  [.store 4, .enter 4, .look, .scan] ++ answer.flatMap (fun round => [.accept true round, .record]) ++
    [.settle, .copy, .write, .crash]

theorem gapless_fullAnswer :
    (start 10).fairRun (catchUp [1, 2, 3]) = true ∧ ((start 10).run (catchUp [1, 2, 3])).Gapless :=
  have hfair : (start 10).fairRun (catchUp [1, 2, 3]) = true := by decide
  ⟨hfair, gapless_of_fairRun hfair⟩

/-- If the answer holds one round of three, the sequence is set to the latest stored
round, and the two others are not asked for again. -/
theorem not_gapless_partialAnswer :
    ((start 10).run (catchUp [3])).stored = [3, 4] ∧
      ((start 10).run (catchUp [3])).info = ⟨4, 4⟩ ∧
      ((start 10).run (catchUp [3])).persisted = ⟨4, 4⟩ ∧
      ¬ ((start 10).run (catchUp [3])).Gapless ∧
      ((start 10).run (catchUp [3])).step .look = (start 10).run (catchUp [3]) := by
  decide

end Receiver

end Blockmania.Broadcast
