/-
# Delivering rounds

The graph hands over one interpreted round after another to `blockmaniaCallback`, which
stores it and passes it to the callback of the application, once there is one. Until
then rounds are only counted, and `Register` passes them on later, from the first one
that was not acknowledged. The two run in different goroutines, and whichever comes
first the other one has to go on where it stopped, also after a crash.

A run is any interleaving of the pieces of work between which another goroutine can
come in. `log.Fatal` is a crash. Rounds are 64-bit numbers, and no run gets to the last of
them.
-/

import Blockmania.Interpreter.Process

namespace Blockmania.Broadcast

open Math List FiniteMap

/-- Where `blockmaniaCallback` stands. -/
inductive Handling
  /-- The graph has not called it. -/
  | idle
  /-- The round was stored. -/
  | stored (blocks : List BlockID)
  /-- A callback was there, and `imu` was released again. -/
  | unlocked (blocks : List BlockID)
  deriving DecidableEq, Repr

/-- Where `Register` stands, with the acknowledged round it has read. -/
inductive Registration
  /-- There is no callback. -/
  | absent
  /-- `imu` is held while the rounds from `next` to `latest` are passed on. -/
  | replaying (ack next latest : Nat)
  | done (ack : Nat)
  deriving DecidableEq, Repr

/-- What the application sees and does. -/
inductive Event
  | passed (round : Nat) (blocks : List BlockID)
  | acknowledged (round : Nat)
  deriving DecidableEq, Repr

/-- What the database knows about rounds; a missing entry counts as round 0. -/
structure RoundStore where
  rounds : FiniteMap Nat (List BlockID)
  lastInterpreted : Nat
  acknowledged : Nat

/-- The state of the service. `round` is the last round of the graph, `passed` lists
what the callback was called with since the process was started, and `history` lists
what ever happened, with the latest event first. -/
structure Delivery where
  store : RoundStore
  closed : Bool
  interpreted : Nat
  round : Nat
  handling : Handling
  registration : Registration
  passed : List (Nat × List BlockID)
  acks : List Nat
  history : List Event

/-- A piece of work of one goroutine. -/
inductive Duty
  /-- The graph calls `blockmaniaCallback`, which stores the next round. -/
  | interpret (blocks : List BlockID)
  /-- `blockmaniaCallback` takes `imu`. -/
  | check
  /-- `blockmaniaCallback` calls the callback. -/
  | call
  /-- `Register` takes `imu`. -/
  | register
  /-- The loop of `Register` takes one step. -/
  | replay
  /-- The application acknowledges a round. -/
  | acknowledge (round : Nat)
  /-- The database is closed. -/
  | close
  /-- The process dies and is started again. -/
  | crash

namespace Delivery

/-- `loadState` on the given database. -/
def loadState (store : RoundStore) (history : List Event) : Delivery where
  store
  closed := false
  interpreted := store.lastInterpreted
  round := store.lastInterpreted
  handling := .idle
  registration := .absent
  passed := []
  acks := []
  history

def start : Delivery := loadState ⟨∅, 0, 0⟩ []

/-- The process dies and is started again. -/
def crash (d : Delivery) : Delivery := loadState d.store d.history

/-- The callback is called. -/
def pass (d : Delivery) (round : Nat) (blocks : List BlockID) : Delivery := { d with
  passed := d.passed ++ [(round, blocks)]
  history := .passed round blocks :: d.history }

/-- `setInterpreted`, whose errors nobody looks at. -/
def setInterpreted (d : Delivery) (round : Nat) (blocks : List BlockID) : Delivery :=
  if d.closed then d
  else { d with store := { d.store with
    rounds := d.store.rounds.insert round blocks
    lastInterpreted := round } }

/-- `setDeliverAcknowledged`, whose errors nobody looks at. -/
def setDeliverAcknowledged (d : Delivery) (round : Nat) : Delivery :=
  if d.closed then d else { d with store := { d.store with acknowledged := round } }

/-- `getInterpreted`. -/
def getInterpreted (d : Delivery) (round : Nat) : Option (List BlockID) :=
  if d.closed then none else d.store.rounds[round]?

/-- Whether `Register` holds `imu`. -/
def locked (d : Delivery) : Bool :=
  match d.registration with
  | .replaying _ _ _ => true
  | _ => false

/-- One piece of work. What cannot be done now changes nothing. Rounds are acknowledged
in the order of their delivery: a round that was passed on, and none that comes before
one that was acknowledged since the start. -/
def step (d : Delivery) : Duty → Delivery
  | .interpret blocks =>
    match d.handling with
    | .idle =>
      -- so that no counter wraps around
      if d.round + 2 < 2 ^ 64 then
        { d.setInterpreted (d.round + 1) blocks with
          round := d.round + 1
          handling := .stored blocks }
      else d
    | _ => d
  | .check =>
    match d.handling with
    | .stored blocks =>
      if d.locked then d
      else if d.registration = .absent then
        { d with interpreted := d.round, handling := .idle }
      else { d with handling := .unlocked blocks }
    | _ => d
  | .call =>
    match d.handling with
    | .unlocked blocks =>
      if d.closed then d.crash else { d.pass d.round blocks with handling := .idle }
    | _ => d
  | .register =>
    if d.locked then d
    else if d.registration ≠ .absent ∨ d.closed then d.crash
    else
      let ack := d.store.acknowledged
      { d with registration := .replaying ack (ack + 1) d.interpreted }
  | .replay =>
    match d.registration with
    | .replaying ack next latest =>
      if next ≤ latest then
        match d.getInterpreted next with
        | some blocks =>
          { d.pass next blocks with registration := .replaying ack (next + 1) latest }
        | none => d.crash
      else { d with registration := .done ack }
    | _ => d
  | .acknowledge round =>
    if (∃ x ∈ d.passed, x.1 = round) ∧ (∀ ack ∈ d.acks, ack ≤ round) then
      { d.setDeliverAcknowledged round with
        acks := d.acks ++ [round]
        history := .acknowledged round :: d.history }
    else d
  | .close => { d with closed := true }
  | .crash => d.crash

def run (d : Delivery) : List Duty → Delivery := foldl step d

/-- The acknowledged round that `Register` has read. -/
def registeredAck (d : Delivery) : Option Nat :=
  match d.registration with
  | .absent => none
  | .replaying ack _ _ => some ack
  | .done ack => some ack

/-- The last round that was counted or passed on, or that `Register` will pass on. -/
def reach (d : Delivery) : Nat :=
  match d.registration with
  | .absent => d.interpreted
  | .replaying _ _ latest => latest
  | .done ack => ack + d.passed.length

/-- How many rounds `blockmaniaCallback` has at hand. -/
def inFlight (d : Delivery) : Nat :=
  match d.handling with
  | .idle => 0
  | _ => 1

end Delivery

/-- All rounds up to the given one were passed to a callback. -/
def Covered (round : Nat) (history : List Event) : Prop :=
  ∀ round', 1 ≤ round' → round' ≤ round → ∃ blocks, .passed round' blocks ∈ history

theorem Covered.cons {round : Nat} {history : List Event} (h : Covered round history)
    (event : Event) : Covered round (event :: history) := fun round' hpos hle =>
  (h round' hpos hle).imp fun _ => mem_cons_of_mem event

/-- What a crash keeps. -/
structure Durable (store : RoundStore) (history : List Event) : Prop where
  stored : ∀ round, 1 ≤ round → round ≤ store.lastInterpreted →
    ∃ blocks, store.rounds[round]? = some blocks
  bounded : ∀ (round : Nat) (blocks : List BlockID), store.rounds[round]? = some blocks →
    round ≤ store.lastInterpreted
  acknowledged : store.acknowledged ≤ store.lastInterpreted
  covered : Covered store.acknowledged history
  justified : ∀ round older, .acknowledged round :: older <:+ history → Covered round older

/-- What was passed on since the callback was registered. -/
structure Passes (ack : Nat) (passed : List (Nat × List BlockID)) (store : RoundStore)
    (history : List Event) : Prop where
  rounds : passed.map Prod.fst = range' (ack + 1) passed.length
  stored : ∀ x ∈ passed, store.rounds[x.1]? = some x.2
  recorded : ∀ x ∈ passed, .passed x.1 x.2 ∈ history
  covered : Covered ack history
  bounded : ack + passed.length ≤ store.lastInterpreted

namespace Delivery

/-- The invariant. The graph and `Register` meet: where one has stopped the other
goes on. -/
structure Sound (d : Delivery) : Prop where
  durable : Durable d.store d.history
  round : d.closed = false → d.round = d.store.lastInterpreted
  reach : d.closed = false → d.reach + d.inFlight = d.round
  handling : ∀ blocks, d.handling = .stored blocks ∨ d.handling = .unlocked blocks →
    d.closed = false → d.store.rounds[d.round]? = some blocks
  unlocked : ∀ blocks, d.handling = .unlocked blocks → ∃ ack, d.registration = .done ack
  absent : d.registration = .absent →
    d.passed = [] ∧ d.store.acknowledged ≤ d.interpreted ∧ d.interpreted ≤ d.round
  replaying : ∀ ack next latest, d.registration = .replaying ack next latest →
    ack + d.passed.length + 1 = next ∧ next ≤ latest + 1
  passes : ∀ ack, d.registeredAck = some ack → Passes ack d.passed d.store d.history

/-- A process that starts on what the last one has left. -/
theorem sound_loadState {store : RoundStore} {history : List Event} (h : Durable store history) :
    (loadState store history).Sound where
  durable := h
  round := fun _ => rfl
  reach := fun _ => rfl
  handling := fun blocks hblocks => by simp [loadState] at hblocks
  unlocked := fun blocks hblocks => by simp [loadState] at hblocks
  absent := fun _ => ⟨rfl, h.acknowledged, Nat.le_refl _⟩
  replaying := fun ack next latest hreg => by simp [loadState] at hreg
  passes := fun ack hack => by simp [loadState, registeredAck] at hack

theorem sound_start : start.Sound :=
  sound_loadState {
    stored := fun round hpos hle => absurd hpos (by dsimp only at hle; omega)
    bounded := fun round blocks h => by simp at h
    acknowledged := Nat.le_refl 0
    covered := fun round hpos hle => absurd hpos (by dsimp only at hle; omega)
    justified := fun round older h => by simp at h }

end Delivery

/-! ## One piece of work -/

variable {history : List Event} {store : RoundStore} {blocks : List BlockID} {round ack : Nat}
  {passed : List (Nat × List BlockID)}

/-- Storing the next round keeps the stored ones. -/
theorem Durable.setInterpreted (h : Durable store history) (blocks : List BlockID) :
    Durable { store with
      rounds := store.rounds.insert (store.lastInterpreted + 1) blocks
      lastInterpreted := store.lastInterpreted + 1 } history where
  stored := fun round hpos hle => by
    dsimp only at hle
    rw [lookup_insert]
    split
    · exact ⟨blocks, rfl⟩
    · exact h.stored round hpos (by omega)
  bounded := fun round blocks' hround => by
    rw [lookup_insert] at hround
    dsimp only
    split at hround
    · omega
    · exact Nat.le_succ_of_le (h.bounded round blocks' hround)
  acknowledged := Nat.le_succ_of_le h.acknowledged
  covered := h.covered
  justified := h.justified

/-- A round that is stored is not overwritten by the next one. -/
theorem Durable.lookup_insert_next (h : Durable store history) {blocks' : List BlockID}
    (hround : store.rounds[round]? = some blocks) :
    (store.rounds.insert (store.lastInterpreted + 1) blocks')[round]? = some blocks := by
  have hle := h.bounded round blocks hround
  rw [lookup_insert_of_ne _ (by omega), hround]

theorem Durable.pass (h : Durable store history) (round : Nat) (blocks : List BlockID) :
    Durable store (.passed round blocks :: history) := { h with
  covered := h.covered.cons _
  justified := fun round' older holder => by
    rcases suffix_cons_iff.mp holder with heq | holder
    · cases heq
    · exact h.justified round' older holder }

/-- A round is acknowledged up to which all rounds were passed on. Whether that is stored
does not matter. -/
theorem Durable.acknowledge {store : RoundStore} {history : List Event}
    (h : Durable store history) {round acknowledged : Nat} (hcovered : Covered round history)
    (hle : acknowledged ≤ store.lastInterpreted) (hack : Covered acknowledged history) :
    Durable { store with acknowledged } (.acknowledged round :: history) := { h with
  acknowledged := hle
  covered := hack.cons _
  justified := fun round' older holder => by
    rcases suffix_cons_iff.mp holder with heq | holder
    · cases heq
      exact hcovered
    · exact h.justified round' older holder }

theorem Passes.acknowledge {ack : Nat} {passed : List (Nat × List BlockID)} {store : RoundStore}
    {history : List Event} (h : Passes ack passed store history) (round acknowledged : Nat) :
    Passes ack passed { store with acknowledged } (.acknowledged round :: history) := { h with
  recorded := fun x hx => mem_cons_of_mem _ (h.recorded x hx)
  covered := h.covered.cons _ }

theorem Passes.setInterpreted (h : Passes ack passed store history)
    (hdurable : Durable store history) (blocks : List BlockID) :
    Passes ack passed { store with
      rounds := store.rounds.insert (store.lastInterpreted + 1) blocks
      lastInterpreted := store.lastInterpreted + 1 } history where
  rounds := h.rounds
  stored := fun x hx => hdurable.lookup_insert_next (h.stored x hx)
  recorded := h.recorded
  covered := h.covered
  bounded := Nat.le_succ_of_le h.bounded

/-- The next round is passed on. -/
theorem Passes.pass (h : Passes ack passed store history) (hround : round = ack + passed.length + 1)
    (hstored : store.rounds[round]? = some blocks) (hle : round ≤ store.lastInterpreted) :
    Passes ack (passed ++ [(round, blocks)]) store (.passed round blocks :: history) where
  rounds := by
    rw [map_append, h.rounds, length_append, length_singleton, range'_concat,
      Nat.one_mul, map_singleton, hround, Nat.add_right_comm]
  stored := fun x hx => by
    rcases mem_append.mp hx with hx | hx
    · exact h.stored x hx
    · rw [mem_singleton.mp hx]
      exact hstored
  recorded := fun x hx => by
    rcases mem_append.mp hx with hx | hx
    · exact mem_cons_of_mem _ (h.recorded x hx)
    · rw [mem_singleton.mp hx]
      exact mem_cons_self
  covered := h.covered.cons _
  bounded := by
    rw [length_append, length_singleton]
    omega

/-- All rounds up to one that was passed on were passed on. -/
theorem Passes.covered_of_mem (h : Passes ack passed store history) {x : Nat × List BlockID}
    (hx : x ∈ passed) :
    Covered x.1 history ∧ x.1 ≤ store.lastInterpreted := by
  have hmem : ∀ round, round ∈ passed.map Prod.fst ↔
      ack + 1 ≤ round ∧ round < ack + 1 + passed.length := fun round => by
    rw [h.rounds, mem_range'_1]
  have hround := (hmem x.1).mp (mem_map_of_mem hx)
  have hbound := h.bounded
  refine ⟨fun round hpos hle => ?_, by omega⟩
  by_cases hack : round ≤ ack
  · exact h.covered round hpos hack
  · obtain ⟨y, hy, rfl⟩ := mem_map.mp ((hmem round).mpr (by omega))
    exact ⟨y.2, h.recorded y hy⟩

namespace Delivery

variable {d : Delivery} {ack latest next : Nat} {blocks : List BlockID}

theorem Sound.crash (h : d.Sound) : d.crash.Sound := sound_loadState h.durable

/-- The graph hands over its next round. If the database is closed the round is not
stored, but then nothing is passed on any more. -/
theorem Sound.interpret (h : d.Sound) (blocks : List BlockID) (hidle : d.handling = .idle) :
    Sound { d.setInterpreted (d.round + 1) blocks with
      round := d.round + 1
      handling := .stored blocks } := by
  have hreach : d.closed = false → d.reach + 1 = d.round + 1 := fun hopen => by
    have hreach := h.reach hopen
    rw [inFlight, hidle] at hreach
    exact congrArg (· + 1) hreach
  have habsent : d.registration = .absent → d.passed = [] ∧
      d.store.acknowledged ≤ d.interpreted ∧ d.interpreted ≤ d.round + 1 := fun habsent =>
    have ⟨hpassed, hack, hround⟩ := h.absent habsent
    ⟨hpassed, hack, Nat.le_succ_of_le hround⟩
  cases hclosed : d.closed with
  | true =>
    have hopen : ∀ {p : Prop}, d.closed = false → p := fun hopen => by simp [hclosed] at hopen
    rw [setInterpreted, if_pos hclosed]
    exact { h with
      round := hopen
      reach := hreach
      handling := fun _ _ => hopen
      unlocked := fun _ hblocks => (nomatch hblocks)
      absent := habsent }
  | false =>
    rw [setInterpreted, if_neg (by simp [hclosed]), h.round hclosed]
    rw [h.round hclosed] at hreach habsent
    exact {
      durable := h.durable.setInterpreted blocks
      round := fun _ => rfl
      reach := hreach
      handling := fun blocks' hblocks _ => by
        obtain rfl : blocks = blocks' := by simpa using hblocks
        exact lookup_insert_self _ _ _
      unlocked := fun _ hblocks => (nomatch hblocks)
      absent := habsent
      replaying := h.replaying
      passes := fun ack hack => (h.passes ack hack).setInterpreted h.durable blocks }

/-- There is no callback, so the round is counted. -/
theorem Sound.count (h : d.Sound) (habsent : d.registration = .absent) :
    Sound { d with interpreted := d.round, handling := .idle } := { h with
  reach := fun _ => by simp only [Delivery.reach, inFlight, habsent, Nat.add_zero]
  handling := fun _ hblocks => by simp at hblocks
  unlocked := fun _ hblocks => (nomatch hblocks)
  absent := fun _ => by
    obtain ⟨hpassed, hack, hround⟩ := h.absent habsent
    exact ⟨hpassed, hack.trans hround, Nat.le_refl _⟩ }

/-- There is a callback, and `Register` is done. -/
theorem Sound.unlock (h : d.Sound) (hstored : d.handling = .stored blocks)
    (hdone : d.registration = .done ack) :
    Sound { d with handling := .unlocked blocks } := { h with
  reach := fun hopen => by
    have hreach := h.reach hopen
    rw [inFlight, hstored] at hreach
    exact hreach
  handling := fun blocks' hblocks hopen => by
    obtain rfl : blocks = blocks' := by simpa using hblocks
    exact h.handling blocks (.inl hstored) hopen
  unlocked := fun _ _ => ⟨ack, hdone⟩ }

/-- `blockmaniaCallback` passes its round on. -/
theorem Sound.call (h : d.Sound) (hunlocked : d.handling = .unlocked blocks)
    (hopen : d.closed = false) :
    Sound { d.pass d.round blocks with handling := .idle } := by
  obtain ⟨ack, hdone⟩ := h.unlocked blocks hunlocked
  have hreach := h.reach hopen
  rw [Delivery.reach, hdone, inFlight, hunlocked] at hreach
  exact {
    durable := h.durable.pass _ _
    round := h.round
    reach := fun _ => by
      simp only [Delivery.reach, inFlight, pass, hdone, length_append, length_singleton]
      omega
    handling := fun _ hblocks => by simp at hblocks
    unlocked := fun _ hblocks => (nomatch hblocks)
    absent := fun habsent => (nomatch hdone.symm.trans habsent)
    replaying := fun _ _ _ hreplaying => (nomatch hdone.symm.trans hreplaying)
    passes := fun ack' hack => by
      obtain rfl : ack = ack' := by simpa [registeredAck, pass, hdone] using hack
      exact (h.passes ack (by rw [registeredAck, hdone])).pass hreach.symm
        (h.handling blocks (.inr hunlocked) hopen) (h.round hopen).le }

/-- `Register` starts with the round behind the acknowledged one. -/
theorem Sound.register (h : d.Sound) (habsent : d.registration = .absent) (hopen : d.closed = false) :
    Sound { d with
      registration := .replaying d.store.acknowledged (d.store.acknowledged + 1) d.interpreted } := by
  obtain ⟨hpassed, hack, -⟩ := h.absent habsent
  have hreach := h.reach hopen
  rw [Delivery.reach, habsent] at hreach
  exact { h with
    reach := fun _ => hreach
    unlocked := fun blocks hblocks => by
      obtain ⟨ack, hdone⟩ := h.unlocked blocks hblocks
      exact nomatch habsent.symm.trans hdone
    absent := fun hreg => (nomatch hreg)
    replaying := fun ack next latest hreg => by
      cases hreg
      simp only [hpassed, length_nil, Nat.add_zero, true_and]
      omega
    passes := fun ack hack => by
      cases hack
      simp only [hpassed]
      exact ⟨rfl, by simp, by simp, h.durable.covered, h.durable.acknowledged⟩ }

/-- `Register` passes on one more round. -/
theorem Sound.replay (h : d.Sound) (hreg : d.registration = .replaying ack next latest)
    (hle : next ≤ latest) (hblocks : d.getInterpreted next = some blocks) :
    Sound { d.pass next blocks with registration := .replaying ack (next + 1) latest } := by
  obtain ⟨hnext, -⟩ := h.replaying ack next latest hreg
  have hstored : d.store.rounds[next]? = some blocks := by
    unfold getInterpreted at hblocks
    split at hblocks
    · cases hblocks
    · exact hblocks
  exact { h with
    durable := h.durable.pass _ _
    reach := fun hopen => by
      have hreach := h.reach hopen
      rw [Delivery.reach, hreg] at hreach
      exact hreach
    unlocked := fun blocks' hblocks' => by
      obtain ⟨ack', hdone⟩ := h.unlocked blocks' hblocks'
      exact nomatch hreg.symm.trans hdone
    absent := fun habsent => (nomatch habsent)
    replaying := fun ack' next' latest' hreg' => by
      cases hreg'
      simp only [pass, length_append, length_singleton]
      omega
    passes := fun ack' hack => by
      cases hack
      exact (h.passes ack (by rw [registeredAck, hreg])).pass hnext.symm hstored
        (h.durable.bounded next blocks hstored) }

/-- `Register` has passed on all rounds that were counted. -/
theorem Sound.release (h : d.Sound) (hreg : d.registration = .replaying ack next latest)
    (hgt : ¬ next ≤ latest) :
    Sound { d with registration := .done ack } := by
  obtain ⟨hnext, hle⟩ := h.replaying ack next latest hreg
  exact { h with
    reach := fun hopen => by
      have hreach := h.reach hopen
      rw [Delivery.reach, hreg] at hreach
      rw [← hreach]
      simp only [Delivery.reach, inFlight]
      omega
    unlocked := fun _ _ => ⟨ack, rfl⟩
    absent := fun habsent => (nomatch habsent)
    replaying := fun _ _ _ hreg' => (nomatch hreg')
    passes := fun ack' hack => by
      cases hack
      exact h.passes ack (by rw [registeredAck, hreg]) }

theorem registration_of_registeredAck (h : d.registeredAck = none) :
    d.registration = .absent := by
  unfold registeredAck at h
  split at h
  · assumption
  · cases h
  · cases h

variable {x : Nat × List BlockID}

/-- What was passed on was passed on since the callback was registered. -/
theorem Sound.passes_of_mem (h : d.Sound) (hx : x ∈ d.passed) :
    ∃ ack, Passes ack d.passed d.store d.history := by
  cases hack : d.registeredAck with
  | some ack => exact ⟨ack, h.passes ack hack⟩
  | none =>
    rw [(h.absent (registration_of_registeredAck hack)).1] at hx
    cases hx

/-- The application acknowledges a round that was passed on. -/
theorem Sound.acknowledge {d : Delivery} (h : d.Sound) (hx : x ∈ d.passed) :
    Sound { d.setDeliverAcknowledged x.1 with
      acks := d.acks ++ [x.1]
      history := .acknowledged x.1 :: d.history } := by
  obtain ⟨_, hpasses⟩ := h.passes_of_mem hx
  obtain ⟨hcovered, hle⟩ := hpasses.covered_of_mem hx
  have habsent : ∀ {p : Prop}, d.registration = .absent → p := fun habsent => by
    rw [(h.absent habsent).1] at hx
    cases hx
  cases hclosed : d.closed with
  | true =>
    rw [setDeliverAcknowledged, if_pos hclosed]
    exact { h with
      durable := h.durable.acknowledge hcovered h.durable.acknowledged h.durable.covered
      absent := habsent
      passes := fun ack hack => (h.passes ack hack).acknowledge _ _ }
  | false =>
    rw [setDeliverAcknowledged, if_neg (by simp [hclosed])]
    exact { h with
      durable := h.durable.acknowledge hcovered hle hcovered
      absent := habsent
      passes := fun ack hack => (h.passes ack hack).acknowledge _ _ }

/-- Every piece of work keeps the invariant. -/
theorem Sound.step {d : Delivery} (h : d.Sound) (duty : Duty) : (d.step duty).Sound := by
  cases duty with
  | interpret blocks =>
    rw [Delivery.step]
    split
    · rename_i hidle
      split
      · exact h.interpret blocks hidle
      · exact h
    · exact h
  | check =>
    rw [Delivery.step]
    split
    · rename_i blocks hstored
      split
      · exact h
      · rename_i hfree
        split
        · exact h.count ‹_›
        · cases hreg : d.registration with
          | absent => contradiction
          | replaying ack next latest => simp [locked, hreg] at hfree
          | done ack =>
            rw [← hreg]
            exact h.unlock hstored hreg
    · exact h
  | call =>
    rw [Delivery.step]
    split
    · rename_i blocks hunlocked
      split
      · exact h.crash
      · exact h.call hunlocked (by simpa using ‹¬ d.closed = true›)
    · exact h
  | register =>
    rw [Delivery.step]
    split
    · exact h
    · split
      · exact h.crash
      · rename_i hfresh
        obtain ⟨habsent, hopen⟩ := not_or.mp hfresh
        exact h.register (not_not.mp habsent) (by simpa using hopen)
  | replay =>
    rw [Delivery.step]
    split
    · rename_i ack next latest hreg
      split
      · split
        · exact h.replay hreg ‹_› ‹_›
        · exact h.crash
      · exact h.release hreg ‹_›
    · exact h
  | acknowledge round =>
    rw [Delivery.step]
    split
    · rename_i hcond
      obtain ⟨⟨x, hx, rfl⟩, -⟩ := hcond
      exact h.acknowledge hx
    · exact h
  | close =>
    have hopen : ∀ {p : Prop}, true = false → p := fun hopen => (nomatch hopen)
    exact ⟨h.durable, hopen, hopen, fun _ _ => hopen, h.unlocked, h.absent, h.replaying, h.passes⟩
  | crash => exact h.crash

theorem Sound.run (h : d.Sound) (duties : List Duty) : (d.run duties).Sound := by
  induction duties generalizing d with
  | nil => exact h
  | cons duty duties ih => exact ih (h.step duty)

end Delivery

end Blockmania.Broadcast
