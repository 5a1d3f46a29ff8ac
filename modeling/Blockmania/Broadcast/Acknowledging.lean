/-
# Acknowledging rounds in any order

The database keeps one acknowledged round, and every call of `Acknowledge` overwrites it.
`Register` passes on what comes behind it. An application that acknowledges its rounds in
the order of their delivery gets back the rounds it has not acknowledged; one that does
not loses those that lie before the last one it has acknowledged.
-/

import Blockmania.Broadcast.Delivery

namespace Blockmania.Broadcast

open Math List

/-- The event passes the round on. -/
def Event.passes (round : Nat) : Event → Bool
  | .passed round' _ => round' = round
  | .acknowledged _ => false

namespace Delivery

/-- One piece of work, where any round may be acknowledged that was ever passed on. -/
def stepAny (d : Delivery) : Duty → Delivery
  | .acknowledge round =>
    if d.history.any (Event.passes round) then
      { d.setDeliverAcknowledged round with
        acks := d.acks ++ [round]
        history := .acknowledged round :: d.history }
    else d
  | duty => d.step duty

def runAny (d : Delivery) : List Duty → Delivery := foldl stepAny d

/-- The process dies and is started again, and `Register` is called and passes on what it
finds. The loop takes at most one step for each round and one to end. -/
def restart (d : Delivery) : Delivery :=
  d.crash.run (.register :: replicate (d.store.lastInterpreted + 1) .replay)

/-- The invariant. All rounds up to the last one are stored. It does not depend on what
was acknowledged. -/
structure Filed (d : Delivery) : Prop where
  stored : ∀ round, 1 ≤ round → round ≤ d.store.lastInterpreted →
    ∃ blocks, d.store.rounds[round]? = some blocks
  round : d.closed = false → d.round = d.store.lastInterpreted

theorem filed_start : start.Filed where
  stored := fun _ hpos hle => absurd hpos (Nat.not_le.mpr (Nat.lt_succ_of_le hle))
  round := fun _ => rfl

variable {d : Delivery}

theorem Filed.crash (h : d.Filed) : d.crash.Filed := ⟨h.stored, fun _ => rfl⟩

/-- The store is the same, and the process has not lost a round. -/
theorem Filed.of_same {d' : Delivery} (h : d.Filed) (hstore : d'.store = d.store)
    (hclosed : d'.closed = false → d.closed = false) (hround : d'.round = d.round) : d'.Filed where
  stored := by
    rw [hstore]
    exact h.stored
  round := fun hopen => by
    rw [hstore, hround]
    exact h.round (hclosed hopen)

theorem Filed.interpret (h : d.Filed) (blocks : List BlockID) :
    Filed { d.setInterpreted (d.round + 1) blocks with
      round := d.round + 1
      handling := .stored blocks } := by
  cases hclosed : d.closed with
  | true =>
    rw [setInterpreted, if_pos hclosed]
    refine ⟨h.stored, fun hopen => ?_⟩
    dsimp only at hopen
    rw [hclosed] at hopen
    cases hopen
  | false =>
    rw [setInterpreted, if_neg (by simp [hclosed]), h.round hclosed]
    refine ⟨fun round hpos hle => ?_, fun _ => rfl⟩
    dsimp only at hle ⊢
    rw [FiniteMap.lookup_insert]
    split
    · exact ⟨blocks, rfl⟩
    · exact h.stored round hpos (by omega)

theorem Filed.acknowledge (h : d.Filed) (round : Nat) (acks : List Nat) (history : List Event) :
    Filed { d.setDeliverAcknowledged round with acks, history } := by
  unfold setDeliverAcknowledged
  split
  · exact ⟨h.stored, h.round⟩
  · exact ⟨h.stored, h.round⟩

theorem Filed.step (h : d.Filed) (duty : Duty) : (d.stepAny duty).Filed := by
  cases duty with
  | interpret blocks =>
    rw [stepAny, Delivery.step]
    split
    · split
      · exact h.interpret blocks
      · exact h
    · exact h
    · rintro _ ⟨⟩
  | check =>
    rw [stepAny, Delivery.step]
    split
    · split
      · exact h
      · split
        · exact h.of_same rfl id rfl
        · exact h.of_same rfl id rfl
    · exact h
    · rintro _ ⟨⟩
  | call =>
    rw [stepAny, Delivery.step]
    split
    · split
      · exact h.crash
      · exact h.of_same rfl id rfl
    · exact h
    · rintro _ ⟨⟩
  | register =>
    rw [stepAny, Delivery.step]
    split
    · exact h
    · split
      · exact h.crash
      · exact h.of_same rfl id rfl
    · rintro _ ⟨⟩
  | replay =>
    rw [stepAny, Delivery.step]
    split
    · split
      · split
        · exact h.of_same rfl id rfl
        · exact h.crash
      · exact h.of_same rfl id rfl
    · exact h
    · rintro _ ⟨⟩
  | acknowledge round =>
    rw [stepAny]
    split
    · exact h.acknowledge round _ _
    · exact h
  | close => exact h.of_same rfl (fun hopen => by cases hopen) rfl
  | crash => exact h.crash

theorem Filed.run (h : d.Filed) (duties : List Duty) : (d.runAny duties).Filed := by
  induction duties generalizing d with
  | nil => exact h
  | cons duty duties ih => exact ih (h.step duty)

/-- Once `Register` is done its loop takes no step. -/
theorem run_replay_of_done {ack : Nat} (hdone : d.registration = .done ack) (fuel : Nat) :
    d.run (replicate fuel .replay) = d := by
  induction fuel with
  | zero => rfl
  | succ fuel ih =>
    have hstep : d.step .replay = d := by simp only [step, hdone]
    rw [replicate_succ, run, foldl_cons, hstep]
    exact ih

/-- `Register` passes on all rounds from `next` to `latest` if they are stored. -/
theorem run_replay {ack latest : Nat} (fuel : Nat) : ∀ {d : Delivery} {next : Nat},
    d.registration = .replaying ack next latest → d.closed = false → latest + 1 - next < fuel →
    (∀ round, next ≤ round → round ≤ latest → ∃ blocks, d.store.rounds[round]? = some blocks) →
    ∃ passed, (d.run (replicate fuel .replay)).passed = d.passed ++ passed ∧
      (d.run (replicate fuel .replay)).registration = .done ack ∧
      passed.map Prod.fst = range' next (latest + 1 - next) ∧
      ∀ x ∈ passed, d.store.rounds[x.1]? = some x.2 := by
  induction fuel with
  | zero => exact fun _ _ hfuel => absurd hfuel (Nat.not_lt_zero _)
  | succ fuel ih =>
    intro d next hreg hopen hfuel hstored
    rw [replicate_succ, run, foldl_cons]
    by_cases hle : next ≤ latest
    · obtain ⟨blocks, hblocks⟩ := hstored next (Nat.le_refl _) hle
      have hget : d.getInterpreted next = some blocks := by
        rw [getInterpreted, if_neg (by simp [hopen])]
        exact hblocks
      have hstep : d.step .replay =
          { d.pass next blocks with registration := .replaying ack (next + 1) latest } := by
        simp only [step, hreg, if_pos hle, hget]
      obtain ⟨passed, hpassed, hdone, hrounds, hall⟩ := ih
        (d := { d.pass next blocks with registration := .replaying ack (next + 1) latest })
        rfl hopen (by omega) fun round hge => hstored round (Nat.le_of_succ_le hge)
      rw [hstep]
      refine ⟨(next, blocks) :: passed, ?_, hdone, ?_, forall_mem_cons.mpr ⟨hblocks, hall⟩⟩
      · change (Delivery.run _ _).passed = _
        rw [hpassed, append_cons]
        rfl
      · rw [map_cons, hrounds, show latest + 1 - next = latest + 1 - (next + 1) + 1 by omega,
          range'_succ]
    · have hstep : d.step .replay = { d with registration := .done ack } := by
        simp only [step, hreg, if_neg hle]
      rw [hstep]
      have hrest := run_replay_of_done (d := { d with registration := .done ack }) rfl fuel
      refine ⟨[], ?_, ?_, ?_, fun x hx => (by cases hx)⟩
      · change (Delivery.run _ _).passed = _
        rw [hrest, append_nil]
      · change (Delivery.run _ _).registration = _
        rw [hrest]
      · rw [show latest + 1 - next = 0 by omega]
        rfl

/-- After a restart the rounds behind the acknowledged one are passed on. -/
theorem Filed.restart (h : d.Filed) :
    d.restart.registration = .done d.store.acknowledged ∧
    ∀ round, (∃ blocks, (round, blocks) ∈ d.restart.passed) ↔
      d.store.acknowledged < round ∧ round ≤ d.store.lastInterpreted := by
  have hregister : d.crash.step .register =
      { d.crash with
        registration :=
          .replaying d.store.acknowledged (d.store.acknowledged + 1) d.store.lastInterpreted } := rfl
  obtain ⟨passed, hpassed, hdone, hrounds, -⟩ := run_replay (d.store.lastInterpreted + 1)
    (d := { d.crash with
      registration :=
        .replaying d.store.acknowledged (d.store.acknowledged + 1) d.store.lastInterpreted })
    rfl rfl (by omega)
    fun round hge hle => h.stored round (Nat.le_trans (Nat.le_add_left 1 _) hge) hle
  rw [Delivery.restart, Delivery.run, foldl_cons, hregister]
  refine ⟨hdone, fun round => ?_⟩
  change (∃ blocks, (round, blocks) ∈ (Delivery.run _ _).passed) ↔ _
  rw [hpassed]
  change (∃ blocks, (round, blocks) ∈ [] ++ passed) ↔ _
  rw [nil_append]
  have hmem : (∃ blocks, (round, blocks) ∈ passed) ↔ round ∈ passed.map Prod.fst := by simp
  rw [hmem, hrounds, mem_range'_1]
  omega

/-- All rounds that were never acknowledged are passed on after a restart, if and only
if all rounds up to the acknowledged one were acknowledged. -/
theorem unacknowledged_replayed_iff (duties : List Duty) : let d := start.runAny duties
    (∀ round, 1 ≤ round → round ≤ d.store.lastInterpreted → .acknowledged round ∉ d.history →
        ∃ blocks, (round, blocks) ∈ d.restart.passed) ↔
      ∀ round, 1 ≤ round → round ≤ d.store.lastInterpreted → round ≤ d.store.acknowledged →
        .acknowledged round ∈ d.history := by
  intro d
  have h : d.Filed := filed_start.run duties
  constructor
  · intro hall round hpos hlast hack
    by_contra hnever
    obtain ⟨hlt, -⟩ := (h.restart.2 round).mp (hall round hpos hlast hnever)
    exact absurd hack (Nat.not_le.mpr hlt)
  · intro hall round hpos hlast hnever
    refine (h.restart.2 round).mpr ⟨?_, hlast⟩
    by_contra hle
    exact hnever (hall round hpos hlast (Nat.not_lt.mp hle))

/-- The second of two rounds is acknowledged, and the first one is lost. -/
theorem unacknowledged_lost :
    let d := start.runAny [.interpret [], .check, .interpret [], .check, .register, .replay, .replay,
      .replay, .acknowledge 2]
    d.store.lastInterpreted = 2 ∧ d.passed.map Prod.fst = [1, 2] ∧
      .acknowledged 1 ∉ d.history ∧ d.restart.registration = .done 2 ∧ d.restart.passed = [] := by
  decide +kernel

end Delivery

end Blockmania.Broadcast
