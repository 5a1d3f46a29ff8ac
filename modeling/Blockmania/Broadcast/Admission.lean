/-
# Waiting for room

A caller of `AddTransaction` leaves its loop when there is room for the transaction.
The size that is refused at once and the size that fits into an empty block are not the
same, and a transaction in between waits for ever.

How many transactions a block holds is bounded by a limit, which a caller compares with
the count before it takes the lock under which it writes. Callers that have looked and
have not written yet are not counted, so the bound holds as long as each caller leaves
room for them.
-/

import Blockmania.Broadcast.Pool

namespace Blockmania.Broadcast

open Math FiniteMap

variable {β : Type}

/-- Whether a call has found the block below its limit and has not written yet. -/
def Call.passes (call : Call) : Bool :=
  match call.phase with
  | .writing _ => true
  | _ => false

namespace Pool

/-- The call has written its transaction and returned. -/
def Returned (p p' : Pool β) (caller : Nat) (txdata : List UInt8) (fee : UInt64) : Prop :=
  p'.calls[caller]? = none ∧ p'.accepted = p.accepted ++ [(txdata, fee.toNat)]

variable {caller signal : Nat} {fee : UInt64} {p : Pool β} {txdata : List UInt8}

/-- A caller that finds the block below its limit goes on to write. -/
theorem step_look_of_ne (hcall : p.calls[caller]? = some ⟨txdata, fee, .looking⟩)
    (hroom : (p.txCount : Int) ≠ p.txCountLimit) :
    p.step (.look caller) =
      .ok { p with calls := p.calls.insert caller ⟨txdata, fee, .writing p.signal⟩ } := by
  simp only [step, hcall, if_neg hroom]

theorem step_write_of_full (hcall : p.calls[caller]? = some ⟨txdata, fee, .writing signal⟩)
    (hfull : p.txIdx + txdata.length + 100 > p.txSizeLimit) :
    p.step (.write caller) =
      .ok { p with calls := p.calls.insert caller ⟨txdata, fee, .waiting signal⟩ } := by
  simp only [step, hcall, if_pos hfull]

theorem step_write_of_room (hcall : p.calls[caller]? = some ⟨txdata, fee, .writing signal⟩)
    (hroom : ¬ p.txIdx + txdata.length + 100 > p.txSizeLimit) :
    p.step (.write caller) = do
      let p ← { p with calls := p.calls.erase caller }.append txdata fee
      return { p with accepted := p.accepted ++ [(txdata, fee.toNat)] } := by
  simp only [step, hcall, if_neg hroom]

/-- A retry on an empty buffer succeeds if and only if the transaction leaves a hundred
bytes of it. -/
theorem retry_returns_iff (p : Pool β) (caller : Nat) (txdata : List UInt8) (fee : UInt64)
    (hcall : p.calls[caller]? = some ⟨txdata, fee, .looking⟩)
    (hlength : p.txData.length = p.txSizeLimit) (hcount : p.txCount = 0) (hidx : p.txIdx = 0)
    (hlimit : 1 ≤ p.txCountLimit) :
    (∃ p', p.run [.look caller, .write caller] = .ok p' ∧ p.Returned p' caller txdata fee) ↔
      txdata.length + 100 ≤ p.txSizeLimit := by
  have hlook := step_look_of_ne hcall (by omega)
  have hwriting : (p.calls.insert caller ⟨txdata, fee, .writing p.signal⟩)[caller]? =
      some ⟨txdata, fee, .writing p.signal⟩ := lookup_insert_self _ _ _
  have hrun : p.run [.look caller, .write caller] =
      ({ p with calls := p.calls.insert caller ⟨txdata, fee, .writing p.signal⟩ } : Pool β).step
        (.write caller) := by
    simp only [run, hlook, bind, Except.bind]
    cases Pool.step _ (Work.write caller) <;> rfl
  rw [hrun]
  by_cases hfits : txdata.length + 100 ≤ p.txSizeLimit
  · refine ⟨fun _ => hfits, fun _ => ?_⟩
    rw [step_write_of_room hwriting (by dsimp only; omega)]
    obtain ⟨buf, happend, -, -⟩ := @append_of_room β
      { p with calls := (p.calls.insert caller ⟨txdata, fee, .writing p.signal⟩).erase caller }
      txdata fee hlength (by dsimp only; omega)
    refine ⟨_, bind_eq_ok.mpr ⟨_, happend, rfl⟩, ?_, rfl⟩
    dsimp only
    rw [lookup_erase, if_pos rfl]
  · refine ⟨?_, fun h => absurd h hfits⟩
    rintro ⟨p', hp', hnone, -⟩
    rw [step_write_of_full hwriting (by dsimp only; omega)] at hp'
    cases hp'
    dsimp only at hnone
    rw [lookup_insert_self] at hnone
    cases hnone

/-- A transaction of a hundred bytes fits into a block of two hundred. -/
theorem retry_returns_hundred :
    let p : Pool Unit := { start 1 0 200 5 with
      calls := (∅ : FiniteMap Nat Call).insert 1 ⟨List.replicate 100 0, 3, .looking⟩ }
    (start 1 0 200 5).step (.call 1 (List.replicate 100 0) 3) = .ok p ∧
    ∃ p', p.run [.look 1, .write 1] = .ok p' ∧ p.Returned p' 1 (List.replicate 100 0) 3 := by
  intro p
  exact ⟨rfl, (retry_returns_iff p 1 (List.replicate 100 0) 3 (lookup_insert_self _ _ _)
    List.length_replicate rfl rfl (by decide)).mpr (by decide)⟩

/-- A transaction of a hundred and fifty bytes does not, though it is not refused. -/
theorem retry_waits_hundred_fifty :
    ∃ p : Pool Unit, (start 1 0 200 5).step (.call 1 (List.replicate 150 0) 3) = .ok p ∧
      p.calls[1]? = some ⟨List.replicate 150 0, 3, .looking⟩ ∧
      p.txCount = 0 ∧ p.txIdx = 0 ∧ 1 ≤ p.txCountLimit ∧
      ∃ p', p.run [.look 1, .write 1] = .ok p' ∧
        p'.calls[1]? = some ⟨List.replicate 150 0, 3, .waiting 0⟩ ∧ p'.accepted = [] := by
  have hcheck : succeeds ((start 1 0 200 5 : Pool Unit).step (.call 1 (List.replicate 150 0) 3))
      (fun p => p.calls[1]? = some ⟨List.replicate 150 0, 3, .looking⟩ ∧
        p.txCount = 0 ∧ p.txIdx = 0 ∧ 1 ≤ p.txCountLimit ∧
        succeeds (p.run [.look 1, .write 1]) fun p' =>
          p'.calls[1]? = some ⟨List.replicate 150 0, 3, .waiting 0⟩ ∧ p'.accepted = []) = true := by
    decide +kernel
  obtain ⟨p, hcall, htest⟩ := exists_of_succeeds hcheck
  obtain ⟨hlooking, hcount, hidx, hlimit, hrun⟩ := of_decide_eq_true htest
  obtain ⟨p', hp', htest'⟩ := exists_of_succeeds hrun
  exact ⟨p, hcall, hlooking, hcount, hidx, hlimit, p', hp', of_decide_eq_true htest'⟩

/-- A call leaves only by writing. -/
theorem pending_of_step {p' : Pool β} {call : Call} {work : Work β}
    (hcall : p.calls[caller]? = some call) (hsize : p.txSizeLimit < call.txdata.length + 100)
    (hstep : p.step work = .ok p') :
    p'.txSizeLimit = p.txSizeLimit ∧
      ∃ phase, p'.calls[caller]? = some ⟨call.txdata, call.fee, phase⟩ := by
  -- where a caller moves to another phase, it is the given one or another one
  have hmove : ∀ (other : Nat) (txdata : List UInt8) (fee : UInt64) (phase phase' : Phase),
      p.calls[other]? = some ⟨txdata, fee, phase⟩ →
      ∃ phase'', (p.calls.insert other ⟨txdata, fee, phase'⟩)[caller]? =
        some ⟨call.txdata, call.fee, phase''⟩ := by
    intro other txdata fee phase phase' hother
    rw [lookup_insert]
    split
    · rename_i heq
      subst heq
      rw [hcall] at hother
      cases hother
      exact ⟨phase', rfl⟩
    · exact ⟨call.phase, hcall⟩
  cases work with
  | call other txdata fee =>
    rw [step] at hstep
    split at hstep
    · cases hstep
      exact ⟨rfl, call.phase, hcall⟩
    · split at hstep
      · cases hstep
        exact ⟨rfl, call.phase, hcall⟩
      · rename_i hnew
        cases hstep
        refine ⟨rfl, call.phase, ?_⟩
        have hne : other ≠ caller := by
          rintro rfl
          rw [hcall] at hnew
          exact hnew rfl
        exact (lookup_insert_of_ne _ hne _).trans hcall
  | look other =>
    rw [step] at hstep
    split at hstep
    · rename_i txdata fee hother
      cases hstep
      exact ⟨rfl, hmove other txdata fee _ _ hother⟩
    · cases hstep
      exact ⟨rfl, call.phase, hcall⟩
  | write other =>
    rw [step] at hstep
    split at hstep
    · rename_i txdata fee signal hother
      split at hstep
      · cases hstep
        exact ⟨rfl, hmove other txdata fee _ _ hother⟩
      · -- there was room, so that it is another caller
        rename_i hroom
        have hne : other ≠ caller := by
          rintro rfl
          rw [hcall] at hother
          cases hother
          dsimp only at hsize
          omega
        obtain ⟨p', happend, hstep⟩ := bind_eq_ok.mp hstep
        obtain ⟨txData, rfl⟩ := of_append happend
        cases hstep
        refine ⟨rfl, call.phase, ?_⟩
        dsimp only
        rw [lookup_erase, if_neg hne]
        exact hcall
    · cases hstep
      exact ⟨rfl, call.phase, hcall⟩
  | wake other =>
    rw [step] at hstep
    split at hstep
    · rename_i txdata fee signal hother
      split at hstep
      · cases hstep
        exact ⟨rfl, hmove other txdata fee _ _ hother⟩
      · cases hstep
        exact ⟨rfl, call.phase, hcall⟩
    · cases hstep
      exact ⟨rfl, call.phase, hcall⟩
  | limit rate =>
    cases hstep
    exact ⟨rfl, call.phase, hcall⟩
  | generate previous references =>
    cases hstep
    exact ⟨rfl, call.phase, hcall⟩
  | announce =>
    cases hstep
    exact ⟨rfl, call.phase, hcall⟩

/-- A transaction that does not fit into an empty block waits for ever, however many
blocks are cut. -/
theorem pending_of_run (works : List (Work β)) {p' : Pool β} {phase : Phase}
    (hcall : p.calls[caller]? = some ⟨txdata, fee, phase⟩)
    (hsize : p.txSizeLimit < txdata.length + 100) (hrun : p.run works = .ok p') :
    ∃ phase', p'.calls[caller]? = some ⟨txdata, fee, phase'⟩ := by
  induction works generalizing p p' phase with
  | nil =>
    cases hrun
    exact ⟨phase, hcall⟩
  | cons work works ih =>
    obtain ⟨p₁, hstep, hrun⟩ := bind_eq_ok.mp hrun
    obtain ⟨hlimit, phase₁, hcall₁⟩ := pending_of_step hcall hsize hstep
    exact ih hcall₁ (by rw [hlimit]; exact hsize) hrun

/-- A hundred and fifty bytes wait for more than a block of two hundred. -/
theorem pending_of_run_hundred_fifty : ∃ p p' : Pool Unit, p.txSizeLimit = 200 ∧
    p.run [.generate none [], .announce] = .ok p' ∧
      ∃ phase, p'.calls[1]? = some ⟨List.replicate 150 0, 3, phase⟩ := by
  let p : Pool Unit := { start 1 0 200 5 with
    calls := (∅ : FiniteMap Nat Call).insert 1 ⟨List.replicate 150 0, 3, .waiting 0⟩ }
  exact ⟨p, _, rfl, rfl, pending_of_run [.generate none [], .announce] (lookup_insert_self ∅ 1 _)
    (by simp [p, start]) (rfl : p.run _ = _)⟩

end Pool

/-! ## The limit -/

/-- The callers that have found the block below its limit and have not written yet. -/
def passing (calls : FiniteMap Nat Call) : Finset Nat :=
  calls.domain.filter fun caller => calls[caller]?.any Call.passes

variable {caller : Nat} {calls : FiniteMap Nat Call}

theorem mem_passing :
    caller ∈ passing calls ↔ ∃ call, calls[caller]? = some call ∧ call.passes = true := by
  unfold passing
  rw [Finset.mem_filter, mem_domain]
  constructor
  · rintro ⟨hsome, hany⟩
    obtain ⟨call, hcall⟩ := Option.isSome_iff_exists.mp hsome
    rw [hcall] at hany
    exact ⟨call, hcall, hany⟩
  · rintro ⟨call, hcall, hpasses⟩
    rw [hcall]
    exact ⟨rfl, hpasses⟩

/-- A caller that moves to another phase may be one more. -/
theorem card_passing_insert_le (calls : FiniteMap Nat Call) (caller : Nat) (call : Call) :
    (passing (calls.insert caller call)).card ≤
      (passing calls).card + if call.passes then 1 else 0 := by
  have hsub : ∀ other ∈ passing (calls.insert caller call),
      other = caller ∧ call.passes = true ∨ other ∈ passing calls := by
    intro other hother
    obtain ⟨call', hcall', hpasses⟩ := mem_passing.mp hother
    rw [lookup_insert] at hcall'
    split at hcall'
    · rename_i heq
      cases hcall'
      exact .inl ⟨heq.symm, hpasses⟩
    · exact .inr (mem_passing.mpr ⟨call', hcall', hpasses⟩)
  split
  · refine le_trans (Finset.card_le_card ?_) (Finset.card_insert_le caller (passing calls))
    intro other hother
    rw [Finset.mem_insert]
    exact (hsub other hother).imp And.left id
  · rename_i hpasses
    rw [Nat.add_zero]
    refine Finset.card_le_card fun other hother => ?_
    exact (hsub other hother).resolve_left fun h => hpasses h.2

/-- A caller that has written is one less. -/
theorem card_passing_erase {call : Call} (hcall : calls[caller]? = some call)
    (hpasses : call.passes = true) :
    (passing (calls.erase caller)).card + 1 = (passing calls).card := by
  have herase : passing (calls.erase caller) = (passing calls).erase caller := by
    ext other
    rw [Finset.mem_erase, mem_passing, mem_passing, lookup_erase]
    split
    · rename_i heq
      subst heq
      simp
    · rename_i hne
      exact ⟨fun h => ⟨Ne.symm hne, h⟩, And.right⟩
  rw [herase]
  exact Finset.card_erase_add_one (mem_passing.mpr ⟨call, hcall, hpasses⟩)

/-- A pool with the largest limit that was in force since the last block was cut, and
the largest limit that was in force while each of the blocks was filled. -/
structure Watched (β : Type) where
  pool : Pool β
  peak : Int
  peaks : List Int

namespace Watched

def start (p : Pool β) : Watched β := ⟨p, p.txCountLimit, []⟩

def step (w : Watched β) (work : Work β) : Except Fault (Watched β) := do
  let p ← w.pool.step work
  match work with
  | .limit rate => return ⟨p, max w.peak rate, w.peaks⟩
  | .generate _ _ => return ⟨p, p.txCountLimit, w.peaks ++ [w.peak]⟩
  | _ => return { w with pool := p }

def run (w : Watched β) : List (Work β) → Except Fault (Watched β)
  | [] => .ok w
  | work :: works => do
    let w ← w.step work
    run w works

end Watched

/-- The block holds at most the given number of transactions. -/
def Block.CountAtMost (block : Block β) (limit : Int) : Prop :=
  ∀ transactions, block.transactions = some transactions → (transactions.count : Int) ≤ limit

instance (block : Block β) (limit : Int) : Decidable (block.CountAtMost limit) :=
  match h : block.transactions with
  | none => isTrue fun _ ht => by rw [h] at ht; cases ht
  | some t =>
    if hle : (t.count : Int) ≤ limit then
      isTrue fun t' ht' => by rw [h] at ht'; cases ht'; exact hle
    else isFalse fun hall => hle (hall t h)

/-- What a piece of work has to heed. A caller looks while the block is full, or while
there is room for itself and for all that have looked before it. A block is cut when no
more callers than may write into the next one have looked. -/
def Pool.Heeds (p : Pool β) : Work β → Prop
  | .look _ => p.txCount = p.txCountLimit ∨ p.txCount + (passing p.calls).card < p.txCountLimit
  | .generate _ _ => (passing p.calls).card ≤ p.txCountLimit
  | _ => True

instance (p : Pool β) (work : Work β) : Decidable (p.Heeds work) :=
  match work with
  | .look _ => inferInstanceAs (Decidable (_ ∨ _))
  | .generate _ _ => inferInstanceAs (Decidable (_ ≤ _))
  | .call _ _ _ => isTrue trivial
  | .write _ => isTrue trivial
  | .wake _ => isTrue trivial
  | .limit _ => isTrue trivial
  | .announce => isTrue trivial

/-- All pieces of work of a run heed it. -/
def Pool.HeedsAll (p : Pool β) : List (Work β) → Prop
  | [] => True
  | work :: works => p.Heeds work ∧
    match p.step work with
    | .ok p' => Pool.HeedsAll p' works
    | .error _ => True

instance Pool.decidableHeedsAll : ∀ (works : List (Work β)) (p : Pool β),
    Decidable (p.HeedsAll works)
  | [], _ => isTrue trivial
  | work :: works, p =>
    have : Decidable (match p.step work with
        | .ok p' => Pool.HeedsAll p' works
        | .error _ => True) :=
      match p.step work with
      | .ok p' => decidableHeedsAll works p'
      | .error _ => isTrue trivial
    inferInstanceAs (Decidable (_ ∧ _))

namespace Watched

/-- The invariant. There is room for all callers that have looked. -/
structure Bounded (w : Watched β) : Prop where
  limit : w.pool.txCountLimit ≤ w.peak
  room : (w.pool.txCount + (passing w.pool.calls).card : Int) ≤ max w.peak 0
  blocks : List.Forall₂ Block.CountAtMost w.pool.blocks w.peaks

theorem bounded_start (node round txSizeLimit : Nat) (txCountLimit : Int) :
    (start (Pool.start node round txSizeLimit txCountLimit : Pool β)).Bounded where
  limit := le_refl _
  room := le_max_right _ _
  blocks := .nil

variable {p : Pool β} {w : Watched β}

/-- The limit and the blocks stay as they are. -/
theorem Bounded.moved (h : w.Bounded) (hlimit : p.txCountLimit = w.pool.txCountLimit)
    (hblocks : p.blocks = w.pool.blocks)
    (hroom : (p.txCount + (passing p.calls).card : Int) ≤ max w.peak 0) :
    Bounded { w with pool := p } where
  limit := by
    dsimp only
    rw [hlimit]
    exact h.limit
  room := hroom
  blocks := by
    dsimp only
    rw [hblocks]
    exact h.blocks

/-- A caller may move to a phase in which it does not count. -/
theorem Bounded.insert (h : w.Bounded) (caller : Nat) {call : Call} (hcall : call.passes = false) :
    Bounded { w with pool := { w.pool with calls := w.pool.calls.insert caller call } } := by
  refine h.moved rfl rfl ?_
  have hcard := card_passing_insert_le w.pool.calls caller call
  have hroom := h.room
  rw [hcall, if_neg Bool.false_ne_true] at hcard
  dsimp only
  omega

/-- A caller that heeds the others has room. -/
theorem Bounded.look (h : w.Bounded) (hheeds : w.pool.Heeds (.look caller))
    (hstep : w.pool.step (.look caller) = .ok p) :
    Bounded { w with pool := p } := by
  rw [Pool.step] at hstep
  split at hstep
  · rename_i txdata fee hcall
    cases hstep
    by_cases hfull : (w.pool.txCount : Int) = w.pool.txCountLimit
    · rw [if_pos hfull]
      exact h.insert caller rfl
    · rw [if_neg hfull]
      refine h.moved rfl rfl ?_
      have hcard := card_passing_insert_le w.pool.calls caller ⟨txdata, fee, .writing w.pool.signal⟩
      rw [if_pos (show Call.passes _ = true from rfl)] at hcard
      have hless := hheeds.resolve_left hfull
      have hlimit := h.limit
      dsimp only
      omega
  · cases hstep
    exact h

/-- A caller that writes leaves as much room as before. -/
theorem Bounded.write {w : Watched β} (h : w.Bounded) {caller : Nat} {p : Pool β}
    (hstep : w.pool.step (.write caller) = .ok p) : Bounded { w with pool := p } := by
  rw [Pool.step] at hstep
  split at hstep
  · rename_i txdata fee signal hcall
    split at hstep
    · cases hstep
      exact h.insert caller rfl
    · obtain ⟨p', happend, hstep⟩ := bind_eq_ok.mp hstep
      obtain ⟨txData, rfl⟩ := Pool.of_append happend
      cases hstep
      refine h.moved rfl rfl ?_
      have hcard := card_passing_erase hcall rfl
      have hroom := h.room
      dsimp only
      omega
  · cases hstep
    exact h

theorem Bounded.step {w w' : Watched β} {work : Work β} (h : w.Bounded)
    (hheeds : w.pool.Heeds work) (hstep : w.step work = .ok w') : w'.Bounded := by
  obtain ⟨p, hp, hstep⟩ := bind_eq_ok.mp hstep
  cases work with
  | call caller txdata fee =>
    cases hstep
    rw [Pool.step] at hp
    split at hp
    · cases hp
      exact h
    · split at hp
      · cases hp
        exact h
      · cases hp
        exact h.insert caller rfl
  | look caller =>
    cases hstep
    exact h.look hheeds hp
  | write caller =>
    cases hstep
    exact h.write hp
  | wake caller =>
    cases hstep
    rw [Pool.step] at hp
    split at hp
    · split at hp
      · cases hp
        exact h.insert caller rfl
      · cases hp
        exact h
    · cases hp
      exact h
  | limit rate =>
    cases hstep
    cases hp
    have hroom := h.room
    refine ⟨le_max_right _ _, ?_, h.blocks⟩
    dsimp only
    omega
  | generate previous references =>
    -- the block takes what was counted, and those who have looked write into the next one
    cases hstep
    cases hp
    have hroom := h.room
    have hlimit := h.limit
    change ((passing w.pool.calls).card : Int) ≤ w.pool.txCountLimit at hheeds
    refine ⟨le_refl _, ?_, List.rel_append h.blocks (.cons ?_ .nil)⟩
    · change ((0 : Nat) + (passing w.pool.calls).card : Int) ≤ max w.pool.txCountLimit 0
      omega
    · intro transactions htransactions
      cases htransactions
      dsimp only
      omega
  | announce =>
    cases hstep
    cases hp
    exact h.moved rfl rfl h.room

theorem Bounded.run (works : List (Work β)) {w' : Watched β} (h : w.Bounded)
    (hheeds : w.pool.HeedsAll works) (hrun : w.run works = .ok w') : w'.Bounded := by
  induction works generalizing w w' with
  | nil =>
    cases hrun
    exact h
  | cons work works ih =>
    obtain ⟨w₁, hstep, hrun⟩ := bind_eq_ok.mp hrun
    obtain ⟨p, hp, hw₁⟩ := bind_eq_ok.mp hstep
    have hpool : w₁.pool = p := by cases work <;> cases hw₁ <;> rfl
    refine ih (h.step hheeds.1 hstep) ?_ hrun
    have hrest := hheeds.2
    rw [hp] at hrest
    rw [hpool]
    exact hrest

/-- A watched pool does what the pool does. -/
theorem exists_run {first : Nat} (works : List (Work β)) : ∀ {w : Watched β},
    w.pool.Sound first → ∃ w', w.run works = .ok w' := by
  induction works with
  | nil => exact fun {w} _ => ⟨w, rfl⟩
  | cons work works ih =>
    intro w h
    obtain ⟨p, hp, hsound⟩ := h.step work
    obtain ⟨w₁, hstep, hpool⟩ : ∃ w₁, w.step work = .ok w₁ ∧ w₁.pool = p := by
      rw [step, hp]
      cases work <;> exact ⟨_, rfl, rfl⟩
    have hsound₁ : w₁.pool.Sound first := by
      rw [hpool]
      exact hsound
    obtain ⟨w', hrun⟩ := ih hsound₁
    exact ⟨w', bind_eq_ok.mpr ⟨w₁, hstep, hrun⟩⟩

/-- No block holds more transactions than the largest limit that was in force while it
was filled, if callers leave room for those that have looked before. -/
theorem blocks_within_peaks (node round txSizeLimit : Nat) (txCountLimit : Int)
    (works : List (Work β))
    (hheeds : (Pool.start node round txSizeLimit txCountLimit).HeedsAll works) :
    ∃ w, (start (Pool.start node round txSizeLimit txCountLimit)).run works = .ok w ∧
      List.Forall₂ Block.CountAtMost w.pool.blocks w.peaks := by
  obtain ⟨w, hrun⟩ : ∃ w, (start (Pool.start node round txSizeLimit txCountLimit)).run works = .ok w :=
    exists_run works (Pool.sound_start node round txSizeLimit txCountLimit)
  exact ⟨w, hrun, ((bounded_start node round txSizeLimit txCountLimit).run works hheeds hrun).blocks⟩

/-- Two callers and two blocks, with a limit that grows. -/
theorem blocks_within_peaks_two : ∃ w : Watched Unit,
    (start (Pool.start 1 0 1000 1)).run
      [.call 1 [7] 3, .call 2 [8] 3, .look 1, .write 1, .look 2, .limit 2, .generate none [],
        .announce, .wake 2, .look 2, .write 2, .limit 3, .generate none [], .announce] = .ok w ∧
      List.Forall₂ Block.CountAtMost w.pool.blocks w.peaks :=
  blocks_within_peaks 1 0 1000 1 _ (by decide +kernel)

/-- Two callers that look before either of them writes share the room for one. -/
theorem block_over_peak : ∃ w : Watched Unit,
    (start (Pool.start 1 0 1000 1)).run
      [.call 1 [7] 3, .call 2 [8] 3, .look 1, .look 2, .write 1, .write 2, .limit 1,
        .generate none []] = .ok w ∧
      w.pool.blocks.map (fun block => block.transactions.map Transactions.count) = [some 2] ∧
      w.peaks = [1] := by
  have hcheck : succeeds ((start (Pool.start 1 0 1000 1 : Pool Unit)).run
      [.call 1 [7] 3, .call 2 [8] 3, .look 1, .look 2, .write 1, .write 2, .limit 1,
        .generate none []]) (fun w =>
      w.pool.blocks.map (fun block => block.transactions.map Transactions.count) = [some 2] ∧
      w.peaks = [1]) = true := by
    decide +kernel
  obtain ⟨w, hrun, htest⟩ := exists_of_succeeds hcheck
  exact ⟨w, hrun, of_decide_eq_true htest⟩

end Watched

end Blockmania.Broadcast
