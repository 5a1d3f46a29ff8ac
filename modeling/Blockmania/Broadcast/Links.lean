/-
# The block before a block

A block names the block before it by a signed reference. The checks compare the node of
the two, and the round of the one plus one with the round of the other. The sum may wrap
around, and the hash is not looked at. A block that names no hash counts as one without a
predecessor, and is queued at once.
-/

import Blockmania.Broadcast.Depgraph

namespace Blockmania.Broadcast

open Math

variable {β : Type} {wire : Wire β} {signed : SignedData β} {info : BlockData β}

/-- An accepted block is of a round from 1 on, and unless this is the first one, the block
before it is known by its hash and is of the same node and of the round before. It is not
queued before that one is included. -/
structure Linked (info : BlockData β) : Prop where
  pos : 1 ≤ info.id.round
  prev : info.id.round ≠ 1 → info.prev.valid = true ∧ info.prev.node = info.id.node ∧
    info.prev.round + 1 = info.id.round
  queued : info.id.round ≠ 1 → ∀ (db : Database β) (d d' : Depgraph β) (inc : Bool),
    d.processBlock db info = .ok (d', inc) → d'.blocks = d.blocks ++ [info] →
    d.included db info.prev = true

/-- The block is not of round 0, and the reference to the block before it has a hash, if it
has to have one. -/
def namesPrevious (wire : Wire β) (signed : SignedData β) : Bool :=
  match wire.unmarshalBlock signed.data with
  | none => true
  | some block => block.round ≠ 0 && (block.round = 1 || block.previous.all fun previous =>
      (wire.unmarshalReference previous.data).all fun prev => prev.hash ≠ [])

/-- What the checks on the previous block make sure of. -/
theorem Wire.of_checkPrevious {block : Block β} {id : BlockID}
    (h : wire.checkPrevious block = .ok id) (hround : block.round ≠ 1) :
    ∃ previous prev, block.previous = some previous ∧
      wire.unmarshalReference previous.data = some prev ∧ prev.node = block.node ∧
      u64 (prev.round + 1) = block.round ∧ id = prev.id := by
  unfold Wire.checkPrevious at h
  rw [if_neg hround] at h
  split at h
  · cases h
  rename_i previous hprevious
  split at h
  · cases h
  split at h
  · cases h
  rename_i prev hprev
  split at h
  · cases h
  rename_i hnode
  split at h
  · cases h
  rename_i hnext
  cases h
  exact ⟨previous, prev, hprevious, hprev, not_not.mp hnode, not_not.mp hnext, rfl⟩

/-- What is known of the block before an accepted one. -/
theorem Wire.of_accept (h : wire.accept signed = .ok info) :
    ∃ block, wire.unmarshalBlock signed.data = some block ∧ info.id.node = block.node ∧
      info.id.round = block.round ∧ wire.checkPrevious block = .ok info.prev := by
  unfold Wire.accept at h
  split at h
  · cases h
  rename_i block hblock
  split at h
  · cases h
  dsimp only at h
  split at h
  · cases h
  obtain ⟨prev, hprev, h⟩ := bind_eq_ok.mp h
  obtain ⟨deps, -, h⟩ := bind_eq_ok.mp h
  cases h
  exact ⟨block, hblock, rfl, rfl, hprev⟩

/-- A queued block waits for nothing. -/
theorem Depgraph.included_of_queued {db : Database β} {d d' : Depgraph β} {inc : Bool}
    (h : d.processBlock db info = .ok (d', inc)) (hqueued : d'.blocks = d.blocks ++ [info])
    (hvalid : info.prev.valid = true) : d.included db info.prev = true := by
  obtain ⟨icache, -, hbefore | hput | hnow⟩ := processBlock_cases h
  · rw [hbefore.2.2] at hqueued
    cases List.self_eq_append_right.mp hqueued
  · obtain ⟨-, -, deps, -, -, rfl⟩ := hput
    cases List.self_eq_append_right.mp hqueued
  · apply hnow.2.2.1
    rw [BlockData.links, if_pos hvalid]
    exact List.mem_append_left _ (List.mem_singleton_self _)

/-- Accepted blocks link to the block before them, exactly if they name it. -/
theorem linked_iff_namesPrevious (h : wire.accept signed = .ok info)
    (hword : info.prev.round < 2 ^ 64) : Linked info ↔ namesPrevious wire signed = true := by
  obtain ⟨block, hblock, hnode, hround, hprevious⟩ := Wire.of_accept h
  have hnames : namesPrevious wire signed = true ↔
      block.round ≠ 0 ∧ (block.round ≠ 1 → info.prev.valid = true) := by
    unfold namesPrevious
    rw [hblock]
    by_cases hone : block.round = 1
    · simp [hone]
    · obtain ⟨previous, prev, hsome, hdecode, -, -, hid⟩ := Wire.of_checkPrevious hprevious hone
      simp [hone, hsome, hdecode, hid, BlockID.valid, BlockReference.id]
  rw [hnames]
  constructor
  · intro hlinked
    have hpos := hlinked.pos
    rw [hround] at hpos
    exact ⟨by omega, fun hone => (hlinked.prev (hround ▸ hone)).1⟩
  · rintro ⟨hpos, hvalid⟩
    rw [← hround] at hpos hvalid
    refine ⟨by omega, fun hone => ?_, fun hone db d d' inc hstep hqueued => ?_⟩
    · obtain ⟨-, prev, -, -, hsame, hnext, hid⟩ := Wire.of_checkPrevious hprevious (hround ▸ hone)
      have hprev : info.prev.round = prev.round := by rw [hid]; rfl
      refine ⟨hvalid hone, ?_, ?_⟩
      · rw [hid, hnode, ← hsame]
        rfl
      · -- the sum wraps around to round 0 only
        rw [u64] at hnext
        omega
    · exact Depgraph.included_of_queued hstep hqueued (hvalid hone)

/-- A block of the second node with the given previous reference. -/
def blockAfter (prev : BlockReference) (round : Nat) : SignedData (List Nat) :=
  let wire := plainWire [1, 2, 3, 4]
  let previous := wire.marshalReference prev
  wire.signBlock ⟨2, some ⟨previous, wire.sign 2 previous⟩, [], round, none⟩

theorem linked_second :
    ∃ info, (plainWire [1, 2, 3, 4]).accept (blockAfter ⟨[7], 2, 1⟩ 2) = .ok info ∧
      Linked info := by
  have hcheck : succeeds ((plainWire [1, 2, 3, 4]).accept (blockAfter ⟨[7], 2, 1⟩ 2))
      (fun info => info.prev.round < 2 ^ 64) = true := by decide +kernel
  obtain ⟨info, haccept, hword⟩ := exists_of_succeeds hcheck
  exact ⟨info, haccept, (linked_iff_namesPrevious haccept (of_decide_eq_true hword)).mpr
    (by decide +kernel)⟩

/-- A block of round 0 is accepted, whose predecessor claims the last round. So is a block of
round 100 that names no hash; it is queued although nothing is known of the round before. -/
theorem not_linked_unnamed :
    (∃ info, (plainWire [1, 2, 3, 4]).accept (blockAfter ⟨[7], 2, 2 ^ 64 - 1⟩ 0) = .ok info ∧
      info.id.round = 0) ∧
    ∃ info d, (plainWire [1, 2, 3, 4]).accept (blockAfter ⟨[], 2, 99⟩ 100) = .ok info ∧
      info.id.round = 100 ∧ info.prev.valid = false ∧
      (Depgraph.new 1 []).processBlock Database.empty info = .ok (d, true) ∧
      d.blocks = [info] ∧
      (Depgraph.new 1 [] : Depgraph (List Nat)).included Database.empty info.prev = false := by
  have hzero : succeeds ((plainWire [1, 2, 3, 4]).accept (blockAfter ⟨[7], 2, 2 ^ 64 - 1⟩ 0))
      (fun info => info.id.round = 0) = true := by decide +kernel
  have hunnamed : succeeds ((plainWire [1, 2, 3, 4]).accept (blockAfter ⟨[], 2, 99⟩ 100))
      (fun info => decide (info.id.round = 100 ∧ info.prev.valid = false) &&
      (succeeds ((Depgraph.new 1 []).processBlock Database.empty info) fun r =>
        decide (r.2 = true ∧ r.1.blocks = [info])) &&
      !(Depgraph.new 1 [] : Depgraph (List Nat)).included Database.empty info.prev) = true := by decide +kernel
  obtain ⟨first, hfirst, hround⟩ := exists_of_succeeds hzero
  obtain ⟨info, haccept, hfacts⟩ := exists_of_succeeds hunnamed
  simp only [Bool.and_eq_true, decide_eq_true_eq, Bool.not_eq_true'] at hfacts
  obtain ⟨⟨⟨hhundred, hinvalid⟩, hstep⟩, hmissing⟩ := hfacts
  obtain ⟨⟨d, inc⟩, hstep, hqueued⟩ := exists_of_succeeds hstep
  obtain ⟨rfl, hblocks⟩ := of_decide_eq_true hqueued
  exact ⟨⟨first, hfirst, of_decide_eq_true hround⟩, info, d, haccept, hhundred, hinvalid, hstep,
    hblocks, hmissing⟩

end Blockmania.Broadcast
