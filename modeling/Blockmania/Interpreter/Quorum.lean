/-
# Quorum sizes

`New` derives the number of faulty nodes and the quorum from the number of
peers. The division rounds down, so the quorum grows with every third peer only,
while two quorums must share a peer that is not faulty whatever the number of
peers is.
-/

import Blockmania.Interpreter.Process
import Blockmania.Math.Quorum

namespace Blockmania

open Math

namespace Params

/-- What the quorum is chosen for: two quorums share more peers than can be
faulty, and the peers that are not faulty form one alone. -/
def SafeQuorums (p : Params) : Prop :=
  (∀ A B : Finset Nat, A ⊆ p.peers.toFinset → B ⊆ p.peers.toFinset →
    A.card = p.quorum2f1 → B.card = p.quorum2f1 → p.faults + 1 ≤ (A ∩ B).card) ∧
  p.quorum2f1 ≤ p.peerCount - p.faults

/-- A quorum never needs a faulty peer. -/
theorem quorum2f1_le (p : Params) (hpeers : 1 ≤ p.peerCount) :
    p.quorum2f1 ≤ p.peerCount - p.faults := by
  unfold quorum2f1 faults peerCount at *
  omega

/-- The quorum is safe exactly for three peers per fault and one more. -/
theorem safeQuorums_iff (p : Params) (hdistinct : p.peers.Nodup) (hpeers : 1 ≤ p.peerCount) :
    p.SafeQuorums ↔ p.peerCount % 3 = 1 := by
  have hcard : p.peers.toFinset.card = p.peerCount := List.toFinset_card_of_nodup hdistinct
  constructor
  · rintro ⟨hshare, -⟩
    have hle : p.quorum2f1 ≤ p.peers.toFinset.card := by
      have := p.quorum2f1_le hpeers
      omega
    obtain ⟨A, hA, B, hB, hAcard, hBcard, hinter⟩ := exists_card_inter_eq hle
    have hlarge := hshare A B hA hB hAcard hBcard
    rw [hinter, hcard] at hlarge
    unfold quorum2f1 faults peerCount at *
    omega
  · intro hresidue
    refine ⟨fun A B hA hB hAcard hBcard => ?_, p.quorum2f1_le hpeers⟩
    have hoverlap := card_add_card_le hA hB
    rw [hcard, hAcard, hBcard] at hoverlap
    unfold quorum2f1 faults peerCount at *
    omega

/-- Four peers tolerate one fault. -/
theorem safeQuorums_four : SafeQuorums ⟨[1, 2, 3, 4], id⟩ :=
  (safeQuorums_iff ⟨[1, 2, 3, 4], id⟩ (by decide) (by decide)).mpr (by decide)

/-- With five peers, two quorums of three can share a single one. -/
theorem not_safeQuorums_five : ¬ SafeQuorums ⟨[1, 2, 3, 4, 5], id⟩ := by
  rintro ⟨hshare, -⟩
  have hlarge := hshare {1, 2, 3} {3, 4, 5} (by decide) (by decide) (by decide) (by decide)
  revert hlarge
  decide

end Params

end Blockmania
