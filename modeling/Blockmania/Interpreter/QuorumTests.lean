/-
# The exact quorum tests

A quorum is noticed by a message whose processing finds exactly `quorum2f1`
votes. Votes are also set where nothing is tested: accepting a value sets the
bits of its sender and of the receiver, and committing sets the bit of the
receiver. The test is then left to the answer that goes to the end of the queue,
and it fails for good once the votes have passed the quorum.

No quorum is missed as long as no vote carries the count past the quorum while
such an answer is still due. The proof follows the queue: whatever has reached a
quorum without being noticed is exactly at the quorum, and the message that will
notice it is still in the queue.
-/

import Blockmania.Interpreter.Trail

namespace Blockmania

open Math List FiniteMap

namespace Instance

variable (p : Params) (i : Instance)

/-- The votes on a value in a view, with the size the parameters give. -/
abbrev votes (hash : Hash) (w : Nat) : Bitset := i.bitset p.peerCount hash w

/-- No quorum is missed: the node `own` has committed to the value it accepted
in the current view once a quorum prepared it, and the instance is decided once
a quorum committed to a value in the current view or an earlier one. -/
structure NothingMissed (own : Nat) : Prop where
  prepared : ∀ pp, i.prePrepared i.current = some pp →
    p.quorum2f1 ≤ (i.votes p pp.hash i.current).prepareCount →
      own ∈ (i.votes p pp.hash i.current).committers ∧ (i.prepared i.current).isSome
  decided : ∀ hash w, w ≤ i.current → p.quorum2f1 ≤ (i.votes p hash w).commitCount →
    i.final.isSome

/-- The message carries no count past the quorum before it was tested:

* a value is accepted short of the quorum, or when the receiver has committed
  already, or at the quorum with the bit of the receiver new, so that its own
  vote is still to come;
* no new prepare vote for the accepted value arrives between the quorum and the
  commitment of the receiver;
* a commitment of the receiver is one it made, and no new commitment arrives
  between the quorum and the decision. -/
def heeds (sender receiver : Nat) : Message → Bool
  | .prePrepare m =>
    let b := i.votes p m.hash m.view
    let count := (insert receiver (insert sender b.preparers)).card
    decide (i.current = m.view → i.prePrepared m.view = none →
      count < p.quorum2f1 ∨ receiver ∈ b.committers ∨
        count = p.quorum2f1 ∧ receiver ∉ b.preparers)
  | .prepare m =>
    let b := i.votes p m.hash m.view
    decide (i.current = m.view → i.prePrepared m.view = some m.pre →
      b.prepareCount = p.quorum2f1 → receiver ∉ b.committers → m.sender ∈ b.preparers)
  | .commit m =>
    let b := i.votes p m.hash m.view
    decide ((m.sender = receiver → receiver ∈ b.committers) ∧
      (m.view ≤ i.current → b.commitCount = p.quorum2f1 → i.final = none →
        m.sender ∈ b.committers))
  | _ => true

end Instance

/-- The event carries no count past the quorum before it was tested. -/
def Event.heeds (p : Params) (ev : Event) : Bool :=
  match ev.cause with
  | .message sender receiver msg => (ev.mem.inst ev.key).heeds p sender receiver msg
  | .timeout _ => true

/-- A message that is in the queue and has not been processed. -/
def Pending (processed : FiniteMap Message Bool) (queue : List Message) (msg : Message) : Prop :=
  msg ∈ queue ∧ processed[msg]?.getD false = false

theorem Pending.tail {processed : FiniteMap Message Bool} {queue out : List Message}
    {msg x : Message} (h : Pending processed (msg :: queue) x) (hne : x ≠ msg) :
    Pending (processed.insert msg true) (queue ++ out) x :=
  ⟨mem_append_left _ ((mem_cons.mp h.1).resolve_left hne), by
    rw [lookup_insert_of_ne _ hne.symm]
    exact h.2⟩

/-- What holds of an instance at any time. A quorum that was not noticed is
exact, and the message that notices it is pending. -/
structure Tracked (p : Params) (own : Nat) (key : NodeRound) (processed : FiniteMap Message Bool)
    (queue : List Message) (i : Instance) : Prop where
  isOpen : i.closed = false
  accepted : ∀ w pp, i.prePrepared w = some pp →
    w ≤ i.current ∧ pp = ⟨pp.hash, key.node, key.round, w⟩
  prepared : ∀ hash w, own ∈ (i.votes p hash w).committers → (i.prepared w).isSome
  early : ∀ hash w, i.current < w → (i.votes p hash w).committers = ∅
  voted : ∀ hash sender w,
    processed[Message.prepare ⟨hash, key.node, key.round, sender, w⟩]?.getD false = true →
      w < i.current ∨ sender ∈ (i.votes p hash w).preparers
  committed : ∀ hash w,
    processed[Message.commit ⟨hash, key.node, key.round, own, w⟩]?.getD false = true →
      own ∈ (i.votes p hash w).committers
  prepares : ∀ pp, i.prePrepared i.current = some pp →
    p.quorum2f1 ≤ (i.votes p pp.hash i.current).prepareCount →
      own ∈ (i.votes p pp.hash i.current).committers ∨
        (i.votes p pp.hash i.current).prepareCount = p.quorum2f1 ∧
        Pending processed queue (.prepare ⟨pp.hash, key.node, key.round, own, i.current⟩)
  commits : ∀ hash w, w ≤ i.current → p.quorum2f1 ≤ (i.votes p hash w).commitCount →
    i.final.isSome ∨
      ((i.votes p hash w).commitCount = p.quorum2f1 ∧ own ∈ (i.votes p hash w).committers) ∧
      Pending processed queue (.commit ⟨hash, key.node, key.round, own, w⟩)

namespace Tracked

variable {p : Params} {own : Nat} {key : NodeRound} {processed : FiniteMap Message Bool}
  {queue : List Message} {i : Instance}

/-- Once the queue is empty nothing is missed. -/
theorem nothingMissed (h : Tracked p own key processed [] i) : i.NothingMissed p own where
  prepared pp haccepted hquorum := by
    rcases h.prepares pp haccepted hquorum with hcommitted | ⟨-, hpending, -⟩
    · exact ⟨hcommitted, h.prepared _ _ hcommitted⟩
    · cases hpending
  decided hash w hw hquorum := by
    rcases h.commits hash w hw hquorum with hfinal | ⟨-, hpending, -⟩
    · exact hfinal
    · cases hpending

/-- An instance that nothing is known about. -/
theorem empty : Tracked p own key ∅ queue Instance.empty where
  isOpen := rfl
  accepted _ _ h := by cases h
  prepared hash w h := by simp [Instance.bitset, Instance.empty] at h
  early hash w _ := by simp [Instance.bitset, Instance.empty]
  voted _ _ _ h := by simp at h
  committed _ _ h := by simp at h
  prepares _ h := by cases h
  commits hash w _ h := by
    rw [Bitset.commitCount_eq_card] at h
    simp [Instance.bitset, Instance.empty, Params.quorum2f1] at h

/-- The record of the processed messages may be thrown away, and messages may be
added. -/
theorem restart (h : Tracked p own key processed [] i) (queue : List Message) :
    Tracked p own key ∅ queue i := { h with
  voted _ _ _ h := by simp at h
  committed _ _ h := by simp at h
  prepares pp haccepted hquorum := .inl (h.nothingMissed.prepared pp haccepted hquorum).1
  commits hash w hw hquorum := .inl (h.nothingMissed.decided hash w hw hquorum) }

theorem resume (h : Tracked p own key processed [] i) (queue : List Message) :
    Tracked p own key processed queue i :=
  { h with
    prepares := fun pp haccepted hquorum =>
      .inl (h.nothingMissed.prepared pp haccepted hquorum).1
    commits := fun hash w hw hquorum => .inl (h.nothingMissed.decided hash w hw hquorum) }

variable {msg : Message} {out : List Message} {i' : Instance}

variable {b : Bitset}

section

variable (h : Tracked p own key processed (msg :: queue) i)
include h

/-- A message that was processed before is skipped. -/
theorem skip (hseen : processed[msg]?.getD false = true) : Tracked p own key processed queue i := by
  have hpending : ∀ {x}, Pending processed (msg :: queue) x → Pending processed queue x := by
    rintro x ⟨hmem, hfresh⟩
    refine ⟨(mem_cons.mp hmem).resolve_left ?_, hfresh⟩
    rintro rfl
    rw [hseen] at hfresh
    cases hfresh
  exact { h with
    prepares := fun pp haccepted hquorum =>
      (h.prepares pp haccepted hquorum).imp_right (And.imp_right hpending)
    commits := fun hash w hw hquorum =>
      (h.commits hash w hw hquorum).imp_right (And.imp_right hpending) }

/-- A message of another instance. -/
theorem frame (hkey : msg.nodeRound ≠ key) :
    Tracked p own key (processed.insert msg true) (queue ++ out) i := { h with
  voted hash sender w hprocessed := by
    refine h.voted hash sender w ?_
    rwa [lookup_insert_of_ne] at hprocessed
    rintro rfl
    exact hkey rfl
  committed hash w hprocessed := by
    refine h.committed hash w ?_
    rwa [lookup_insert_of_ne] at hprocessed
    rintro rfl
    exact hkey rfl
  prepares pp haccepted hquorum := by
    refine (h.prepares pp haccepted hquorum).imp_right (And.imp_right fun hpending => hpending.tail ?_)
    rintro rfl
    exact hkey rfl
  commits hash w hw hquorum := by
    refine (h.commits hash w hw hquorum).imp_right (And.imp_right fun hpending => hpending.tail ?_)
    rintro rfl
    exact hkey rfl }

/-- The message is processed: votes and views only grow, and what the new votes
owe to the queue is left to show. -/
theorem advance (hopen : i'.closed = i.closed) (hview : i.current ≤ i'.current)
    (haccepted : ∀ w pp, i'.prePrepared w = some pp →
      i.prePrepared w = some pp ∨ w = i'.current ∧ pp = ⟨pp.hash, key.node, key.round, w⟩)
    (hprepared : ∀ w, (i.prepared w).isSome → (i'.prepared w).isSome)
    (hpreparers : ∀ hash w, (i.votes p hash w).preparers ⊆ (i'.votes p hash w).preparers)
    (hcommitters : ∀ hash w, (i.votes p hash w).committers ⊆ (i'.votes p hash w).committers)
    (hown : ∀ hash w, own ∈ (i'.votes p hash w).committers →
      own ∈ (i.votes p hash w).committers ∨ (i'.prepared w).isSome)
    (hearly : ∀ hash w, i'.current < w →
      (i'.votes p hash w).committers = (i.votes p hash w).committers)
    (hvote : ∀ hash sender w, msg = .prepare ⟨hash, key.node, key.round, sender, w⟩ →
      w < i'.current ∨ sender ∈ (i'.votes p hash w).preparers)
    (hcommitment : ∀ hash w, msg = .commit ⟨hash, key.node, key.round, own, w⟩ →
      own ∈ (i'.votes p hash w).committers) (hprepares : ∀ pp, i'.prePrepared i'.current = some pp →
      p.quorum2f1 ≤ (i'.votes p pp.hash i'.current).prepareCount →
        own ∈ (i'.votes p pp.hash i'.current).committers ∨
          (i'.votes p pp.hash i'.current).prepareCount = p.quorum2f1 ∧
          Pending (processed.insert msg true) (queue ++ out)
            (.prepare ⟨pp.hash, key.node, key.round, own, i'.current⟩))
    (hcommits : ∀ hash w, w ≤ i'.current → p.quorum2f1 ≤ (i'.votes p hash w).commitCount →
      i'.final.isSome ∨
        ((i'.votes p hash w).commitCount = p.quorum2f1 ∧ own ∈ (i'.votes p hash w).committers) ∧
        Pending (processed.insert msg true) (queue ++ out)
          (.commit ⟨hash, key.node, key.round, own, w⟩)) :
    Tracked p own key (processed.insert msg true) (queue ++ out) i' where
  isOpen := hopen.trans h.isOpen
  accepted w pp hpp := by
    rcases haccepted w pp hpp with hold | ⟨rfl, hkey⟩
    · exact ⟨(h.accepted w pp hold).1.trans hview, (h.accepted w pp hold).2⟩
    · exact ⟨le_rfl, hkey⟩
  prepared hash w hcommitted := by
    rcases hown hash w hcommitted with hold | hnew
    · exact hprepared w (h.prepared hash w hold)
    · exact hnew
  early hash w hw := (hearly hash w hw).trans (h.early hash w (hview.trans_lt hw))
  voted hash sender w hprocessed := by
    rw [lookup_insert] at hprocessed
    split at hprocessed
    · rename_i heq
      exact hvote hash sender w heq
    · exact (h.voted hash sender w hprocessed).imp (fun hw => hw.trans_le hview)
        (fun hmem => hpreparers hash w hmem)
  committed hash w hprocessed := by
    rw [lookup_insert] at hprocessed
    split at hprocessed
    · rename_i heq
      exact hcommitment hash w heq
    · exact hcommitters hash w (h.committed hash w hprocessed)
  prepares := hprepares
  commits := hcommits

/-- A message that changes at most the view: it is no vote, or a vote that is
dropped. -/
theorem move (hopen : i'.closed = i.closed)
    (hview : i.current ≤ i'.current) (hvotes : i'.bitsets = i.bitsets)
    (haccepted : i'.prePrepared = i.prePrepared) (hprepared : i'.prepared = i.prepared)
    (hfinal : i'.final = i.final) (hvote : ∀ m, msg = .prepare m → m.view < i.current)
    (hcommitment : ∀ m, msg = .commit m → i.current < m.view ∧
      (m.sender = own → own ∈ (i.votes p m.hash m.view).committers)) :
    Tracked p own key (processed.insert msg true) (queue ++ out) i' := by
  have hsame : ∀ hash w, i'.votes p hash w = i.votes p hash w := by
    intro hash w
    rw [Instance.votes, Instance.bitset, hvotes]
    rfl
  refine h.advance hopen hview (fun w pp hpp => .inl (haccepted ▸ hpp)) (fun w hw => hprepared ▸ hw)
    (fun hash w => (hsame hash w ▸ Finset.Subset.refl _))
    (fun hash w => (hsame hash w ▸ Finset.Subset.refl _))
    (fun hash w hw => .inl (hsame hash w ▸ hw)) (fun hash w _ => by rw [hsame])
    (fun hash sender w hmsg => .inl ((hvote _ hmsg).trans_le hview))
    (fun hash w hmsg => hsame hash w ▸ (hcommitment _ hmsg).2 rfl)
    (fun pp hpp hquorum => ?_) (fun hash w hw hquorum => ?_)
  · -- an accepted value of the current view means that the view has not moved
    have hcurrent : i'.current = i.current :=
      le_antisymm (h.accepted _ pp (haccepted ▸ hpp)).1 hview
    rw [hcurrent, haccepted] at hpp
    rw [hcurrent, hsame] at hquorum ⊢
    refine (h.prepares pp hpp hquorum).imp_right (And.imp_right fun hpending => hpending.tail ?_)
    intro hmsg
    exact absurd (hvote _ hmsg.symm) (lt_irrefl _)
  · rw [hsame] at hquorum ⊢
    rw [hfinal]
    by_cases hold : w ≤ i.current
    · refine (h.commits hash w hold hquorum).imp_right
        (And.imp_right fun hpending => hpending.tail ?_)
      intro hmsg
      exact absurd (hcommitment _ hmsg.symm).1 (not_lt.mpr hold)
    · rw [Bitset.commitCount_eq_card, h.early hash w (not_le.mp hold)] at hquorum
      simp [Params.quorum2f1] at hquorum

/-- The votes on one value grow. What they owe to the queue is left to show, for
that value only. -/
theorem revote {hash : Hash} {w : Nat} (hopen : i'.closed = i.closed)
    (hcurrent : i'.current = i.current) (hvotes : ∀ hash' w', i'.votes p hash' w' =
      if hash = hash' ∧ w = w' then b else i.votes p hash' w')
    (haccepted : ∀ w' pp, i'.prePrepared w' = some pp → i.prePrepared w' = some pp ∨
      w' = i.current ∧ w = w' ∧ pp = ⟨hash, key.node, key.round, w⟩)
    (hprepared : ∀ w', (i.prepared w').isSome → (i'.prepared w').isSome)
    (hfinal : i.final.isSome → i'.final.isSome)
    (hpreparers : (i.votes p hash w).preparers ⊆ b.preparers)
    (hcommitters : (i.votes p hash w).committers ⊆ b.committers)
    (hown : own ∈ b.committers → own ∈ (i.votes p hash w).committers ∨ (i'.prepared w).isSome)
    (hearly : w ≤ i.current ∨ b.committers = (i.votes p hash w).committers)
    (hvote : ∀ m, msg = .prepare m → m.hash = hash ∧ m.view = w ∧ m.sender ∈ b.preparers)
    (hcommitment : ∀ m, msg = .commit m →
      m.hash = hash ∧ m.view = w ∧ (m.sender = own → own ∈ b.committers))
    (hprepares : ∀ pp, i'.prePrepared i.current = some pp → hash = pp.hash → w = i.current →
      p.quorum2f1 ≤ b.preparers.card → own ∈ b.committers ∨ b.preparers.card = p.quorum2f1 ∧
        Pending (processed.insert msg true) (queue ++ out)
          (.prepare ⟨hash, key.node, key.round, own, w⟩))
    (hcommits : w ≤ i.current → p.quorum2f1 ≤ b.committers.card → i'.final.isSome ∨
      (b.committers.card = p.quorum2f1 ∧ own ∈ b.committers) ∧
      Pending (processed.insert msg true) (queue ++ out)
        (.commit ⟨hash, key.node, key.round, own, w⟩)) :
    Tracked p own key (processed.insert msg true) (queue ++ out) i' := by
  have hself : i'.votes p hash w = b := by rw [hvotes, if_pos ⟨rfl, rfl⟩]
  have hother : ∀ hash' w', ¬ (hash = hash' ∧ w = w') → i'.votes p hash' w' = i.votes p hash' w' :=
    fun hash' w' hne => by rw [hvotes, if_neg hne]
  have hgrows {S : Bitset → Finset Nat} (hS : S (i.votes p hash w) ⊆ S b) (hash' : Hash) (w' : Nat) :
      S (i.votes p hash' w') ⊆ S (i'.votes p hash' w') := by
    by_cases hvalue : hash = hash' ∧ w = w'
    · obtain ⟨rfl, rfl⟩ := hvalue
      rwa [hself]
    · rw [hother hash' w' hvalue]
  refine h.advance hopen hcurrent.ge (fun w' pp hpp => ?_) hprepared (hgrows hpreparers)
    (hgrows hcommitters) (fun hash' w' hcommitted => ?_) (fun hash' w' hw' => ?_)
    (fun hash' sender w' hmsg => ?_) (fun hash' w' hmsg => ?_) (fun pp hpp hquorum => ?_)
    (fun hash' w' hw' hquorum => ?_)
  · refine (haccepted w' pp hpp).imp_right ?_
    rintro ⟨hw', rfl, rfl⟩
    exact ⟨hw'.trans hcurrent.symm, rfl⟩
  · by_cases hvalue : hash = hash' ∧ w = w'
    · obtain ⟨rfl, rfl⟩ := hvalue
      rw [hself] at hcommitted
      exact hown hcommitted
    · rw [hother hash' w' hvalue] at hcommitted
      exact .inl hcommitted
  · by_cases hvalue : hash = hash' ∧ w = w'
    · obtain ⟨rfl, rfl⟩ := hvalue
      rw [hself]
      exact hearly.resolve_left (not_le.mpr (hcurrent ▸ hw'))
    · rw [hother hash' w' hvalue]
  · obtain ⟨rfl, rfl, hmem⟩ := hvote _ hmsg
    exact .inr (hself.symm ▸ hmem)
  · obtain ⟨rfl, rfl, hmem⟩ := hcommitment _ hmsg
    exact hself.symm ▸ hmem rfl
  · rw [hcurrent] at hpp hquorum ⊢
    rw [Bitset.prepareCount_eq_card] at hquorum ⊢
    by_cases hvalue : hash = pp.hash ∧ w = i.current
    · have hresult := hprepares pp hpp hvalue.1 hvalue.2
      rw [← hvalue.1, ← hvalue.2, hself] at hquorum ⊢
      exact hresult hquorum
    · -- votes on any other value are as before, and the message at hand is not for it
      have hold : i.prePrepared i.current = some pp := by
        refine (haccepted _ pp hpp).resolve_right ?_
        rintro ⟨-, hw, rfl⟩
        exact hvalue ⟨rfl, hw⟩
      rw [hother _ _ hvalue] at hquorum ⊢
      rw [← Bitset.prepareCount_eq_card] at hquorum ⊢
      refine (h.prepares pp hold hquorum).imp_right (And.imp_right fun hpending => hpending.tail ?_)
      intro hmsg
      obtain ⟨hhash, hview, -⟩ := hvote _ hmsg.symm
      exact hvalue ⟨hhash.symm, hview.symm⟩
  · rw [hcurrent] at hw'
    rw [Bitset.commitCount_eq_card] at hquorum ⊢
    by_cases hvalue : hash = hash' ∧ w = w'
    · obtain ⟨rfl, rfl⟩ := hvalue
      rw [hself] at hquorum ⊢
      exact hcommits hw' hquorum
    · rw [hother _ _ hvalue] at hquorum ⊢
      rw [← Bitset.commitCount_eq_card] at hquorum ⊢
      refine (h.commits hash' w' hw' hquorum).imp hfinal
        (And.imp_right fun hpending => hpending.tail ?_)
      intro hmsg
      obtain ⟨hhash, hview, -⟩ := hcommitment _ hmsg.symm
      exact hvalue ⟨hhash.symm, hview.symm⟩

end

variable {sender : Nat}

/-- A value is accepted. If that completes a quorum unnoticed, the vote of the
receiver is on its way. -/
theorem accept {m : PrePrepare} {b b' : Bitset}
    (h : Tracked p own ⟨m.node, m.round⟩ processed (.prePrepare m :: queue) i)
    (hview : i.current = m.view) (hfresh : i.prePrepared m.view = none)
    (hsender : (i.votes p m.hash m.view).setPrepare sender = some b)
    (hreceiver : b.setPrepare own = some b') (hheeds : i.heeds p sender own (.prePrepare m) = true) :
    Tracked p own ⟨m.node, m.round⟩ (processed.insert (.prePrepare m) true)
      (queue ++ [.prepare ⟨m.hash, m.node, m.round, own, m.view⟩])
      ((i.opened.setBitset m.hash m.view b').setPrePrepared m.view m) := by
  obtain ⟨hbits, hcommits⟩ := Bitset.setPrepare_spec hsender
  obtain ⟨hbits', hcommitters⟩ := Bitset.setPrepare_spec hreceiver
  rw [hbits] at hbits'
  rw [hcommits] at hcommitters
  refine h.revote rfl rfl (i.opened.bitset_setBitset m.hash m.view b' p.peerCount)
    (fun w pp hpp => ?_) (fun _ => id) id ?_ hcommitters.ge (fun hmem => .inl (hcommitters ▸ hmem))
    (.inr hcommitters) (fun _ hmsg => by cases hmsg) (fun _ hmsg => by cases hmsg)
    (fun pp hpp hhash hw hquorum => ?_) (fun hw hquorum => ?_)
  · by_cases hw : w = m.view
    · subst hw
      have hm : m = pp := by simpa [Instance.setPrePrepared] using hpp
      exact .inr ⟨hview.symm, rfl, hm ▸ rfl⟩
    · have hold : (i.opened.setBitset m.hash m.view b').prePrepared w = some pp := by
        simpa [Instance.setPrePrepared, hw] using hpp
      exact .inl hold
  · rw [hbits']
    exact (Finset.subset_insert _ _).trans (Finset.subset_insert _ _)
  · rw [hcommitters]
    rw [hbits'] at hquorum ⊢
    rcases of_decide_eq_true hheeds hview hfresh with hshort | hcommitted | ⟨hexact, hnew⟩
    · exact absurd hshort (not_lt.mpr hquorum)
    · exact .inl hcommitted
    · refine .inr ⟨hexact, mem_append_right _ (mem_singleton.mpr rfl), ?_⟩
      rw [lookup_insert_of_ne _ (by simp)]
      -- a processed vote of the receiver would have set its bit
      by_contra hprocessed
      rcases h.voted m.hash own m.view (eq_true_of_ne_false hprocessed) with hpast | hmem
      · exact absurd hpast (not_lt.mpr hview.le)
      · exact hnew hmem
  · rw [hcommitters, ← Bitset.commitCount_eq_card] at hquorum ⊢
    refine (h.commits m.hash m.view hw hquorum).imp_right
      (And.imp_right fun hpending => hpending.tail ?_)
    simp

variable {m : Vote}

/-- A prepare vote is noted. -/
theorem note (h : Tracked p own ⟨m.node, m.round⟩ processed (.prepare m :: queue) i)
    (hvote : (i.votes p m.hash m.view).setPrepare m.sender = some b)
    (hshort : i.current < m.view ∨ b.prepareCount ≠ p.quorum2f1 ∨ b.hasCommit own = some true)
    (hheeds : i.heeds p sender own (.prepare m) = true) :
    Tracked p own ⟨m.node, m.round⟩ (processed.insert (.prepare m) true) (queue ++ [])
      (i.opened.setBitset m.hash m.view b) := by
  obtain ⟨hbits, hcommitters⟩ := Bitset.setPrepare_spec hvote
  refine h.revote rfl rfl (i.opened.bitset_setBitset m.hash m.view b p.peerCount)
    (fun w pp hpp => .inl hpp) (fun _ => id) id ?_ hcommitters.ge
    (fun hmem => .inl (hcommitters ▸ hmem)) (.inr hcommitters) (fun m' hmsg => ?_)
    (fun _ hmsg => by cases hmsg) (fun pp hpp hhash hw hquorum => ?_) (fun hw hquorum => ?_)
  · rw [hbits]
    exact Finset.subset_insert _ _
  · cases hmsg
    refine ⟨rfl, rfl, ?_⟩
    rw [hbits]
    exact Finset.mem_insert_self _ _
  · -- the new count is past the quorum only if the old one was at it
    refine .inl ?_
    replace hpp : i.prePrepared i.current = some pp := hpp
    have hpre : i.prePrepared m.view = some m.pre := by
      rw [hw, hpp, (h.accepted _ pp hpp).2, Vote.pre, hhash, hw]
    rw [Bitset.prepareCount_eq_card] at hshort
    rcases hshort with hfuture | hcount | hcommitted
    · exact absurd hw hfuture.ne'
    · have hgrowth := Finset.card_insert_le m.sender (i.votes p m.hash m.view).preparers
      rw [← hbits] at hgrowth
      have hold : p.quorum2f1 ≤ (i.votes p pp.hash i.current).prepareCount := by
        rw [Bitset.prepareCount_eq_card, ← hhash, ← hw]
        omega
      rw [hcommitters]
      rcases h.prepares pp hpp hold with hcommitted | ⟨hexact, -⟩
      · rwa [← hhash, ← hw] at hcommitted
      · by_contra huncommitted
        rw [← hhash, ← hw] at hexact
        have hmem := of_decide_eq_true hheeds hw.symm hpre hexact huncommitted
        rw [hbits, Finset.insert_eq_of_mem hmem, ← Bitset.prepareCount_eq_card] at hcount
        exact hcount hexact
    · exact (Bitset.hasCommit_spec hcommitted).mp rfl
  · rw [hcommitters, ← Bitset.commitCount_eq_card] at hquorum ⊢
    refine (h.commits m.hash m.view hw hquorum).imp_right
      (And.imp_right fun hpending => hpending.tail ?_)
    simp

/-- The receiver commits. If that completes a quorum unnoticed, its commitment is
on its way. -/
theorem commit {b b' : Bitset} {i' : Instance}
    (h : Tracked p own ⟨m.node, m.round⟩ processed (.prepare m :: queue) i)
    (hview : i.current = m.view) (hvote : (i.votes p m.hash m.view).setPrepare m.sender = some b)
    (hfresh : b.hasCommit own = some false) (hcommit : b.setCommit own = some b')
    (hi' : i' = if (i.prepared m.view).isSome then i.opened.setBitset m.hash m.view b'
      else (i.opened.setBitset m.hash m.view b').setPrepared m.view m.hash) :
    Tracked p own ⟨m.node, m.round⟩ (processed.insert (.prepare m) true)
      (queue ++ [.commit ⟨m.hash, m.node, m.round, own, m.view⟩]) i' := by
  obtain ⟨hbits, hcommitters⟩ := Bitset.setPrepare_spec hvote
  obtain ⟨hbits', hpreparers⟩ := Bitset.setCommit_spec hcommit
  have hnew : own ∉ (i.votes p m.hash m.view).committers := by
    rw [← hcommitters, ← Bitset.hasCommit_spec hfresh]
    simp
  rw [hcommitters] at hbits'
  rw [hbits] at hpreparers
  have hclosed : i'.closed = i.closed := by rw [hi']; split <;> rfl
  have hcurrent : i'.current = i.current := by rw [hi']; split <;> rfl
  have haccepted : i'.prePrepared = i.prePrepared := by rw [hi']; split <;> rfl
  have hfinal : i'.final = i.final := by rw [hi']; split <;> rfl
  have hvotes : ∀ hash w, i'.votes p hash w =
      if m.hash = hash ∧ m.view = w then b' else i.votes p hash w := by
    intro hash w
    rw [← Instance.bitset_setBitset, hi']
    split <;> rfl
  have hprepared : (i'.prepared m.view).isSome ∧
      ∀ w, (i.prepared w).isSome → (i'.prepared w).isSome := by
    rw [hi']
    split
    · rename_i hset
      exact ⟨hset, fun _ => id⟩
    · refine ⟨by simp [Instance.setPrepared], fun w hw => ?_⟩
      by_cases hwm : w = m.view
      · simp [Instance.setPrepared, hwm]
      · have hset : ((i.opened.setBitset m.hash m.view b').prepared w).isSome := hw
        simpa [Instance.setPrepared, hwm] using hset
  refine h.revote hclosed hcurrent hvotes (fun w pp hpp => .inl (haccepted ▸ hpp)) hprepared.2
    (fun hf => hfinal.symm ▸ hf) ?_ ?_ (fun _ => .inr hprepared.1) (.inl hview.ge)
    (fun m' hmsg => ?_) (fun _ hmsg => by cases hmsg) (fun pp hpp hhash hw hquorum => .inl ?_)
    (fun hw hquorum => ?_)
  · rw [hpreparers]
    exact Finset.subset_insert _ _
  · rw [hbits']
    exact Finset.subset_insert _ _
  · cases hmsg
    refine ⟨rfl, rfl, ?_⟩
    rw [hpreparers]
    exact Finset.mem_insert_self _ _
  · rw [hbits']
    exact Finset.mem_insert_self _ _
  · rw [hbits', Finset.card_insert_of_notMem hnew] at hquorum ⊢
    rw [hfinal]
    by_cases hold : p.quorum2f1 ≤ (i.votes p m.hash m.view).commitCount
    · rcases h.commits m.hash m.view hw hold with hfinal | ⟨⟨-, hcommitted⟩, -⟩
      · exact .inl hfinal
      · exact absurd hcommitted hnew
    · rw [Bitset.commitCount_eq_card] at hold
      refine .inr ⟨⟨by omega, Finset.mem_insert_self _ _⟩,
        mem_append_right _ (mem_singleton.mpr rfl), ?_⟩
      rw [lookup_insert_of_ne _ (by simp)]
      -- a processed commitment of the receiver would have set its bit
      by_contra hprocessed
      exact hnew (h.committed m.hash m.view (eq_true_of_ne_false hprocessed))

/-- A commitment is noted, with or without the decision. -/
theorem acknowledge {i' : Instance}
    (h : Tracked p own ⟨m.node, m.round⟩ processed (.commit m :: queue) i)
    (hview : m.view ≤ i.current) (hvote : (i.votes p m.hash m.view).setCommit m.sender = some b)
    (hi' : i' = i.opened.setBitset m.hash m.view b ∧
        (b.commitCount ≠ p.quorum2f1 ∨ i.final.isSome) ∨
      i' = (i.opened.setBitset m.hash m.view b).setFinal m.hash)
    (hheeds : i.heeds p sender own (.commit m) = true) :
    Tracked p own ⟨m.node, m.round⟩ (processed.insert (.commit m) true) (queue ++ []) i' := by
  obtain ⟨hbits, hpreparers⟩ := Bitset.setCommit_spec hvote
  obtain ⟨hhonest, hnone⟩ := of_decide_eq_true hheeds
  have hsame : i'.closed = i.closed ∧ i'.current = i.current ∧ i'.prePrepared = i.prePrepared ∧
      i'.prepared = i.prepared ∧ (i.final.isSome → i'.final.isSome) := by
    rcases hi' with ⟨rfl, -⟩ | rfl
    · exact ⟨rfl, rfl, rfl, rfl, id⟩
    · exact ⟨rfl, rfl, rfl, rfl, fun _ => rfl⟩
  obtain ⟨hclosed, hcurrent, haccepted, hprepared, hfinal⟩ := hsame
  have hvotes : ∀ hash w, i'.votes p hash w =
      if m.hash = hash ∧ m.view = w then b else i.votes p hash w := by
    intro hash w
    rw [← Instance.bitset_setBitset]
    rcases hi' with ⟨rfl, -⟩ | rfl <;> rfl
  have hown : own ∈ b.committers → own ∈ (i.votes p m.hash m.view).committers := by
    rw [hbits, Finset.mem_insert]
    rintro (hsender | hmem)
    · exact hhonest hsender.symm
    · exact hmem
  refine h.revote hclosed hcurrent hvotes (fun w pp hpp => .inl (haccepted ▸ hpp))
    (fun w hw => hprepared ▸ hw) hfinal hpreparers.ge ?_ (fun hmem => .inl (hown hmem))
    (.inl hview) (fun _ hmsg => by cases hmsg) (fun m' hmsg => ?_)
    (fun pp hpp hhash hw hquorum => ?_) (fun hw hquorum => ?_)
  · rw [hbits]
    exact Finset.subset_insert _ _
  · cases hmsg
    refine ⟨rfl, rfl, fun hsender => ?_⟩
    rw [hbits, hsender]
    exact Finset.mem_insert_self _ _
  · rw [haccepted] at hpp
    rw [hpreparers, hw, hhash, ← Bitset.prepareCount_eq_card] at hquorum ⊢
    refine (h.prepares pp hpp hquorum).imp (fun hcommitted => ?_)
      (And.imp_right fun hpending => hpending.tail (by simp))
    rw [hbits, hw, hhash]
    exact Finset.mem_insert_of_mem hcommitted
  · -- the new count is past the quorum only if the old one was at it
    refine .inl ?_
    rcases hi' with ⟨rfl, hshort⟩ | rfl
    swap
    · rfl
    rw [Bitset.commitCount_eq_card] at hshort
    rcases hshort with hcount | hdecided
    swap
    · exact hdecided
    have hgrowth := Finset.card_insert_le m.sender (i.votes p m.hash m.view).committers
    rw [← hbits] at hgrowth
    have hold : p.quorum2f1 ≤ (i.votes p m.hash m.view).commitCount := by
      rw [Bitset.commitCount_eq_card]
      omega
    rcases h.commits m.hash m.view hw hold with hdecided | ⟨⟨hexact, -⟩, -⟩
    · exact hdecided
    · by_contra hundecided
      have hmem := hnone hview hexact (Option.not_isSome_iff_eq_none.mp hundecided)
      rw [hbits, Finset.insert_eq_of_mem hmem, ← Bitset.commitCount_eq_card] at hcount
      exact hcount hexact

/-- One message keeps track, if it carries no count past the quorum. -/
theorem step {msg : Message} {o : Outcome}
    (h : Tracked p own msg.nodeRound processed (msg :: queue) i)
    (htransition : i.Transition p sender own msg o) (hheeds : i.heeds p sender own msg = true) :
    Tracked p own msg.nodeRound (processed.insert msg true) (queue ++ o.resp.toList) o.inst := by
  cases htransition with
  | closed hclosed =>
    rw [h.isOpen] at hclosed
    cases hclosed
  | drop _ hdrop =>
    refine h.move rfl le_rfl rfl rfl rfl rfl (fun m hmsg => ?_) (fun m hmsg => ?_)
    · subst hmsg
      exact hdrop
    · subst hmsg
      refine ⟨hdrop, fun hsender => (of_decide_eq_true hheeds).1 hsender⟩
  | accept _ hview hfresh hsender hreceiver => exact h.accept hview hfresh hsender hreceiver hheeds
  | note _ _ hvote hshort => exact h.note hvote hshort hheeds
  | commit _ hview hvote _ hfresh hcommit => exact h.commit hview hvote hfresh hcommit rfl
  | acknowledge _ hview hvote hshort =>
    exact h.acknowledge hview hvote (.inl ⟨rfl, hshort⟩) hheeds
  | decide _ hview hvote => exact h.acknowledge hview hvote (.inr rfl) hheeds
  | protest =>
    exact h.move rfl le_rfl rfl rfl rfl rfl (fun _ hmsg => by cases hmsg) (fun _ hmsg => by cases hmsg)
  | depose _ hview | enter _ hview =>
    exact h.move rfl hview rfl rfl rfl rfl (fun _ hmsg => by cases hmsg) (fun _ hmsg => by cases hmsg)

end Tracked

/-! ## Runs -/

/-- A call of `processMessages`. The record of processed messages is carried over
from the call before, or the call starts with an empty one. -/
structure Feed where
  carry : Bool
  sender : Nat
  origin : BlockID
  msgs : List Message

/-- Feed messages to the state of the node `own`. -/
def feed (p : Params) (own : Nat) (session : Session (List Event)) (f : Feed) :
    Except (Halt (List Event)) (Session (List Event)) := do
  let processed := if f.carry then session.processed else ∅
  let (session, _) ← processMessages recorder p ⟨f.sender, own, f.origin⟩ f.msgs
    { session with processed }
  return session

def feedAll (p : Params) (own : Nat) (session : Session (List Event)) :
    List Feed → Except (Halt (List Event)) (Session (List Event))
  | [] => .ok session
  | f :: fs => do
    let session ← feed p own session f
    feedAll p own session fs

/-- As long as every step heeded the quorum, every instance is tracked. -/
def AllTracked (p : Params) (own : Nat) (session : Session (List Event)) (queue : List Message) :
    Prop :=
  (∀ ev ∈ session.host, ev.heeds p = true) →
    ∀ key, Tracked p own key session.processed queue (session.mem.inst key)

theorem drains_allTracked (p : Params) (own sender : Nat) (origin : BlockID) :
    Drains recorder p ⟨sender, own, origin⟩ (AllTracked p own) (fun _ => True) := by
  intro session msg queue htracked
  refine ensures_answer (fun hseen hheeds key => ?_) (fun _ _ => trivial) fun reply hreply => ?_
  · rw [Option.toList_none, append_nil]
    exact (htracked hheeds key).skip hseen
  have hnext : AllTracked p own ⟨session.noting recorder ⟨sender, own, origin⟩ msg, reply.mem,
      session.processed.insert msg true⟩ (queue ++ reply.resp.toList) := by
    intro hheeds key
    have hbefore := htracked (fun ev hev => hheeds ev (mem_append_left _ hev)) key
    have hev := hheeds _ (mem_append_right _ (mem_singleton.mpr rfl))
    by_cases hkey : msg.nodeRound = key
    · subst hkey
      exact hbefore.step (transition_of_processMessage hreply) hev
    · change Tracked p own key _ _ (reply.mem.inst key)
      rw [(processMessage_effect hreply).inst key (Ne.symm hkey)]
      exact hbefore.frame hkey
  cases hdelivery : reply.delivery with
  | none => exact hnext
  | some d => exact hnext

theorem allTracked_feedAll {p : Params} {own : Nat} {fs : List Feed}
    {session session' : Session (List Event)} (htracked : AllTracked p own session [])
    (h : feedAll p own session fs = .ok session') : AllTracked p own session' [] := by
  induction fs generalizing session session' with
  | nil =>
    cases h
    exact htracked
  | cons f fs ih =>
    obtain ⟨mid, hfeed, h⟩ := bind_eq_ok.mp h
    refine ih ?_ h
    obtain ⟨⟨mid', out⟩, hprocess, hmid⟩ := bind_eq_ok.mp hfeed
    cases hmid
    refine (drains_processMessages (drains_allTracked p own f.sender f.origin) ?_).of_ok hprocess
    intro hheeds key
    cases hcarry : f.carry with
    | true => exact (htracked hheeds key).resume f.msgs
    | false => exact (htracked hheeds key).restart f.msgs

/-- No quorum is missed in any run in which no vote carries a count past the
quorum before it was tested. -/
theorem nothingMissed_of_heeds {p : Params} {own : Nat} {fs : List Feed}
    {session : Session (List Event)} (hrun : feedAll p own unwritten fs = .ok session)
    (hheeds : ∀ ev ∈ session.host, ev.heeds p = true) (key : NodeRound) :
    (session.mem.inst key).NothingMissed p own := by
  have hstart : AllTracked p own unwritten [] := by
    intro _ key
    have hempty : unwritten.mem.inst key = Instance.empty := by
      simp [unwritten, Memory.inst, State.fresh, Data.empty, Instance.empty]
    rw [hempty]
    exact Tracked.empty
  exact (allTracked_feedAll hstart hrun hheeds key).nothingMissed

/-- Messages about the block of node 1 in round 1, as node 4 receives them from
their sender. -/
def feedFrom (sender : Nat) (msgs : List Message) : Feed :=
  ⟨true, sender, ⟨[4, 2], 4, 2⟩, msgs⟩

/-- The block, as its node proposes it. -/
def proposal : Feed := feedFrom 1 [.prePrepare ⟨[1, 1], 1, 1, 0⟩]

def prepareFrom (sender : Nat) : Feed := feedFrom sender [.prepare ⟨[1, 1], 1, 1, sender, 0⟩]

def commitFrom (sender : Nat) : Feed := feedFrom sender [.commit ⟨[1, 1], 1, 1, sender, 0⟩]

/-- The votes follow the proposal: node 4 commits and the block is decided. -/
theorem nothingMissed_proposalFirst :
    ∃ session, feedAll .four 4 unwritten
        [proposal, prepareFrom 2, prepareFrom 3, commitFrom 1, commitFrom 2] = .ok session ∧
      (session.mem.inst ⟨1, 1⟩).final = some [1, 1] ∧
      ∀ key, (session.mem.inst key).NothingMissed .four 4 := by
  have hcheck : succeeds (feedAll .four 4 unwritten
      [proposal, prepareFrom 2, prepareFrom 3, commitFrom 1, commitFrom 2]) (fun session =>
        decide ((session.mem.inst ⟨1, 1⟩).final = some [1, 1]) &&
        session.host.all fun ev => ev.heeds .four) = true := by decide +kernel
  obtain ⟨session, hrun, hfacts⟩ := exists_of_succeeds hcheck
  obtain ⟨hfinal, hheeds⟩ := Bool.and_eq_true_iff.mp hfacts
  exact ⟨session, hrun, of_decide_eq_true hfinal,
    nothingMissed_of_heeds hrun (all_eq_true.mp hheeds)⟩

/-- Two votes precede the proposal, which then adds two bits at once: four nodes
prepared the block and node 4 never commits to it. -/
theorem not_nothingMissed_votesFirst :
    ∃ session, feedAll .four 4 unwritten [prepareFrom 2, prepareFrom 3, proposal] = .ok session ∧
      ¬ (session.mem.inst ⟨1, 1⟩).NothingMissed .four 4 := by
  have hcheck : succeeds (feedAll .four 4 unwritten [prepareFrom 2, prepareFrom 3, proposal])
      (fun session =>
        let i := session.mem.inst ⟨1, 1⟩
        decide (i.prePrepared i.current = some ⟨[1, 1], 1, 1, 0⟩ ∧
          3 ≤ (i.votes .four [1, 1] i.current).prepareCount ∧
          4 ∉ (i.votes .four [1, 1] i.current).committers)) = true := by decide +kernel
  obtain ⟨session, hrun, hfacts⟩ := exists_of_succeeds hcheck
  obtain ⟨haccepted, hquorum, huncommitted⟩ := of_decide_eq_true hfacts
  exact ⟨session, hrun, fun h => huncommitted (h.prepared _ haccepted hquorum).1⟩

end Blockmania
