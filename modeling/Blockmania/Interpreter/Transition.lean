/-
# What an instance can do

The transition function of an instance branches on the kind of message, the
view, the votes already there and the quorum. `Transition` lists the outcomes
once, each with the conditions under which it happens. Invariants of instances
are proved by cases on it and never unfold the function.
-/

import Blockmania.Interpreter.Effect

namespace Blockmania

open Math

namespace Instance

/-- The instance as `getView` leaves it: asking for the view stores it. -/
def opened (i : Instance) : Instance := i.setView i.current

/-- The message is too early, too late or a repetition, and is dropped. -/
def Dropped (i : Instance) : Message → Prop
  | .prePrepare m => i.current ≠ m.view ∨ (i.prePrepared m.view).isSome
  | .prepare m => m.view < i.current
  | .commit m => i.current < m.view
  | .viewChange m => m.view < i.current
  | .newView m => m.view < i.current ∨ (i.hnv m.view).isSome

/-- The vote map of the current view after a vote against it. -/
def protests (i : Instance) (m : Vote) : FiniteMap Nat Hash :=
  ((i.viewChanged i.current).getD ∅).insert m.sender m.hash

/-- The outcomes of a message for an instance. -/
inductive Transition (p : Params) (i : Instance) (sender receiver : Nat) :
    Message → Outcome → Prop
  /-- The instance takes no messages any more. -/
  | closed {msg : Message} (hclosed : i.closed = true) :
      Transition p i sender receiver msg i.ignore
  /-- The message is dropped. -/
  | drop {msg : Message} (hopen : i.closed = false) (hdrop : i.Dropped msg) :
      Transition p i sender receiver msg i.opened.ignore
  /-- A value is accepted in the current view. The sender and the receiver
  count as having prepared it. -/
  | accept {m : PrePrepare} {b b' : Bitset} (hopen : i.closed = false)
      (hview : i.current = m.view) (hfresh : i.prePrepared m.view = none)
      (hsender : (i.bitset p.peerCount m.hash m.view).setPrepare sender = some b)
      (hreceiver : b.setPrepare receiver = some b') :
      Transition p i sender receiver (.prePrepare m)
        ⟨(i.opened.setBitset m.hash m.view b').setPrePrepared m.view m,
          some (.prepare ⟨m.hash, m.node, m.round, receiver, m.view⟩), none⟩
  /-- A prepare vote is noted. -/
  | note {m : Vote} {b : Bitset} (hopen : i.closed = false) (hview : i.current ≤ m.view)
      (hvote : (i.bitset p.peerCount m.hash m.view).setPrepare m.sender = some b)
      (hshort : i.current < m.view ∨ b.prepareCount ≠ p.quorum2f1 ∨
        b.hasCommit receiver = some true) :
      Transition p i sender receiver (.prepare m) (i.opened.setBitset m.hash m.view b).ignore
  /-- A prepare vote completes a quorum and the receiver commits. -/
  | commit {m : Vote} {b b' : Bitset} (hopen : i.closed = false) (hview : i.current = m.view)
      (hvote : (i.bitset p.peerCount m.hash m.view).setPrepare m.sender = some b)
      (hquorum : b.prepareCount = p.quorum2f1) (hfresh : b.hasCommit receiver = some false)
      (hcommit : b.setCommit receiver = some b') :
      Transition p i sender receiver (.prepare m)
        ⟨if (i.prepared m.view).isSome then i.opened.setBitset m.hash m.view b'
          else (i.opened.setBitset m.hash m.view b').setPrepared m.view m.hash,
          some (.commit ⟨m.hash, m.node, m.round, receiver, m.view⟩), none⟩
  /-- A commitment is noted. -/
  | acknowledge {m : Vote} {b : Bitset} (hopen : i.closed = false) (hview : m.view ≤ i.current)
      (hvote : (i.bitset p.peerCount m.hash m.view).setCommit m.sender = some b)
      (hshort : b.commitCount ≠ p.quorum2f1 ∨ i.final.isSome) :
      Transition p i sender receiver (.commit m) (i.opened.setBitset m.hash m.view b).ignore
  /-- A commitment completes a quorum and the value is decided. -/
  | decide {m : Vote} {b : Bitset} (hopen : i.closed = false) (hview : m.view ≤ i.current)
      (hvote : (i.bitset p.peerCount m.hash m.view).setCommit m.sender = some b)
      (hquorum : b.commitCount = p.quorum2f1) (hfresh : i.final = none) :
      Transition p i sender receiver (.commit m)
        ⟨(i.opened.setBitset m.hash m.view b).setFinal m.hash, none,
          some ⟨⟨m.node, m.round⟩, m.hash⟩⟩
  /-- A vote against the current view is noted. -/
  | protest {m : Vote} (hopen : i.closed = false) (hview : i.current ≤ m.view)
      (hshort : (i.protests m).size ≠ p.quorum2f1) :
      Transition p i sender receiver (.viewChange m)
        (i.opened.setViewChanged i.current (i.protests m)).ignore
  /-- A vote against the current view completes a quorum, and the receiver
  announces the view of that vote. -/
  | depose {m : Vote} {hash : Hash} (hopen : i.closed = false) (hview : i.current ≤ m.view)
      (hquorum : (i.protests m).size = p.quorum2f1)
      (hmerge : mergeHashes (i.protests m).values [] = some hash) :
      Transition p i sender receiver (.viewChange m)
        ⟨(i.opened.setViewChanged i.current (i.protests m)).setView m.view,
          some (.newView ⟨hash, m.node, m.round, receiver, m.view⟩), none⟩
  /-- An announced view is entered. -/
  | enter {m : Vote} (hopen : i.closed = false) (hview : i.current ≤ m.view)
      (hfresh : i.hnv m.view = none) :
      Transition p i sender receiver (.newView m)
        ⟨(i.opened.setView m.view).setHnv m.view,
          some (.prePrepare ⟨m.hash, m.node, m.round, m.view⟩), none⟩

/-- The later of two writes to the same votes counts. -/
theorem setBitset_setBitset (i : Instance) (hash : Hash) (w : Nat) (b b' : Bitset) :
    (i.setBitset hash w b).setBitset hash w b' = i.setBitset hash w b' := by
  ext1 <;> try rfl
  funext hash' w'
  simp only [setBitset]
  split <;> rfl

theorem bitset_setBitset (i : Instance) (hash : Hash) (w : Nat) (b : Bitset) (size : Nat)
    (hash' : Hash) (w' : Nat) : (i.setBitset hash w b).bitset size hash' w' =
      if hash = hash' ∧ w = w' then b else i.bitset size hash' w' := by
  unfold bitset setBitset
  split <;> simp [*]

theorem orPanic_eq_ok {α : Type} {x : Option α} {a : α} : orPanic x = .ok a ↔ x = some a := by
  cases x <;> simp [orPanic]

variable {p : Params} {i : Instance} {sender receiver : Nat} {o : Outcome} {msg : Message}
  {m : Vote} {d : Delivery}

/-- The outcomes of a step are exactly the listed ones. -/
theorem step_cases (h : i.step p sender receiver msg = .ok o) :
    Transition p i sender receiver msg o := by
  unfold step at h
  split at h
  · rename_i hclosed
    cases h
    exact .closed hclosed
  rename_i hopen
  replace hopen := eq_false_of_ne_true hopen
  cases msg with
  | prePrepare m =>
    simp only [stepPrePrepare] at h
    split at h
    · rename_i hview
      cases h
      exact .drop hopen (.inl hview)
    split at h
    · rename_i hseen
      cases h
      exact .drop hopen (.inr hseen)
    rename_i hview hfresh
    obtain ⟨b, hsender, h⟩ := bind_eq_ok.mp h
    obtain ⟨b', hreceiver, h⟩ := bind_eq_ok.mp h
    cases h
    exact .accept hopen (not_not.mp hview) (Option.not_isSome_iff_eq_none.mp hfresh)
      (orPanic_eq_ok.mp hsender) (orPanic_eq_ok.mp hreceiver)
  | prepare m =>
    simp only [stepPrepare] at h
    split at h
    · rename_i hview
      cases h
      exact .drop hopen hview
    rename_i hview
    obtain ⟨b, hvote, h⟩ := bind_eq_ok.mp h
    replace hvote := orPanic_eq_ok.mp hvote
    split at h
    · rename_i hshort
      cases h
      exact .note hopen (not_lt.mp hview) hvote (hshort.imp_right .inl)
    rename_i hshort
    obtain ⟨hcurrent, hcount⟩ := not_or.mp hshort
    obtain ⟨committed, hhas, h⟩ := bind_eq_ok.mp h
    replace hhas := orPanic_eq_ok.mp hhas
    split at h
    · rename_i hcommitted
      cases h
      exact .note hopen (not_lt.mp hview) hvote (.inr (.inr (hcommitted ▸ hhas)))
    rename_i hcommitted
    obtain ⟨b', hcommit, h⟩ := bind_eq_ok.mp h
    cases h
    rw [setBitset_setBitset]
    exact .commit hopen (le_antisymm (not_lt.mp hview) (not_lt.mp hcurrent)) hvote
      (not_not.mp hcount) (eq_false_of_ne_true hcommitted ▸ hhas) (orPanic_eq_ok.mp hcommit)
  | commit m =>
    simp only [stepCommit] at h
    split at h
    · rename_i hview
      cases h
      exact .drop hopen hview
    rename_i hview
    obtain ⟨b, hvote, h⟩ := bind_eq_ok.mp h
    replace hvote := orPanic_eq_ok.mp hvote
    split at h
    · rename_i hshort
      cases h
      exact .acknowledge hopen (not_lt.mp hview) hvote hshort
    rename_i hquorum
    obtain ⟨hcount, hfinal⟩ := not_or.mp hquorum
    cases h
    exact .decide hopen (not_lt.mp hview) hvote (not_not.mp hcount)
      (Option.not_isSome_iff_eq_none.mp hfinal)
  | viewChange m =>
    simp only [stepViewChange] at h
    split at h
    · rename_i hview
      cases h
      exact .drop hopen hview
    rename_i hview
    split at h
    · rename_i hshort
      cases h
      exact .protest hopen (not_lt.mp hview) hshort
    rename_i hquorum
    split at h
    · cases h
    · rename_i hash hmerge
      cases h
      exact .depose hopen (not_lt.mp hview) (not_not.mp hquorum) hmerge
  | newView m =>
    simp only [stepNewView] at h
    split at h
    · rename_i hview
      cases h
      exact .drop hopen (.inl hview)
    rename_i hview
    split at h
    · rename_i hseen
      cases h
      exact .drop hopen (.inr hseen)
    rename_i hfresh
    cases h
    exact .enter hopen (not_lt.mp hview) (Option.not_isSome_iff_eq_none.mp hfresh)

/-- The two ways a step can stop the program: a node id past the last word of a
bitset, and votes against a view that carry different values. -/
theorem step_eq_error {crash : Crash} (h : i.step p sender receiver msg = .error crash) :
    crash = .indexOutOfRange ∨ crash = .multipleHashes msg.nodeRound ∧
      ∃ m, msg = .viewChange m ∧ i.closed = false ∧ i.current ≤ m.view ∧
        mergeHashes (i.protests m).values [] = none := by
  have hpanic : ∀ {α β : Type} {x : Option α} {k : α → Except Crash β},
      (orPanic x >>= k) = .error crash →
      crash = .indexOutOfRange ∨ ∃ a, k a = .error crash := by
    intro α β x k h
    cases x with
    | none =>
      cases h
      exact .inl rfl
    | some a => exact .inr ⟨a, h⟩
  unfold step at h
  split at h
  · cases h
  rename_i hopen
  cases msg with
  | prePrepare m =>
    left
    simp only [stepPrePrepare] at h
    split at h
    · cases h
    split at h
    · cases h
    rcases hpanic h with hcrash | ⟨b, h⟩
    · exact hcrash
    rcases hpanic h with hcrash | ⟨b', h⟩
    · exact hcrash
    cases h
  | prepare m =>
    left
    simp only [stepPrepare] at h
    split at h
    · cases h
    rcases hpanic h with hcrash | ⟨b, h⟩
    · exact hcrash
    split at h
    · cases h
    rcases hpanic h with hcrash | ⟨committed, h⟩
    · exact hcrash
    split at h
    · cases h
    rcases hpanic h with hcrash | ⟨b', h⟩
    · exact hcrash
    cases h
  | commit m =>
    left
    simp only [stepCommit] at h
    split at h
    · cases h
    rcases hpanic h with hcrash | ⟨b, h⟩
    · exact hcrash
    split at h <;> cases h
  | viewChange m =>
    simp only [stepViewChange] at h
    split at h
    · cases h
    rename_i hview
    split at h
    · cases h
    split at h
    · rename_i hmerge
      cases h
      exact .inr ⟨rfl, m, rfl, eq_false_of_ne_true hopen, not_lt.mp hview, hmerge⟩
    · cases h
  | newView m => cases h

section

variable (h : i.Transition p sender receiver msg o)
include h

/-- A Prepare answers the first PrePrepare of the current view. -/
theorem of_answer_prepare (hresp : o.resp = some (.prepare m)) :
    msg = .prePrepare m.pre ∧ receiver = m.sender ∧ i.prePrepared m.view = none ∧
      o.inst.prePrepared m.view = some m.pre := by
  cases h <;> cases hresp
  rename_i hfresh _ _
  exact ⟨rfl, rfl, hfresh, Function.update_self ..⟩

/-- A Commit answers the Prepare that completes a quorum in the current view. -/
theorem of_answer_commit (hresp : o.resp = some (.commit m)) :
    ∃ voter, msg = .prepare { m with sender := voter } ∧ receiver = m.sender ∧
      i.current = m.view ∧ (o.inst.prepared m.view).isSome ∧
      (insert voter (i.bitset p.peerCount m.hash m.view).preparers).card = p.quorum2f1 := by
  cases h <;> cases hresp
  rename_i vote b b' _ hview hvote hquorum _ _
  refine ⟨vote.sender, rfl, rfl, hview, ?_, ?_⟩
  · dsimp only
    split
    · assumption
    · simp [setPrepared]
  · rw [← (Bitset.setPrepare_spec hvote).1, ← Bitset.prepareCount_eq_card, hquorum]

/-- Whoever answers with a Commit had not committed to the value before. -/
theorem committers_of_answer (hresp : o.resp = some (.commit m)) :
    m.sender ∉ (i.bitset p.peerCount m.hash m.view).committers ∧
      m.sender ∈ (o.inst.bitset p.peerCount m.hash m.view).committers := by
  cases h <;> cases hresp
  rename_i vote b b' _ _ hvote _ hfresh hcommit
  constructor
  · intro hmem
    rw [← (Bitset.setPrepare_spec hvote).2] at hmem
    cases (Bitset.hasCommit_spec hfresh).mpr hmem
  · have hbitset : ∀ j : Instance, j.bitsets = (i.opened.setBitset vote.hash vote.view b').bitsets →
        j.bitset p.peerCount vote.hash vote.view = b' := by
      intro j hj
      simp [bitset, hj, setBitset]
    have hafter : receiver ∈ b'.committers := by
      rw [(Bitset.setCommit_spec hcommit).1]
      exact Finset.mem_insert_self _ _
    dsimp only
    split
    · rwa [hbitset (i.opened.setBitset vote.hash vote.view b') rfl]
    · rwa [hbitset ((i.opened.setBitset vote.hash vote.view b').setPrepared vote.view vote.hash) rfl]

/-- A NewView answers the vote that completes a quorum against the current
view. -/
theorem of_answer_newView (hresp : o.resp = some (.newView m)) :
    ∃ vote : Vote, msg = .viewChange vote ∧ vote.node = m.node ∧ vote.round = m.round ∧
      vote.view = m.view ∧ i.closed = false ∧ i.current ≤ vote.view ∧
      (i.protests vote).size = p.quorum2f1 ∧ mergeHashes (i.protests vote).values [] = some m.hash := by
  cases h <;> cases hresp
  rename_i vote hash hopen hview hquorum hmerge
  exact ⟨vote, rfl, rfl, rfl, rfl, hopen, hview, hquorum, hmerge⟩

/-- A PrePrepare answers the first NewView of its view. -/
theorem of_answer_prePrepare {m : PrePrepare} (hresp : o.resp = some (.prePrepare m)) :
    (∃ announcer, msg = .newView ⟨m.hash, m.node, m.round, announcer, m.view⟩) ∧
      i.hnv m.view = none ∧ (o.inst.hnv m.view).isSome := by
  cases h <;> cases hresp
  rename_i hfresh
  refine ⟨⟨_, rfl⟩, hfresh, ?_⟩
  simp [setHnv]

/-- No message is answered by a ViewChange. -/
theorem answer_ne_viewChange :
    o.resp ≠ some (.viewChange m) := by
  intro hresp
  cases h <;> cases hresp

/-- An answer belongs to the instance of its message. -/
theorem nodeRound_of_transition {resp : Message}
    (hresp : o.resp = some resp) : resp.nodeRound = msg.nodeRound := by
  cases h <;> cases hresp <;> rfl

/-- What a message decides is the instance of the message. -/
theorem key_of_transition (hdelivery : o.delivery = some d) : d.key = msg.nodeRound := by
  cases h <;> cases hdelivery
  rfl

/-- What is delivered is the value of the instance, and nothing is answered. -/
theorem final_of_transition
    (hdelivery : o.delivery = some d) : o.inst.final = some d.hash ∧ o.resp = none := by
  cases h <;> cases hdelivery
  exact ⟨rfl, rfl⟩

/-- A property of the recorded votes that a message keeps, if it has it of the votes that
the message adds: those of the two nodes that accept a value, and those that the message or
the answer to it casts. -/
theorem voters_of_transition (P Q : Hash → Nat → Nat → Prop)
    (hprepares : ∀ hash w, ∀ x ∈ (i.bitset p.peerCount hash w).preparers, P hash w x)
    (hcommits : ∀ hash w, ∀ y ∈ (i.bitset p.peerCount hash w).committers, Q hash w y)
    (haccept : ∀ m, msg = .prePrepare m →
      o.resp = some (.prepare ⟨m.hash, m.node, m.round, receiver, m.view⟩) →
      P m.hash m.view sender ∧ P m.hash m.view receiver)
    (hprepare : ∀ m, msg = .prepare m → P m.hash m.view m.sender)
    (hanswer : ∀ m, msg = .prepare m →
      o.resp = some (.commit ⟨m.hash, m.node, m.round, receiver, m.view⟩) → Q m.hash m.view receiver)
    (hcommit : ∀ m, msg = .commit m → Q m.hash m.view m.sender) :
    (∀ hash w, ∀ x ∈ (o.inst.bitset p.peerCount hash w).preparers, P hash w x) ∧
      ∀ hash w, ∀ y ∈ (o.inst.bitset p.peerCount hash w).committers, Q hash w y := by
  have hset {hash : Hash} {w : Nat} {b : Bitset} (hb : ∀ x ∈ b.preparers, P hash w x)
      (hb' : ∀ y ∈ b.committers, Q hash w y) :
      (∀ hash' w', ∀ x ∈ ((i.setBitset hash w b).bitset p.peerCount hash' w').preparers,
        P hash' w' x) ∧
      ∀ hash' w', ∀ y ∈ ((i.setBitset hash w b).bitset p.peerCount hash' w').committers,
        Q hash' w' y := by
    refine ⟨fun hash' w' x hx => ?_, fun hash' w' y hy => ?_⟩
    · rw [bitset_setBitset] at hx
      split at hx
      · rename_i heq
        exact heq.1 ▸ heq.2 ▸ hb x hx
      · exact hprepares hash' w' x hx
    · rw [bitset_setBitset] at hy
      split at hy
      · rename_i heq
        exact heq.1 ▸ heq.2 ▸ hb' y hy
      · exact hcommits hash' w' y hy
  cases h with
  | closed | drop | protest | depose | enter => exact ⟨hprepares, hcommits⟩
  | @accept m b b' hopen hview hfresh hsender hreceiver =>
    obtain ⟨hpreparers, hcommits₁⟩ := Bitset.setPrepare_spec hsender
    obtain ⟨hpreparers', hcommits₂⟩ := Bitset.setPrepare_spec hreceiver
    refine hset (fun x hx => ?_) fun y hy => ?_
    · rw [hpreparers', hpreparers, Finset.mem_insert, Finset.mem_insert] at hx
      rcases hx with rfl | rfl | hx
      · exact (haccept m rfl rfl).2
      · exact (haccept m rfl rfl).1
      · exact hprepares m.hash m.view x hx
    · rw [hcommits₂, hcommits₁] at hy
      exact hcommits m.hash m.view y hy
  | @note m b hopen hview hvote hshort =>
    obtain ⟨hpreparers, hcommits₁⟩ := Bitset.setPrepare_spec hvote
    refine hset (fun x hx => ?_) fun y hy => ?_
    · rw [hpreparers, Finset.mem_insert] at hx
      rcases hx with rfl | hx
      · exact hprepare m rfl
      · exact hprepares m.hash m.view x hx
    · rw [hcommits₁] at hy
      exact hcommits m.hash m.view y hy
  | @commit m b b' hopen hview hvote hquorum hfresh hcommit' =>
    obtain ⟨hpreparers, hcommits₁⟩ := Bitset.setPrepare_spec hvote
    obtain ⟨hcommitters, hprepares₁⟩ := Bitset.setCommit_spec hcommit'
    have hnoted := @hset m.hash m.view b' (fun x hx => ?_) fun y hy => ?_
    · dsimp only
      split <;> exact hnoted
    · rw [hprepares₁, hpreparers, Finset.mem_insert] at hx
      rcases hx with rfl | hx
      · exact hprepare m rfl
      · exact hprepares m.hash m.view x hx
    · rw [hcommitters, Finset.mem_insert] at hy
      rcases hy with rfl | hy
      · exact hanswer m rfl rfl
      · rw [hcommits₁] at hy
        exact hcommits m.hash m.view y hy
  | @acknowledge m b hopen hview hvote | @decide m b hopen hview hvote =>
    obtain ⟨hcommitters, hprepares₁⟩ := Bitset.setCommit_spec hvote
    refine hset (fun x hx => ?_) fun y hy => ?_
    · rw [hprepares₁] at hx
      exact hprepares m.hash m.view x hx
    · rw [hcommitters, Finset.mem_insert] at hy
      rcases hy with rfl | hy
      · exact hcommit m rfl
      · exact hcommits m.hash m.view y hy

/-- A value is decided by a quorum of commitments. -/
theorem quorum_of_final {hash : Hash} (hfinal : o.inst.final = some hash) : i.final = some hash ∨
    ∃ w, (o.inst.bitset p.peerCount hash w).committers.card = p.quorum2f1 := by
  cases h with
  | @decide m b hopen hview hvote hquorum hfresh =>
    cases hfinal
    refine .inr ⟨m.view, ?_⟩
    rw [← Bitset.commitCount_eq_card, ← hquorum]
    exact congrArg Bitset.commitCount ((bitset_setBitset ..).trans (if_pos ⟨rfl, rfl⟩))
  | commit =>
    left
    dsimp only at hfinal
    split at hfinal <;> exact hfinal
  | _ => exact .inl hfinal

/-- A value is prepared by the node that commits to it. -/
theorem commit_of_prepared {hash : Hash} {w : Nat} (hprepared : o.inst.prepared w = some hash) :
    i.prepared w = some hash ∨ o.resp =
      some (.commit ⟨hash, msg.nodeRound.node, msg.nodeRound.round, receiver, w⟩) := by
  cases h with
  | commit =>
    dsimp only at hprepared ⊢
    split at hprepared
    · exact .inl hprepared
    · simp only [setPrepared, Function.update_apply] at hprepared
      split at hprepared
      · rename_i hw
        cases hprepared
        exact .inr (hw ▸ rfl)
      · exact .inl hprepared
  | _ => exact .inl hprepared

end

/-- The outcomes of a view that runs out: the instance is done with it, or it
moves on to the next view and says so. -/
theorem expire_cases (i : Instance) (key : NodeRound) (node w : Nat) :
    i.expire key node w = (i, none) ∧ (i.closed = true ∨ w < i.current) ∨
    i.expire key node w = (i.setView (u32 (i.current + 1)),
        some (.viewChange ⟨(i.prepared w).getD [], key.node, key.round, node, u32 (w + 1)⟩)) ∧
      i.closed = false ∧ i.current ≤ w := by
  unfold expire
  split
  · rename_i hclosed
    exact .inl ⟨rfl, .inl hclosed⟩
  rename_i hopen
  split
  · rename_i hpast
    exact .inl ⟨rfl, .inr hpast⟩
  · rename_i hcurrent
    exact .inr ⟨rfl, eq_false_of_ne_true hopen, not_lt.mp hcurrent⟩

end Instance

variable {mem : Memory} {msg : Message} {origin : BlockID} {reply : Reply}

/-- The transition of the instance a processed message names. -/
theorem transition_of_processMessage {p : Params} {sender receiver : Nat}
    (h : processMessage p mem sender receiver origin msg = .ok reply) :
    (mem.inst msg.nodeRound).Transition p sender receiver msg
      ⟨reply.mem.inst msg.nodeRound, reply.resp, reply.delivery⟩ :=
  Instance.step_cases (step_of_processMessage h)

/-- Why a processed message stopped the program. -/
theorem step_of_processMessage_error {p : Params} {sender receiver : Nat} {crash : Crash}
    (h : processMessage p mem sender receiver origin msg = .error crash) :
    (mem.inst msg.nodeRound).step p sender receiver msg = .error crash := by
  rw [← processMessage_outcome p mem sender receiver origin msg, h]
  rfl

/-! ## Where votes are kept -/

/-- The address of the vote map that the current view of an instance uses. -/
def Memory.voteRef (mem : Memory) (key : NodeRound) : VoteRef :=
  let view : NodeRoundView := ⟨key.node, key.round, (mem.inst key).current⟩
  ⟨(mem.openVotes view).1, view⟩

/-- The votes that a new one joins are those at the address of the current view. -/
theorem lookup_protests {m : Vote} {voter : Nat} {hash : Hash}
    (h : ((mem.inst ⟨m.node, m.round⟩).protests m)[voter]? = some hash) :
    voter = m.sender ∧ hash = m.hash ∨
      ∃ vcs, mem.heap.votes[mem.voteRef ⟨m.node, m.round⟩]? = some vcs ∧ vcs[voter]? = some hash := by
  rw [Instance.protests, FiniteMap.lookup_insert] at h
  split at h
  · rename_i hvoter
    cases h
    exact .inl ⟨hvoter.symm, rfl⟩
  right
  generalize hview : (mem.inst ⟨m.node, m.round⟩).current = view at h
  simp only [Memory.voteRef, Memory.openVotes, hview]
  simp only [Memory.inst] at h
  cases hfound : mem.state.data.viewChanged[(⟨m.node, m.round, view⟩ : NodeRoundView)]? with
  | none => simp [hfound] at h
  | some epoch =>
    simp only [hfound, Option.map_some, Option.getD_some, Heap.readVotes] at h
    cases hvotes : mem.heap.votes[(⟨epoch, ⟨m.node, m.round, view⟩⟩ : VoteRef)]? with
    | none => simp [hvotes] at h
    | some vcs =>
      rw [hvotes] at h
      exact ⟨vcs, rfl, h⟩

/-- A message writes to no vote map, unless it is a vote against the current
view, which joins the votes of that view. -/
theorem votes_of_processMessage {p : Params} {sender receiver : Nat}
    (h : processMessage p mem sender receiver origin msg = .ok reply) :
    reply.mem.heap.votes = mem.heap.votes ∨ ∃ m, msg = .viewChange m ∧
      (mem.inst ⟨m.node, m.round⟩).closed = false ∧ (mem.inst ⟨m.node, m.round⟩).current ≤ m.view ∧
      reply.mem.heap.votes = mem.heap.votes.insert (mem.voteRef ⟨m.node, m.round⟩)
        ((mem.inst ⟨m.node, m.round⟩).protests m) := by
  unfold processMessage at h
  dsimp only at h
  split at h
  · cases h
    exact .inl rfl
  rename_i hopen
  cases msg with
  | prePrepare m =>
    left
    unfold processPrePrepare at h
    dsimp only at h
    split at h
    · cases h
      rfl
    split at h
    · cases h
      rfl
    obtain ⟨b, -, h⟩ := bind_eq_ok.mp h
    obtain ⟨b', -, h⟩ := bind_eq_ok.mp h
    cases h
    rfl
  | prepare m =>
    left
    unfold processPrepare at h
    dsimp only at h
    split at h
    · cases h
      rfl
    split at h <;> obtain ⟨b, -, h⟩ := bind_eq_ok.mp h
    · cases h
      rfl
    split at h
    · cases h
      rfl
    obtain ⟨committed, -, h⟩ := bind_eq_ok.mp h
    split at h
    · cases h
      rfl
    obtain ⟨b', -, h⟩ := bind_eq_ok.mp h
    cases h
    rfl
  | commit m =>
    left
    unfold processCommit at h
    dsimp only at h
    split at h
    · cases h
      rfl
    obtain ⟨b, -, h⟩ := bind_eq_ok.mp h
    split at h
    · cases h
      rfl
    split at h <;> cases h <;> rfl
  | newView m =>
    left
    unfold processNewView at h
    dsimp only at h
    split at h
    · cases h
      rfl
    split at h
    · cases h
      rfl
    cases h
    exact Heap.append_votes ..
  | viewChange m =>
    have hgot : (mem.state.getView ⟨m.node, m.round⟩).1 = (mem.inst ⟨m.node, m.round⟩).current ∧
        (mem.state.getView ⟨m.node, m.round⟩).2.data.viewChanged = mem.state.data.viewChanged := by
      unfold State.getView
      split <;> rename_i hview <;> simp [Instance.current, Memory.inst, hview]
    obtain ⟨⟨v, s⟩, hgetView⟩ : ∃ r, mem.state.getView ⟨m.node, m.round⟩ = r := ⟨_, rfl⟩
    rw [hgetView] at hgot
    obtain ⟨rfl, hvotes⟩ : v = _ ∧ s.data.viewChanged = _ := hgot
    unfold processViewChange at h
    simp only [Message.nodeRound, hgetView] at h
    split at h
    · cases h
      exact .inl rfl
    rename_i hview
    obtain ⟨⟨epoch, old, s'⟩, hopened⟩ : ∃ r, Memory.openVotes { mem with state := s }
      ⟨m.node, m.round, (mem.inst ⟨m.node, m.round⟩).current⟩ = r := ⟨_, rfl⟩
    have hsame : mem.voteRef ⟨m.node, m.round⟩ =
          ⟨epoch, m.node, m.round, (mem.inst ⟨m.node, m.round⟩).current⟩ ∧
        (mem.inst ⟨m.node, m.round⟩).protests m = old.insert m.sender m.hash := by
      -- asking for the view moves no vote map
      simp only [Memory.openVotes, hvotes] at hopened
      simp only [Memory.voteRef, Memory.openVotes, Instance.protests]
      generalize hcurrent : (mem.inst ⟨m.node, m.round⟩).current = view at hopened ⊢
      simp only [Memory.inst]
      cases hfound : mem.state.data.viewChanged[(⟨m.node, m.round, view⟩ : NodeRoundView)]? <;>
        simp only [hfound, Prod.mk.injEq] at hopened <;>
        obtain ⟨rfl, rfl, -⟩ := hopened <;> exact ⟨rfl, rfl⟩
    right
    refine ⟨m, rfl, eq_false_of_ne_true hopen, not_lt.mp hview, ?_⟩
    rw [hsame.1, hsame.2]
    simp only [hopened] at h
    split at h
    · cases h
      rfl
    split at h <;> cases h
    rfl

end Blockmania
