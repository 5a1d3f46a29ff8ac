/-
# What happens after the decision

A decided value is recorded in the state, but the mark that `processMessage` and
the loop over the timeouts test for is written nowhere. An instance therefore
stays open after its decision. It is frozen only as long as every message and
every timeout that reaches it would have changed nothing anyway, and this is
exact.
-/

import Blockmania.Graph.Run
import Blockmania.Interpreter.Chain

namespace Blockmania

open Math List FiniteMap

namespace Instance

/-- The message is too early, too late or repeats what an instance with a
decision knows. -/
def stale (p : Params) (i : Instance) (receiver : Nat) : Message → Bool
  | .prePrepare m => decide (i.current ≠ m.view ∨ (i.prePrepared m.view).isSome)
  | .prepare m =>
    let b := i.bitset p.peerCount m.hash m.view
    decide (m.view < i.current ∨ m.sender ∈ b.preparers ∧
      (i.current < m.view ∨ b.prepareCount ≠ p.quorum2f1 ∨ receiver ∈ b.committers))
  | .commit m =>
    decide (i.current < m.view ∨ m.sender ∈ (i.bitset p.peerCount m.hash m.view).committers)
  | .viewChange m =>
    let vcs := (i.viewChanged i.current).getD ∅
    decide (m.view < i.current ∨ vcs[m.sender]? = some m.hash ∧ vcs.size ≠ p.quorum2f1)
  | .newView m => decide (m.view < i.current ∨ (i.hnv m.view).isSome)

/-- An instance with a decision, which is still open. -/
structure Decided (i : Instance) : Prop where
  isOpen : i.closed = false
  view : i.view.isSome
  final : i.final.isSome

section

variable {p : Params} {i : Instance} {sender receiver : Nat} {hash : Hash} {w : Nat} {b : Bitset}

/-- Asking for a view that is there changes nothing. -/
theorem opened_of_view (h : i.view.isSome) : i.opened = i := by
  obtain ⟨view, hview⟩ := Option.isSome_iff_exists.mp h
  ext1 <;> try rfl
  simp [opened, setView, current, hview]

theorem setBitset_eq_self : i.setBitset hash w b = i ↔ i.bitsets hash w = some b := by
  constructor
  · intro h
    rw [← h]
    simp [setBitset]
  · intro h
    ext1 <;> try rfl
    funext hash' w'
    simp only [setBitset]
    split
    · rename_i heq
      rw [← heq.1, ← heq.2, h]
    · rfl

variable {size v : Nat} {msg : Message} {o : Outcome}

/-- Votes with a member are stored. -/
theorem bitsets_of_mem
    (h : v ∈ (i.bitset size hash w).preparers ∨ v ∈ (i.bitset size hash w).committers) :
    i.bitsets hash w = some (i.bitset size hash w) := by
  unfold bitset at h ⊢
  cases hfound : i.bitsets hash w with
  | some b => rfl
  | none => simp [hfound] at h

/-- Noting a prepare vote changes nothing exactly if it was there. -/
theorem setBitset_prepare_eq_self (hvote : (i.bitset size hash w).setPrepare v = some b) :
    i.setBitset hash w b = i ↔ v ∈ (i.bitset size hash w).preparers := by
  rw [setBitset_eq_self]
  constructor
  · intro hstored
    have hsame : i.bitset size hash w = b := by rw [bitset, hstored, Option.getD_some]
    have hmem : v ∈ b.preparers := by
      rw [(Bitset.setPrepare_spec hvote).1]
      exact Finset.mem_insert_self _ _
    exact hsame.symm ▸ hmem
  · intro hmem
    rw [Bitset.setPrepare_of_mem hmem hvote]
    exact bitsets_of_mem (.inl hmem)

/-- Noting a commitment changes nothing exactly if it was there. -/
theorem setBitset_commit_eq_self (hvote : (i.bitset size hash w).setCommit v = some b) :
    i.setBitset hash w b = i ↔ v ∈ (i.bitset size hash w).committers := by
  rw [setBitset_eq_self]
  constructor
  · intro hstored
    have hsame : i.bitset size hash w = b := by rw [bitset, hstored, Option.getD_some]
    have hmem : v ∈ b.committers := by
      rw [(Bitset.setCommit_spec hvote).1]
      exact Finset.mem_insert_self _ _
    exact hsame.symm ▸ hmem
  · intro hmem
    rw [Bitset.setCommit_of_mem hmem hvote]
    exact bitsets_of_mem (.inr hmem)

theorem setViewChanged_eq_self {vcs : FiniteMap Nat Hash} :
    i.setViewChanged w vcs = i ↔ i.viewChanged w = some vcs := by
  constructor
  · intro h
    rw [← h]
    simp [setViewChanged]
  · intro h
    ext1 <;> try rfl
    simp [setViewChanged, ← h]

/-- A vote against the current view that is there already. -/
theorem protests_of_lookup {m : Vote}
    (h : ((i.viewChanged i.current).getD ∅)[m.sender]? = some m.hash) :
    i.viewChanged i.current = some (i.protests m) := by
  have hsame : i.protests m = (i.viewChanged i.current).getD ∅ := by
    apply ext_lookup
    intro a
    rw [protests, lookup_insert]
    split
    · rename_i heq
      rw [← heq, h]
    · rfl
  cases hfound : i.viewChanged i.current with
  | some vcs => rw [hsame, hfound, Option.getD_some]
  | none => simp [hfound] at h

/-- A decided instance ignores exactly the stale messages. -/
theorem Decided.ignores_iff (h : i.Decided) (htransition : i.Transition p sender receiver msg o) :
    (o.resp = none ∧ o.inst = i) ↔ i.stale p receiver msg = true := by
  have hopened := opened_of_view h.view
  cases htransition with
  | closed hclosed =>
    rw [h.isOpen] at hclosed
    cases hclosed
  | drop _ hdrop =>
    rw [hopened]
    refine iff_of_true ⟨rfl, rfl⟩ ?_
    cases msg with
    | prePrepare m | newView m => exact decide_eq_true hdrop
    | prepare m | commit m | viewChange m => exact decide_eq_true (.inl hdrop)
  | accept _ hview hfresh =>
    refine iff_of_false (fun hignored => by cases hignored.1) ?_
    simp [stale, hview, hfresh]
  | @note m b _ hview hvote hshort =>
    rw [hopened, stale, decide_eq_true_eq, or_iff_right (not_lt.mpr hview)]
    refine ((and_iff_right rfl).trans (setBitset_prepare_eq_self hvote)).trans
      (iff_self_and.mpr fun hmem => ?_)
    rw [Bitset.setPrepare_of_mem hmem hvote] at hshort
    exact hshort.imp_right (Or.imp_right fun hhas => (Bitset.hasCommit_spec hhas).mp rfl)
  | @commit m b b' _ hview hvote hquorum hfresh =>
    refine iff_of_false (fun hignored => by cases hignored.1) ?_
    rw [stale, decide_eq_true_eq, or_iff_right (not_lt.mpr hview.le)]
    rintro ⟨hmem, hshort⟩
    rw [Bitset.setPrepare_of_mem hmem hvote] at hquorum hfresh
    rcases hshort with hfuture | hcount | hcommitted
    · exact absurd hview hfuture.ne
    · exact hcount hquorum
    · cases (Bitset.hasCommit_spec hfresh).mpr hcommitted
  | @acknowledge m b _ hview hvote =>
    rw [hopened, stale, decide_eq_true_eq, or_iff_right (not_lt.mpr hview)]
    exact (and_iff_right rfl).trans (setBitset_commit_eq_self hvote)
  | decide _ _ _ _ hfresh =>
    have := h.final
    simp [hfresh] at this
  | @protest m _ hview hshort =>
    rw [hopened, stale, decide_eq_true_eq, or_iff_right (not_lt.mpr hview)]
    refine ((and_iff_right rfl).trans setViewChanged_eq_self).trans ⟨fun hsame => ?_, fun hseen => ?_⟩
    · rw [hsame, Option.getD_some]
      exact ⟨lookup_insert_self _ _ _, hshort⟩
    · exact protests_of_lookup hseen.1
  | @depose m hash _ hview hquorum =>
    refine iff_of_false (fun hignored => by cases hignored.1) ?_
    rw [stale, decide_eq_true_eq, or_iff_right (not_lt.mpr hview)]
    rintro ⟨hseen, hsize⟩
    rw [protests_of_lookup hseen, Option.getD_some] at hsize
    exact hsize hquorum
  | enter _ hview hfresh =>
    refine iff_of_false (fun hignored => by cases hignored.1) ?_
    simp [stale, hview, hfresh]

/-- An open instance stays open, keeps its decision and knows its view after
every message. -/
theorem open_of_transition (hopen : i.closed = false) (h : i.Transition p sender receiver msg o) :
    o.inst.closed = false ∧ o.inst.view.isSome ∧ (i.final.isSome → o.inst.final.isSome) := by
  cases h with
  | closed hclosed =>
    rw [hopen] at hclosed
    cases hclosed
  | commit =>
    dsimp only
    split <;> exact ⟨hopen, rfl, id⟩
  | decide => exact ⟨hopen, rfl, fun _ => rfl⟩
  | _ => exact ⟨hopen, rfl, id⟩

end

end Instance

namespace Event

/-- The step of the event is one that a decided instance ignores. -/
def stale (p : Params) (ev : Event) : Bool :=
  match ev.cause with
  | .timeout t => decide (t.view < (ev.mem.inst ev.key).current)
  | .message _ receiver msg => (ev.mem.inst ev.key).stale p receiver msg

/-- The step answers nothing and leaves its instance as it was: for a message
`processMessage` returns nil, for a timeout no ViewChange is emitted. -/
def Frozen (p : Params) (ev : Event) : Prop :=
  ∃ reply, ev.reply p = .ok reply ∧ reply.resp = none ∧
    reply.mem.inst ev.key = ev.mem.inst ev.key

theorem frozen_iff {p : Params} {ev : Event} {reply : Reply}
    (hdecided : (ev.mem.inst ev.key).Decided) (h : ev.reply p = .ok reply) :
    ev.Frozen p ↔ ev.stale p = true := by
  have hfrozen : ev.Frozen p ↔ reply.resp = none ∧ reply.mem.inst ev.key = ev.mem.inst ev.key := by
    simp [Frozen, h]
  rw [hfrozen]
  rcases reply_cases h with ⟨t, hcause, houtcome⟩ | ⟨sender, receiver, msg, hcause, htransition⟩
  · simp only [stale, hcause, decide_eq_true_eq]
    obtain ⟨hexpired, hdone⟩ | ⟨hexpired, -, hview⟩ :=
      (ev.mem.inst ev.key).expire_cases ev.key ev.block.node t.view
    · obtain ⟨hinst, hresp⟩ := Prod.mk.inj (houtcome.trans hexpired)
      refine iff_of_true ⟨hresp, hinst⟩ (hdone.resolve_left ?_)
      simp [hdecided.isOpen]
    · obtain ⟨-, hresp⟩ := Prod.mk.inj (houtcome.trans hexpired)
      refine iff_of_false (fun hnone => ?_) (not_lt.mpr hview)
      rw [hresp] at hnone
      cases hnone.1
  · simp only [stale, hcause]
    exact hdecided.ignores_iff htransition

end Event

/-- An instance of a chain is open, and knows its view if it has a decision. -/
def Instance.Regular (i : Instance) : Prop :=
  i.closed = false ∧ (i.final.isSome → i.view.isSome)

variable {msg : Message} {o : Outcome}

theorem Instance.regular_of_transition {p : Params} {i : Instance} {sender receiver : Nat}
    (h : i.Regular) (htransition : i.Transition p sender receiver msg o) :
    o.inst.Regular :=
  ⟨(open_of_transition h.1 htransition).1, fun _ => (open_of_transition h.1 htransition).2.1⟩

theorem Instance.decided_of_transition {p : Params} {i : Instance} {sender receiver : Nat}
    (h : i.Decided) (htransition : i.Transition p sender receiver msg o) :
    o.inst.Decided :=
  have hafter := open_of_transition h.isOpen htransition
  ⟨hafter.1, hafter.2.1, hafter.2.2 h.final⟩

/-- After its decision an instance is frozen exactly as long as nothing but
stale messages and timeouts reaches it. -/
theorem frozen_iff_stale {p : Params} {foreign : BlockID → List Message} {xs ys : List Link}
    {key : NodeRound} {c d : Chain} (hlinked : Linked (xs ++ ys))
    (hmin : ∀ link ∈ xs ++ ys, link.minround ≤ key.round)
    (hrun : Chain.new.extendAll p foreign xs = .ok c) (hfinal : (c.mem.state.final[key]?).isSome)
    (hcontinued : c.extendAll p foreign ys = .ok d) :
    (∀ ev ∈ d.tape.events.drop c.tape.events.length, ev.key = key → ev.Frozen p) ↔
      ∀ ev ∈ d.tape.events.drop c.tape.events.length, ev.key = key → ev.stale p = true := by
  have htrail : Trail p key.round [] Chain.new.mem c.tape.events c.mem := by
    refine Chain.trail_extendAll (fun link hlink => hmin link (mem_append_left _ hlink))
      (fun _ _ hlast => by cases hlast) (fun link hlink => ?_) Trail.start hrun
    exact Linked.valid_of_mem_tail (List.IsChain.left_of_append hlinked) link hlink
  have hregular := (htrail.invariant le_rfl
    (Event.reply_keeps Instance.regular_of_transition (fun w _ h => ⟨h.1, fun _ => rfl⟩) key)
    (by simp [Instance.Regular, Chain.new, Chain.mem, Memory.inst, State.fresh, Data.empty])).1
  have hdecided : (c.mem.inst key).Decided := ⟨hregular.1, hregular.2 hfinal, hfinal⟩
  have hcontinuation : Trail p key.round c.tape.events c.mem d.tape.events d.mem := by
    refine Chain.trail_extendAll (fun link hlink => hmin link (mem_append_right _ hlink))
      (fun link hlink hlast => ?_) (fun link hlink => ?_) Trail.start hcontinued
    · refine hlinked.valid_of_mem_tail link ?_
      cases xs with
      | nil =>
        cases hrun
        cases hlast
      | cons x xs => exact mem_append_right xs (mem_of_mem_head? hlink)
    · refine hlinked.valid_of_mem_tail link ?_
      cases xs with
      | nil => exact hlink
      | cons x xs => exact mem_append_right xs (mem_of_mem_tail hlink)
  have hevents := (hcontinuation.invariant le_rfl
    (Event.reply_keeps Instance.decided_of_transition (fun w _ h => ⟨h.isOpen, rfl, h.final⟩) key)
    hdecided).2
  refine forall₂_congr fun ev hev => ?_
  refine imp_congr_right fun hkey => ?_
  obtain ⟨hinst, reply, hreply⟩ := hevents ev hev
  subst hkey
  exact Event.frozen_iff hinst hreply

/-- A block of node 4 that receives the commitments of the first three nodes to
the block of node 1 in round 1. -/
def committedLinks : List Link :=
  [⟨0, blockAt 4 1, [blockAt 1 5, blockAt 2 5, blockAt 3 5], .zero⟩]

/-- The next block of node 4, which receives two of the commitments again. -/
def repeatedLinks : List Link :=
  [⟨1, blockAt 4 2, [blockAt 1 6, blockAt 2 6], blockAt 4 1⟩]

/-- The output of a block that holds the commitment of its node. -/
def commitOutput (b : BlockID) : List Message :=
  [.commit ⟨[1, 1], 1, 1, b.node, 0⟩]

/-- Repeated commitments leave a decided instance frozen. -/
theorem frozen_repeatedLinks :
    ∃ c d, Chain.new.extendAll .four commitOutput committedLinks = .ok c ∧
      c.extendAll .four commitOutput repeatedLinks = .ok d ∧
      ∀ ev ∈ d.tape.events.drop c.tape.events.length, ev.key = ⟨1, 1⟩ → ev.Frozen .four := by
  have hcheck : succeeds (Chain.new.extendAll .four commitOutput committedLinks) (fun c =>
      c.mem.state.final[(⟨1, 1⟩ : NodeRound)]?.isSome &&
      succeeds (c.extendAll .four commitOutput repeatedLinks) fun d =>
        (d.tape.events.drop c.tape.events.length).all fun ev =>
          decide (ev.key = ⟨1, 1⟩ → ev.stale .four = true)) = true := by
    decide +kernel
  obtain ⟨c, hrun, hfacts⟩ := exists_of_succeeds hcheck
  obtain ⟨hfinal, hcontinued⟩ := Bool.and_eq_true_iff.mp hfacts
  obtain ⟨d, hcontinued, hstale⟩ := exists_of_succeeds hcontinued
  have hlinked : Linked (committedLinks ++ repeatedLinks) := by
    simp [Linked, committedLinks, repeatedLinks, blockAt, BlockID.valid]
  have hmin : ∀ link ∈ committedLinks ++ repeatedLinks, link.minround ≤ 1 := by
    simp [committedLinks, repeatedLinks]
  refine ⟨c, d, hrun, hcontinued, (frozen_iff_stale hlinked hmin hrun hfinal hcontinued).mpr ?_⟩
  intro ev hev
  exact of_decide_eq_true (all_eq_true.mp hstale ev hev)

/-- Node 1 decides its block of round 1, which nodes 2 and 3 prepare and commit,
and then goes on alone until the timeouts of round 1 fall due. -/
def decidedEarly : List BlockGraph :=
  [ownAt 1 1 [], ownAt 1 2 [depAt 2 1 [], depAt 3 1 []],
    ownAt 1 3 [depAt 2 2 [blockAt 1 1, blockAt 3 1], depAt 3 2 [blockAt 1 1, blockAt 2 1]],
    ownAt 1 4 [depAt 2 3 [blockAt 1 2, blockAt 3 2], depAt 3 3 [blockAt 1 2, blockAt 2 2]],
    ownAt 1 5 [depAt 2 4 [blockAt 1 3, blockAt 3 3], depAt 3 4 [blockAt 1 3, blockAt 2 3]],
    ownAt 1 6 [], ownAt 1 7 [], ownAt 1 8 [], ownAt 1 9 [], ownAt 1 10 [], ownAt 1 11 []]

/-- The timeout of a decided instance falls due and a ViewChange is emitted. -/
theorem not_frozen_decidedEarly :
    ∃ g, Graph.addAll (Graph.new .four 0) decidedEarly = .ok g ∧ g.round = 1 ∧
      (∃ s, g.statess[blockAt 1 10]? = some s ∧ s.final[(⟨1, 1⟩ : NodeRound)]?.isSome) ∧
      ∃ ev ∈ g.trace, ev.block = blockAt 1 11 ∧ ev.key = ⟨1, 1⟩ ∧ ¬ ev.Frozen .four := by
  have hcheck : succeeds (Graph.addAll (Graph.new .four 0) decidedEarly) (fun g =>
      decide (g.round = 1) &&
      (g.statess[blockAt 1 10]?.any fun s => s.final[(⟨1, 1⟩ : NodeRound)]?.isSome) &&
      g.trace.any fun ev => decide (ev.block = blockAt 1 11 ∧ ev.key = ⟨1, 1⟩) &&
        succeeds (ev.reply .four) fun reply => reply.resp.isSome) = true := by decide +kernel
  obtain ⟨g, hrun, hfacts⟩ := exists_of_succeeds hcheck
  simp only [Bool.and_eq_true, decide_eq_true_eq, any_eq_true, Option.any_eq_true] at hfacts
  obtain ⟨⟨hround, s, hs, hfinal⟩, ev, hev, ⟨hblock, hkey⟩, hreply⟩ := hfacts
  refine ⟨g, hrun, hround, ⟨s, hs, hfinal⟩, ev, hev, hblock, hkey, ?_⟩
  rintro ⟨reply, hfrozen, hnone, -⟩
  rw [hfrozen] at hreply
  simp [succeeds, hnone] at hreply

end Blockmania
