/-
# Reprocessing a message

Every block reads the whole output of its predecessor again, on a clone of the state that
has processed it already. An instance absorbs a message if processing it has no effect, and
after a message was processed its instance absorbs it. The exception is a ViewChange that
completes a quorum: its count is met again, or its vote is stored once more under the view
that it led to.
-/

import Blockmania.Graph.Run
import Blockmania.Interpreter.Loops

namespace Blockmania

open Math FiniteMap

namespace Instance

/-- What there is to show for a message that has no effect on the instance in view `v`. -/
def AbsorbsIn (p : Params) (i : Instance) (v receiver : Nat) : Message → Prop
  | .prePrepare m => v ≠ m.view ∨ (i.prePrepared m.view).isSome
  | .prepare m => m.view < v ∨ ∃ b, i.bitsets m.hash m.view = some b ∧
      b.setPrepare m.sender = some b ∧
      (v < m.view ∨ b.prepareCount ≠ p.quorum2f1 ∨ b.hasCommit receiver = some true)
  | .commit m => v < m.view ∨ ∃ b, i.bitsets m.hash m.view = some b ∧
      b.setCommit m.sender = some b ∧ (b.commitCount ≠ p.quorum2f1 ∨ i.final.isSome)
  | .viewChange m => m.view < v ∨ ∃ vcs, i.viewChanged v = some vcs ∧
      vcs[m.sender]? = some m.hash ∧ vcs.size ≠ p.quorum2f1
  | .newView m => m.view < v ∨ (i.hnv m.view).isSome

/-- The message has no effect on the instance. -/
def Absorbs (p : Params) (i : Instance) (receiver : Nat) (msg : Message) : Prop :=
  i.closed = true ∨ ∃ v, i.view = some v ∧ i.AbsorbsIn p v receiver msg

/-- The message is not a ViewChange that completes a quorum of the current view. It may be
one if the view it leads to has its vote already and is not at a quorum. -/
def repeatable (p : Params) (i : Instance) : Message → Bool
  | .viewChange m =>
    i.closed || decide (m.view < i.current) ||
      decide ((((i.viewChanged i.current).getD ∅).insert m.sender m.hash).size ≠ p.quorum2f1) ||
      decide (i.current < m.view) && (i.viewChanged m.view).any fun vcs =>
        decide (vcs[m.sender]? = some m.hash ∧ vcs.size ≠ p.quorum2f1)
  | _ => true

end Instance

section

variable {p : Params} {mem : Memory} {v sender receiver : Nat} {b : Bitset} {pp : PrePrepare}
  {s : State} {m : Vote} {origin : BlockID}

theorem State.setBitset_of_lookup (h : s.bitsets[pp]? = some b) : s.setBitset pp b = s := by
  rw [State.setBitset, insert_of_lookup h]

theorem State.getBitset_of_lookup {size : Nat} (h : s.bitsets[pp]? = some b) :
    s.getBitset size pp = b := by
  rw [State.getBitset, h, Option.getD_some]

theorem processPrePrepare_of_absorbs {m : PrePrepare}
    (h : (mem.inst ⟨m.node, m.round⟩).AbsorbsIn p v receiver (.prePrepare m)) :
    processPrePrepare p mem v sender receiver m = .ok (.ignore mem) := by
  unfold processPrePrepare
  rcases h with hview | hknown
  · exact if_pos hview
  · exact (congrArg (ite _ _) (if_pos hknown)).trans (ite_self _)

theorem processPrepare_of_absorbs
    (h : (mem.inst ⟨m.node, m.round⟩).AbsorbsIn p v receiver (.prepare m)) :
    processPrepare p mem v receiver m = .ok (.ignore mem) := by
  unfold processPrepare
  rcases h with hpast | ⟨b, hb, hset, hquiet⟩
  · exact if_pos hpast
  · have hlookup : mem.state.bitsets[m.pre]? = some b := hb
    dsimp only
    rw [State.getBitset_of_lookup hlookup, hset]
    simp only [orPanic, bind, Except.bind, State.setBitset_of_lookup hlookup]
    split
    · rfl
    split
    · rfl
    · rename_i hpresent
      split
      · rfl
      · rename_i hcount
        have hcommit := (hquiet.resolve_left hpresent).resolve_left hcount
        rw [hcommit]
        rfl

theorem processCommit_of_absorbs
    (h : (mem.inst ⟨m.node, m.round⟩).AbsorbsIn p v receiver (.commit m)) :
    processCommit p mem v m = .ok (.ignore mem) := by
  unfold processCommit
  rcases h with hfuture | ⟨b, hb, hset, hquiet⟩
  · exact if_pos hfuture
  · have hlookup : mem.state.bitsets[m.pre]? = some b := hb
    dsimp only
    rw [State.getBitset_of_lookup hlookup, hset]
    simp only [orPanic, bind, Except.bind, State.setBitset_of_lookup hlookup]
    split
    · rfl
    split
    · rfl
    · rename_i hcount
      exact if_pos (hquiet.resolve_left hcount)

theorem processViewChange_of_absorbs
    (h : (mem.inst ⟨m.node, m.round⟩).AbsorbsIn p v receiver (.viewChange m)) :
    processViewChange p mem v receiver m = .ok (.ignore mem) := by
  unfold processViewChange
  rcases h with hpast | ⟨vcs, hvcs, hvote, hsize⟩
  · exact if_pos hpast
  · obtain ⟨epoch, hepoch, hread⟩ := Option.map_eq_some_iff.mp hvcs
    have hstored : mem.heap.votes[(⟨epoch, ⟨m.node, m.round, v⟩⟩ : VoteRef)]? = some vcs := by
      rw [Heap.readVotes] at hread
      cases hfound : mem.heap.votes[(⟨epoch, ⟨m.node, m.round, v⟩⟩ : VoteRef)]? with
      | some vcs' =>
        rw [hfound, Option.getD_some] at hread
        rw [hread]
      | none =>
        -- an empty map does not have the vote
        rw [hfound, Option.getD_none] at hread
        rw [← hread] at hvote
        simp at hvote
    have hopen : mem.openVotes ⟨m.node, m.round, v⟩ = (epoch, vcs, mem.state) := by
      rw [Memory.openVotes, hepoch]
      dsimp only
      rw [hread]
    simp only [hopen]
    rw [insert_of_lookup hvote, if_pos hsize, Heap.writeVotes, insert_of_lookup hstored, ite_self]

theorem processNewView_of_absorbs
    (h : (mem.inst ⟨m.node, m.round⟩).AbsorbsIn p v receiver (.newView m)) :
    processNewView p mem v origin m = .ok (.ignore mem) := by
  unfold processNewView
  rcases h with hpast | hknown
  · exact if_pos hpast
  · exact (congrArg (ite _ _) (if_pos hknown)).trans (ite_self _)

/-- A message that its instance absorbs is answered by nothing and changes nothing. -/
theorem processMessage_of_absorbs {msg : Message}
    (h : (mem.inst msg.nodeRound).Absorbs p receiver msg) :
    processMessage p mem sender receiver origin msg = .ok (.ignore mem) := by
  unfold processMessage
  rcases h with hclosed | ⟨v, hview, habsorbs⟩
  · exact if_pos hclosed
  · have hgot : mem.state.getView msg.nodeRound = (v, mem.state) := by
      rw [State.getView, show mem.state.data.view[msg.nodeRound]? = some v from hview]
    dsimp only
    rw [hgot]
    refine (congrArg (ite _ _) ?_).trans (ite_self _)
    cases msg with
    | prePrepare m => exact processPrePrepare_of_absorbs habsorbs
    | prepare m => exact processPrepare_of_absorbs habsorbs
    | commit m => exact processCommit_of_absorbs habsorbs
    | viewChange m => exact processViewChange_of_absorbs habsorbs
    | newView m => exact processNewView_of_absorbs habsorbs

end

/-! ## A processed message is absorbed -/

namespace Words

variable {ws ws' : Words}

/-- A set bit can be set again. -/
theorem setBit_again {v : Nat} (h : ws.setBit v = some ws') :
    ws'.setBit v = some ws' := by
  have hroom : (ws'.setBit v).isSome := by
    rw [setBit_isSome, length_setBit h, ← setBit_isSome, h]
    rfl
  obtain ⟨ws'', hset⟩ := Option.isSome_iff_exists.mp hroom
  have hmem : v ∈ ws'.members := by
    rw [members_setBit h]
    exact Finset.mem_insert_self _ _
  rw [hset, setBit_of_mem hmem hset]

theorem hasBit_setBit {v : Nat} (h : ws.setBit v = some ws') :
    ws'.hasBit v = some true := by
  have hroom : (ws'.hasBit v).isSome := by
    rw [hasBit, Option.isSome_map, ← Option.isSome_map, ← setBit, setBit_again h]
    rfl
  obtain ⟨found, hfound⟩ := Option.isSome_iff_exists.mp hroom
  have hmem : v ∈ ws'.members := by
    rw [members_setBit h]
    exact Finset.mem_insert_self _ _
  rw [hfound, (hasBit_eq_some hfound).mpr hmem]

end Words

namespace Bitset

variable {b b' : Bitset}

theorem setPrepare_again {v : Nat} (h : b.setPrepare v = some b') :
    b'.setPrepare v = some b' := by
  obtain ⟨prepares, hset, rfl⟩ := Option.map_eq_some_iff.mp h
  rw [setPrepare, Words.setBit_again hset]
  rfl

theorem setCommit_again {v : Nat} (h : b.setCommit v = some b') :
    b'.setCommit v = some b' := by
  obtain ⟨commits, hset, rfl⟩ := Option.map_eq_some_iff.mp h
  rw [setCommit, Words.setBit_again hset]
  rfl

theorem hasCommit_setCommit {v : Nat} (h : b.setCommit v = some b') :
    b'.hasCommit v = some true := by
  obtain ⟨commits, hset, rfl⟩ := Option.map_eq_some_iff.mp h
  exact Words.hasBit_setBit hset

/-- A commitment does not undo a vote. -/
theorem setPrepare_setCommit {u v : Nat} (h : b.setPrepare u = some b)
    (hcommit : b.setCommit v = some b') : b'.setPrepare u = some b' := by
  obtain ⟨commits, -, rfl⟩ := Option.map_eq_some_iff.mp hcommit
  obtain ⟨prepares, hset, heq⟩ := Option.map_eq_some_iff.mp h
  have hsame : prepares = b.prepares := congrArg Bitset.prepares heq
  rw [setPrepare]
  dsimp only
  rw [hset, hsame]
  rfl

end Bitset

namespace Instance

variable {p : Params} {i : Instance} {v sender receiver : Nat} {out : Outcome}

@[simp]
theorem bitsets_setBitset_self (i : Instance) (hash : Hash) (w : Nat) (b : Bitset) :
    (i.setBitset hash w b).bitsets hash w = some b :=
  if_pos ⟨rfl, rfl⟩

theorem absorbsIn_of_stepPrePrepare {m : PrePrepare} (hview : i.view = some v)
    (h : i.stepPrePrepare p v sender receiver m = .ok out) :
    out.inst.view = some v ∧ out.inst.AbsorbsIn p v receiver (.prePrepare m) := by
  unfold stepPrePrepare at h
  split at h
  · rename_i hother
    cases h
    exact ⟨hview, .inl hother⟩
  split at h
  · rename_i hknown
    cases h
    exact ⟨hview, .inr hknown⟩
  obtain ⟨b, -, h⟩ := bind_eq_ok.mp h
  obtain ⟨b', -, h⟩ := bind_eq_ok.mp h
  cases h
  refine ⟨hview, .inr ?_⟩
  simp [setPrePrepared]

variable {m : Vote}

theorem absorbsIn_of_stepPrepare (hview : i.view = some v)
    (h : i.stepPrepare p v receiver m = .ok out) :
    out.inst.view = some v ∧ out.inst.AbsorbsIn p v receiver (.prepare m) := by
  unfold stepPrepare at h
  split at h
  · rename_i hpast
    cases h
    exact ⟨hview, .inl hpast⟩
  obtain ⟨b, hb, h⟩ := bind_eq_ok.mp h
  have hagain := Bitset.setPrepare_again (orPanic_eq_ok.mp hb)
  dsimp only at h
  split at h
  · rename_i hquiet
    cases h
    refine ⟨hview, .inr ⟨b, bitsets_setBitset_self _ _ _ _, hagain, ?_⟩⟩
    exact hquiet.imp_right .inl
  obtain ⟨committed, hcommitted, h⟩ := bind_eq_ok.mp h
  split at h
  · rename_i htrue
    cases h
    refine ⟨hview, .inr ⟨b, bitsets_setBitset_self _ _ _ _, hagain, .inr (.inr ?_)⟩⟩
    rw [orPanic_eq_ok.mp hcommitted, htrue]
  obtain ⟨b', hb', h⟩ := bind_eq_ok.mp h
  have hcommit := orPanic_eq_ok.mp hb'
  cases h
  refine ⟨?_, .inr ⟨b', ?_, Bitset.setPrepare_setCommit hagain hcommit,
    .inr (.inr (Bitset.hasCommit_setCommit hcommit))⟩⟩
  · dsimp only
    split <;> exact hview
  · dsimp only
    split <;> exact bitsets_setBitset_self _ _ _ _

theorem absorbsIn_of_stepCommit (hview : i.view = some v) (h : i.stepCommit p v m = .ok out) :
    out.inst.view = some v ∧ out.inst.AbsorbsIn p v receiver (.commit m) := by
  unfold stepCommit at h
  split at h
  · rename_i hfuture
    cases h
    exact ⟨hview, .inl hfuture⟩
  obtain ⟨b, hb, h⟩ := bind_eq_ok.mp h
  have hagain := Bitset.setCommit_again (orPanic_eq_ok.mp hb)
  dsimp only at h
  split at h
  · rename_i hquiet
    cases h
    exact ⟨hview, .inr ⟨b, bitsets_setBitset_self _ _ _ _, hagain, hquiet⟩⟩
  · cases h
    exact ⟨hview, .inr ⟨b, bitsets_setBitset_self _ _ _ _, hagain, .inr rfl⟩⟩

theorem absorbsIn_of_stepNewView (hview : i.view = some v) (h : i.stepNewView v m = out) :
    ∃ w, out.inst.view = some w ∧ out.inst.AbsorbsIn p w receiver (.newView m) := by
  unfold stepNewView at h
  split at h
  · rename_i hpast
    subst h
    exact ⟨v, hview, .inl hpast⟩
  split at h
  · rename_i hknown
    subst h
    exact ⟨v, hview, .inr hknown⟩
  · subst h
    refine ⟨m.view, rfl, .inr ?_⟩
    simp [setHnv]

/-- The ViewChange case, which has the exception. -/
theorem absorbs_iff_of_stepViewChange (hview : i.view = some v) (hopen : i.closed = false)
    (h : i.stepViewChange p v receiver m = .ok out) :
    out.inst.Absorbs p receiver (.viewChange m) ↔ i.repeatable p (.viewChange m) = true := by
  have hcurrent : i.current = v := by rw [current, hview, Option.getD_some]
  simp only [repeatable, hopen, hcurrent, Bool.false_or, Bool.or_eq_true, Bool.and_eq_true,
    decide_eq_true_eq, Option.any_eq_true]
  unfold stepViewChange at h
  split at h
  · rename_i hpast
    cases h
    exact iff_of_true (.inr ⟨v, hview, .inl hpast⟩) (.inl (.inl hpast))
  rename_i hpast
  dsimp only at h
  split at h
  · rename_i hsize
    cases h
    refine iff_of_true (.inr ⟨v, hview, .inr ⟨_, Function.update_self _ _ _, ?_, hsize⟩⟩)
      (.inl (.inr hsize))
    exact lookup_insert_self _ _ _
  rename_i hsize
  split at h
  · cases h
  rename_i hash hmerge
  cases h
  -- the next time the message meets the view it led to
  have habsorbs : Absorbs p ((i.setViewChanged v (((i.viewChanged v).getD ∅).insert m.sender
      m.hash)).setView m.view) receiver (.viewChange m) ↔
      ∃ vcs, Function.update i.viewChanged v (some (((i.viewChanged v).getD ∅).insert m.sender
        m.hash)) m.view = some vcs ∧ vcs[m.sender]? = some m.hash ∧ vcs.size ≠ p.quorum2f1 := by
    constructor
    · rintro (hclosed | ⟨w, hw, hearlier | hstored⟩)
      · cases hopen.symm.trans hclosed
      · cases hw
        exact absurd hearlier (lt_irrefl _)
      · cases hw
        exact hstored
    · exact fun hstored => .inr ⟨m.view, rfl, .inr hstored⟩
  rw [habsorbs]
  constructor
  · rintro ⟨vcs, hvcs, hvote, hother⟩
    have hne : v ≠ m.view := by
      intro heq
      rw [← heq, Function.update_self] at hvcs
      cases hvcs
      exact hsize hother
    rw [Function.update_of_ne hne.symm] at hvcs
    exact .inr ⟨lt_of_le_of_ne (not_lt.mp hpast) hne, vcs, hvcs, hvote, hother⟩
  · rintro ((hearlier | hfew) | ⟨hlater, vcs, hvcs, hvote, hother⟩)
    · exact absurd hearlier hpast
    · exact absurd hfew hsize
    · refine ⟨vcs, ?_, hvote, hother⟩
      rw [Function.update_of_ne hlater.ne', hvcs]

/-- A ViewChange without an effect is absorbed. -/
theorem absorbs_of_step_ignore (h : i.step p sender receiver (.viewChange m) = .ok i.ignore) :
    i.Absorbs p receiver (.viewChange m) := by
  unfold step at h
  split at h
  · rename_i hclosed
    exact .inl hclosed
  dsimp only at h
  unfold stepViewChange at h
  split at h
  · rename_i hpast
    have hsame : i.setView i.current = i := congrArg Outcome.inst (Except.ok.inj h)
    exact .inr ⟨i.current, (congrArg view hsame).symm, .inl hpast⟩
  dsimp only at h
  split at h
  · rename_i hsize
    have hsame : (i.setView i.current).setViewChanged i.current _ = i :=
      congrArg Outcome.inst (Except.ok.inj h)
    refine .inr ⟨i.current, (congrArg view hsame).symm, .inr ⟨_, ?_, ?_, hsize⟩⟩
    · exact (congrFun (congrArg viewChanged hsame) i.current).symm.trans
        (Function.update_self _ _ _)
    · exact lookup_insert_self _ _ _
  · split at h
    · cases h
    · cases congrArg Outcome.resp (Except.ok.inj h)

/-- After a message was processed its instance absorbs it, exactly if it is
repeatable. -/
theorem absorbs_iff_of_step {msg : Message} (h : i.step p sender receiver msg = .ok out) :
    out.inst.Absorbs p receiver msg ↔ i.repeatable p msg = true := by
  unfold step at h
  split at h
  · rename_i hclosed
    cases h
    refine iff_of_true (.inl hclosed) ?_
    cases msg with
    | viewChange m => simp [repeatable, hclosed]
    | _ => rfl
  rename_i hopen
  have hview : (i.setView i.current).view = some i.current := rfl
  dsimp only at h
  cases msg with
  | prePrepare m => exact iff_of_true (.inr ⟨_, absorbsIn_of_stepPrePrepare hview h⟩) rfl
  | prepare m => exact iff_of_true (.inr ⟨_, absorbsIn_of_stepPrepare hview h⟩) rfl
  | commit m => exact iff_of_true (.inr ⟨_, absorbsIn_of_stepCommit hview h⟩) rfl
  | viewChange m =>
    have hsame : i.repeatable p (.viewChange m) =
        (i.setView i.current).repeatable p (.viewChange m) := rfl
    rw [hsame]
    exact absorbs_iff_of_stepViewChange hview (Bool.not_eq_true _ ▸ hopen) h
  | newView m => exact iff_of_true (.inr (absorbsIn_of_stepNewView hview (Except.ok.inj h))) rfl

end Instance

/-- A message that `mem` has processed is answered by nothing and changes nothing, and the
same holds on a clone that keeps the round of the message. -/
structure Idempotent (p : Params) (mem : Memory) (receiver : Nat) (msg : Message) : Prop where
  again : ∀ sender origin, processMessage p mem sender receiver origin msg = .ok (.ignore mem)
  cloned : ∀ sender origin minround, minround ≤ msg.nodeRound.round →
    processMessage p ⟨mem.heap.tick, mem.state.clone minround⟩ sender receiver origin msg =
      .ok (.ignore ⟨mem.heap.tick, mem.state.clone minround⟩)

/-- A second ViewChange is answered, or changes something, unless it is repeatable. -/
theorem Idempotent.repeatable {p : Params} {mem : Memory} {sender receiver : Nat}
    {origin : BlockID} {msg : Message} {reply : Reply}
    (hreply : processMessage p mem sender receiver origin msg = .ok reply)
    (h : Idempotent p reply.mem receiver msg) :
    (mem.inst msg.nodeRound).repeatable p msg = true := by
  rw [← Instance.absorbs_iff_of_step (step_of_processMessage hreply)]
  cases msg with
  | viewChange m =>
    exact Instance.absorbs_of_step_ignore (step_of_processMessage (h.again sender origin))
  | _ => exact (Instance.absorbs_iff_of_step (step_of_processMessage hreply)).mpr rfl

/-- Processing a message twice is as good as once, exactly if the message does not
complete a quorum of ViewChanges. -/
theorem idempotent_iff_repeatable {p : Params} {mem : Memory} {sender receiver : Nat}
    {origin : BlockID} {msg : Message} {reply : Reply}
    (hreply : processMessage p mem sender receiver origin msg = .ok reply) :
    Idempotent p reply.mem receiver msg ↔ (mem.inst msg.nodeRound).repeatable p msg = true := by
  refine ⟨fun h => h.repeatable hreply, fun h => ?_⟩
  have habsorbs : (reply.mem.inst msg.nodeRound).Absorbs p receiver msg :=
    (Instance.absorbs_iff_of_step (step_of_processMessage hreply)).mpr h
  refine ⟨fun _ _ => processMessage_of_absorbs habsorbs, fun _ _ minround hround => ?_⟩
  apply processMessage_of_absorbs
  rw [inst_clone, if_neg (not_lt.mpr hround)]
  exact habsorbs

/-- The first eleven blocks of three nodes that do not hear of each other, until the first
of them sees the others. -/
def unheard : List BlockGraph :=
  ((List.range' 1 11).map fun round => ownAt 1 round []) ++
    [ownAt 1 12 ((List.range' 1 11).flatMap fun round => [depAt 2 round [], depAt 3 round []])]

/-- The vote of the second node against the first view is read twice, when only the own vote
stands beside it. -/
theorem idempotent_second_vote :
    ∃ g ev m reply, (Graph.new .four 0).addAll unheard = .ok g ∧ ev ∈ g.trace ∧
      ev.cause = .message 2 1 (.viewChange m) ∧
      processMessage .four ev.mem 2 1 ev.block (.viewChange m) = .ok reply ∧
      Idempotent .four reply.mem 1 (.viewChange m) := by
  have hcheck : succeeds ((Graph.new .four 0).addAll unheard) (fun g => g.trace.any fun ev =>
      match ev.cause with
      | .message 2 1 (.viewChange m) =>
        succeeds (processMessage .four ev.mem 2 1 ev.block (.viewChange m)) fun _ =>
          (ev.mem.inst (Message.viewChange m).nodeRound).repeatable .four (.viewChange m)
      | _ => false) = true := by decide +kernel
  obtain ⟨g, hrun, hany⟩ := exists_of_succeeds hcheck
  obtain ⟨ev, hev, hfacts⟩ := List.any_eq_true.mp hany
  split at hfacts
  · rename_i m hcause
    obtain ⟨reply, hreply, hrepeatable⟩ := exists_of_succeeds hfacts
    exact ⟨g, ev, m, reply, hrun, hev, hcause, hreply,
      (idempotent_iff_repeatable hreply).mpr hrepeatable⟩
  · cases hfacts

/-- The vote of the third node against the first view completes a quorum. Processed again,
on the same state or on a clone of it, it is answered by a second NewView. -/
theorem unheard_not_idempotent :
    ∃ g ev m reply, (Graph.new .four 0).addAll unheard = .ok g ∧ ev ∈ g.trace ∧
      ev.cause = .message 3 1 (.viewChange m) ∧
      processMessage .four ev.mem 3 1 ev.block (.viewChange m) = .ok reply ∧
      ∀ mem ∈ [reply.mem, ⟨reply.mem.heap.tick, reply.mem.state.clone m.round⟩],
        ∃ reply', processMessage .four mem 3 1 ev.block (.viewChange m) = .ok reply' ∧
          reply'.resp.isSome := by
  have hcheck : succeeds ((Graph.new .four 0).addAll unheard) (fun g => g.trace.any fun ev =>
      match ev.cause with
      | .message 3 1 (.viewChange m) =>
        succeeds (processMessage .four ev.mem 3 1 ev.block (.viewChange m)) fun reply =>
          [reply.mem, ⟨reply.mem.heap.tick, reply.mem.state.clone m.round⟩].all fun mem =>
            succeeds (processMessage .four mem 3 1 ev.block (.viewChange m)) fun reply' =>
              reply'.resp.isSome
      | _ => false) = true := by decide +kernel
  obtain ⟨g, hrun, hany⟩ := exists_of_succeeds hcheck
  obtain ⟨ev, hev, hfacts⟩ := List.any_eq_true.mp hany
  split at hfacts
  · rename_i m hcause
    obtain ⟨reply, hreply, hagain⟩ := exists_of_succeeds hfacts
    refine ⟨g, ev, m, reply, hrun, hev, hcause, hreply, fun mem hmem => ?_⟩
    exact exists_of_succeeds (List.all_eq_true.mp hagain mem hmem)
  · cases hfacts

end Blockmania
