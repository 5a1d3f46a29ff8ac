/-
# The value of an instance

A node may propose several blocks of one round, but at most one of them is ever
prepared, in whatever view and on whatever chain. A value that outlives its view
was committed to before, and going back from one commitment to an earlier one
ends at a quorum of nodes that accepted the value in view 0. Two such quorums
share a node that never forks, and a chain accepts one value in view 0. The chain
remembers it for as long as the round is not delivered.
-/

import Blockmania.Graph.Bounds
import Blockmania.Graph.Origins
import Blockmania.Interpreter.Voting
import Blockmania.Math.Quorum

namespace Blockmania

open Math List
open BlockGraph (actions entries)

section Endorses

variable (p : Params) (key : NodeRound) (proposed lasting : BlockID → Prop)

/-- A node stands behind a proposed block: it is the node of the instance, or it
accepted the block in view 0. -/
def Endorses (trace : List Event) (x : Nat) (hash : Hash) : Prop :=
  proposed ⟨hash, key.node, key.round⟩ ∧ (x = key.node ∨
    ∃ ev ∈ trace, ev.block.node = x ∧ lasting ev.block ∧ ∃ sender,
      ev.cause = .message sender x (.prePrepare ⟨hash, key.node, key.round, 0⟩) ∧
      (ev.answer p).isSome)

/-- A quorum stands behind a proposed block. -/
def Rooted (trace : List Event) (hash : Hash) : Prop :=
  ∃ nodes : Finset Nat, p.quorum2f1 ≤ nodes.card ∧
    ∀ x ∈ nodes, x ∈ p.peers ∧ Endorses p key proposed lasting trace x hash

end Endorses

variable {p : Params} {key : NodeRound} {proposed lasting : BlockID → Prop}
  {trace trace' : List Event} {hash hash' : Hash}

theorem Rooted.mono (h : Rooted p key proposed lasting trace hash) (hsub : trace ⊆ trace') :
    Rooted p key proposed lasting trace' hash := by
  obtain ⟨nodes, hcard, hnodes⟩ := h
  refine ⟨nodes, hcard, fun x hx => ?_⟩
  obtain ⟨hpeer, hproposed, hstand⟩ := hnodes x hx
  refine ⟨hpeer, hproposed, hstand.imp_right fun ⟨ev, hev, haccept⟩ => ⟨ev, hsub hev, haccept⟩⟩

/-- Whoever backs a value endorses it, or the value was committed to before. -/
theorem AllGrounded.endorses_of_backed (hpeer : ∀ b, proposed b → b.node ∈ p.peers)
    (hall : AllGrounded p key proposed lasting trace) (hhash : hash ≠ []) {x w : Nat}
    (h : Backed p key trace x hash w) :
    (x ∈ p.peers ∧ Endorses p key proposed lasting trace x hash) ∨
      ∃ ev older y w', ev :: older <:+ trace ∧ AllGrounded p key proposed lasting older ∧
        Committed p key older y hash w' := by
  obtain ⟨ev, older, sender, hsuffix, hgrounded, hallolder, hcause, hanswer, hx, horigin⟩ :=
    hall.of_backed h
  rcases horigin with hanswered | ⟨rfl, hsender, hproposed, hlasting⟩
  · obtain ⟨ev', older', y, w', hsuffix', hall', hcommitted⟩ :=
      hallolder.committed_of_prePrepare hhash hanswered
    exact .inr ⟨ev', older', y, w', hsuffix'.trans ((suffix_cons _ _).trans hsuffix), hall',
      hcommitted⟩
  · left
    rcases hx with rfl | rfl
    · subst hsender
      exact ⟨hpeer _ hproposed, hproposed, .inl rfl⟩
    · refine ⟨hpeer _ hgrounded.block, hproposed, .inr ⟨ev, ?_, rfl, hlasting, sender, hcause, hanswer⟩⟩
      exact hsuffix.subset mem_cons_self

/-- Behind every commitment stands a quorum in view 0. The induction is on the
length of the run: a value of a later view goes back to an earlier commitment. -/
theorem AllGrounded.rooted_of_committed (hpeer : ∀ b, proposed b → b.node ∈ p.peers)
    (hhash : hash ≠ []) (n : Nat) {y w : Nat} (hlength : trace.length ≤ n)
    (hall : AllGrounded p key proposed lasting trace) (h : Committed p key trace y hash w) :
    Rooted p key proposed lasting trace hash := by
  induction n generalizing trace y w with
  | zero =>
    obtain ⟨ev, hev, -⟩ := h
    rw [length_eq_zero_iff.mp (Nat.le_zero.mp hlength)] at hev
    cases hev
  | succ n ih =>
    have hback : ∀ {ev : Event} {older : List Event} {y w : Nat}, ev :: older <:+ trace →
        AllGrounded p key proposed lasting older → Committed p key older y hash w →
        Rooted p key proposed lasting trace hash := by
      intro ev older y w hsuffix hallolder hcommitted
      have hshorter := hsuffix.length_le
      rw [length_cons] at hshorter
      refine (ih (by omega) hallolder hcommitted).mono ?_
      exact List.Subset.trans (subset_cons_self _ _) hsuffix.subset
    obtain ⟨ev, older, hsuffix, hallolder, -, -, -, -, nodes, hcard, hnodes⟩ := hall.of_committed h
    have hsub : older ⊆ trace := List.Subset.trans (subset_cons_self _ _) hsuffix.subset
    by_cases hearlier : ∃ ev' older' y w', ev' :: older' <:+ trace ∧
        AllGrounded p key proposed lasting older' ∧ Committed p key older' y hash w'
    · obtain ⟨ev', older', y', w', hsuffix', hall', hcommitted⟩ := hearlier
      exact hback hsuffix' hall' hcommitted
    · refine ⟨nodes, hcard.ge, fun x hx => ?_⟩
      exact (hall.endorses_of_backed hpeer hhash ((hnodes x hx).mono hsub)).resolve_right hearlier

/-- A chain endorses one block of an instance, if its steps form a trail and
the node of the instance proposes one block. -/
theorem endorses_unique {round x : Nat} (hround : round ≤ key.round)
    (hall : AllGrounded p key proposed lasting trace)
    (hproposed : x = key.node → proposed ⟨hash, key.node, key.round⟩ →
      proposed ⟨hash', key.node, key.round⟩ → hash = hash')
    (htrail : HasTrail p round lasting x trace) (h : Endorses p key proposed lasting trace x hash)
    (h' : Endorses p key proposed lasting trace x hash') : hash = hash' := by
  by_cases hx : x = key.node
  · exact hproposed hx h.1 h'.1
  obtain ⟨ev, hev, hnode, hlasting, sender, hcause, hanswer⟩ := h.2.resolve_left hx
  obtain ⟨ev', hev', hnode', hlasting', sender', hcause', hanswer'⟩ := h'.2.resolve_left hx
  obtain ⟨pre, heap, mem, trail, hpre⟩ := htrail
  have hcourse := trail.course hround (by simp [Memory.inst, State.fresh, Data.empty, Instance.empty])
  have hmem : ∀ ev ∈ trace, ev.block.node = x → lasting ev.block →
      ev ∈ (eventsOf x trace).drop pre.length := by
    intro ev hev hnode hlasting
    obtain ⟨rest, hrest⟩ := trail.append
    rw [← hrest, drop_left]
    have hevent := mem_eventsOf.mpr ⟨hev, hnode⟩
    rw [← hrest, mem_append] at hevent
    exact hevent.resolve_left fun hbefore => hpre ev hbefore hlasting
  have hreceiver : ∀ ev ∈ (eventsOf x trace).drop pre.length, ∀ sender receiver msg,
      ev.cause = .message sender receiver msg → receiver = x := by
    intro ev hev sender receiver msg hcause
    obtain ⟨hevent, hnode⟩ := mem_eventsOf.mp (mem_of_mem_drop hev)
    obtain ⟨older, -, hgrounded, -⟩ := hall.of_mem hevent
    rw [hgrounded.receiver _ _ _ hcause, hnode]
  have honce := hcourse.votesOnce hreceiver
  exact honce.hash_unique (hmem ev hev hnode hlasting) (hmem ev' hev' hnode' hlasting')
    (Event.prepare_of_answer hcause hanswer) (Event.prepare_of_answer hcause' hanswer')

/-- Two quorums stand behind one block, if all but `F` endorse one. -/
theorem rooted_unique {F : Finset Nat} (hpeers : p.peers.Nodup) (hcount : p.peerCount % 3 = 1)
    (hfaults : F.card ≤ p.faults)
    (hunique : ∀ x, x ∉ F → Endorses p key proposed lasting trace x hash →
      Endorses p key proposed lasting trace x hash' → hash = hash')
    (h : Rooted p key proposed lasting trace hash) (h' : Rooted p key proposed lasting trace hash') :
    hash = hash' := by
  obtain ⟨nodes, hcard, hnodes⟩ := h
  obtain ⟨nodes', hcard', hnodes'⟩ := h'
  have huniverse : p.peers.toFinset.card = p.peerCount := toFinset_card_of_nodup hpeers
  have hlarge : p.peers.toFinset.card + F.card < nodes.card + nodes'.card := by
    rw [huniverse]
    unfold Params.quorum2f1 Params.faults Params.peerCount at *
    omega
  obtain ⟨x, hx, hx', hxF⟩ := exists_mem_inter_not_mem
    (fun y hy => mem_toFinset.mpr (hnodes y hy).1)
    (fun y hy => mem_toFinset.mpr (hnodes' y hy).1) hlarge
  exact hunique x hxF (hnodes x hx).2 (hnodes' x hx').2

namespace Graph

/-- The round of an instance is not delivered yet: `graph.round`, which starts
after the last interpreted round and moves on with every callback, has not passed
it. -/
def Undelivered (lastInterpreted : Nat) (g : Graph) (key : NodeRound) : Prop :=
  lastInterpreted + 1 + g.callbacks.length ≤ key.round

/-- A hash that is prepared for the instance in a block state, or that a
ViewChange or a NewView has carried. -/
def Carries (g : Graph) (key : NodeRound) (hash : Hash) : Prop :=
  (∃ (b : BlockID) (s : State) (w : Nat), g.statess[b]? = some s ∧
    s.data.prepared[(⟨key.node, key.round, w⟩ : NodeRoundView)]? = some hash) ∨
  ∃ (sender w : Nat) (msg : Message),
    (msg = .viewChange ⟨hash, key.node, key.round, sender, w⟩ ∨
      msg = .newView ⟨hash, key.node, key.round, sender, w⟩) ∧
    ((∃ (b : BlockID) (s : State), g.statess[b]? = some s ∧ msg ∈ s.out) ∨
      Answered g.params g.trace msg)

variable {g : Graph}

/-- A quorum stands behind every hash that is carried. -/
theorem Justified.rooted_of_carries (hpeer : ∀ b, proposed b → b.node ∈ p.peers)
    (hparams : g.params = p) (h : Justified p key proposed lasting g) (hhash : hash ≠ [])
    (hcarries : g.Carries key hash) : Rooted p key proposed lasting g.trace hash := by
  have hback : ∀ {ev : Event} {older : List Event} {y w : Nat}, ev :: older <:+ g.trace →
      AllGrounded p key proposed lasting older → Committed p key older y hash w →
      Rooted p key proposed lasting g.trace hash := by
    intro ev older y w hsuffix hallolder hcommitted
    refine (AllGrounded.rooted_of_committed hpeer hhash _ le_rfl hallolder hcommitted).mono ?_
    exact List.Subset.trans (subset_cons_self _ _) hsuffix.subset
  rcases hcarries with ⟨b, s, w, hs, hprepared⟩ | ⟨sender, w, msg, hmsg, hfrom⟩
  · obtain ⟨y, hcommitted⟩ := (h.inst b s hs).prepared w hash hprepared
    exact AllGrounded.rooted_of_committed hpeer hhash _ le_rfl h.trace hcommitted
  · have hround : msg.nodeRound = key := by rcases hmsg with rfl | rfl <;> rfl
    have hanswered : Answered p g.trace msg := by
      rcases hfrom with ⟨b, s, hs, hout⟩ | hanswered
      · rcases h.out b s hs msg hout hround with ⟨ev, hev, -, hanswer⟩ | hpre
        · exact ⟨ev, hev, hanswer⟩
        · rcases hmsg with rfl | rfl <;> cases hpre
      · exact hparams ▸ hanswered
    rcases hmsg with rfl | rfl
    · obtain ⟨ev, older, y, w', hsuffix, hallolder, hcommitted⟩ :=
        h.trace.committed_of_viewChange hround hhash hanswered
      exact hback hsuffix hallolder hcommitted
    · obtain ⟨ev, older, y, w', hsuffix, hallolder, hcommitted⟩ :=
        h.trace.committed_of_newView hround hhash hanswered
      exact hback hsuffix hallolder hcommitted

/-- If the votes against a view are contradictory, there are two values with a
quorum behind them. -/
theorem rooted_of_multipleHashes (hpeer : ∀ b, proposed b → b.node ∈ p.peers) {ev : Event}
    {older : List Event} (hall : AllGrounded p key proposed lasting (ev :: older))
    (hcrash : ev.reply p = .error (.multipleHashes key)) :
    ∃ hash hash', hash ≠ hash' ∧ Rooted p key proposed lasting older hash ∧
      Rooted p key proposed lasting older hash' := by
  have hgrounded := hall.1
  have hvote : ∃ sender receiver m, ev.cause = .message sender receiver (.viewChange m) ∧
      (⟨m.node, m.round⟩ : NodeRound) = key ∧ (ev.mem.inst key).closed = false ∧
      (ev.mem.inst key).current ≤ m.view ∧
      mergeHashes ((ev.mem.inst key).protests m).values [] = none := by
    obtain ⟨block, mem, cause⟩ := ev
    cases cause with
    | timeout t => cases hcrash
    | message sender receiver msg =>
      rcases Instance.step_eq_error (step_of_processMessage_error hcrash) with hother |
        ⟨hkey, m, rfl, hopen, hview, hmerge⟩
      · cases hother
      · cases hkey
        exact ⟨sender, receiver, m, rfl, rfl, hopen, hview, hmerge⟩
  obtain ⟨sender, receiver, m, hcause, hkey, hopen, hview, hmerge⟩ := hvote
  obtain ⟨-, hballots⟩ := hgrounded.ballots hcause hkey hopen hview
  have hrooted : ∀ hash ∈ [] :: ((ev.mem.inst key).protests m).values, hash ≠ [] →
      Rooted p key proposed lasting older hash := by
    intro hash hmem hhash
    obtain ⟨voter, hvoter⟩ := FiniteMap.mem_values.mp ((mem_cons.mp hmem).resolve_left hhash)
    obtain ⟨ev', hev', w, hballot⟩ := hballots voter hash hvoter
    obtain ⟨ev'', older', y, w', hsuffix, hall', hcommitted⟩ :=
      hall.committed_of_ballot hev' hballot rfl hhash
    refine (AllGrounded.rooted_of_committed hpeer hhash _ le_rfl hall' hcommitted).mono ?_
    have htail : older' <:+ older := by
      rcases suffix_cons_iff.mp hsuffix with heq | hsuffix'
      · exact (List.cons.inj heq).2 ▸ suffix_rfl
      · exact (suffix_cons _ _).trans hsuffix'
    exact htail.subset
  obtain ⟨hash, hmem, hash', hmem', hhash, hhash', hne⟩ := mergeHashes_eq_none hmerge
  exact ⟨hash, hash', hne, hrooted hash hmem hhash, hrooted hash' hmem' hhash'⟩

/-- A run is justified by the blocks it interprets, and a step that accepts one of
them in view 0 is taken at a block that reaches its round. -/
theorem justified_reaches {lastInterpreted : Nat} {bgs : List BlockGraph} {es : List Entry}
    (hes : bgs.flatMap entries = es) (key : NodeRound) :
    Ensures (actAll (new p lastInterpreted) (bgs.flatMap actions))
      (Justified p key (fun b => ∃ e ∈ es, e.block = b) (Reaches es key.round))
      (StopsGrounded p key (fun b => ∃ e ∈ es, e.block = b) (Reaches es key.round)) := by
  have hinterpreted : interpreted (bgs.flatMap actions) = es := by
    rw [interpreted_actions, hes]
  apply justified_actAll <;> rw [hinterpreted]
  · exact fun e he => ⟨e, he, rfl⟩
  · rintro e he b ⟨e', he', rfl⟩ hb hkey
    have hround : key.round ≤ e'.block.round := by rw [← hkey]
    rcases hb with hb | hb
    · rw [← hb]
      exact Reaches.here he' hround
    · exact Reaches.dep he hb (Reaches.here he' hround)

/-- An instance has one value. In a graph of `3f+1` peers, all but at most `f`
of which never fork, all hashes that are prepared for an undelivered instance or
carried by its ViewChanges and NewViews are equal or empty, and the votes against
a view never contradict each other. -/
theorem carries_unique {lastInterpreted : Nat} {bgs : List BlockGraph} {F : Finset Nat}
    (hpeers : p.peers.Nodup) (hcount : p.peerCount % 3 = 1) (hfaults : F.card ≤ p.faults)
    (hcausal : Causal p.peers (bgs.flatMap entries))
    (hone : ∀ x, x ∉ F → OneChain (bgs.flatMap entries) x) :
    Ensures (addAll (new p lastInterpreted) bgs)
      (fun g => ∀ key, g.Undelivered lastInterpreted key → ∀ hash hash', g.Carries key hash →
        g.Carries key hash' → hash ≠ [] → hash' ≠ [] → hash = hash')
      (fun halt => ∀ key, halt.host.Undelivered lastInterpreted key →
        halt.crash ≠ .multipleHashes key) := by
  have hpreserves (round : Nat) (hround : lastInterpreted + 1 ≤ round) :=
    preserves_reaches hcausal hround
  generalize hes : bgs.flatMap entries = es at hcausal hone hpreserves
  have hinterpreted : interpreted (bgs.flatMap actions) = es := by
    rw [interpreted_actions, hes]
  rw [← hinterpreted] at hone
  have hpeer : ∀ b : BlockID, (∃ e ∈ es, e.block = b) → b.node ∈ p.peers := by
    rintro b ⟨e, he, rfl⟩
    exact (hcausal.wellFormed e he).node
  -- all but the faulty nodes endorse one block, as long as the round is not delivered
  have hunique : ∀ {key : NodeRound} {trace : List Event} {hash hash' : Hash},
      AllGrounded p key (fun b => ∃ e ∈ es, e.block = b) (Reaches es key.round) trace →
      (∀ x, x ∉ F → HasTrail p key.round (Reaches es key.round) x trace) →
      Rooted p key (fun b => ∃ e ∈ es, e.block = b) (Reaches es key.round) trace hash →
      Rooted p key (fun b => ∃ e ∈ es, e.block = b) (Reaches es key.round) trace hash' →
      hash = hash' := by
    intro key trace hash hash' hall htrails
    apply rooted_unique hpeers hcount hfaults
    intro x hx
    refine endorses_unique le_rfl hall ?_ (htrails x hx)
    rintro rfl ⟨e, he, hblock⟩ ⟨e', he', hblock'⟩
    rw [← hinterpreted] at he he'
    have hsame := hone key.node hx e he e' he' (by rw [hblock]) (by rw [hblock'])
      (by rw [hblock, hblock'])
    rw [hblock, hblock'] at hsame
    exact congrArg BlockID.hash hsame
  have htrail (key : NodeRound) (hround : lastInterpreted + 1 ≤ key.round) (x : Nat) (hx : x ∉ F) :=
    hasTrail_actAll (by rwa [hinterpreted]) (hone x hx)
      (by
        rw [hinterpreted]
        exact fun e he b hb hreach => Reaches.dep he hb hreach)
      (hpreserves key.round hround)
  rw [addAll_eq_actAll]
  cases hrun : actAll (new p lastInterpreted) (bgs.flatMap actions) with
  | ok g =>
    intro key hundelivered hash hash' hcarries hcarries' hhash hhash'
    unfold Undelivered at hundelivered
    have hjustified := (justified_reaches hes key).of_ok hrun
    have hparams := (params_actAll p lastInterpreted _).of_ok hrun
    apply hunique hjustified.trace
    · intro x hx
      exact (htrail key (by omega) x hx).of_ok hrun (by omega)
    · exact hjustified.rooted_of_carries hpeer hparams hhash hcarries
    · exact hjustified.rooted_of_carries hpeer hparams hhash' hcarries'
  | error halt =>
    intro key hundelivered hcrash
    unfold Undelivered at hundelivered
    obtain ⟨ev, older, htrace, hall, hmultiple, -⟩ := (justified_reaches hes key).of_error hrun
    obtain ⟨hash, hash', hne, hrooted, hrooted'⟩ :=
      rooted_of_multipleHashes hpeer hall (hmultiple hcrash)
    refine hne (hunique hall.2 (fun x hx => ?_) hrooted hrooted')
    obtain ⟨ev', older', htrace', htrail'⟩ :=
      (htrail key (by omega) x hx).of_error hrun (by omega)
    cases htrace.symm.trans htrace'
    exact htrail'

end Graph

/-- The fourth node shows two blocks of round 1, and the others reference the
first of them. -/
def twoFaced : List BlockGraph :=
  let face : BlockID := ⟨[4, 1], 4, 1⟩
  let other : BlockID := ⟨[4, 1, 1], 4, 1⟩
  [ownAt 1 1 [],
    ownAt 1 2 [depAt 2 1 [], depAt 3 1 [], ⟨face, [], .zero⟩, ⟨other, [], .zero⟩],
    ownAt 1 3 [depAt 2 2 [blockAt 1 1, blockAt 3 1, face], depAt 3 2 [blockAt 1 1, blockAt 2 1, face]]]

/-- The first of the two blocks is prepared, and nothing else is carried for its
instance. -/
theorem carries_unique_twoFaced :
    ∃ g, Graph.addAll (Graph.new .four 0) twoFaced = .ok g ∧ g.Undelivered 0 ⟨4, 1⟩ ∧
      g.Carries ⟨4, 1⟩ [4, 1] ∧ ∀ hash, g.Carries ⟨4, 1⟩ hash → hash ≠ [] → hash = [4, 1] := by
  have hcheck : succeeds (Graph.addAll (Graph.new .four 0) twoFaced) (fun g =>
      decide (0 + 1 + g.callbacks.length ≤ 1) && decide ((g.statess[blockAt 1 3]?.bind fun s =>
        s.data.prepared[(⟨4, 1, 0⟩ : NodeRoundView)]?) = some [4, 1])) = true := by decide +kernel
  obtain ⟨g, hrun, hfacts⟩ := exists_of_succeeds hcheck
  rw [Bool.and_eq_true, decide_eq_true_eq, decide_eq_true_eq] at hfacts
  obtain ⟨hround, hprepared⟩ := hfacts
  obtain ⟨s, hs, hvalue⟩ := Option.bind_eq_some_iff.mp hprepared
  have hundelivered : g.Undelivered 0 ⟨4, 1⟩ := hround
  have hcarries : g.Carries ⟨4, 1⟩ [4, 1] := Or.inl ⟨_, s, 0, hs, hvalue⟩
  have hcausal : Causal Params.four.peers (twoFaced.flatMap entries) :=
    causal_of_check (by decide +kernel)
  have hone : ∀ x, x ∉ ({4} : Finset Nat) → OneChain (twoFaced.flatMap entries) x := by
    have hforks : ∀ e ∈ twoFaced.flatMap entries, ∀ e' ∈ twoFaced.flatMap entries,
        e.block.node = e'.block.node → e.block.round = e'.block.round → e.block ≠ e'.block →
        e.block.node = 4 := by decide +kernel
    intro x hx e he e' he' hnode hnode' hround
    by_contra hne
    exact hx (Finset.mem_singleton.mpr
      (hnode.symm.trans (hforks e he e' he' (hnode.trans hnode'.symm) hround hne)))
  have hpeers : Params.four.peers.Nodup ∧ Params.four.peerCount % 3 = 1 ∧
      ({4} : Finset Nat).card ≤ Params.four.faults := by decide
  have hensures := @Graph.carries_unique .four 0 twoFaced {4} hpeers.1 hpeers.2.1 hpeers.2.2 hcausal hone
  have hunique := hensures.of_ok hrun
  exact ⟨g, hrun, hundelivered, hcarries, fun hash h hhash =>
    hunique ⟨4, 1⟩ hundelivered hash [4, 1] h hcarries hhash (by simp)⟩

end Blockmania
