/-
# Restarting a graph

The callback is told how many own blocks are consumed, and a node that is restarted passes
the others to a new graph, and the last consumed one with them, with the round that was
delivered last. The new graph has no states to begin with. It comes to the same as the one
that was never stopped, in every round after the one delivered last, as long as what it has
forgotten does not show. It shows in the timeouts: delays are counted along a whole chain,
and a timeout of a later round may have a deadline that is pruned.
-/

import Blockmania.Graph.Points

namespace Blockmania

open Math List
open BlockGraph (actions entries)

namespace Graph

variable {p : Params} {lastInterpreted node first : Nat} {bgs : List BlockGraph}

/-- A run that gets through has ids with a word only. -/
theorem fits_of_actAll {acts : List Action} {g : Graph} (hcausal : Causal p.peers (interpreted acts))
    (hrun : actAll (new p lastInterpreted) acts = .ok g) :
    ∀ e ∈ interpreted acts, p.Fits e.block.node := by
  have hinv : Ensures (actAll (new p lastInterpreted) acts)
      (fun _ => ∀ e ∈ interpreted acts, p.Fits e.block.node) (fun _ => True) := by
    apply holds_actAll fun done _ => ∀ e ∈ interpreted done, p.Fits e.block.node
    · intro done bg rest mid _ _ h
      rw [interpreted_register]
      exact h
    · intro done e rest mid t hsplit hdone h hprocess
      rw [interpreted_process]
      have hentries := interpreted_split hsplit
      have hself : p.Fits e.block.node := by
        by_cases hvalid : e.prev.valid = true
        · -- the node has shown a block before
          obtain ⟨-, hnode, -, hdep⟩ := (hcausal.wellFormed e (by simp [hentries])).of_prev hvalid
          obtain ⟨e', he', hblock⟩ := mem_map.mp (hcausal.closed _ e _ hentries e.prev hdep hvalid)
          rw [← hnode, ← hblock]
          exact h e' he'
        · exact fits_of_process ((params_actAll p lastInterpreted done).of_ok hdone)
            (Bool.eq_false_of_not_eq_true hvalid) hprocess
      intro e' he'
      rcases mem_append.mp he' with he' | he'
      · exact h e' he'
      · rw [mem_singleton.mp he']
        exact hself
    · simp [interpreted]
  exact hinv.of_ok hrun

/-- A run over blocks of nodes that never fork is not stopped by a message. -/
theorem not_stumbles {acts : List Action} {halt : Halt Graph}
    (hwf : ∀ e ∈ interpreted acts, e.WellFormed p.peers) (hone : ∀ x, OneChain (interpreted acts) x)
    (hfits : ∀ e ∈ interpreted acts, p.Fits e.block.node)
    (hrun : actAll (new p lastInterpreted) acts = .error halt) : ¬ Stumbles halt := by
  rintro (hcrash | ⟨key, hcrash⟩)
  · exact (roomy_actAll hfits).of_error hrun hcrash
  · have hpeer : ∀ b : BlockID, (∃ e ∈ interpreted acts, e.block = b) → b.node ∈ p.peers := by
      rintro b ⟨e, he, rfl⟩
      exact (hwf e he).node
    have hstops : Ensures (actAll (new p lastInterpreted) acts) _ (StopsGrounded p key
        (fun b => ∃ e ∈ interpreted acts, e.block = b) fun _ => True) :=
      justified_actAll (fun e he => ⟨e, he, rfl⟩) fun _ _ _ _ _ _ => trivial
    obtain ⟨ev, older, -, hall, hmultiple, -⟩ := hstops.of_error hrun
    obtain ⟨hash, hash', hne, hrooted, hrooted'⟩ :=
      rooted_of_multipleHashes hpeer hall (hmultiple hcrash)
    -- a quorum is not empty, and each of it stands behind a block of the node
    have hproposed : ∀ {hash : Hash}, Rooted p key (fun b => ∃ e ∈ interpreted acts, e.block = b)
        (fun _ => True) older hash →
          ∃ e ∈ interpreted acts, e.block = ⟨hash, key.node, key.round⟩ := by
      rintro hash ⟨nodes, hcard, hnodes⟩
      have hpos : 0 < nodes.card := lt_of_lt_of_le (Nat.succ_pos _) hcard
      obtain ⟨x, hx⟩ := Finset.card_pos.mp hpos
      exact (hnodes x hx).2.1
    obtain ⟨e, he, hblock⟩ := hproposed hrooted
    obtain ⟨e', he', hblock'⟩ := hproposed hrooted'
    have hsame := hone key.node e he e' he' (by rw [hblock]) (by rw [hblock'])
      (by rw [hblock, hblock'])
    rw [hblock, hblock'] at hsame
    exact hne (congrArg BlockID.hash hsame)

/-- Two graphs take the same actions. Every block that builds on a round past `R` has the
same timeout value in both, and the second graph prunes no timeout of such a round that is
still to fall due in the first. -/
def InTime (R : Nat) (es : List Entry) : Graph → Graph → List Action → Prop
  | _, _, [] => True
  | g, g', a :: acts =>
    (∀ e, a = .process e → ¬ Quiet R es e.block → g.patience e = g'.patience e ∧
      Spares R es g g' e) ∧
      ∀ t t', g.act a = .ok t → g'.act a = .ok t' → InTime R es t t' acts

variable {R : Nat} {es : List Entry} {e : Entry}

theorem InTime.of_split {rest : List Action} :
    ∀ {done : List Action} {g g' t t' : Graph}, InTime R es g g' (done ++ .process e :: rest) →
      actAll g done = .ok t → actAll g' done = .ok t' → ¬ Quiet R es e.block →
      t.patience e = t'.patience e ∧ Spares R es t t' e := by
  intro done
  induction done with
  | nil =>
    intro g g' t t' h hrun hrun' hloud
    cases hrun
    cases hrun'
    exact h.1 e rfl hloud
  | cons a done ih =>
    intro g g' t t' h hrun hrun' hloud
    obtain ⟨next, hact, hrun⟩ := bind_eq_ok.mp hrun
    obtain ⟨next', hact', hrun'⟩ := bind_eq_ok.mp hrun'
    exact ih (h.2 next next' hact hact') hrun hrun' hloud

/-- The own blocks before the last consumed one, `old`, are left out. The others are replayed,
and the actions `replayed` lead to the point. -/
structure Replays (p : Params) (lastInterpreted node first : Nat) (bgs old again : List BlockGraph)
    (done replayed rest : List Action) (mid : Graph) (i : Interpreted) (start final : Graph) : Prop
    extends Point p lastInterpreted node first bgs done rest mid i where
  bgs_eq : bgs = old ++ again
  length : old.length = i.consumed - first
  done_eq : done = old.flatMap actions ++ replayed
  one : ∀ x, OneChain (bgs.flatMap entries) x
  earlier : actAll (new p lastInterpreted) (old.flatMap actions) = .ok start
  later : actAll start (again.flatMap actions) = .ok final
  room : lastInterpreted + 1 + final.callbacks.length < 2 ^ 64
  inTime : InTime i.round (bgs.flatMap entries) start (new p i.round)
    (again.flatMap actions)

/-- What both graphs have come to after the same actions. -/
structure Beside (first : Nat) (es earlier : List Entry) (mid : Graph) (i : Interpreted) (met : Nat)
    (acts : List Action) (g g' : Graph) : Prop where
  twins : Twins i.round (Quiet i.round es) es (earlier ++ interpreted acts) g g'
  awaits : acts.length ≤ met →
    Awaits (i.round + 1) first mid.callbacks.length (Late i) (Quiet i.round es) g g'
  abreast : met ≤ acts.length →
    Abreast (i.round + 1) first (mid.callbacks.map digest) (Late i) (Quiet i.round es) g g'

variable {old again : List BlockGraph} {done replayed rest : List Action} {mid start final : Graph}
  {i : Interpreted}

namespace Replays

variable (h : Replays p lastInterpreted node first bgs old again done replayed rest mid i start final)

include h

/-- The point, counted from the first action that is replayed. -/
theorem split_later : again.flatMap actions = replayed ++ rest := by
  have hsplit := h.split
  rw [h.bgs_eq, flatMap_append, h.done_eq, append_assoc] at hsplit
  exact append_cancel_left hsplit

theorem met : actAll start replayed = .ok mid := by
  have hrun := h.run
  rw [h.done_eq, actAll_append, h.earlier] at hrun
  exact hrun

/-- The own blocks that are replayed make a chain, and those left out come before. -/
theorem ownChain_again : OwnChain node (first + old.length) again := by
  have hdrop := h.own.drop (show old.length ≤ bgs.length by rw [h.bgs_eq]; simp)
  rwa [h.bgs_eq, drop_left] at hdrop

variable {acts after : List Action} {a : Action} {g g' t : Graph}

/-- The actions of a run that replays some of the own blocks. -/
theorem actions_eq (hsplit : again.flatMap actions = acts ++ after) :
    bgs.flatMap actions = (old.flatMap actions ++ acts) ++ after := by
  rw [h.bgs_eq, flatMap_append, hsplit, append_assoc]

/-- The entries that are replayed, and those left out. -/
theorem entries_eq (hsplit : again.flatMap actions = acts ++ after) :
    bgs.flatMap entries =
      (old.flatMap entries ++ interpreted acts) ++ interpreted after := by
  rw [← interpreted_actions, h.actions_eq hsplit, interpreted_append, interpreted_append,
    interpreted_actions]

/-- One more action of the graph that was never stopped. -/
theorem next (hsplit : again.flatMap actions = acts ++ a :: after)
    (hrun : actAll start acts = .ok g) :
    actAll (new p lastInterpreted) (old.flatMap actions ++ acts) = .ok g ∧
      ∃ t, g.act a = .ok t ∧ actAll start (acts ++ [a]) = .ok t ∧
        t.callbacks.length ≤ final.callbacks.length := by
  have hlater := h.later
  rw [hsplit, actAll_append, hrun] at hlater
  change actAll g (a :: after) = _ at hlater
  obtain ⟨t, hact, hafter⟩ := bind_eq_ok.mp hlater
  refine ⟨?_, t, hact, ?_, callbacks_le_of_actAll hafter⟩
  · rw [actAll_append, h.earlier]
    exact hrun
  · rw [actAll_append, hrun]
    change actAll g [a] = _
    rw [actAll, hact]
    rfl

/-- Up to the point, one of the graphs waits. -/
theorem beside_of_awaits (hsplit : again.flatMap actions = acts ++ after)
    (hrun : actAll start acts = .ok g) {earlier : List Entry}
    (hlength : acts.length ≤ replayed.length)
    (htwins : Twins i.round (Quiet i.round es) es (earlier ++ interpreted acts) g g')
    (hawaits : Awaits (i.round + 1) (lastInterpreted + 1) mid.callbacks.length (Late i)
      (Quiet i.round es) g g') :
    Beside (lastInterpreted + 1) es earlier mid i replayed.length acts g g' := by
  refine ⟨htwins, fun _ => hawaits, fun hmet => ?_⟩
  have hsame : acts = replayed :=
    (append_inj (hsplit.symm.trans h.split_later) (le_antisymm hlength hmet)).1
  rw [hsame, h.met] at hrun
  cases hrun
  exact h.toPoint.abreast hawaits

/-- Both graphs register an own block. -/
theorem beside_register {bg : BlockGraph}
    (hsplit : again.flatMap actions = acts ++ .register bg :: after)
    (hrun : actAll start acts = .ok g) (hrun' : actAll (new p i.round) acts = .ok g')
    {earlier : List Entry}
    (hbeside : Beside (lastInterpreted + 1) (bgs.flatMap entries) earlier mid i
      replayed.length acts g g') :
    Beside (lastInterpreted + 1) (bgs.flatMap entries) earlier mid i replayed.length
      (acts ++ [.register bg]) (g.register bg) (g'.register bg) := by
  have hwhole := h.actions_eq hsplit
  obtain ⟨hfull, t, hact, hnext, -⟩ := h.next hsplit hrun
  obtain rfl : g.register bg = t := Except.ok.inj hact
  have htwins : Twins i.round (Quiet i.round (bgs.flatMap entries))
      (bgs.flatMap entries) (earlier ++ interpreted (acts ++ [.register bg]))
      (g.register bg) (g'.register bg) := by
    rw [interpreted_register]
    exact hbeside.twins.register bg
  have hbegins := added_concat_begins hwhole
  have hqueued := (queued_actAll h.own hwhole).of_ok hfull
  obtain ⟨hnodup, hfresh⟩ := hqueued.fresh h.own hbegins
  have hfresh' := (((queued_actAll h.ownChain_again hsplit).of_ok hrun').fresh h.ownChain_again
    (added_concat_begins hsplit)).2
  have hround := h.own.round_of_concat hbegins
  have hbg : bg ∈ bgs := hbegins.subset (by simp)
  have hlength : (acts ++ [Action.register bg]).length = acts.length + 1 := length_append
  rcases Nat.lt_or_ge acts.length replayed.length with hwaiting | hmet
  · refine h.beside_of_awaits (hsplit.trans (append_cons _ _ _)) hnext (by omega) htwins ?_
    refine (hbeside.awaits hwaiting.le).register (fun e he hquiet => ?_) hnodup hfresh hfresh'
      fun hearly => ⟨fun b hb => ?_, fun info hinfo => ?_⟩
    · obtain ⟨hle, hdeps⟩ := hquiet.deps (mem_flatMap.mpr ⟨bg, hbg, he⟩)
      exact ⟨hle.trans (Nat.le_succ _), hdeps⟩
    · obtain ⟨e, he, rfl⟩ := mem_map.mp (@mem_entries_of_gone ⟨bg, 0⟩ b hb)
      exact h.quiet_of_consumed hbg (not_lt.mp hearly) he
    · -- the own blocks in the list are of earlier rounds
      have hbefore := h.own.round_lt_of_concat hbegins (hqueued.mem_own hinfo)
      exact fun hlate => hearly (lt_trans hlate hbefore)
  · refine ⟨htwins, fun hle => absurd hle (by omega), fun _ => ?_⟩
    refine (hbeside.abreast hmet).register ?_ hnodup hfresh hfresh'
    -- the own blocks that are consumed were registered before the point
    obtain ⟨n, hn, hcount, -⟩ := h.consumed
    have hfirst : replayed <+: acts := by
      have hboth := h.split_later.symm.trans hsplit
      exact prefix_of_prefix_length_le ⟨rest, hboth⟩ (prefix_append acts _) hmet
    obtain ⟨more, hmore⟩ := hfirst
    rw [h.done_eq] at hn
    rw [← hmore] at hround
    simp only [added_append, length_append] at hn hround
    change i.consumed < bg.block.round
    omega

/-- Both graphs interpret a block. -/
theorem beside_process (hsplit : again.flatMap actions = acts ++ .process e :: after)
    (hrun : actAll start acts = .ok g) (hrun' : actAll (new p i.round) acts = .ok g')
    (hprocess : g.process e = .ok t)
    (hbeside : Beside (lastInterpreted + 1) (bgs.flatMap entries)
      (old.flatMap entries) mid i replayed.length acts g g') :
    Ensures (g'.process e) (Beside (lastInterpreted + 1) (bgs.flatMap entries)
      (old.flatMap entries) mid i replayed.length (acts ++ [.process e]) t)
      Stumbles := by
  have hwhole := h.actions_eq hsplit
  obtain ⟨hfull, t', hact, hnext, hcount⟩ := h.next hsplit hrun
  obtain rfl : t = t' := Except.ok.inj (hprocess.symm.trans hact)
  have hentries := h.entries_eq hsplit
  have hwf : ∀ e' ∈ bgs.flatMap entries, e'.WellFormed p.peers := h.causal.wellFormed
  have hcomes : Next i.round _ _ _ e := next_of_causal i.round h.causal h.one hentries
  have howned : Owned _ g := (owned_actAll fun e' he' => hwf e' (by
    rw [interpreted_append, interpreted_actions] at he'
    rw [hentries]
    exact mem_append_left _ he')).of_ok hfull
  have howned' : Owned _ g' := (owned_actAll fun e' he' => hwf e' (by
    rw [hentries]
    simp [he'])).of_ok hrun'
  have htime := (hsplit ▸ h.inTime).of_split hrun hrun'
  have hseen : old.flatMap entries ++ interpreted (acts ++ [.process e]) =
      (old.flatMap entries ++ interpreted acts) ++ [e] := by
    rw [interpreted_process, append_assoc]
  have hlength : (acts ++ [Action.process e]).length = acts.length + 1 := length_append
  rcases Nat.lt_or_ge acts.length replayed.length with hwaiting | hmet
  · have hsoon : acts ++ [.process e] <+: replayed := by
      have hsplit' := hsplit.trans (append_cons _ _ _)
      exact prefix_of_prefix_length_le ⟨after, hsplit'.symm.trans h.split_later⟩
        (prefix_append replayed rest) (by omega)
    have hnow : old.flatMap actions ++ acts <+: done := by
      rw [h.done_eq, prefix_append_right_inj]
      exact (prefix_append acts _).trans hsoon
    have hthen : old.flatMap actions ++ acts ++ [.process e] <+: done := by
      rw [h.done_eq, append_assoc, prefix_append_right_inj]
      exact hsoon
    have hheld : g.blocks.map BlockInfo.data ⊆
        added (old.flatMap actions ++ acts) := by
      intro bg hbg
      obtain ⟨info, hinfo, rfl⟩ := mem_map.mp hbg
      exact ((queued_actAll h.own hwhole).of_ok hfull).mem_own hinfo
    have hkept := h.not_overshoots hthen (actAll_process hfull hprocess)
      (List.Subset.trans hheld (by rw [added_append _ [_]]; exact subset_append_left _ _))
    refine ((hbeside.awaits hwaiting.le).process hbeside.twins howned howned' hcomes htime
      (h.not_overshoots hnow hfull hheld) hprocess hkept).mono ?_
    rintro t' ⟨htwins, hawaits⟩
    refine h.beside_of_awaits (hsplit.trans (append_cons _ _ _)) hnext (by omega) ?_ hawaits
    rw [hseen]
    exact htwins
  · have hroom := h.room
    refine ((hbeside.abreast hmet).process hbeside.twins howned howned' hcomes htime hprocess
      (by omega)).mono ?_
    rintro t' ⟨htwins, habreast⟩
    refine ⟨?_, fun hle => absurd hle (by omega), fun _ => habreast⟩
    rw [hseen]
    exact htwins

/-- The new graph keeps up with the one that was never stopped. -/
theorem beside_actAll (hsplit : again.flatMap actions = acts ++ after) :
    ∃ g g', actAll start acts = .ok g ∧ actAll (new p i.round) acts = .ok g' ∧
      Beside (lastInterpreted + 1) (bgs.flatMap entries)
        (old.flatMap entries) mid i replayed.length acts g g' := by
  have hfits : ∀ e ∈ bgs.flatMap entries, p.Fits e.block.node := by
    have hall : actAll (new p lastInterpreted) (bgs.flatMap actions) = .ok final := by
      rw [h.bgs_eq, flatMap_append, actAll_append, h.earlier]
      exact h.later
    rw [← interpreted_actions]
    exact fits_of_actAll (by rw [interpreted_actions]; exact h.causal) hall
  have hsub : interpreted acts ⊆ bgs.flatMap entries := by
    rw [h.entries_eq hsplit]
    exact fun e he => by simp [he]
  have hinv : Ensures (actAll (new p i.round) acts)
      (fun g' => ∃ g, actAll start acts = .ok g ∧
        Beside (lastInterpreted + 1) (bgs.flatMap entries)
          (old.flatMap entries) mid i replayed.length acts g g')
      (fun _ => False) := by
    apply ensures_actAll fun acts g' => ∃ g, actAll start acts = .ok g ∧
      Beside (lastInterpreted + 1) (bgs.flatMap entries)
        (old.flatMap entries) mid i replayed.length acts g g'
    · rintro before a behind g' hbefore hrun' ⟨g, hrun, hbeside⟩
      have hsplit' := split_of_begins hsplit hbefore
      obtain ⟨-, t, hact, hnext, -⟩ := h.next hsplit' hrun
      cases a with
      | register bg =>
        obtain rfl : g.register bg = t := Except.ok.inj hact
        exact ⟨_, hnext, h.beside_register hsplit' hrun hrun' hbeside⟩
      | process e =>
        have hprocess := h.beside_process hsplit' hrun hrun' hact hbeside
        change Ensures (g'.process e) _ _
        cases hprocess' : g'.process e with
        | ok t' => exact ⟨t, hnext, hprocess.of_ok hprocess'⟩
        | error halt =>
          -- no message stops a run in which no node forks
          have hnow : interpreted (before ++ [.process e]) ⊆ interpreted acts := by
            rw [hbefore, append_cons before _ behind, interpreted_append _ behind]
            exact subset_append_left _ _
          have hstop : actAll (new p i.round) (before ++ [.process e]) = .error halt := by
            rw [actAll_append, hrun']
            change actAll g' [.process e] = _
            rw [actAll, act, hprocess']
            rfl
          exact not_stumbles (fun e' he' => h.causal.wellFormed e' (hsub (hnow he')))
            (fun x => (h.one x).of_subset fun e' he' => hsub (hnow he'))
            (fun e' he' => hfits e' (hsub (hnow he'))) hstop (hprocess.of_error hprocess')
    · obtain ⟨hawaits, htwins⟩ := h.awaits_new h.bgs_eq h.length h.one h.earlier
      refine ⟨start, rfl, h.beside_of_awaits rfl rfl (Nat.zero_le _) ?_ hawaits⟩
      rw [interpreted, filterMap_nil, append_nil]
      exact htwins
  cases hrun' : actAll (new p i.round) acts with
  | error halt => exact (hinv.of_error hrun').elim
  | ok g' =>
    obtain ⟨g, hrun, hbeside⟩ := hinv.of_ok hrun'
    exact ⟨g, g', hrun, rfl, hbeside⟩

end Replays

/-! ## Restarts -/

/-- The own blocks that a new graph is given: those of the rounds from `consumed` on. -/
def storedFrom (consumed : Nat) (bgs : List BlockGraph) : List BlockGraph :=
  bgs.filter fun bg => decide (consumed ≤ bg.block.round)

/-- The output a block is given in a run. -/
def outputAt : Graph → List Action → BlockID → Option (List Message)
  | _, [], _ => none
  | g, a :: acts, b =>
    match g.act a with
    | .error _ => none
    | .ok t =>
      if a.entry?.map Entry.block = some b then t.statess[b]?.map State.out else outputAt t acts b

theorem outputAt_of_split : ∀ {done : List Action} {g t : Graph},
    e.block ∉ (interpreted done).map Entry.block → actAll g (done ++ [.process e]) = .ok t →
    outputAt g (done ++ .process e :: rest) e.block = t.statess[e.block]?.map State.out := by
  intro done
  induction done with
  | nil =>
    intro g t _ hrun
    obtain ⟨next, hact, hrun⟩ := bind_eq_ok.mp hrun
    cases hrun
    rw [nil_append, outputAt, hact]
    exact if_pos rfl
  | cons a done ih =>
    intro g t hfresh hrun
    obtain ⟨next, hact, hrun⟩ := bind_eq_ok.mp hrun
    have hother : a.entry?.map Entry.block ≠ some e.block := by
      intro hsame
      obtain ⟨e', he', hblock⟩ := Option.map_eq_some_iff.mp hsame
      refine hfresh (mem_map.mpr ⟨e', mem_filterMap.mpr ⟨a, mem_cons_self, he'⟩, hblock⟩)
    have hlater : e.block ∉ (interpreted done).map Entry.block := by
      intro hmem
      obtain ⟨e', he', hblock⟩ := mem_map.mp hmem
      obtain ⟨a', ha', hentry⟩ := mem_filterMap.mp he'
      exact hfresh (mem_map.mpr ⟨e', mem_filterMap.mpr ⟨a', mem_cons_of_mem _ ha', hentry⟩, hblock⟩)
    rw [cons_append, outputAt, hact]
    dsimp only
    rw [if_neg hother]
    exact ih hlater hrun

/-- A restart shows nothing. A graph that is restarted after the report `i`, with the own
blocks from the last consumed one on, gives the later own blocks and those that come with
them the outputs that the graph that was never stopped gives them, as far as they are about
rounds past the reported one, and reports the rounds after it with the same blocks. -/
structure Resumes (p : Params) (lastInterpreted : Nat) (bgs : List BlockGraph) (i : Interpreted) :
    Prop where
  outputs : ∀ bg ∈ bgs, i.consumed < bg.block.round → ∀ e ∈ bg.entries, ∃ out out',
    outputAt (new p lastInterpreted) (bgs.flatMap actions) e.block = some out ∧
    outputAt (new p i.round) ((storedFrom i.consumed bgs).flatMap actions) e.block =
      some out' ∧
    (out.filter fun msg => decide (i.round < msg.nodeRound.round)) =
      out'.filter fun msg => decide (i.round < msg.nodeRound.round)
  callbacks : ∃ g g', addAll (new p lastInterpreted) bgs = .ok g ∧
    addAll (new p i.round) (storedFrom i.consumed bgs) = .ok g' ∧
    (g.callbacks.filter fun j => decide (i.round < j.round)).map digest = g'.callbacks.map digest

namespace Replays

variable (h : Replays p lastInterpreted node first bgs old again done replayed rest mid i start final)

include h

/-- The outputs of a block that is replayed. -/
theorem outputs {acts after : List Action}
    (hsplit : again.flatMap actions = acts ++ .process e :: after) :
    ∃ out out', outputAt (new p lastInterpreted) (bgs.flatMap actions) e.block =
      some out ∧ outputAt (new p i.round) (again.flatMap actions) e.block = some out' ∧
      SameKept (keptMessage (fromRound (i.round + 1))) out out' := by
  have hsplit' := hsplit.trans (append_cons _ _ _)
  obtain ⟨t, t', hrun, hrun', hbeside⟩ := h.beside_actAll hsplit'
  have hstored : ∀ {start t : Graph}, actAll start (acts ++ [.process e]) = .ok t →
      ∃ s, t.statess[e.block]? = some s := by
    intro start t hrun
    rw [actAll_append] at hrun
    obtain ⟨g, -, hrun⟩ := bind_eq_ok.mp hrun
    obtain ⟨t', hact, hnil⟩ := bind_eq_ok.mp hrun
    cases hnil
    obtain ⟨last, mem, -, rfl⟩ := delivers_of_process hact
    exact ⟨mem.state, by rw [store, FiniteMap.lookup_insert, if_pos rfl]⟩
  obtain ⟨s, hs⟩ := hstored hrun
  obtain ⟨s', hs'⟩ := hstored hrun'
  have hfresh : ∀ e' ∈ old.flatMap entries ++ interpreted acts, e'.block ≠ e.block :=
    (h.causal.block_ne (h.entries_eq hsplit)).1
  refine ⟨s.out, s'.out, ?_, ?_, ?_⟩
  · have hfull : actAll (new p lastInterpreted)
        ((old.flatMap actions ++ acts) ++ [.process e]) = .ok t := by
      rw [append_assoc, actAll_append, h.earlier]
      exact hrun
    rw [h.actions_eq hsplit, outputAt_of_split ?_ hfull, hs]
    · rfl
    · rw [interpreted_append, interpreted_actions]
      intro hmem
      obtain ⟨e', he', hblock⟩ := mem_map.mp hmem
      exact hfresh e' he' hblock
  · rw [hsplit, outputAt_of_split ?_ hrun', hs']
    · rfl
    · intro hmem
      obtain ⟨e', he', hblock⟩ := mem_map.mp hmem
      exact hfresh e' (mem_append_right _ he') hblock
  · by_cases hquiet : Quiet i.round (bgs.flatMap entries) e.block
    · exact SameKept.of_dropped
        (fun msg hmsg => dropped_of_le (hbeside.twins.modest.out _ s hquiet hs msg hmsg))
        (fun msg hmsg => dropped_of_le (hbeside.twins.modest'.out _ s' hquiet hs' msg hmsg))
    · exact hbeside.twins.out _ s s' hquiet hs hs'

/-- The rounds after the report. -/
theorem callbacks :
    ∃ g', actAll (new p i.round) (again.flatMap actions) = .ok g' ∧
      (final.callbacks.filter fun j => decide (i.round < j.round)).map digest =
        g'.callbacks.map digest := by
  obtain ⟨g, g', hrun, hrun', hbeside⟩ := h.beside_actAll (append_nil _).symm
  obtain rfl : g = final := Except.ok.inj (hrun.symm.trans h.later)
  have hcallbacks := (hbeside.abreast (by rw [h.split_later]; simp)).callbacks
  refine ⟨g', hrun', ?_⟩
  have hreach := h.round
  have hroom := h.room
  have hlength := congrArg List.length hcallbacks
  simp only [length_map, length_append] at hlength
  have hbefore := ((counted_actAll p lastInterpreted done).of_ok h.run).bounds h.fits
  have hafter := ((counted_actAll p i.round _).of_ok hrun').bounds (by omega)
  have hfilter : (g.callbacks.filter fun j => decide (i.round < j.round)).map digest =
      (g.callbacks.map digest).filter fun x => decide (i.round < x.1) := by
    rw [filter_map]
    rfl
  have hold : (mid.callbacks.map digest).filter (fun x => decide (i.round < x.1)) = [] := by
    rw [filter_eq_nil_iff]
    intro x hx
    obtain ⟨j, hj, rfl⟩ := mem_map.mp hx
    have hlt := (hbefore j hj).2
    change ¬ decide (i.round < j.round) = true
    rw [decide_eq_true_eq]
    omega
  have hnew : (g'.callbacks.map digest).filter (fun x => decide (i.round < x.1)) =
      g'.callbacks.map digest := by
    rw [filter_eq_self]
    intro x hx
    obtain ⟨j, hj, rfl⟩ := mem_map.mp hx
    exact decide_eq_true (hafter j hj).1
  rw [hfilter, hcallbacks, filter_append, hold, hnew, nil_append]

end Replays

/-- When a restart shows nothing. In a run over own blocks in a causal order, in which no
node forks, take any point at which `i` is what the callback was told last. If every block
that builds on a later round has the same timeout value with and without the restart, and the
new graph prunes no timeout of such a round that is still to fall due, nothing shows. -/
theorem resumes_of_inTime {p : Params} {lastInterpreted node first : Nat} {bgs : List BlockGraph}
    {done rest : List Action} {mid g : Graph} {i : Interpreted} (hown : OwnChain node first bgs)
    (hcausal : Causal p.peers (bgs.flatMap entries))
    (hone : ∀ x, OneChain (bgs.flatMap entries) x)
    (hrun : addAll (new p lastInterpreted) bgs = .ok g)
    (hroom : lastInterpreted + 1 + g.callbacks.length < 2 ^ 64)
    (hsplit : bgs.flatMap actions = done ++ rest)
    (hdone : actAll (new p lastInterpreted) done = .ok mid)
    (hlast : mid.callbacks.getLast? = some i) (htime : ∀ start, addAll (new p lastInterpreted)
        (bgs.filter fun bg => decide (bg.block.round < i.consumed)) = .ok start →
      InTime i.round (bgs.flatMap entries) start (new p i.round)
        ((storedFrom i.consumed bgs).flatMap actions)) :
    Resumes p lastInterpreted bgs i := by
  have hstored : storedFrom i.consumed bgs = bgs.drop (i.consumed - first) :=
    hown.filter_round i.consumed
  have hfits : lastInterpreted + 1 + mid.callbacks.length < 2 ^ 64 := by
    rw [addAll_eq_actAll, hsplit, actAll_append, hdone] at hrun
    have hcount := callbacks_le_of_actAll hrun
    omega
  have hpoint : Point p lastInterpreted node first bgs done rest mid i :=
    ⟨hown, hcausal, hsplit, hdone, hlast, hfits⟩
  -- the own blocks are cut before the last consumed one
  rw [hstored, hown.filter_before] at htime
  obtain ⟨old, again, hold, hagain⟩ : ∃ old again, old = bgs.take (i.consumed - first) ∧
    again = bgs.drop (i.consumed - first) := ⟨_, _, rfl, rfl⟩
  have hbgs : bgs = old ++ again := by rw [hold, hagain, take_append_drop]
  have hlength : old.length = i.consumed - first := by
    obtain ⟨n, hn, hcount, -⟩ := hpoint.consumed
    have hadded := ( added_prefix hsplit).length_le
    rw [hold, length_take]
    omega
  obtain ⟨replayed, hreplayed⟩ := hpoint.earlier_begins hbgs hlength
  have hwhole := hrun
  rw [addAll_eq_actAll, hbgs, flatMap_append, actAll_append] at hwhole
  obtain ⟨start, hearlier, hlater⟩ := bind_eq_ok.mp hwhole
  rw [← hold, ← hagain] at htime
  have hreplays : Replays p lastInterpreted node first bgs old again done replayed rest mid i
      start g :=
    ⟨hpoint, hbgs, hlength, hreplayed.symm, hone, hearlier, hlater, hroom,
      htime start (by rw [addAll_eq_actAll]; exact hearlier)⟩
  rw [← hagain] at hstored
  constructor
  · intro bg hbg hlate e he
    have hmem : .process e ∈ again.flatMap actions := by
      refine mem_flatMap.mpr ⟨bg, ?_, mem_cons_of_mem _ (mem_map_of_mem he)⟩
      rw [← hstored]
      exact mem_filter.mpr ⟨hbg, decide_eq_true hlate.le⟩
    obtain ⟨acts, after, hsplit'⟩ := append_of_mem hmem
    obtain ⟨out, out', hout, hout', hsame⟩ := hreplays.outputs hsplit'
    refine ⟨out, out', hout, ?_, hsame.filter_eq⟩
    rw [hstored]
    exact hout'
  · obtain ⟨g', hrun', hcallbacks⟩ := hreplays.callbacks
    refine ⟨g, g', hrun, ?_, hcallbacks⟩
    rw [hstored, addAll_eq_actAll]
    exact hrun'

/-- Four nodes in lockstep, seen by the first up to its block of the round `last`. -/
def inStep (last : Nat) : List BlockGraph :=
  (range' 1 last).map fun round => ownAt 1 round
    (if round = 1 then [] else [2, 3, 4].map fun node => depAt node (round - 1)
      (if round = 2 then [] else
        (Params.four.peers.filter fun other => other ≠ node).map fun other =>
          blockAt other (round - 2)))

/-- A check that asks all blocks for what `InTime` asks of some. -/
def inTimeCheck (R : Nat) : Graph → Graph → List Action → Bool
  | _, _, [] => true
  | g, g', a :: acts =>
    (match a with
      | .register _ => true
      | .process e => decide (g.patience e = g'.patience e) &&
        (range g'.round).all fun d => ((g.opened e).timeoutsAt d).all fun t =>
          decide (t.round ≤ R)) &&
    match g.act a with
    | .error _ => true
    | .ok t =>
      match g'.act a with
      | .error _ => true
      | .ok t' => inTimeCheck R t t' acts

theorem inTime_of_check {acts : List Action} :
    ∀ {g g' : Graph}, inTimeCheck R g g' acts = true → InTime R es g g' acts := by
  induction acts with
  | nil => exact fun _ => trivial
  | cons a acts ih =>
    intro g g' h
    obtain ⟨hnow, hlater⟩ := Bool.and_eq_true_iff.mp h
    constructor
    · rintro e rfl -
      obtain ⟨hpatience, hpruned⟩ := Bool.and_eq_true_iff.mp hnow
      refine ⟨of_decide_eq_true hpatience, fun d _ hd _ t ht => ?_⟩
      exact of_decide_eq_true
        (all_eq_true.mp (all_eq_true.mp hpruned d (mem_range.mpr hd)) t ht)
    · intro t t' hact hact'
      rw [hact] at hlater
      dsimp only at hlater
      rw [hact'] at hlater
      exact ih hlater

theorem addAll_of_split {g : Graph} (hsplit : bgs.flatMap actions = done ++ rest)
    (hdone : actAll g done = .ok mid) (hrest : actAll mid rest = .ok final) :
    addAll g bgs = .ok final := by
  rw [addAll_eq_actAll, hsplit, actAll_append, hdone]
  exact hrest

theorem oneChain_of_eq_blockAt (h : ∀ e ∈ es, e.block = blockAt e.block.node e.block.round)
    (x : Nat) : OneChain es x := by
  intro e he e' he' hx hx' hround
  rw [h e he, h e' he', hx, hx', hround]

/-- Four nodes in lockstep: a restart after the report of round 2 does not show when round 3
is reported. -/
theorem resumes_inStep :
    ∃ mid i, actAll (new .four 0) (((inStep 6).flatMap actions).take 22) = .ok mid ∧
      mid.callbacks.getLast? = some i ∧ i.consumed = 2 ∧ i.round = 2 ∧
      Resumes .four 0 (inStep 6) i := by
  have hruns : succeeds (actAll (new .four 0) (((inStep 6).flatMap actions).take 22))
      (fun mid =>
        decide (mid.callbacks.getLast?.map (fun i => (i.consumed, i.round)) = some (2, 2)) &&
        succeeds (actAll mid (((inStep 6).flatMap actions).drop 22))
          fun g => decide (0 + 1 + g.callbacks.length < 2 ^ 64)) = true := by decide +kernel
  have hcheck : succeeds (addAll (new .four 0) ((inStep 6).filter fun bg =>
      decide (bg.block.round < 2)))
      (fun start => inTimeCheck 2 start (new .four 2)
        ((storedFrom 2 (inStep 6)).flatMap actions)) = true := by decide +kernel
  have hforks : ∀ e ∈ (inStep 6).flatMap entries,
      e.block = blockAt e.block.node e.block.round := by decide +kernel
  obtain ⟨mid, hdone, hafter⟩ := exists_of_succeeds hruns
  obtain ⟨hmid, hlater⟩ := Bool.and_eq_true_iff.mp hafter
  obtain ⟨g, hrest, hroom⟩ := exists_of_succeeds hlater
  have hrun := addAll_of_split (take_append_drop 22 _).symm hdone hrest
  obtain ⟨start, hearlier, htime⟩ := exists_of_succeeds hcheck
  obtain ⟨i, hlast, hi⟩ := Option.map_eq_some_iff.mp (of_decide_eq_true hmid)
  obtain ⟨hconsumed, hround⟩ := Prod.mk.inj hi
  refine ⟨mid, i, hdone, hlast, hconsumed, hround, ?_⟩
  refine @resumes_of_inTime .four 0 1 1 (inStep 6) _ _ mid g i (by constructor <;> decide +kernel)
    (causal_of_check (by decide +kernel))
    (oneChain_of_eq_blockAt hforks) hrun
    (of_decide_eq_true hroom) (take_append_drop 22 _).symm hdone hlast fun start' hstart => ?_
  rw [hconsumed] at hstart ⊢
  rw [hround]
  cases hearlier.symm.trans hstart
  exact inTime_of_check htime

/-- Four nodes in lockstep for five rounds. Then the first node sees two more blocks, two
rounds late, and nothing after them. -/
def fallingSilent : List BlockGraph :=
  inStep 5 ++ (range' 6 12).map fun round => ownAt 1 round
    (if round = 7 then [2, 3].map fun node => depAt node 5
      ((Params.four.peers.filter fun other => other ≠ node).map fun other =>
        blockAt other 4) else [])

/-- The first block of a chain records a delay of 10 for the zero block id. With it, the own
block of round 7 has the timeout value 10, and the own block of round 17 asks for the next
view of the instances of round 7. A graph that is restarted after round 2 does not know the
first block. It comes to the value 20, and its own block of round 17 asks for nothing. -/
theorem not_resumes_fallingSilent :
    OwnChain 1 1 fallingSilent ∧
    Causal Params.four.peers (fallingSilent.flatMap entries) ∧
    (∀ x, OneChain (fallingSilent.flatMap entries) x) ∧
    (∃ g, addAll (new .four 0) fallingSilent = .ok g) ∧
    ∃ done rest mid i, fallingSilent.flatMap actions = done ++ rest ∧
      actAll (new .four 0) done = .ok mid ∧ mid.callbacks.getLast? = some i ∧
      i.consumed = 2 ∧ i.round = 2 ∧ ¬ Resumes .four 0 fallingSilent i := by
  have hruns : succeeds (actAll (new .four 0) ((fallingSilent.flatMap actions).take 22))
      (fun mid =>
        decide (mid.callbacks.getLast?.map (fun i => (i.consumed, i.round)) = some (2, 2)) &&
        succeeds (actAll mid ((fallingSilent.flatMap actions).drop 22)) fun _ => true) =
      true := by decide +kernel
  have hforks : ∀ e ∈ fallingSilent.flatMap entries,
      e.block = blockAt e.block.node e.block.round := by decide +kernel
  have hdiffer : (outputAt (new .four 0) (fallingSilent.flatMap actions)
    (blockAt 1 17)).map
        (List.filter fun msg => decide (2 < msg.nodeRound.round)) ≠
      (outputAt (new .four 2) ((storedFrom 2 fallingSilent).flatMap actions)
        (blockAt 1 17)).map (List.filter fun msg => decide (2 < msg.nodeRound.round)) := by
    decide +kernel
  obtain ⟨mid, hdone, hafter⟩ := exists_of_succeeds hruns
  obtain ⟨hmid, hlater⟩ := Bool.and_eq_true_iff.mp hafter
  obtain ⟨g, hrest, -⟩ := exists_of_succeeds hlater
  have hrun := addAll_of_split (take_append_drop 22 _).symm hdone hrest
  obtain ⟨i, hlast, hi⟩ := Option.map_eq_some_iff.mp (of_decide_eq_true hmid)
  obtain ⟨hconsumed, hround⟩ := Prod.mk.inj hi
  refine ⟨by constructor <;> decide +kernel, causal_of_check (by decide +kernel),
    oneChain_of_eq_blockAt hforks, ⟨g, hrun⟩,
    _, _, mid, i, (take_append_drop 22 _).symm, hdone, hlast, hconsumed, hround,
    fun hresumes => ?_⟩
  obtain ⟨out, out', hout, hout', hsame⟩ := hresumes.outputs (ownAt 1 17 []) (by decide +kernel)
    (by rw [hconsumed]; decide) (ownAt 1 17 []).entry (by simp [entries])
  rw [hround] at hout' hsame
  rw [hconsumed] at hout'
  refine hdiffer ?_
  change (outputAt _ _ (ownAt 1 17 []).entry.block).map _ =
    (outputAt _ _ (ownAt 1 17 []).entry.block).map _
  rw [hout, hout', Option.map_some, Option.map_some, hsame]

/-- Without a fork only a delivery can stop the interpreter. A run over own blocks in a
causal order, of peers that never fork and whose ids fit the bitsets, finds no two hashes
in a view change, no index out of range and no empty list: it comes to its end, or two
different values were decided for one instance. -/
theorem stops_only_at_mismatch (hown : OwnChain node first bgs)
    (hcausal : Causal p.peers (bgs.flatMap entries))
    (hone : ∀ x, OneChain (bgs.flatMap entries) x)
    (hfits : ∀ e ∈ bgs.flatMap entries, p.Fits e.block.node) :
    Ensures (addAll (new p lastInterpreted) bgs) (fun _ => True)
      (fun halt => ∃ key, halt.crash = .mismatchingHash key) := by
  rw [addAll_eq_actAll]
  cases hrun : actAll (new p lastInterpreted) (bgs.flatMap actions) with
  | ok g => exact trivial
  | error halt =>
    rw [← interpreted_actions] at hone hfits
    have hwf := hcausal.wellFormed
    rw [← interpreted_actions] at hwf
    have hmessages := not_stumbles hwf hone hfits hrun
    have hblocks := (running_actAll hown hcausal (append_nil _).symm).of_error hrun
    change ∃ key, halt.crash = .mismatchingHash key
    cases hcrash : halt.crash with
    | indexOutOfRange => exact absurd (.inl hcrash) hmessages
    | multipleHashes key => exact absurd (.inr ⟨key, hcrash⟩) hmessages
    | mismatchingHash key => exact ⟨key, rfl⟩
    | noBlocks => exact absurd hcrash hblocks

/-- Four nodes in lockstep for five rounds. -/
theorem stops_only_at_mismatch_inStep :
    Ensures (addAll (new .four 0) (inStep 5)) (fun _ => True)
      (fun halt => ∃ key, halt.crash = .mismatchingHash key) :=
  @stops_only_at_mismatch .four 0 1 1 (inStep 5) (by constructor <;> decide +kernel)
    (causal_of_check (by decide +kernel)) (oneChain_of_eq_blockAt (by decide +kernel))
    (by unfold Params.Fits; decide +kernel)

end Graph

end Blockmania
