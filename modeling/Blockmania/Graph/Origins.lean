/-
# Reading a run backwards

A message is the answer to a step, and that step met messages and memory for
which there is evidence in earlier steps. Going back from answer to answer leads
from a Commit to the PrePrepares that were accepted for it, from the PrePrepare
of a later view to a NewView, from there to a quorum of ViewChanges, and from
each of those to the view that ran out and the value prepared in it. Every step
back leads to a shorter run, so arguments about where a value comes from are
inductions on the length of the run.
-/

import Blockmania.Graph.Provenance

namespace Blockmania

open Math List

variable {vals : List Hash}

/-- What the merged hash tells about the hashes it was merged from. -/
theorem mergeHashes_eq_some {hash : Hash} {acc : Hash} (h : mergeHashes vals acc = some hash) :
    (hash = acc ∨ hash ∈ vals) ∧ ∀ v ∈ acc :: vals, v = [] ∨ v = hash := by
  induction vals generalizing acc with
  | nil =>
    cases h
    exact ⟨.inl rfl, fun v hv => .inr (mem_singleton.mp hv)⟩
  | cons hval rest ih =>
    rw [mergeHashes] at h
    split at h
    · rename_i hempty
      obtain ⟨hfrom, hall⟩ := ih h
      refine ⟨hfrom.imp_right (mem_cons_of_mem hval), fun v hv => ?_⟩
      rcases mem_cons.mp hv with rfl | hv
      · exact hall v mem_cons_self
      rcases mem_cons.mp hv with rfl | hv
      · exact .inl hempty
      · exact hall v (mem_cons_of_mem _ hv)
    split at h
    · cases h
    rename_i hsame
    obtain ⟨hfrom, hall⟩ := ih h
    constructor
    · rcases hfrom with rfl | hmem
      · exact .inr mem_cons_self
      · exact .inr (mem_cons_of_mem hval hmem)
    · intro v hv
      rcases mem_cons.mp hv with rfl | hv
      · by_cases hv : v = []
        · exact .inl hv
        · have heq : hval = v := by
            by_contra hne
            exact hsame ⟨hv, hne⟩
          exact heq ▸ hall hval mem_cons_self
      · exact hall v hv

/-- Merging fails only for two different values. -/
theorem mergeHashes_eq_none {acc : Hash} (h : mergeHashes vals acc = none) :
    ∃ v ∈ acc :: vals, ∃ v' ∈ acc :: vals, v ≠ [] ∧ v' ≠ [] ∧ v ≠ v' := by
  induction vals generalizing acc with
  | nil => cases h
  | cons hval rest ih =>
    rw [mergeHashes] at h
    split at h
    · obtain ⟨v, hv, v', hv', hne⟩ := ih h
      have hsub : ∀ u ∈ acc :: rest, u ∈ acc :: hval :: rest := by
        intro u hu
        rcases mem_cons.mp hu with rfl | hu
        · exact mem_cons_self
        · exact mem_cons_of_mem _ (mem_cons_of_mem _ hu)
      exact ⟨v, hsub v hv, v', hsub v' hv', hne⟩
    rename_i hfull
    split at h
    · rename_i hdiff
      exact ⟨hval, mem_cons_of_mem _ mem_cons_self, acc, mem_cons_self, hfull, hdiff.1, hdiff.2⟩
    · obtain ⟨v, hv, v', hv', hne⟩ := ih h
      exact ⟨v, mem_cons_of_mem _ hv, v', mem_cons_of_mem _ hv', hne⟩

section Origins

variable {p : Params} {key : NodeRound} {proposed lasting : BlockID → Prop} {trace older : List Event}
  {ev : Event}

/-- A step of a grounded trace, with the steps before it. -/
theorem AllGrounded.of_mem (hall : AllGrounded p key proposed lasting trace) (hev : ev ∈ trace) :
    ∃ older, ev :: older <:+ trace ∧ Grounded p key proposed lasting older ev ∧
      AllGrounded p key proposed lasting older := by
  obtain ⟨later, older, rfl⟩ := append_of_mem hev
  exact ⟨older, suffix_append later _, hall.of_append⟩

theorem AllGrounded.of_suffix (hall : AllGrounded p key proposed lasting trace)
    (hsuffix : ev :: older <:+ trace) :
    Grounded p key proposed lasting older ev ∧ AllGrounded p key proposed lasting older := by
  obtain ⟨later, rfl⟩ := hsuffix
  exact hall.of_append

/-- What comes before a step of a trace is part of the trace. -/
theorem older_subset (hsuffix : ev :: older <:+ trace) : older ⊆ trace :=
  List.Subset.trans (subset_cons_self ev older) hsuffix.subset

variable {receiver sender w : Nat} {hash : Hash} {m : Vote} {ref : VoteRef}

/-- A voter for a commitment has been seen to back it. -/
theorem backed_of_voters {vote : Vote} (hgrounded : Grounded p key proposed lasting older ev)
    (hcause : ev.cause = .message sender receiver (.prepare vote))
    (hkey : (⟨vote.node, vote.round⟩ : NodeRound) = key) :
    ∀ x ∈ insert vote.sender ((ev.mem.inst key).bitset p.peerCount vote.hash vote.view).preparers,
      Backed p key older x vote.hash vote.view := by
  intro x hx
  rcases Finset.mem_insert.mp hx with rfl | hx
  · have hanswered := (hgrounded.source sender receiver _ hcause hkey).answered (by simp)
    exact hkey ▸ backed_of_answered hanswered
  · exact hgrounded.inst.prepares _ _ x hx

section

variable (hall : AllGrounded p key proposed lasting trace)
include hall

/-- A commitment goes back to a quorum that backed its value in its view. -/
theorem AllGrounded.of_committed {y : Nat} (h : Committed p key trace y hash w) :
    ∃ ev older, ev :: older <:+ trace ∧ AllGrounded p key proposed lasting older ∧
      ev.block.node = y ∧ ev.key = key ∧ (ev.mem.inst key).current = w ∧
      ev.answer p = some (.commit ⟨hash, key.node, key.round, y, w⟩) ∧
      ∃ nodes : Finset Nat, nodes.card = p.quorum2f1 ∧ ∀ x ∈ nodes, Backed p key older x hash w := by
  obtain ⟨ev, hev, hanswer⟩ := h
  obtain ⟨older, hsuffix, hgrounded, hallolder⟩ := hall.of_mem hev
  rcases Event.answer_cases hanswer with ⟨t, -, -, -, hmsg⟩ | ⟨sender, receiver, cause, o, hcause, hresp,
    htransition⟩
  · cases hmsg
  obtain ⟨voter, rfl, hreceiver, hcurrent, -, hcard⟩ := Instance.of_answer_commit htransition hresp
  have hkey : ev.key = key := by
    rw [Event.key, hcause]
    rfl
  rw [hkey] at hcurrent hcard
  refine ⟨ev, older, hsuffix, hallolder, ?_, hkey, hcurrent, hanswer, _, hcard, ?_⟩
  · rw [← hgrounded.receiver _ _ _ hcause, hreceiver]
  · exact backed_of_voters hgrounded hcause rfl

/-- A backed value was announced for its view, or it was proposed. -/
theorem AllGrounded.of_backed {x : Nat} (h : Backed p key trace x hash w) :
    ∃ ev older sender, ev :: older <:+ trace ∧ Grounded p key proposed lasting older ev ∧
      AllGrounded p key proposed lasting older ∧
      ev.cause = .message sender ev.block.node (.prePrepare ⟨hash, key.node, key.round, w⟩) ∧
      (ev.answer p).isSome ∧ (x = sender ∨ x = ev.block.node) ∧
      (Answered p older (.prePrepare ⟨hash, key.node, key.round, w⟩) ∨
        w = 0 ∧ sender = key.node ∧ proposed ⟨hash, key.node, key.round⟩ ∧ lasting ev.block) := by
  obtain ⟨ev, hev, sender, receiver, hcause, hanswer, hx⟩ := h
  obtain ⟨older, hsuffix, hgrounded, hallolder⟩ := hall.of_mem hev
  have hreceiver := hgrounded.receiver _ _ _ hcause
  subst hreceiver
  refine ⟨ev, older, sender, hsuffix, hgrounded, hallolder, hcause, hanswer, hx, ?_⟩
  rcases hgrounded.source _ _ _ hcause rfl with hanswered | ⟨hash', hmsg, hsender, hproposed, hlasting⟩
  · exact .inl hanswered
  · cases hmsg
    exact .inr ⟨rfl, hsender, hproposed, hlasting⟩

/-- The PrePrepare of a later view goes back to a NewView. -/
theorem AllGrounded.of_prePrepare
    (h : Answered p trace (.prePrepare ⟨hash, key.node, key.round, w⟩)) :
    ∃ ev older announcer, ev :: older <:+ trace ∧ AllGrounded p key proposed lasting older ∧
      Answered p older (.newView ⟨hash, key.node, key.round, announcer, w⟩) := by
  obtain ⟨ev, hev, hanswer⟩ := h
  obtain ⟨older, hsuffix, hgrounded, hallolder⟩ := hall.of_mem hev
  rcases Event.answer_cases hanswer with ⟨t, -, -, -, hmsg⟩ | ⟨sender, receiver, cause, o, hcause, hresp,
    htransition⟩
  · cases hmsg
  obtain ⟨⟨announcer, rfl⟩, -⟩ := Instance.of_answer_prePrepare htransition hresp
  refine ⟨ev, older, announcer, hsuffix, hallolder, ?_⟩
  exact (hgrounded.source _ _ _ hcause rfl).answered (by simp)

end

/-- The votes that a step counts were cast, and all of them against one view of
one chain. -/
theorem Grounded.ballots (hgrounded : Grounded p key proposed lasting older ev)
    (hcause : ev.cause = .message sender receiver (.viewChange m))
    (hkey : (⟨m.node, m.round⟩ : NodeRound) = key) (hopen : (ev.mem.inst key).closed = false)
    (hview : (ev.mem.inst key).current ≤ m.view) :
    ev.ballot = some (ev.mem.voteRef key, m) ∧
      ∀ (voter : Nat) (hash : Hash), ((ev.mem.inst key).protests m)[voter]? = some hash →
        ∃ ev' ∈ ev :: older, ∃ w,
          ev'.ballot = some (ev.mem.voteRef key, ⟨hash, key.node, key.round, voter, w⟩) := by
  subst hkey
  have hballot : ev.ballot = some (ev.mem.voteRef ⟨m.node, m.round⟩, m) :=
    Event.ballot_eq_some.mpr ⟨sender, receiver, hcause, hopen, hview, rfl⟩
  refine ⟨hballot, fun voter hash hvoter => ?_⟩
  rcases lookup_protests hvoter with ⟨rfl, rfl⟩ | ⟨vcs, hvcs, hvoter⟩
  · exact ⟨ev, mem_cons_self, m.view, hballot⟩
  · obtain ⟨ev', hev', w, hballot'⟩ := hgrounded.votes _ vcs voter hash rfl hvcs hvoter
    exact ⟨ev', mem_cons_of_mem ev hev', w, hballot'⟩

variable (hall : AllGrounded p key proposed lasting trace)
include hall

/-- A NewView goes back to a quorum of votes against one view of one chain,
and carries the hash they agree on. -/
theorem AllGrounded.of_newView
    (hkey : (⟨m.node, m.round⟩ : NodeRound) = key) (h : Answered p trace (.newView m)) :
    ∃ ev older vote, ev :: older <:+ trace ∧ AllGrounded p key proposed lasting (ev :: older) ∧
      ev.answer p = some (.newView m) ∧
      ev.ballot = some (ev.mem.voteRef key, vote) ∧ vote.view = m.view ∧
      ∃ vcs : FiniteMap Nat Hash, vcs.size = p.quorum2f1 ∧ mergeHashes vcs.values [] = some m.hash ∧
        ∀ (voter : Nat) (hash : Hash), vcs[voter]? = some hash → ∃ ev' ∈ ev :: older, ∃ w,
          ev'.ballot = some (ev.mem.voteRef key, ⟨hash, key.node, key.round, voter, w⟩) := by
  obtain ⟨ev, hev, hanswer⟩ := h
  obtain ⟨older, hsuffix, hgrounded, hallolder⟩ := hall.of_mem hev
  rcases Event.answer_cases hanswer with ⟨t, -, -, -, hmsg⟩ | ⟨sender, receiver, cause, o, hcause, hresp,
    htransition⟩
  · cases hmsg
  obtain ⟨vote, rfl, hnode, hround, hview, hopen, hcurrent, hsize, hmerge⟩ :=
    Instance.of_answer_newView htransition hresp
  have hvote : (⟨vote.node, vote.round⟩ : NodeRound) = key := by rw [hnode, hround, hkey]
  have hevkey : ev.key = key := by
    rw [Event.key, hcause]
    exact hvote
  rw [hevkey] at hopen hcurrent hsize hmerge
  obtain ⟨hballot, hballots⟩ := hgrounded.ballots hcause hvote hopen hcurrent
  exact ⟨ev, older, vote, hsuffix, ⟨hgrounded, hallolder⟩, hanswer, hballot, hview, _, hsize, hmerge, hballots⟩

/-- A vote that was cast goes back to a ViewChange. -/
theorem AllGrounded.of_ballot (hev : ev ∈ trace)
    (hballot : ev.ballot = some (ref, m)) (hkey : (⟨m.node, m.round⟩ : NodeRound) = key) :
    ∃ older, ev :: older <:+ trace ∧ AllGrounded p key proposed lasting older ∧
      Answered p older (.viewChange m) := by
  obtain ⟨older, hsuffix, hgrounded, hallolder⟩ := hall.of_mem hev
  obtain ⟨sender, receiver, hcause, -⟩ := Event.ballot_eq_some.mp hballot
  exact ⟨older, hsuffix, hallolder, (hgrounded.source _ _ _ hcause hkey).answered (by simp)⟩

/-- A ViewChange goes back to a view that ran out, and carries the value
prepared in it. -/
theorem AllGrounded.of_viewChange
    (hkey : (⟨m.node, m.round⟩ : NodeRound) = key) (h : Answered p trace (.viewChange m)) :
    ∃ ev older t, ev :: older <:+ trace ∧ Grounded p key proposed lasting older ev ∧
      AllGrounded p key proposed lasting older ∧ ev.cause = .timeout t ∧ ev.key = key ∧
      ev.answer p = some (.viewChange m) ∧
      ev.block.node = m.sender ∧ (ev.mem.inst key).closed = false ∧
      (ev.mem.inst key).current ≤ t.view ∧ m.hash = ((ev.mem.inst key).prepared t.view).getD [] ∧
      m.view = u32 (t.view + 1) := by
  obtain ⟨ev, hev, hanswer⟩ := h
  obtain ⟨older, hsuffix, hgrounded, hallolder⟩ := hall.of_mem hev
  rcases Event.answer_cases hanswer with ⟨t, hcause, hopen, hview, hmsg⟩ | ⟨sender, receiver, cause, o,
    hcause, hresp, htransition⟩
  · cases hmsg
    have hevkey : ev.key = key := hkey
    rw [hevkey] at hopen hview ⊢
    exact ⟨ev, older, t, hsuffix, hgrounded, hallolder, hcause, hevkey, hevkey ▸ hanswer, rfl, hopen,
      hview, rfl, rfl⟩
  · exact absurd hresp (Instance.answer_ne_viewChange htransition)

/-- A value in a ViewChange was committed to. -/
theorem AllGrounded.committed_of_viewChange (hkey : (⟨m.node, m.round⟩ : NodeRound) = key)
    (hhash : m.hash ≠ []) (h : Answered p trace (.viewChange m)) :
    ∃ ev older y w, ev :: older <:+ trace ∧ AllGrounded p key proposed lasting older ∧
      Committed p key older y m.hash w := by
  obtain ⟨ev, older, t, hsuffix, hgrounded, hallolder, -, -, -, -, -, -, hvalue, -⟩ :=
    hall.of_viewChange hkey h
  cases hprepared : (ev.mem.inst key).prepared t.view with
  | none =>
    rw [hprepared] at hvalue
    exact absurd hvalue hhash
  | some value =>
    rw [hprepared] at hvalue
    obtain ⟨y, hcommitted⟩ := hgrounded.inst.prepared t.view value hprepared
    exact ⟨ev, older, y, t.view, hsuffix, hallolder, hvalue ▸ hcommitted⟩

/-- A value that was voted for against a view was committed to. -/
theorem AllGrounded.committed_of_ballot (hev : ev ∈ trace) (hballot : ev.ballot = some (ref, m))
    (hkey : (⟨m.node, m.round⟩ : NodeRound) = key) (hhash : m.hash ≠ []) :
    ∃ ev older y w, ev :: older <:+ trace ∧ AllGrounded p key proposed lasting older ∧
      Committed p key older y m.hash w := by
  obtain ⟨older, hsuffix, hallolder, hanswered⟩ := hall.of_ballot hev hballot hkey
  obtain ⟨ev', older', y, w, hsuffix', hall', hcommitted⟩ :=
    hallolder.committed_of_viewChange hkey hhash hanswered
  exact ⟨ev', older', y, w, hsuffix'.trans ((suffix_cons _ _).trans hsuffix), hall', hcommitted⟩

/-- A value in a NewView was committed to. -/
theorem AllGrounded.committed_of_newView (hkey : (⟨m.node, m.round⟩ : NodeRound) = key)
    (hhash : m.hash ≠ []) (h : Answered p trace (.newView m)) :
    ∃ ev older y w, ev :: older <:+ trace ∧ AllGrounded p key proposed lasting older ∧
      Committed p key older y m.hash w := by
  obtain ⟨ev, older, vote, hsuffix, hall', -, -, -, vcs, -, hmerge, hballots⟩ := hall.of_newView hkey h
  obtain ⟨voter, hvoter⟩ :=
    FiniteMap.mem_values.mp ((mergeHashes_eq_some hmerge).1.resolve_left hhash)
  obtain ⟨ev', hev', w, hballot⟩ := hballots voter m.hash hvoter
  obtain ⟨ev'', older'', y, w', hsuffix', hall'', hcommitted⟩ :=
    hall'.committed_of_ballot hev' hballot rfl hhash
  exact ⟨ev'', older'', y, w', hsuffix'.trans hsuffix, hall'', hcommitted⟩

/-- A value that was accepted for a later view was committed to before. -/
theorem AllGrounded.committed_of_prePrepare
    (hhash : hash ≠ []) (h : Answered p trace (.prePrepare ⟨hash, key.node, key.round, w⟩)) :
    ∃ ev older y w', ev :: older <:+ trace ∧ AllGrounded p key proposed lasting older ∧
      Committed p key older y hash w' := by
  obtain ⟨ev, older, announcer, hsuffix, hallolder, hanswered⟩ := hall.of_prePrepare h
  obtain ⟨ev', older', y, w', hsuffix', hall', hcommitted⟩ :=
    hallolder.committed_of_newView (m := ⟨hash, key.node, key.round, announcer, w⟩) rfl hhash hanswered
  exact ⟨ev', older', y, w', hsuffix'.trans ((suffix_cons _ _).trans hsuffix), hall', hcommitted⟩

end Origins

/-- A new view rests on a quorum of timeouts. In every run, whoever forks, a NewView goes
back to as many nodes as a quorum has, for each of which a view that the instance had not
passed ran out before it was decided. It carries the only value any of them had prepared in
that view, which a node had committed to, or none if there was none. -/
theorem Graph.newView_of_timeouts (p : Params) (lastInterpreted : Nat) (acts : List Action) :
    Ensures (actAll (new p lastInterpreted) acts) (fun g => ∀ m, Answered p g.trace (.newView m) →
      (m.hash ≠ [] → ∃ y w, Committed p ⟨m.node, m.round⟩ g.trace y m.hash w) ∧
      ∃ vcs : FiniteMap Nat Hash, vcs.size = p.quorum2f1 ∧ mergeHashes vcs.values [] = some m.hash ∧
        ∀ (voter : Nat) (hash : Hash), vcs[voter]? = some hash → ∃ ev ∈ g.trace, ∃ t,
          ev.cause = .timeout t ∧ ev.block.node = voter ∧ ev.key = ⟨m.node, m.round⟩ ∧
          (ev.mem.inst ev.key).closed = false ∧ (ev.mem.inst ev.key).current ≤ t.view ∧
          hash = ((ev.mem.inst ev.key).prepared t.view).getD [])
      (fun _ => True) := by
  cases hrun : actAll (new p lastInterpreted) acts with
  | error halt => exact trivial
  | ok g =>
    intro m hanswered
    have hall := ((@justified_actAll p ⟨m.node, m.round⟩ (fun _ => True) (fun _ => True) lastInterpreted
      acts (fun _ _ => trivial) fun _ _ _ _ _ _ => trivial).of_ok hrun).trace
    constructor
    · intro hhash
      obtain ⟨ev, older, y, w, hsuffix, -, hcommitted⟩ := hall.committed_of_newView rfl hhash hanswered
      exact ⟨y, w, Answered.mono hcommitted (older_subset hsuffix)⟩
    obtain ⟨ev, older, vote, hsuffix, hgrounded, -, -, -, vcs, hsize, hmerge, hballots⟩ :=
      hall.of_newView rfl hanswered
    refine ⟨vcs, hsize, hmerge, fun voter hash hvoter => ?_⟩
    obtain ⟨ev', hev', w, hballot⟩ := hballots voter hash hvoter
    obtain ⟨older', hsuffix', -, hcast⟩ := hgrounded.of_ballot hev' hballot rfl
    obtain ⟨cast, before, t, hcastsuffix, -, -, hcause, hkey, -, hnode, hopen, hview, hhash, -⟩ :=
      hall.of_viewChange (m := ⟨hash, m.node, m.round, voter, w⟩) rfl
        (hcast.mono (older_subset (hsuffix'.trans hsuffix)))
    refine ⟨cast, hcastsuffix.subset mem_cons_self, t, hcause, hnode, hkey, ?_⟩
    rw [hkey]
    exact ⟨hopen, hview, hhash⟩

end Blockmania
