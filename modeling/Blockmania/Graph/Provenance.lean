/-
# Where messages come from

Nothing in a graph comes from nowhere. A message in the output of a block is the
PrePrepare of that block, or it was the answer to a step taken before. A bit in
a bitset, a prepared value, a decided value and an entry of a vote map each go
back to the step that wrote it. For a fixed instance, `Grounded` says this of
the memory a step finds and of the message it processes, with the steps before it
as the only evidence, and it holds of every step of every run.

Which steps count as evidence does not depend on what is still in memory, so
pruned rounds and forgotten states do no harm.
-/

import Blockmania.Graph.Chains

namespace Blockmania

open Math List

namespace Event

/-- The vote against the current view that a step records, and where. -/
def ballot (ev : Event) : Option (VoteRef × Vote) :=
  match ev.cause with
  | .message _ _ (.viewChange m) =>
    let i := ev.mem.inst ⟨m.node, m.round⟩
    if i.closed = false ∧ i.current ≤ m.view then some (ev.mem.voteRef ⟨m.node, m.round⟩, m)
    else none
  | _ => none

theorem ballot_eq_some {ev : Event} {ref : VoteRef} {m : Vote} :
    ev.ballot = some (ref, m) ↔ ∃ sender receiver, ev.cause = .message sender receiver (.viewChange m) ∧
      (ev.mem.inst ⟨m.node, m.round⟩).closed = false ∧
      (ev.mem.inst ⟨m.node, m.round⟩).current ≤ m.view ∧
      ev.mem.voteRef ⟨m.node, m.round⟩ = ref := by
  unfold ballot
  constructor
  · intro h
    split at h
    · rename_i sender receiver m' hcause
      dsimp only at h
      split at h
      · rename_i hrecorded
        cases h
        exact ⟨sender, receiver, hcause, hrecorded.1, hrecorded.2, rfl⟩
      · cases h
    · cases h
  · rintro ⟨sender, receiver, hcause, hopen, hview, rfl⟩
    simp [hcause, hopen, hview]

end Event

section Evidence

variable (p : Params) (key : NodeRound)

/-- A message was the answer to a step. -/
def Answered (trace : List Event) (msg : Message) : Prop := ∃ ev ∈ trace, ev.answer p = some msg

/-- A node accepted a value of the instance in a view, or a step accepted it with
that node as the sender. -/
def Backed (trace : List Event) (x : Nat) (hash : Hash) (w : Nat) : Prop :=
  ∃ ev ∈ trace, ∃ sender receiver, ev.cause = .message sender receiver
    (.prePrepare ⟨hash, key.node, key.round, w⟩) ∧ (ev.answer p).isSome ∧ (x = sender ∨ x = receiver)

/-- A node committed to a value of the instance in a view. -/
def Committed (trace : List Event) (y : Nat) (hash : Hash) (w : Nat) : Prop :=
  Answered p trace (.commit ⟨hash, key.node, key.round, y, w⟩)

/-- A quorum committed to a value of the instance in one view. -/
def Certified (trace : List Event) (hash : Hash) : Prop :=
  ∃ (w : Nat) (nodes : Finset Nat), p.quorum2f1 ≤ nodes.card ∧
    ∀ y ∈ nodes, Committed p key trace y hash w

/-- There is evidence for everything an instance holds, apart from its votes
against views. -/
structure Vouched (trace : List Event) (i : Instance) : Prop where
  prepares : ∀ hash w, ∀ x ∈ (i.bitset p.peerCount hash w).preparers, Backed p key trace x hash w
  commits : ∀ hash w, ∀ y ∈ (i.bitset p.peerCount hash w).committers, Committed p key trace y hash w
  prepared : ∀ w hash, i.prepared w = some hash → ∃ y, Committed p key trace y hash w
  final : ∀ hash, i.final = some hash → Certified p key trace hash

/-- There is evidence for every vote against a view of the instance. -/
def Collected (trace : List Event) (heap : Heap) : Prop :=
  ∀ (ref : VoteRef) (vcs : FiniteMap Nat Hash) (voter : Nat) (hash : Hash),
    (⟨ref.key.node, ref.key.round⟩ : NodeRound) = key → heap.votes[ref]? = some vcs →
    vcs[voter]? = some hash →
    ∃ ev ∈ trace, ∃ w, ev.ballot = some (ref, ⟨hash, key.node, key.round, voter, w⟩)

variable (proposed lasting : BlockID → Prop)

/-- Where a processed message of the instance comes from: it was the answer to a
step, or it is the PrePrepare of a block of the instance and comes from its
author. -/
def Sourced (trace : List Event) (block : BlockID) (sender : Nat) (msg : Message) : Prop :=
  Answered p trace msg ∨ ∃ hash, msg = .prePrepare ⟨hash, key.node, key.round, 0⟩ ∧
    sender = key.node ∧ proposed ⟨hash, key.node, key.round⟩ ∧ lasting block

/-- There is evidence in the steps `older` for all that a step meets. -/
structure Grounded (older : List Event) (ev : Event) : Prop where
  block : proposed ev.block
  inst : Vouched p key older (ev.mem.inst key)
  votes : Collected key older ev.mem.heap
  due : ∀ t, ev.cause = .timeout t → t ∈ ev.mem.timeoutsAt ev.block.round
  receiver : ∀ sender receiver msg, ev.cause = .message sender receiver msg →
    receiver = ev.block.node
  sender : ∀ sender receiver msg, ev.cause = .message sender receiver msg →
    ∃ b, proposed b ∧ b.node = sender
  source : ∀ sender receiver msg, ev.cause = .message sender receiver msg → msg.nodeRound = key →
    Sourced p key proposed lasting older ev.block sender msg

/-- Every step of a trace, newest first, is grounded in the ones before it. -/
def AllGrounded : List Event → Prop
  | [] => True
  | ev :: older => Grounded p key proposed lasting older ev ∧ AllGrounded older

end Evidence

section Step

variable {p : Params} {key : NodeRound} {trace trace' : List Event} {msg : Message} {hash : Hash}

theorem Answered.mono (h : Answered p trace msg) (hsub : trace ⊆ trace') :
    Answered p trace' msg := by
  obtain ⟨ev, hev, hanswer⟩ := h
  exact ⟨ev, hsub hev, hanswer⟩

theorem Backed.mono {x w : Nat} (h : Backed p key trace x hash w) (hsub : trace ⊆ trace') :
    Backed p key trace' x hash w := by
  obtain ⟨ev, hev, hbacks⟩ := h
  exact ⟨ev, hsub hev, hbacks⟩

theorem Certified.mono (h : Certified p key trace hash) (hsub : trace ⊆ trace') :
    Certified p key trace' hash := by
  obtain ⟨w, nodes, hcard, hnodes⟩ := h
  exact ⟨w, nodes, hcard, fun y hy => (hnodes y hy).mono hsub⟩

theorem Vouched.mono {i : Instance} (h : Vouched p key trace i) (hsub : trace ⊆ trace') :
    Vouched p key trace' i where
  prepares hash w x hx := (h.prepares hash w x hx).mono hsub
  commits hash w y hy := (h.commits hash w y hy).mono hsub
  prepared w hash hprepared := (h.prepared w hash hprepared).imp fun _ hy => hy.mono hsub
  final hash hfinal := (h.final hash hfinal).mono hsub

theorem Collected.mono {heap : Heap} (h : Collected key trace heap) (hsub : trace ⊆ trace') :
    Collected key trace' heap := by
  intro ref vcs voter hash hkey hvcs hvoter
  obtain ⟨ev, hev, hballot⟩ := h ref vcs voter hash hkey hvcs hvoter
  exact ⟨ev, hsub hev, hballot⟩

/-- A step that answers nothing is no evidence for a message. -/
theorem Answered.of_cons {ev : Event} (h : Answered p (ev :: trace) msg)
    (hnone : ev.answer p = none) : Answered p trace msg := by
  obtain ⟨ev', hev', hanswer⟩ := h
  rcases mem_cons.mp hev' with rfl | hev'
  · rw [hnone] at hanswer
    cases hanswer
  · exact ⟨ev', hev', hanswer⟩

theorem Certified.of_cons {ev : Event} (h : Certified p key (ev :: trace) hash)
    (hnone : ev.answer p = none) : Certified p key trace hash := by
  obtain ⟨w, nodes, hcard, hnodes⟩ := h
  exact ⟨w, nodes, hcard, fun y hy => (hnodes y hy).of_cons hnone⟩

/-- Every step is grounded in what follows it in the trace. -/
theorem AllGrounded.of_append {proposed lasting : BlockID → Prop} {later older : List Event}
    {ev : Event} (h : AllGrounded p key proposed lasting (later ++ ev :: older)) :
    Grounded p key proposed lasting older ev ∧ AllGrounded p key proposed lasting older := by
  induction later with
  | nil => exact h
  | cons _ _ ih => exact ih h.2

variable {proposed lasting : BlockID → Prop} {older : List Event} {ev : Event} {reply : Reply}
  {i : Instance} {sender : Nat}

/-- Vouching does not look at views and votes against them. -/
theorem Vouched.of_same {i' : Instance} (h : Vouched p key trace i)
    (hbitsets : i'.bitsets = i.bitsets) (hprepared : i'.prepared = i.prepared)
    (hfinal : i'.final = i.final) : Vouched p key trace i' := by
  constructor
  · unfold Instance.bitset
    rw [hbitsets]
    exact h.prepares
  · unfold Instance.bitset
    rw [hbitsets]
    exact h.commits
  · rw [hprepared]
    exact h.prepared
  · rw [hfinal]
    exact h.final

/-- A prepare vote that was the answer to a step backs its value. -/
theorem backed_of_answered {m : Vote} (h : Answered p trace (.prepare m)) :
    Backed p ⟨m.node, m.round⟩ trace m.sender m.hash m.view := by
  obtain ⟨ev, hev, hanswer⟩ := h
  rcases Event.answer_cases hanswer with ⟨t, -, -, -, hmsg⟩ | ⟨sender, receiver, cause, o, hcause, hresp,
    htransition⟩
  · cases hmsg
  · obtain ⟨rfl, hreceiver, -⟩ := Instance.of_answer_prepare htransition hresp
    exact ⟨ev, hev, sender, receiver, hcause, by rw [hanswer]; rfl, .inr hreceiver.symm⟩

/-- Only a PrePrepare can be there without having been an answer. -/
theorem Sourced.answered {block : BlockID}
    (h : Sourced p key proposed lasting older block sender msg) (hkind : ∀ m, msg ≠ .prePrepare m) :
    Answered p older msg := by
  rcases h with hanswered | ⟨hash, rfl, -⟩
  · exact hanswered
  · exact absurd rfl (hkind _)

/-- What a message of the instance leaves behind is vouched for, the message
being evidence itself. -/
theorem vouched_transition {receiver : Nat} {o : Outcome} (hkey : msg.nodeRound = key)
    (hcause : ev.cause = .message sender receiver msg) (hanswer : ev.answer p = o.resp)
    (hsource : Sourced p key proposed lasting older ev.block sender msg)
    (hinst : Vouched p key older i) (h : i.Transition p sender receiver msg o) :
    Vouched p key (ev :: older) o.inst := by
  have hsub : older ⊆ ev :: older := subset_cons_self ev older
  have hbefore := hinst.mono hsub
  subst hkey
  have hvotes := Instance.voters_of_transition h
    (fun hash w x => Backed p msg.nodeRound (ev :: older) x hash w)
    (fun hash w y => Committed p msg.nodeRound (ev :: older) y hash w)
    hbefore.prepares hbefore.commits ?_ ?_ ?_ ?_
  · refine ⟨hvotes.1, hvotes.2, fun w hash hprepared => ?_, fun hash hfinal => ?_⟩
    · rcases Instance.commit_of_prepared h hprepared with hsame | hresp
      · exact hbefore.prepared w hash hsame
      · exact ⟨receiver, ev, mem_cons_self, hanswer.trans hresp⟩
    · rcases Instance.quorum_of_final h hfinal with hsame | ⟨w, hcard⟩
      · exact hbefore.final hash hsame
      · exact ⟨w, _, hcard.ge, hvotes.2 hash w⟩
  · rintro m rfl hresp
    have hbacked : ∀ x, x = sender ∨ x = receiver →
        Backed p ⟨m.node, m.round⟩ (ev :: older) x m.hash m.view := fun x hx =>
      ⟨ev, mem_cons_self, sender, receiver, hcause, by rw [hanswer, hresp]; rfl, hx⟩
    exact ⟨hbacked sender (.inl rfl), hbacked receiver (.inr rfl)⟩
  · rintro m rfl
    exact backed_of_answered ((hsource.answered (by simp)).mono hsub)
  · rintro m rfl hresp
    exact ⟨ev, mem_cons_self, hanswer.trans hresp⟩
  · rintro m rfl
    exact (hsource.answered (by simp)).mono hsub

/-- One step leaves behind only what there is evidence for. -/
theorem vouched_reply (h : Grounded p key proposed lasting older ev) (hreply : ev.reply p = .ok reply) :
    Vouched p key (ev :: older) (reply.mem.inst key) := by
  have hbefore := h.inst.mono (subset_cons_self ev older)
  by_cases hkey : key = ev.key
  swap
  · rwa [Event.reply_inst hreply hkey]
  rcases Event.reply_cases hreply with ⟨t, -, houtcome⟩ | ⟨sender, receiver, msg, hcause, htransition⟩
  · obtain ⟨hexpired, -⟩ | ⟨hexpired, -⟩ :=
      (ev.mem.inst ev.key).expire_cases ev.key ev.block.node t.view
    all_goals
      rw [hkey, (Prod.mk.inj (houtcome.trans hexpired)).1, ← hkey]
      exact hbefore.of_same rfl rfl rfl
  · have hmsg : msg.nodeRound = key := by rw [hkey, Event.key, hcause]
    rw [← hkey] at htransition
    exact vouched_transition hmsg hcause (Event.answer_of_reply hreply)
      (h.source sender receiver msg hcause hmsg) h.inst htransition

/-- One step writes to a vote map only the vote it records. -/
theorem collected_reply (h : Grounded p key proposed lasting older ev) (hreply : ev.reply p = .ok reply) :
    Collected key (ev :: older) reply.mem.heap := by
  have hbefore := h.votes.mono (subset_cons_self ev older)
  obtain ⟨block, mem, cause⟩ := ev
  cases cause with
  | timeout t =>
    cases hreply
    have hheap : (mem.expire block.node t).1.heap = mem.heap := by
      unfold Memory.expire
      dsimp only
      split
      · rfl
      split <;> rfl
    change Collected key _ (mem.expire block.node t).1.heap
    rw [hheap]
    exact hbefore
  | message sender receiver msg =>
    change processMessage p mem sender receiver block msg = .ok reply at hreply
    intro ref vcs voter hash hkey hvcs hvoter
    rcases votes_of_processMessage hreply with hsame | ⟨m, rfl, hopen, hview, hwrite⟩
    · rw [hsame] at hvcs
      exact hbefore ref vcs voter hash hkey hvcs hvoter
    rw [hwrite, FiniteMap.lookup_insert] at hvcs
    split at hvcs
    swap
    · exact hbefore ref vcs voter hash hkey hvcs hvoter
    rename_i href
    cases hvcs
    rcases lookup_protests hvoter with ⟨rfl, rfl⟩ | ⟨vcs, hvcs, hvoter⟩
    · subst href
      subst hkey
      exact ⟨_, mem_cons_self, m.view,
        Event.ballot_eq_some.mpr ⟨sender, receiver, rfl, hopen, hview, rfl⟩⟩
    · rw [href] at hvcs
      exact hbefore ref vcs voter hash hkey hvcs hvoter

end Step

/-! ## Runs -/

namespace Graph

section Justified

variable (p : Params) (key : NodeRound) (proposed lasting : BlockID → Prop)

/-- Where a message in the output of a block comes from: it was the answer to a
step of the block, or it is the PrePrepare of the block. -/
def Emitted (trace : List Event) (b : BlockID) (msg : Message) : Prop :=
  (∃ ev ∈ trace, ev.block = b ∧ ev.answer p = some msg) ∨
    msg = .prePrepare ⟨b.hash, b.node, b.round, 0⟩

variable {p} in
theorem Emitted.mono {trace trace' : List Event} {b : BlockID} {msg : Message}
    (h : Emitted p trace b msg) (hsub : trace ⊆ trace') : Emitted p trace' b msg :=
  h.imp_left fun ⟨ev, hev, hanswer⟩ => ⟨ev, hsub hev, hanswer⟩

/-- There is evidence for everything a graph holds about the instance. -/
structure Justified (g : Graph) : Prop where
  trace : AllGrounded p key proposed lasting g.trace
  proposed : ∀ (b : BlockID) (s : State), g.statess[b]? = some s → proposed b
  inst : ∀ (b : BlockID) (s : State), g.statess[b]? = some s →
    Vouched p key g.trace (Memory.inst ⟨g.heap, s⟩ key)
  out : ∀ (b : BlockID) (s : State), g.statess[b]? = some s → ∀ msg ∈ s.out, msg.nodeRound = key →
    Emitted p g.trace b msg
  votes : Collected key g.trace g.heap
  known : ∀ hash, g.known key = some hash → Certified p key g.trace hash
  callbacks : ∀ i ∈ g.callbacks, ∀ b ∈ i.blocks, (⟨b.node, b.round⟩ : NodeRound) = key →
    b.hash ≠ [] ∧ Certified p key g.trace b.hash

/-- The same in the middle of the interpretation of a block, which started in the
graph `g` with the memory `start`. -/
structure Working (g : Graph) (e : Entry) (start : Memory) (host : Graph) (mem : Memory)
    (emitted : List Message) : Prop where
  older : g.trace ⊆ host.trace
  statess : ∀ (b : BlockID) (s : State), host.statess[b]? = some s → g.statess[b]? = some s
  trace : AllGrounded p key proposed lasting host.trace
  inst : Vouched p key host.trace (mem.inst key)
  votes : Collected key host.trace mem.heap
  out : ∀ msg ∈ emitted, msg.nodeRound = key → Emitted p host.trace e.block msg
  due : start.timeoutsAt e.block.round ⊆ mem.timeoutsAt e.block.round
  known : ∀ hash, host.known key = some hash → Certified p key host.trace hash
  callbacks : ∀ i ∈ host.callbacks, ∀ b ∈ i.blocks, (⟨b.node, b.round⟩ : NodeRound) = key →
    b.hash ≠ [] ∧ Certified p key host.trace b.hash

/-- A run stopped at a step that is grounded. If the votes against a view of the
instance were contradictory, that step processed one of them; if the delivered
value of the instance was, there are two decided values. -/
def StopsGrounded (halt : Halt Graph) : Prop :=
  ∃ ev older, halt.host.trace = ev :: older ∧ AllGrounded p key proposed lasting (ev :: older) ∧
    (halt.crash = .multipleHashes key → ev.reply p = .error (.multipleHashes key)) ∧
    (halt.crash = .mismatchingHash key → ∃ hash hash', hash ≠ hash' ∧
      Certified p key older hash ∧ Certified p key older hash') ∧
    ∀ i ∈ halt.host.callbacks, ∀ b ∈ i.blocks, (⟨b.node, b.round⟩ : NodeRound) = key →
      b.hash ≠ [] ∧ Certified p key older b.hash

end Justified

section Process

variable {p : Params} {key : NodeRound} {proposed lasting : BlockID → Prop} {g : Graph} {e : Entry}
  {start : Memory} {emitted : List Message} {host' : Graph} {mem : Memory} {msg : Message}

/-- A step of the block that is being interpreted. -/
theorem Working.reply {cause : Cause} {reply : Reply}
    (h : Working p key proposed lasting g e start host' mem emitted)
    (hgrounded : Grounded p key proposed lasting host'.trace ⟨e.block, mem, cause⟩)
    (hdue : mem.timeoutsAt e.block.round ⊆ reply.mem.timeoutsAt e.block.round)
    (hreply : Event.reply p ⟨e.block, mem, cause⟩ = .ok reply) :
    Working p key proposed lasting g e start (host.observe host' ⟨e.block, mem, cause⟩) reply.mem
      (emitted ++ reply.resp.toList) where
  older := List.Subset.trans h.older (subset_cons_self _ _)
  statess := h.statess
  trace := ⟨hgrounded, h.trace⟩
  inst := vouched_reply hgrounded hreply
  votes := collected_reply hgrounded hreply
  out msg hmsg hkey := by
    rcases mem_append.mp hmsg with hmsg | hmsg
    · exact (h.out msg hmsg hkey).mono (subset_cons_self _ _)
    · refine .inl ⟨_, mem_cons_self, rfl, ?_⟩
      rw [Event.answer_of_reply hreply]
      exact Option.mem_toList.mp hmsg
  due := List.Subset.trans h.due hdue
  known hash hknown := (h.known hash hknown).mono (subset_cons_self _ _)
  callbacks i hi b hb hkey := by
    obtain ⟨hne, hcertified⟩ := h.callbacks i hi b hb hkey
    exact ⟨hne, hcertified.mono (subset_cons_self _ _)⟩

/-- A delivery in the middle of the interpretation of a block. -/
theorem Working.deliver {host'' : Graph} {d : Delivery}
    (h : Working p key proposed lasting g e start host' mem emitted)
    (hdelivered : d.key = key → Certified p key host'.trace d.hash)
    (hdeliver : deliver host' d = .ok host'') :
    Working p key proposed lasting g e start host'' mem emitted := by
  have hadvances := advances_of_deliver hdeliver
  have htrace : host''.trace = host'.trace := hadvances.trace
  refine ⟨?_, fun b s hs => h.statess b s (hadvances.statess b s hs), ?_, ?_, ?_, ?_, h.due,
    fun hash hknown => ?_, fun i hi b hb hkey => ?_⟩
  all_goals rw [htrace]
  · exact h.older
  · exact h.trace
  · exact h.inst
  · exact h.votes
  · exact h.out
  · rcases known_of_deliver hdeliver hknown with hknown | rfl
    · exact h.known hash hknown
    · exact hdelivered rfl
  · rcases callbacks_of_deliver hdeliver i hi with hi | hblocks
    · exact h.callbacks i hi b hb hkey
    · obtain ⟨hne, hfrom⟩ := hblocks b hb
      refine ⟨hne, ?_⟩
      rw [hkey] at hfrom
      rcases hfrom with hknown | rfl
      · exact h.known b.hash hknown
      · exact hdelivered rfl

/-- Processing a message of the block that is being interpreted. -/
theorem working_answer {session : Session Graph} {sender : Nat} (hblock : proposed e.block)
    (h : Working p key proposed lasting g e start session.host session.mem emitted)
    (hsender : ∃ b, proposed b ∧ b.node = sender) (hsource : msg.nodeRound = key →
      Sourced p key proposed lasting session.host.trace e.block sender msg) :
    Ensures (answer host p ⟨sender, e.block.node, e.block⟩ session msg)
      (fun r => Working p key proposed lasting g e start r.1.host r.1.mem (emitted ++ r.2.toList) ∧
        session.host.trace ⊆ r.1.host.trace ∧ ∀ resp ∈ r.2, Answered p r.1.host.trace resp)
      (StopsGrounded p key proposed lasting) := by
  let ev : Event := ⟨e.block, session.mem, .message sender e.block.node msg⟩
  have hgrounded : Grounded p key proposed lasting session.host.trace ev := by
    refine ⟨hblock, h.inst, h.votes, ?_, ?_, ?_, ?_⟩
    · intro t ht
      cases ht
    · intro s r m hm
      cases hm
      rfl
    · intro s r m hm
      cases hm
      exact hsender
    · intro s r m hm hkey
      cases hm
      exact hsource hkey
  apply ensures_answer
  · intro _
    exact ⟨by simpa using h, List.Subset.refl _, by simp⟩
  · intro crash hcrash
    refine ⟨ev, session.host.trace, rfl, ⟨hgrounded, h.trace⟩, ?_, ?_, h.callbacks⟩
    · rintro rfl
      exact hcrash
    · rintro rfl
      rcases Instance.step_eq_error (step_of_processMessage_error hcrash) with hother | ⟨hother, -⟩ <;>
        cases hother
  intro reply hreply
  change ev.reply p = .ok reply at hreply
  have hdue : session.mem.timeoutsAt e.block.round ⊆ reply.mem.timeoutsAt e.block.round := by
    rw [(processMessage_effect hreply).timeoutsAt]
    exact subset_append_left _ _
  have hnext := h.reply hgrounded hdue hreply
  have hanswered : ∀ resp ∈ reply.resp, Answered p (ev :: session.host.trace) resp :=
    fun resp hresp => ⟨ev, mem_cons_self, (Event.answer_of_reply hreply).trans hresp⟩
  have hdelivered : ∀ d, reply.delivery = some d → d.key = key →
      Certified p key session.host.trace d.hash := by
    intro d hd hkey
    have htransition := transition_of_processMessage hreply
    rw [Instance.key_of_transition htransition hd] at hkey
    obtain ⟨hfinal, hnone⟩ := Instance.final_of_transition htransition hd
    rw [hkey] at hfinal
    exact ((vouched_reply hgrounded hreply).final d.hash hfinal).of_cons
      ((Event.answer_of_reply hreply).trans hnone)
  apply ensures_settle
  · intro _
    exact ⟨hnext, subset_cons_self _ _, hanswered⟩
  · intro d host' hd hdeliver
    have htrace : host'.trace = ev :: session.host.trace := (advances_of_deliver hdeliver).trace
    refine ⟨hnext.deliver (fun hkey => (hdelivered d hd hkey).mono ?_) hdeliver, ?_, ?_⟩
    · exact subset_cons_self _ _
    · rw [htrace]
      exact subset_cons_self _ _
    · rw [htrace]
      exact hanswered
  · intro d crash hd hdeliver
    refine ⟨ev, session.host.trace, rfl, ⟨hgrounded, h.trace⟩, ?_, ?_, h.callbacks⟩
    · rintro rfl
      rcases deliver_eq_error hdeliver with hother | ⟨hother, -⟩ <;> cases hother
    · rintro rfl
      rcases deliver_eq_error hdeliver with hother | ⟨hmismatch, hash, hknown, hne⟩
      · cases hother
      obtain rfl : key = d.key := Crash.mismatchingHash.inj hmismatch
      exact ⟨hash, d.hash, hne, h.known hash hknown, hdelivered d hd rfl⟩

/-- A message of the instance in the output of a block comes from its author. -/
theorem sourced_of_emitted {trace trace' : List Event} {b block : BlockID}
    (h : Emitted p trace b msg) (hsub : trace ⊆ trace') (hkey : msg.nodeRound = key)
    (hproposed : proposed b) (hlasting : (⟨b.node, b.round⟩ : NodeRound) = key → lasting block) :
    Sourced p key proposed lasting trace' block b.node msg := by
  rcases h with ⟨ev, hev, -, hanswer⟩ | rfl
  · exact .inl ⟨ev, hsub hev, hanswer⟩
  · subst hkey
    exact .inr ⟨b.hash, rfl, rfl, hproposed, hlasting rfl⟩

/-- A block starts from what its predecessor is justified in. -/
theorem working_start (h : Justified p key proposed lasting g) :
    Working p key proposed lasting g e
      ((findOrCreateState g.heap g.statess[e.prev]? g.round e).schedule p e) g
      ((findOrCreateState g.heap g.statess[e.prev]? g.round e).schedule p e)
      [.prePrepare ⟨e.block.hash, e.block.node, e.block.round, 0⟩] := { h with
  older := List.Subset.refl _
  statess _ _ hs := hs
  inst := by
    have hempty : Vouched p key g.trace Instance.empty := by
      constructor <;> simp [Instance.empty, Instance.bitset]
    have hfresh : Vouched p key g.trace (Memory.inst ⟨g.heap.tick, State.fresh⟩ key) :=
      hempty.of_same (by simp [Memory.inst, State.fresh, Instance.empty])
        (by simp [Memory.inst, State.fresh, Data.empty, Instance.empty])
        (by simp [Memory.inst, State.fresh, Instance.empty])
    rw [inst_schedule]
    unfold findOrCreateState
    split
    · cases hfound : g.statess[e.prev]? with
      | none => exact hfresh
      | some s =>
        dsimp only
        rw [inst_clone]
        split
        · exact hempty
        · exact (h.inst e.prev s hfound).of_same rfl rfl rfl
    · exact hfresh
  votes := by
    intro ref vcs voter hash hkey hvcs hvoter
    rw [votes_schedule] at hvcs
    exact h.votes ref vcs voter hash hkey hvcs hvoter
  out msg hmsg _ := .inr (mem_singleton.mp hmsg)
  due := List.Subset.refl _ }

/-- Interpreting a block keeps a graph justified. -/
theorem justified_process (hparams : g.params = p) (hproposed : proposed e.block)
    (hlasting : ∀ b, proposed b → b = e.block ∨ b ∈ e.deps →
      (⟨b.node, b.round⟩ : NodeRound) = key → lasting e.block)
    (h : Justified p key proposed lasting g) :
    Ensures (process g e) (Justified p key proposed lasting)
      (StopsGrounded p key proposed lasting) := by
  let start := (findOrCreateState g.heap g.statess[e.prev]? g.round e).schedule p e
  apply ensures_process
  rw [hparams]
  refine (ensures_conduct (fun session emitted =>
    Working p key proposed lasting g e start session.host session.mem emitted)
    (working_start h) ?_ ?_ ?_).mono ?_
  · -- a timeout falls due
    intro t ht host' mem emitted hwork
    have hgrounded : Grounded p key proposed lasting host'.trace ⟨e.block, mem, .timeout t⟩ := by
      refine ⟨hproposed, hwork.inst, hwork.votes, ?_, ?_, ?_, ?_⟩
      · intro t' ht'
        cases ht'
        exact hwork.due ht
      all_goals
        intro s r m hm
        cases hm
    apply hwork.reply hgrounded _ rfl
    rw [(expire_effect e.block.node t).timeoutsAt]
    exact subset_append_left _ _
  · -- the block processes what it emitted itself
    intro session emitted msg hwork hmsg
    refine (working_answer hproposed hwork ⟨_, hproposed, rfl⟩ fun hkey => ?_).mono fun r hr => hr.1
    exact sourced_of_emitted (hwork.out msg (hmsg.resolve_left id) hkey) (List.Subset.refl _) hkey
      hproposed (hlasting e.block hproposed (.inl rfl))
  · -- the block processes the output of a block it references
    intro dep hdep session emitted hwork
    have hkept : Kept host p ⟨dep.node, e.block.node, e.block⟩
        (fun msg => ∃ s, g.statess[dep]? = some s ∧ msg ∈ s.out)
        (fun session' answers => Working p key proposed lasting g e start session'.host session'.mem
            (emitted ++ answers) ∧ ∀ msg ∈ answers, proposed dep ∧ Answered p session'.host.trace msg)
        (StopsGrounded p key proposed lasting) := by
      rintro session' answers msg ⟨hwork', hanswers⟩ hmsg
      have hsender : proposed dep := by
        rcases hmsg with ⟨s, hs, -⟩ | hmsg
        · exact h.proposed dep s hs
        · exact (hanswers msg hmsg).1
      refine (working_answer hproposed hwork' ⟨dep, hsender, rfl⟩ fun hkey => ?_).mono ?_
      · rcases hmsg with ⟨s, hs, hmsg⟩ | hmsg
        · exact sourced_of_emitted (h.out dep s hs msg hmsg hkey) hwork'.older hkey hsender
            (hlasting dep hsender (.inr hdep))
        · exact .inl (hanswers msg hmsg).2
      · rintro r ⟨hwork'', hsub, hresp⟩
        rw [← append_assoc]
        refine ⟨hwork'', fun m hm => ?_⟩
        rcases mem_append.mp hm with hm | hm
        · exact ⟨hsender, (hanswers m hm).2.mono hsub⟩
        · exact ⟨hsender, hresp m (Option.mem_toList.mp hm)⟩
    refine (ensures_processMessages hkept [] (fun msg hmsg => .inl ?_) ⟨?_, by simp⟩).mono
      fun r hr => hr.1
    · simp only [host] at hmsg
      cases hfound : session.host.statess[dep]? with
      | none => simp [hfound] at hmsg
      | some s =>
        rw [hfound] at hmsg
        exact ⟨s, hwork.statess dep s hfound, hmsg⟩
    · rwa [append_nil]
  · rintro ⟨last, mem'⟩ ⟨mem, processed, emitted, hwork, rfl⟩
    have hstored : ∀ (b : BlockID) (s : State),
        (last.store e.block { mem with state := { mem.state with out := emitted } }).statess[b]? =
          some s → b = e.block ∧ s = { mem.state with out := emitted } ∨ g.statess[b]? = some s := by
      intro b s hs
      simp only [store, FiniteMap.lookup_insert] at hs
      split at hs
      · rename_i hb
        exact .inl ⟨hb.symm, (Option.some.inj hs).symm⟩
      · exact .inr (hwork.statess b s hs)
    refine ⟨hwork.trace, fun b s hs => ?_, fun b s hs => ?_, fun b s hs msg hmsg hkey => ?_,
      hwork.votes, hwork.known, hwork.callbacks⟩ <;> rcases hstored b s hs with ⟨rfl, rfl⟩ | hbefore
    · exact hproposed
    · exact h.proposed b s hbefore
    · exact hwork.inst.of_same rfl rfl rfl
    · exact ((h.inst b s hbefore).mono hwork.older).of_same rfl rfl rfl
    · exact hwork.out msg hmsg hkey
    · exact (h.out b s hbefore msg hmsg hkey).mono hwork.older

end Process

/-- Every graph is justified, however it was reached, and every run that
stops does so at a grounded step. -/
theorem justified_actAll {p : Params} {key : NodeRound} {proposed lasting : BlockID → Prop}
    {lastInterpreted : Nat} {acts : List Action}
    (hproposed : ∀ e ∈ interpreted acts, proposed e.block)
    (hlasting : ∀ e ∈ interpreted acts, ∀ b, proposed b → b = e.block ∨ b ∈ e.deps →
      (⟨b.node, b.round⟩ : NodeRound) = key → lasting e.block) :
    Ensures (actAll (new p lastInterpreted) acts) (Justified p key proposed lasting)
      (StopsGrounded p key proposed lasting) := by
  refine (ensures_actAll (fun _ g => g.params = p ∧ Justified p key proposed lasting g)
    ?_ ?_).mono fun g hg => hg.2
  · rintro done a rest g hsplit - ⟨hparams, hjustified⟩
    cases a with
    | register bg =>
      change Ensures (.ok (g.register bg)) _ _
      rw [register_eq]
      exact ⟨hparams, hjustified.trace, hjustified.proposed, hjustified.inst, hjustified.out,
        hjustified.votes, hjustified.known, hjustified.callbacks⟩
    | process e =>
      have hmem : e ∈ interpreted acts := by simp [hsplit, interpreted, Action.entry?]
      refine (justified_process hparams (hproposed e hmem) (hlasting e hmem)
        hjustified).and_of_ok (fun g' hprocess => ?_) |>.mono fun g' hg' => ⟨hg'.2, hg'.1⟩
      obtain ⟨last, mem, ⟨evs, hadvances, -⟩, rfl⟩ := (movesOn_process g e).of_ok hprocess
      exact hadvances.params.trans hparams
  · refine ⟨rfl, trivial, ?_, ?_, ?_, ?_, ?_, ?_⟩
    · intro b s hs
      simp [new] at hs
    · intro b s hs
      simp [new] at hs
    · intro b s hs
      simp [new] at hs
    · intro ref vcs voter hash _ hvcs
      simp [new, Heap.empty] at hvcs
    · intro hash hknown
      simp [new, known] at hknown
    · intro i hi
      simp [new] at hi

end Graph

end Blockmania
