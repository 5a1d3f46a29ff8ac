/-
# Certificates

A bit in a bitset stands for a vote of its node. The node of a commit bit has a
Commit in the output of one of its blocks, and that block is in the causal history of
the block whose state holds the bit. A decided value has a quorum of such Commits.

Prepare bits are another matter. A PrePrepare counts as a vote of whoever sent it. A
block that enters a view while it works through the output of another block makes the
PrePrepare itself, and still counts it as sent by the node of that other block, which
may have asked for the view and nothing more. Every other prepare bit stands for a
vote.
-/

import Blockmania.Graph.Integrity
import Blockmania.Graph.Consumption

namespace Blockmania

open Math List
open BlockGraph (actions entries)

namespace Graph

/-- The output of a block that takes the given steps: its PrePrepare, and the answers. -/
def outputOf (p : Params) (e : Entry) (evs : List Event) : List Message :=
  .prePrepare ⟨e.block.hash, e.block.node, e.block.round, 0⟩ :: evs.filterMap (Event.answer p)

/-- In whose name a block processes a message: it says the message itself, or takes it
from the output of a block it references, or made it while it worked through that
output. -/
inductive Hears (p : Params) (g : Graph) (e : Entry) (evs : List Event) : Nat → Message → Prop
  | own {msg : Message} (hmsg : msg ∈ outputOf p e evs) : Hears p g e evs e.block.node msg
  | taken {dep : BlockID} {s : State} {msg : Message} (hdep : dep ∈ e.deps)
      (hs : g.statess[dep]? = some s) (hmsg : msg ∈ s.out) : Hears p g e evs dep.node msg
  | made {dep : BlockID} {msg : Message} {ev : Event} (hdep : dep ∈ e.deps) (hev : ev ∈ evs)
      (hanswer : ev.answer p = some msg) : Hears p g e evs dep.node msg

/-- What a block did so far, starting from a memory. -/
structure Unfolds (p : Params) (g : Graph) (e : Entry) (start : Memory) (evs : List Event)
    (host : Graph) (mem : Memory) : Prop where
  trace : host.trace = evs.reverse ++ g.trace
  statess : ∀ (b : BlockID) (s : State), host.statess[b]? = some s → g.statess[b]? = some s
  steps : Steps p start evs mem
  block : ∀ ev ∈ evs, ev.block = e.block
  hears : ∀ ev ∈ evs, ∀ sender receiver msg, ev.cause = .message sender receiver msg →
    receiver = e.block.node ∧ Hears p g e evs sender msg

section Unfolds

variable {p : Params} {g : Graph} {e : Entry} {start : Memory} {evs : List Event}

theorem outputOf_concat (p : Params) (e : Entry) (evs : List Event) (ev : Event) :
    outputOf p e (evs ++ [ev]) = outputOf p e evs ++ (ev.answer p).toList := by
  rw [outputOf, filterMap_append]
  rfl

variable {msg : Message} {sender : Nat}

theorem Hears.mono {evs' : List Event} (h : Hears p g e evs sender msg) (hsub : evs ⊆ evs') :
    Hears p g e evs' sender msg := by
  cases h with
  | own hmsg =>
    refine Hears.own ?_
    rcases mem_cons.mp hmsg with rfl | hanswer
    · exact mem_cons_self
    · obtain ⟨ev, hev, hanswer⟩ := mem_filterMap.mp hanswer
      exact mem_cons_of_mem _ (mem_filterMap.mpr ⟨ev, hsub hev, hanswer⟩)
  | taken hdep hs hmsg => exact Hears.taken hdep hs hmsg
  | made hdep hev hanswer => exact Hears.made hdep (hsub hev) hanswer

/-- One more step of the block. -/
theorem Unfolds.reply {host' : Graph} {mem : Memory} {reply : Reply}
    (h : Unfolds p g e start evs host' mem) (cause : Cause)
    (hhears : ∀ sender receiver msg, cause = .message sender receiver msg →
      receiver = e.block.node ∧ Hears p g e evs sender msg)
    (hreply : Event.reply p ⟨e.block, mem, cause⟩ = .ok reply) :
    Unfolds p g e start (evs ++ [⟨e.block, mem, cause⟩]) (host.observe host' ⟨e.block, mem, cause⟩)
      reply.mem where
  trace := by
    rw [reverse_append]
    exact congrArg (List.cons _) h.trace
  statess := h.statess
  steps := h.steps.step ⟨e.block, mem, cause⟩ hreply
  block ev hev := by
    rcases mem_append.mp hev with hev | hev
    · exact h.block ev hev
    · rw [mem_singleton.mp hev]
  hears ev hev sender receiver msg hcause := by
    have hsub : evs ⊆ evs ++ [⟨e.block, mem, cause⟩] := subset_append_left _ _
    rcases mem_append.mp hev with hev | hev
    · obtain ⟨hreceiver, hheard⟩ := h.hears ev hev sender receiver msg hcause
      exact ⟨hreceiver, hheard.mono hsub⟩
    · rw [mem_singleton.mp hev] at hcause
      obtain ⟨hreceiver, hheard⟩ := hhears sender receiver msg hcause
      exact ⟨hreceiver, hheard.mono hsub⟩

/-- One message of the block. -/
theorem unfolds_answer {session : Session Graph}
    (h : Unfolds p g e start evs session.host session.mem) (hhears : Hears p g e evs sender msg) :
    Ensures (answer host p ⟨sender, e.block.node, e.block⟩ session msg)
      (fun r => ∃ evs', outputOf p e evs' = outputOf p e evs ++ r.2.toList ∧ evs ⊆ evs' ∧
        (∀ resp ∈ r.2, ∃ ev ∈ evs', ev.answer p = some resp) ∧
        Unfolds p g e start evs' r.1.host r.1.mem) (fun _ => True) := by
  apply ensures_answer
  · intro _
    exact ⟨evs, (append_nil _).symm, List.Subset.refl _, by simp, h⟩
  · exact fun _ _ => trivial
  intro reply hreply
  let ev : Event := ⟨e.block, session.mem, .message sender e.block.node msg⟩
  change ev.reply p = .ok reply at hreply
  have hnext := h.reply (.message sender e.block.node msg) (fun _ _ _ hcause => by
    cases hcause
    exact ⟨rfl, hhears⟩) hreply
  have hanswer : ev.answer p = reply.resp := Event.answer_of_reply hreply
  have houtput : outputOf p e (evs ++ [ev]) = outputOf p e evs ++ reply.resp.toList := by
    rw [outputOf_concat, hanswer]
  have hmade : ∀ resp ∈ reply.resp, ∃ ev' ∈ evs ++ [ev], ev'.answer p = some resp := fun resp hresp =>
    ⟨ev, mem_append_right _ (mem_singleton_self ev), hanswer.trans hresp⟩
  apply ensures_settle
  · exact fun _ => ⟨_, houtput, subset_append_left _ _, hmade, hnext⟩
  · intro d host' _ hdeliver
    have hadvances := advances_of_deliver hdeliver
    refine ⟨_, houtput, subset_append_left _ _, hmade, hadvances.trace.trans hnext.trace,
      fun b s hs => hnext.statess b s (hadvances.statess b s hs), hnext.steps, hnext.block, hnext.hears⟩
  · exact fun _ _ _ _ => trivial

/-- The interpretation of a block, told as the steps it takes, where each message
comes from, and what it says. -/
theorem unfolds_process {g' : Graph} (hprocess : g.process e = .ok g') :
    ∃ last mem, g' = last.store e.block
        { mem with state := { mem.state with out := outputOf g.params e (g.since g') } } ∧
      Unfolds g.params g e ((g.opened e).schedule g.params e) (g.since g') last mem := by
  let start := (g.opened e).schedule g.params e
  have hensures : Ensures (process g e) (fun g' => ∃ evs last mem, g' = last.store e.block
      { mem with state := { mem.state with out := outputOf g.params e evs } } ∧
      Unfolds g.params g e start evs last mem) (fun _ => True) := by
    apply ensures_process
    refine (ensures_conduct (fun session emitted => ∃ evs, emitted = outputOf g.params e evs ∧
      Unfolds g.params g e start evs session.host session.mem) ?_ ?_ ?_ ?_).mono ?_
    · exact ⟨[], rfl, rfl, fun _ _ hs => hs, Steps.start, by simp, by simp⟩
    · -- a timeout falls due
      rintro t - host' mem emitted ⟨evs, rfl, hunfolds⟩
      refine ⟨_, ?_, hunfolds.reply (.timeout t) (fun _ _ _ hcause => by cases hcause) rfl⟩
      rw [outputOf_concat]
      rfl
    · -- the block processes what it emitted itself
      rintro session emitted msg ⟨evs, rfl, hunfolds⟩ hmsg
      refine (unfolds_answer hunfolds (Hears.own (hmsg.resolve_left id))).mono ?_
      rintro r ⟨evs', houtput, -, -, hunfolds'⟩
      exact ⟨evs', houtput.symm, hunfolds'⟩
    · -- the block processes the output of a block it references
      rintro dep hdep session emitted hinv
      have hkept : Kept host g.params ⟨dep.node, e.block.node, e.block⟩
          (fun msg => ∃ s, g.statess[dep]? = some s ∧ msg ∈ s.out)
          (fun session answers => ∃ evs, emitted ++ answers = outputOf g.params e evs ∧
            (∀ msg ∈ answers, ∃ ev ∈ evs, ev.answer g.params = some msg) ∧
            Unfolds g.params g e start evs session.host session.mem) (fun _ => True) := by
        rintro session answers msg ⟨evs, hout, hanswers, hunfolds⟩ hmsg
        have hheard : Hears g.params g e evs dep.node msg := by
          rcases hmsg with ⟨s, hs, hmsg⟩ | hmsg
          · exact Hears.taken hdep hs hmsg
          · obtain ⟨ev, hev, hanswer⟩ := hanswers msg hmsg
            exact Hears.made hdep hev hanswer
        refine (unfolds_answer hunfolds hheard).mono ?_
        rintro r ⟨evs', houtput, hsub, hmade, hunfolds'⟩
        refine ⟨evs', ?_, fun m hm => ?_, hunfolds'⟩
        · rw [houtput, ← hout, append_assoc]
        · rcases mem_append.mp hm with hm | hm
          · obtain ⟨ev, hev, hanswer⟩ := hanswers m hm
            exact ⟨ev, hsub hev, hanswer⟩
          · exact hmade m (Option.mem_toList.mp hm)
      obtain ⟨evs, rfl, hunfolds⟩ := hinv
      refine (ensures_processMessages hkept [] (fun msg hmsg => .inl ?_)
        ⟨evs, append_nil _, by simp, hunfolds⟩).mono ?_
      · simp only [host] at hmsg
        cases hfound : session.host.statess[dep]? with
        | none => simp [hfound] at hmsg
        | some s =>
          rw [hfound] at hmsg
          exact ⟨s, hunfolds.statess dep s hfound, hmsg⟩
      · rintro r ⟨evs', hout, -, hunfolds'⟩
        exact ⟨evs', hout, hunfolds'⟩
    · rintro ⟨last, mem'⟩ ⟨mem, processed, emitted, ⟨evs, rfl, hunfolds⟩, rfl⟩
      exact ⟨evs, last, mem, rfl, hunfolds⟩
  obtain ⟨evs, last, mem, hstore, hunfolds⟩ := hensures.of_ok hprocess
  have hsince : g.since g' = evs := by
    apply since_of_trace
    rw [hstore]
    exact hunfolds.trace
  rw [hsince]
  exact ⟨last, mem, hstore, hunfolds⟩

theorem trace_process {g' : Graph} (hprocess : g.process e = .ok g') :
    g'.trace = (g.since g').reverse ++ g.trace := by
  obtain ⟨last, mem, hstore, hunfolds⟩ := unfolds_process hprocess
  exact (congrArg Graph.trace hstore).trans hunfolds.trace

theorem output_process {g' : Graph} (hprocess : g.process e = .ok g') :
    ∃ s, g'.statess[e.block]? = some s ∧ s.out = outputOf g.params e (g.since g') := by
  obtain ⟨last, mem, hstore, -⟩ := unfolds_process hprocess
  refine ⟨{ mem.state with out := outputOf g.params e (g.since g') },
    (congrArg (fun g => g.statess[e.block]?) hstore).trans ?_, rfl⟩
  exact FiniteMap.lookup_insert_self _ _ _

end Unfolds

/-- A block references another one. -/
def References (es : List Entry) (b b' : BlockID) : Prop :=
  ∃ e ∈ es, e.block = b ∧ (b' = e.prev ∨ b' ∈ e.deps)

/-- The causal history of a block, and the block itself. -/
def Past (es : List Entry) : BlockID → BlockID → Prop := Relation.ReflTransGen (References es)

section Votes

variable (p : Params) (es : List Entry) (said : BlockID → Message → Prop) (key : NodeRound)

/-- A node has committed to a value: one of its blocks in the causal history of `b` says
so. -/
def CommitVoter (b : BlockID) (y : Nat) (hash : Hash) (w : Nat) : Prop :=
  ∃ b', Past es b b' ∧ b'.node = y ∧ said b' (.commit ⟨hash, key.node, key.round, y, w⟩)

/-- A node has voted for a value: one of its blocks in the causal history of `b` accepts
it or sends it. -/
def PrepareVoter (b : BlockID) (x : Nat) (hash : Hash) (w : Nat) : Prop :=
  ∃ b', Past es b b' ∧ b'.node = x ∧ (said b' (.prepare ⟨hash, key.node, key.round, x, w⟩) ∨
    said b' (.prePrepare ⟨hash, key.node, key.round, w⟩))

/-- A quorum has committed to a value in one view. -/
def CommitQuorum (b : BlockID) (hash : Hash) : Prop :=
  ∃ (w : Nat) (nodes : Finset Nat), p.quorum2f1 ≤ nodes.card ∧
    ∀ y ∈ nodes, CommitVoter es said key b y hash w

/-- A quorum has voted for a value in a view. -/
def PrepareQuorum (b : BlockID) (hash : Hash) (w : Nat) : Prop :=
  ∃ nodes : Finset Nat, p.quorum2f1 ≤ nodes.card ∧ ∀ x ∈ nodes, PrepareVoter es said key b x hash w

/-- Every vote that an instance has recorded was cast, the prepare votes under the
condition `fair`. -/
structure Attested (fair : Prop) (b : BlockID) (i : Instance) : Prop where
  commits : ∀ hash w, ∀ y ∈ (i.bitset p.peerCount hash w).committers, CommitVoter es said key b y hash w
  prepares : fair → ∀ hash w, ∀ x ∈ (i.bitset p.peerCount hash w).preparers,
    PrepareVoter es said key b x hash w
  final : ∀ hash, i.final = some hash → CommitQuorum p es said key b hash

end Votes

variable {p : Params} {es : List Entry} {said : BlockID → Message → Prop} {key : NodeRound}
  {fair : Prop} {b b' : BlockID} {i i' : Instance} {hash : Hash} {w : Nat}

theorem CommitVoter.of_past {y : Nat} (h : CommitVoter es said key b' y hash w)
    (hpast : Past es b b') : CommitVoter es said key b y hash w := by
  obtain ⟨b₀, hpast', hanswers⟩ := h
  exact ⟨b₀, hpast.trans hpast', hanswers⟩

/-- A block inherits what is in its causal history. -/
theorem Attested.of_past (h : Attested p es said key fair b' i) (hpast : Past es b b') :
    Attested p es said key fair b i where
  commits hash w y hy := (h.commits hash w y hy).of_past hpast
  prepares hfair hash w x hx := by
    obtain ⟨b₀, hpast', hanswers⟩ := h.prepares hfair hash w x hx
    exact ⟨b₀, hpast.trans hpast', hanswers⟩
  final hash hfinal := by
    obtain ⟨w, nodes, hcard, hnodes⟩ := h.final hash hfinal
    exact ⟨w, nodes, hcard, fun y hy => (hnodes y hy).of_past hpast⟩

theorem Attested.of_same (h : Attested p es said key fair b i) (hbitsets : i'.bitsets = i.bitsets)
    (hfinal : i'.final = i.final) : Attested p es said key fair b i' := by
  constructor
  · unfold Instance.bitset
    rw [hbitsets]
    exact h.commits
  · unfold Instance.bitset
    rw [hbitsets]
    exact h.prepares
  · rw [hfinal]
    exact h.final

theorem Attested.empty : Attested p es said key fair b Instance.empty := by
  constructor <;> simp [Instance.empty, Instance.bitset]

/-- A message leaves behind votes that were cast, if it was said in the causal
history in the name of its block, and a PrePrepare that is accepted is a vote of its
sender. -/
theorem Attested.transition {sender : Nat} {msg : Message} {o : Outcome}
    (h : Attested p es said msg.nodeRound fair b i)
    (hheard : ∃ b₀, Past es b b₀ ∧ said b₀ msg ∧ ∀ x ∈ msg.sender?, x = b₀.node)
    (hanswers : ∀ resp ∈ o.resp, said b resp)
    (hsender : fair → ∀ m, msg = .prePrepare m → o.resp.isSome →
      PrepareVoter es said msg.nodeRound b sender m.hash m.view)
    (htransition : i.Transition p sender b.node msg o) :
    Attested p es said msg.nodeRound fair b o.inst := by
  have hself : Past es b b := Relation.ReflTransGen.refl
  obtain ⟨b₀, hpast, hsaid, hname⟩ := hheard
  have hvotes := Instance.voters_of_transition htransition
    (fun hash w x => fair → PrepareVoter es said msg.nodeRound b x hash w)
    (fun hash w y => CommitVoter es said msg.nodeRound b y hash w)
    (fun hash w x hx hfair => h.prepares hfair hash w x hx) h.commits ?_ ?_ ?_ ?_
  · refine ⟨hvotes.2, fun hfair hash w x hx => hvotes.1 hash w x hx hfair, fun hash hfinal => ?_⟩
    rcases Instance.quorum_of_final htransition hfinal with hbefore | ⟨w, hcard⟩
    · exact h.final hash hbefore
    · exact ⟨w, _, hcard.ge, hvotes.2 hash w⟩
  · rintro m rfl hresp
    refine ⟨fun hfair => hsender hfair m rfl ?_, fun _ => ⟨b, hself, rfl, .inl (hanswers _ hresp)⟩⟩
    rw [hresp]
    rfl
  · rintro m rfl _
    exact ⟨b₀, hpast, (hname _ rfl).symm, .inl hsaid⟩
  · rintro m rfl hresp
    exact ⟨b, hself, rfl, hanswers _ hresp⟩
  · rintro m rfl
    exact ⟨b₀, hpast, (hname _ rfl).symm, hsaid⟩

/-! ## Runs -/

/-- A block has a message in its output, at some point of a run. The states of blocks
that are no longer needed are forgotten later. -/
def PutOut (p : Params) (lastInterpreted : Nat) (acts : List Action) (b : BlockID) (msg : Message) : Prop :=
  ∃ done rest g s, acts = done ++ rest ∧ actAll (new p lastInterpreted) done = .ok g ∧
    g.statess[b]? = some s ∧ msg ∈ s.out

/-- A node in whose name a block accepts a PrePrepare that the block has made itself has
voted for the value. -/
def Earned (p : Params) (es : List Entry) (said : BlockID → Message → Prop) (trace : List Event) : Prop :=
  ∀ ev ∈ trace, ∀ sender receiver m, ev.cause = .message sender receiver (.prePrepare m) →
    (ev.answer p).isSome → sender ≠ ev.block.node →
    (∃ ev' ∈ trace, ev'.block = ev.block ∧ ev'.answer p = some (.prePrepare m)) →
    PrepareVoter es said ⟨m.node, m.round⟩ ev.block sender m.hash m.view

/-- The votes recorded in a graph were cast, and so were those behind every Commit. -/
structure Upright (p : Params) (es : List Entry) (said : BlockID → Message → Prop) (fair : Prop)
    (g : Graph) : Prop where
  inst : ∀ (b : BlockID) (s : State), g.statess[b]? = some s → ∀ key,
    Attested p es said key fair b (Memory.inst ⟨g.heap, s⟩ key)
  commits : fair → ∀ (b : BlockID) (s : State), g.statess[b]? = some s → ∀ m, .commit m ∈ s.out →
    PrepareQuorum p es said ⟨m.node, m.round⟩ b m.hash m.view

section Runs

variable {g g' : Graph} {e : Entry}

/-- The votes a block starts from are in its causal history. -/
theorem Upright.opened (h : Upright p es said fair g) (he : e ∈ es) (key : NodeRound) :
    Attested p es said key fair e.block (((g.opened e).schedule p e).inst key) := by
  rw [inst_schedule]
  rcases opened_cases g e with ⟨s, hs, hopened⟩ | ⟨hopened, -⟩
  · rw [hopened, inst_clone]
    split
    · exact Attested.empty
    · have hprev : Past es e.block e.prev := Relation.ReflTransGen.single ⟨e, he, rfl, .inl rfl⟩
      exact ((h.inst e.prev s hs key).of_past hprev).of_same rfl rfl
  · rw [hopened]
    exact Attested.empty.of_same (by simp [Memory.inst, State.fresh, Instance.empty])
      (by simp [Memory.inst, State.fresh, Instance.empty])

/-- The steps of a block record votes that were cast. -/
theorem attested_steps {start mem : Memory} {evs : List Event} (hsteps : Steps p start evs mem)
    (hstart : Attested p es said key fair e.block (start.inst key))
    (hevent : ∀ ev ∈ evs, ∀ sender receiver msg, ev.cause = .message sender receiver msg →
      receiver = e.block.node ∧
      (∃ b₀, Past es e.block b₀ ∧ said b₀ msg ∧ ∀ x ∈ msg.sender?, x = b₀.node) ∧
      (fair → ∀ m, msg = .prePrepare m → (ev.answer p).isSome →
        PrepareVoter es said msg.nodeRound e.block sender m.hash m.view))
    (hanswers : ∀ ev ∈ evs, ∀ resp, ev.answer p = some resp → said e.block resp) :
    Attested p es said key fair e.block (mem.inst key) ∧
      ∀ ev ∈ evs, ev.key = key → Attested p es said key fair e.block (ev.mem.inst key) := by
  induction hsteps with
  | start => exact ⟨hstart, by simp⟩
  | @step evs ev reply hsteps hreply ih =>
    obtain ⟨hbefore, hmet⟩ := ih (fun ev' hev' => hevent ev' (mem_append_left _ hev'))
      fun ev' hev' => hanswers ev' (mem_append_left _ hev')
    have hev : ev ∈ evs ++ [ev] := mem_append_right _ (mem_singleton_self ev)
    refine ⟨?_, fun ev' hev' hkey => ?_⟩
    · by_cases hkey : key = ev.key
      swap
      · rwa [Event.reply_inst hreply hkey]
      subst hkey
      rcases Event.reply_cases hreply with ⟨t, -, houtcome⟩ | ⟨sender, receiver, msg, hcause, htransition⟩
      · obtain ⟨hexpired, -⟩ | ⟨hexpired, -⟩ :=
          (ev.mem.inst ev.key).expire_cases ev.key ev.block.node t.view
        all_goals
          rw [(Prod.mk.inj (houtcome.trans hexpired)).1]
          exact hbefore.of_same rfl rfl
      · obtain ⟨rfl, hheard, hsender⟩ := hevent ev hev sender receiver msg hcause
        have hkey : msg.nodeRound = ev.key := by rw [Event.key, hcause]
        have hanswer : ev.answer p = reply.resp := Event.answer_of_reply hreply
        rw [← hkey] at hbefore htransition ⊢
        refine hbefore.transition hheard (fun resp hresp => ?_) (fun hfair m hm hresp => ?_) htransition
        · exact hanswers ev hev resp (hanswer.trans hresp)
        · exact hsender hfair m hm (hanswer ▸ hresp)
    · rcases mem_append.mp hev' with hev' | hev'
      · exact hmet ev' hev' hkey
      · rw [mem_singleton.mp hev']
        exact hbefore

variable {trace : List Event} {acts : List Action} {lastInterpreted : Nat} {msg : Message}

/-- Interpreting a block records votes that were cast. -/
theorem Upright.process (h : Upright p es said fair g) (hparams : g.params = p) (he : e ∈ es)
    (hprocess : g.process e = .ok g') (hnames : ∀ b msg, said b msg → ∀ x ∈ msg.sender?, x = b.node)
    (hstored : ∀ (b : BlockID) (s : State), g.statess[b]? = some s → ∀ msg ∈ s.out, said b msg)
    (hnow : ∀ msg ∈ outputOf p e (g.since g'), said e.block msg)
    (hfair : fair → Earned p es said trace) (hsub : g.since g' ⊆ trace) :
    Upright p es said fair g' := by
  obtain ⟨last, mem, hstore, hunfolds⟩ := unfolds_process hprocess
  rw [hparams] at hstore hunfolds
  have hself : Past es e.block e.block := Relation.ReflTransGen.refl
  have hanswers : ∀ ev ∈ g.since g', ∀ resp, ev.answer p = some resp → said e.block resp :=
    fun ev hev resp hresp => hnow resp (mem_cons_of_mem _ (mem_filterMap.mpr ⟨ev, hev, hresp⟩))
  have hdep : ∀ dep ∈ e.deps, Past es e.block dep := fun dep hdep =>
    Relation.ReflTransGen.single ⟨e, he, rfl, .inr hdep⟩
  have hevent : ∀ ev ∈ g.since g', ∀ sender receiver msg, ev.cause = .message sender receiver msg →
      receiver = e.block.node ∧
      (∃ b₀, Past es e.block b₀ ∧ said b₀ msg ∧ ∀ x ∈ msg.sender?, x = b₀.node) ∧
      (fair → ∀ m, msg = .prePrepare m → (ev.answer p).isSome →
        PrepareVoter es said msg.nodeRound e.block sender m.hash m.view) := by
    intro ev hev sender receiver msg hcause
    obtain ⟨hreceiver, hheard⟩ := hunfolds.hears ev hev sender receiver msg hcause
    refine ⟨hreceiver, ?_⟩
    cases hheard with
    | own hmsg =>
      have hsaid := hnow msg hmsg
      refine ⟨⟨_, hself, hsaid, hnames _ _ hsaid⟩, ?_⟩
      rintro - m rfl -
      exact ⟨_, hself, rfl, .inr hsaid⟩
    | @taken dep s _ hmem hs hmsg =>
      have hsaid := hstored dep s hs msg hmsg
      refine ⟨⟨_, hdep dep hmem, hsaid, hnames _ _ hsaid⟩, ?_⟩
      rintro - m rfl -
      exact ⟨_, hdep dep hmem, rfl, .inr hsaid⟩
    | @made dep _ ev' hmem hev' hanswer =>
      have hsaid := hanswers ev' hev' msg hanswer
      refine ⟨⟨_, hself, hsaid, hnames _ _ hsaid⟩, ?_⟩
      rintro hf m rfl haccepted
      by_cases hsender : dep.node = e.block.node
      · exact ⟨_, hself, hsender.symm, .inr hsaid⟩
      · -- the block made the PrePrepare itself and counts it as sent by another node
        have hblock := hunfolds.block ev hev
        have hearned := hfair hf ev (hsub hev) dep.node receiver m hcause haccepted (hblock ▸ hsender)
          ⟨ev', hsub hev', (hunfolds.block ev' hev').trans hblock.symm, hanswer⟩
        rwa [hblock] at hearned
  have hattested (key : NodeRound) :=
    attested_steps hunfolds.steps (h.opened he key) hevent hanswers
  have hlookup : ∀ (b : BlockID) (s : State), g'.statess[b]? = some s →
      b = e.block ∧ s = { mem.state with out := outputOf p e (g.since g') } ∨ g.statess[b]? = some s := by
    intro b s hs
    rw [hstore, store, FiniteMap.lookup_insert] at hs
    split at hs
    · rename_i hb
      exact .inl ⟨hb.symm, (Option.some.inj hs).symm⟩
    · exact .inr (hunfolds.statess b s hs)
  refine ⟨fun b s hs key => ?_, fun hf b s hs m hm => ?_⟩
  · rcases hlookup b s hs with ⟨rfl, rfl⟩ | hbefore
    · exact (hattested key).1.of_same rfl rfl
    · exact (h.inst b s hbefore key).of_same rfl rfl
  · rcases hlookup b s hs with ⟨rfl, rfl⟩ | hbefore
    · -- the Commit was the answer to the vote that completed a quorum
      obtain ⟨ev, hev, hanswer⟩ := mem_filterMap.mp (mem_of_ne_of_mem (by simp) hm)
      rcases Event.answer_cases hanswer with ⟨t, -, -, -, hmsg⟩ | ⟨sender, receiver, cause, o, hcause, hresp,
        htransition⟩
      · cases hmsg
      obtain ⟨voter, rfl, -, -, -, hcard⟩ := Instance.of_answer_commit htransition hresp
      have hkey : ev.key = ⟨m.node, m.round⟩ := by
        rw [Event.key, hcause]
        rfl
      rw [hkey] at hcard
      refine ⟨_, hcard.ge, fun x hx => ?_⟩
      rcases Finset.mem_insert.mp hx with rfl | hx
      · obtain ⟨-, ⟨b₀, hpast, hsaid, hname⟩, -⟩ := hevent ev hev sender receiver _ hcause
        exact ⟨b₀, hpast, (hname _ rfl).symm, .inl hsaid⟩
      · exact ((hattested _).2 ev hev hkey).prepares hf m.hash m.view x hx
    · exact h.commits hf b s hbefore m hm

theorem justified_of_run (hrun : actAll (new p lastInterpreted) acts = .ok g) (key : NodeRound) :
    Justified p key (fun b => ∃ e ∈ interpreted acts, e.block = b) (fun _ => True) g :=
  (justified_actAll (fun e he => ⟨e, he, rfl⟩) fun _ _ _ _ _ _ => trivial).of_ok hrun

/-- What a block puts out names the node of the block. -/
theorem PutOut.names (h : PutOut p lastInterpreted acts b msg) :
    ∀ x ∈ msg.sender?, x = b.node := by
  obtain ⟨done, rest, g, s, -, hrun, hs, hmsg⟩ := h
  have hparams := (params_actAll p lastInterpreted done).of_ok hrun
  exact (integrity_of_justified hparams (justified_of_run hrun)).sender b s hs msg hmsg

/-- A run records votes that were cast. -/
theorem upright_actAll {done rest : List Action} (hsplit : acts = done ++ rest) :
    Ensures (actAll (new p lastInterpreted) done) (fun mid => mid.trace ⊆ trace →
      Upright p (interpreted acts) (PutOut p lastInterpreted acts)
        (Earned p (interpreted acts) (PutOut p lastInterpreted acts) trace) mid) (fun _ => True) := by
  apply holds_actAll fun _ mid => mid.trace ⊆ trace → Upright p (interpreted acts)
    (PutOut p lastInterpreted acts) (Earned p (interpreted acts) (PutOut p lastInterpreted acts) trace) mid
  · intro before bg after mid _ _ hmid hsub
    rw [register_eq] at hsub ⊢
    exact ⟨(hmid hsub).inst, (hmid hsub).commits⟩
  · intro before e after mid g' hbefore hrun hmid hprocess hsub
    have hacts := split_of_begins hsplit hbefore
    have he : e ∈ interpreted acts := by simp [hacts, interpreted, Action.entry?]
    have hparams : mid.params = p := (params_actAll p lastInterpreted before).of_ok hrun
    have htrace := trace_process hprocess
    obtain ⟨s, hs, hout⟩ := output_process hprocess
    rw [hparams] at hout
    have hsub' : mid.trace ⊆ trace := fun ev hev => hsub (htrace ▸ mem_append_right _ hev)
    refine (hmid hsub').process hparams he hprocess (fun b msg h => h.names) (fun b s hs msg hmsg => ?_)
      (fun msg hmsg => ?_) (fun hf => hf) fun ev hev => ?_
    · exact ⟨before, _, mid, s, hacts, hrun, hs, hmsg⟩
    · refine ⟨before ++ [.process e], after ++ rest, g', s, ?_, actAll_process hrun hprocess, hs, ?_⟩
      · rw [hacts, append_assoc]
        rfl
      · rwa [hout]
    · exact hsub (htrace ▸ mem_append_left _ (mem_reverse.mpr hev))
  · refine fun _ => ⟨fun b s hs => ?_, fun _ b s hs => ?_⟩ <;> simp [new] at hs

/-- A run forgets no step. -/
theorem trace_subset_of_actAll (hrun : actAll g acts = .ok g') : g.trace ⊆ g'.trace := by
  have hensures : Ensures (actAll g acts) (fun g' => g.trace ⊆ g'.trace) (fun _ => True) := by
    refine lasts_actAll (fun _ _ _ hmid => hmid) (fun mid e hmid => ?_) (List.Subset.refl _)
    cases hprocess : mid.process e with
    | error halt => trivial
    | ok next =>
      intro ev hev
      rw [trace_process hprocess]
      exact mem_append_right _ (hmid hev)
  exact hensures.of_ok hrun

/-- Certificates are sound. Every commit bit in the state of a block goes back to a
Commit that its node put out in the causal history, and every decided value to a quorum
of them. If a block accepts a PrePrepare of its own making only in the name of nodes
that have voted for it, every prepare bit goes back to a Prepare or a PrePrepare of its
node, and every Commit to a quorum of those in its own causal history. -/
theorem certificates_of_earned {lastInterpreted : Nat} {acts : List Action} {b : BlockID} {s : State}
    (hrun : actAll (new p lastInterpreted) acts = .ok g) (hs : g.statess[b]? = some s) (key : NodeRound) :
    (∀ hash w, ∀ y ∈ ((Memory.inst ⟨g.heap, s⟩ key).bitset p.peerCount hash w).committers,
      CommitVoter (interpreted acts) (PutOut p lastInterpreted acts) key b y hash w) ∧
    (∀ hash, s.final[key]? = some hash →
      CommitQuorum p (interpreted acts) (PutOut p lastInterpreted acts) key b hash) ∧
    (Earned p (interpreted acts) (PutOut p lastInterpreted acts) g.trace →
      (∀ hash w, ∀ x ∈ ((Memory.inst ⟨g.heap, s⟩ key).bitset p.peerCount hash w).preparers,
        PrepareVoter (interpreted acts) (PutOut p lastInterpreted acts) key b x hash w) ∧
      ∀ hash, s.final[key]? = some hash → ∃ (w : Nat) (nodes : Finset Nat), p.quorum2f1 ≤ nodes.card ∧
        ∀ y ∈ nodes, ∃ b', Past (interpreted acts) b b' ∧ b'.node = y ∧
          PutOut p lastInterpreted acts b' (.commit ⟨hash, key.node, key.round, y, w⟩) ∧
          PrepareQuorum p (interpreted acts) (PutOut p lastInterpreted acts) key b' hash w) := by
  have hupright := (upright_actAll (append_nil acts).symm).of_ok hrun (List.Subset.refl g.trace)
  have hattested := hupright.inst b s hs key
  refine ⟨hattested.commits, fun hash hfinal => hattested.final hash hfinal, fun hearned =>
    ⟨hattested.prepares hearned, fun hash hfinal => ?_⟩⟩
  obtain ⟨w, nodes, hcard, hnodes⟩ := hattested.final hash hfinal
  refine ⟨w, nodes, hcard, fun y hy => ?_⟩
  obtain ⟨b', hpast, hnode, hput⟩ := hnodes y hy
  refine ⟨b', hpast, hnode, hput, ?_⟩
  obtain ⟨done, rest, mid, s', hsplit, hmid, hs', hmsg⟩ := hput
  have hrest : actAll mid rest = .ok g := by
    rw [hsplit, actAll_append, hmid] at hrun
    exact hrun
  exact ((upright_actAll hsplit).of_ok hmid (trace_subset_of_actAll hrest)).commits hearned b' s' hs' _ hmsg

/-- What a block puts out is its PrePrepare or the answer to one of its steps. -/
theorem PutOut.emitted (h : PutOut p lastInterpreted acts b msg)
    (hrun : actAll (new p lastInterpreted) acts = .ok g) :
    Emitted p g.trace b msg := by
  obtain ⟨done, rest, mid, s, hsplit, hmid, hs, hmsg⟩ := h
  have hrest : actAll mid rest = .ok g := by
    rw [hsplit, actAll_append, hmid] at hrun
    exact hrun
  exact ((justified_of_run hmid msg.nodeRound).out b s hs msg hmsg rfl).mono (trace_subset_of_actAll hrest)

end Runs

/-- A run without a view change: a decided value of the first round goes back to a quorum
of Commits, and each of them to a quorum of Prepares. -/
theorem certificates_lockstep :
    ∃ g s, actAll (new .four 0) (lockstep.flatMap actions) = .ok g ∧
      g.statess[blockAt 1 4]? = some s ∧ s.final[(⟨1, 1⟩ : NodeRound)]? = some [1, 1] ∧
      ∃ (w : Nat) (nodes : Finset Nat), 3 ≤ nodes.card ∧ ∀ y ∈ nodes, ∃ b',
        Past (interpreted (lockstep.flatMap actions)) (blockAt 1 4) b' ∧ b'.node = y ∧
        PutOut .four 0 (lockstep.flatMap actions) b' (.commit ⟨[1, 1], 1, 1, y, w⟩) ∧
        PrepareQuorum .four (interpreted (lockstep.flatMap actions))
          (PutOut .four 0 (lockstep.flatMap actions)) ⟨1, 1⟩ b' [1, 1] w := by
  have hcheck : succeeds (actAll (new .four 0) (lockstep.flatMap actions)) (fun g =>
      g.statess[blockAt 1 4]?.any (fun (s : State) => decide (s.final[(⟨1, 1⟩ : NodeRound)]? = some [1, 1])) &&
      g.trace.all fun ev => (filings 0 (ev.answer .four)).isEmpty) = true := by decide +kernel
  obtain ⟨g, hrun, hfacts⟩ := exists_of_succeeds hcheck
  rw [Bool.and_eq_true] at hfacts
  obtain ⟨s, hs, hfinal⟩ := (Option.any_eq_true _ _).mp hfacts.1
  rw [decide_eq_true_eq] at hfinal
  obtain ⟨-, -, hsound⟩ := certificates_of_earned hrun hs ⟨1, 1⟩
  have hearned : Earned .four (interpreted (lockstep.flatMap actions))
      (PutOut .four 0 (lockstep.flatMap actions)) g.trace := by
    rintro ev - sender receiver m - - - ⟨ev', hev', -, hanswer⟩
    have hnone := all_eq_true.mp hfacts.2 ev' hev'
    rw [hanswer] at hnone
    cases hnone
  exact ⟨g, s, hrun, hs, hfinal, (hsound hearned).2 [1, 1] hfinal⟩

/-- Three nodes that do not hear of each other, until the first sees that the others
have asked for the second view of the first round. -/
def outvoted : List BlockGraph :=
  ((range' 1 11).map fun round => ownAt 1 round []) ++ [ownAt 1 12 (stretch 2 1 11 ++ stretch 3 1 11)]

/-- The block that enters the view counts a vote of the third node, which has cast
none. -/
theorem certificates_outvoted :
    ∃ g s, actAll (new .four 0) (outvoted.flatMap actions) = .ok g ∧
      Causal Params.four.peers (outvoted.flatMap entries) ∧
      g.statess[blockAt 1 12]? = some s ∧
      3 ∈ ((Memory.inst ⟨g.heap, s⟩ ⟨4, 1⟩).bitset 4 [] 1).preparers ∧
      ¬ PrepareVoter (interpreted (outvoted.flatMap actions))
        (PutOut .four 0 (outvoted.flatMap actions)) ⟨4, 1⟩ (blockAt 1 12) 3 [] 1 := by
  have hcheck : succeeds (actAll (new .four 0) (outvoted.flatMap actions)) (fun g =>
      g.statess[blockAt 1 12]?.any (fun (s : State) =>
        ((Memory.inst ⟨g.heap, s⟩ ⟨4, 1⟩).bitset 4 [] 1).prepares.bit 3) &&
      g.trace.all fun ev => decide (ev.block.node = 3 →
        ev.answer .four ≠ some (.prepare ⟨[], 4, 1, 3, 1⟩) ∧
        ev.answer .four ≠ some (.prePrepare ⟨[], 4, 1, 1⟩))) = true := by decide +kernel
  obtain ⟨g, hrun, hfacts⟩ := exists_of_succeeds hcheck
  rw [Bool.and_eq_true] at hfacts
  obtain ⟨s, hs, hbit⟩ := (Option.any_eq_true _ _).mp hfacts.1
  refine ⟨g, s, hrun, causal_of_check (by decide +kernel), hs, Words.mem_members.mpr hbit, ?_⟩
  rintro ⟨b', -, hnode, hput⟩
  have hsilent : ∀ ev ∈ g.trace, ev.block = b' → ev.answer .four ≠ some (.prepare ⟨[], 4, 1, 3, 1⟩) ∧
      ev.answer .four ≠ some (.prePrepare ⟨[], 4, 1, 1⟩) := by
    rintro ev hev rfl
    exact of_decide_eq_true (all_eq_true.mp hfacts.2 ev hev) hnode
  rcases hput with hput | hput
  · rcases hput.emitted hrun with ⟨ev, hev, hblock, hanswer⟩ | hown
    · exact (hsilent ev hev hblock).1 hanswer
    · cases hown
  · rcases hput.emitted hrun with ⟨ev, hev, hblock, hanswer⟩ | hown
    · exact (hsilent ev hev hblock).2 hanswer
    · simp at hown

end Graph

end Blockmania
