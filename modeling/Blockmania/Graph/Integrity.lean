/-
# Integrity

A graph invents nothing. A vote in the output of a block carries the node of
that block as its sender, and a hash that turns up anywhere for an instance, in a
message, a prepared value, a vote against a view, a decided value or a delivered
round, is empty or the hash of a block of that node and round that was
interpreted. All of it follows from going back to where a message comes from.
-/

import Blockmania.Graph.Origins

namespace Blockmania

open Math List
open BlockGraph (actions entries)

namespace Message

/-- The hash a message carries. -/
def hash : Message → Hash
  | .prePrepare m => m.hash
  | .prepare m | .commit m | .viewChange m | .newView m => m.hash

/-- The sender a message names. A PrePrepare names none. -/
def sender? : Message → Option Nat
  | .prePrepare _ => none
  | .prepare m | .commit m | .viewChange m | .newView m => some m.sender

end Message

section Proposed

variable {p : Params} {key : NodeRound} {proposed lasting : BlockID → Prop} {trace : List Event}

/-- A hash that was ever answered was proposed. The induction is on the length
of the run. -/
theorem AllGrounded.proposed_of_answered (n : Nat) :
    ∀ {trace : List Event} {msg : Message}, trace.length ≤ n →
      AllGrounded p key proposed lasting trace → Answered p trace msg → msg.nodeRound = key →
      msg.hash ≠ [] → proposed ⟨msg.hash, key.node, key.round⟩ := by
  induction n with
  | zero =>
    intro trace msg hlength _ h
    obtain ⟨ev, hev, -⟩ := h
    rw [length_eq_zero_iff.mp (Nat.le_zero.mp hlength)] at hev
    cases hev
  | succ n ih =>
    intro trace msg hlength hall h hkey hhash
    have hback : ∀ {ev : Event} {older : List Event}, ev :: older <:+ trace → older.length ≤ n := by
      intro ev older hsuffix
      have hshorter := hsuffix.length_le
      rw [length_cons] at hshorter
      omega
    have hbacked : ∀ {trace' : List Event} {x w : Nat} {hash : Hash}, trace'.length ≤ n + 1 →
        AllGrounded p key proposed lasting trace' → Backed p key trace' x hash w → hash ≠ [] →
        proposed ⟨hash, key.node, key.round⟩ := by
      intro trace' x w hash hlength' hall' hbacked hne
      obtain ⟨ev, older, sender, hsuffix, -, hallolder, -, -, -, horigin⟩ := hall'.of_backed hbacked
      have hshorter := hsuffix.length_le
      rw [length_cons] at hshorter
      rcases horigin with hanswered | ⟨-, -, hproposed, -⟩
      · exact ih (by omega) hallolder hanswered rfl hne
      · exact hproposed
    have hcommitted : ∀ {ev : Event} {older : List Event} {y w : Nat} {hash : Hash},
        ev :: older <:+ trace → AllGrounded p key proposed lasting older →
        Committed p key older y hash w → hash ≠ [] → proposed ⟨hash, key.node, key.round⟩ :=
      fun hsuffix hallolder hcommitted hne => ih (hback hsuffix) hallolder hcommitted rfl hne
    cases msg with
    | prePrepare m =>
      subst hkey
      obtain ⟨ev, older, announcer, hsuffix, hallolder, hanswered⟩ := hall.of_prePrepare h
      have hproposed := ih (hback hsuffix) hallolder hanswered rfl hhash
      exact hproposed
    | prepare m =>
      subst hkey
      exact hbacked hlength hall (backed_of_answered h) hhash
    | commit m =>
      subst hkey
      obtain ⟨ev, older, hsuffix, hallolder, -, -, -, -, nodes, hcard, hnodes⟩ := hall.of_committed h
      obtain ⟨x, hx⟩ : nodes.Nonempty := by
        rw [← Finset.card_pos, hcard]
        exact Nat.succ_pos _
      exact hbacked ((hback hsuffix).trans (Nat.le_succ n)) hallolder (hnodes x hx) hhash
    | viewChange m =>
      obtain ⟨ev, older, y, w, hsuffix, hallolder, hcommit⟩ :=
        hall.committed_of_viewChange hkey hhash h
      exact hcommitted hsuffix hallolder hcommit hhash
    | newView m =>
      obtain ⟨ev, older, y, w, hsuffix, hallolder, hcommit⟩ := hall.committed_of_newView hkey hhash h
      exact hcommitted hsuffix hallolder hcommit hhash

/-- A value that was committed to was proposed. -/
theorem AllGrounded.proposed_of_committed (hall : AllGrounded p key proposed lasting trace) {y w : Nat}
    {hash : Hash} (h : Committed p key trace y hash w) (hhash : hash ≠ []) :
    proposed ⟨hash, key.node, key.round⟩ :=
  AllGrounded.proposed_of_answered _ le_rfl hall h rfl hhash

/-- A value that a quorum committed to was proposed. -/
theorem AllGrounded.proposed_of_certified (hall : AllGrounded p key proposed lasting trace)
    {hash : Hash} (h : Certified p key trace hash) (hhash : hash ≠ []) :
    proposed ⟨hash, key.node, key.round⟩ := by
  obtain ⟨w, nodes, hcard, hnodes⟩ := h
  obtain ⟨y, hy⟩ : nodes.Nonempty := by
    rw [← Finset.card_pos]
    exact lt_of_lt_of_le (Nat.succ_pos _) hcard
  exact hall.proposed_of_committed (hnodes y hy) hhash

/-- A step answers in the name of the node of its block. -/
theorem Grounded.sender_of_answer {older : List Event} {ev : Event} {msg : Message}
    (h : Grounded p key proposed lasting older ev) (hanswer : ev.answer p = some msg) :
    ∀ x ∈ msg.sender?, x = ev.block.node := by
  rcases Event.answer_cases hanswer with ⟨t, -, -, -, rfl⟩ | ⟨sender, receiver, cause, o, hcause, hresp,
    htransition⟩
  · intro x hx
    exact (Option.some.inj hx).symm
  · rw [← h.receiver _ _ _ hcause]
    intro x hx
    cases htransition <;> cases hresp <;> cases hx <;> rfl

end Proposed

/-- A hash of an instance is empty, or it is the hash of an interpreted block of
that node and round. -/
def Genuine (done : List Entry) (key : NodeRound) (hash : Hash) : Prop :=
  hash ≠ [] → ∃ e ∈ done, e.block = ⟨hash, key.node, key.round⟩

namespace Graph

/-- The deliveries made by the steps of a trace are of genuine hashes. -/
def DeliversGenuine (p : Params) (done : List Entry) (trace : List Event) : Prop :=
  ∀ ev ∈ trace, ∀ reply d, ev.reply p = .ok reply → reply.delivery = some d →
    Genuine done d.key d.hash

/-- The callback is handed interpreted blocks. -/
def HandsOut (done : List Entry) (callbacks : List Interpreted) : Prop :=
  ∀ i ∈ callbacks, ∀ b ∈ i.blocks, ∃ e ∈ done, e.block = b

/-- A graph that has interpreted `done` made nothing up. -/
structure Integrity (done : List Entry) (g : Graph) : Prop where
  sender : ∀ (b : BlockID) (s : State), g.statess[b]? = some s →
    ∀ msg ∈ s.out, ∀ x ∈ msg.sender?, x = b.node
  output : ∀ (b : BlockID) (s : State), g.statess[b]? = some s →
    ∀ msg ∈ s.out, Genuine done msg.nodeRound msg.hash
  prepared : ∀ (b : BlockID) (s : State), g.statess[b]? = some s → ∀ (k : NodeRoundView) (hash : Hash),
    s.data.prepared[k]? = some hash → Genuine done ⟨k.node, k.round⟩ hash
  votes : ∀ (b : BlockID) (s : State), g.statess[b]? = some s →
    ∀ (k : NodeRoundView) (epoch voter : Nat) (hash : Hash), s.data.viewChanged[k]? = some epoch →
    (g.heap.readVotes ⟨epoch, k⟩)[voter]? = some hash → Genuine done ⟨k.node, k.round⟩ hash
  final : ∀ (b : BlockID) (s : State), g.statess[b]? = some s → ∀ (key : NodeRound) (hash : Hash),
    s.final[key]? = some hash → Genuine done key hash
  delivers : DeliversGenuine g.params done g.trace
  handsOut : HandsOut done g.callbacks

section Runs

variable {p : Params} {done : List Entry} {g : Graph}

/-- What a grounded trace delivers is genuine. -/
theorem deliversGenuine_of_grounded (lasting : BlockID → Prop) {trace : List Event}
    (hall : ∀ key, AllGrounded p key (fun b => ∃ e ∈ done, e.block = b) lasting trace) :
    DeliversGenuine p done trace := by
  intro ev hev reply d hreply hd hhash
  obtain ⟨older, -, hgrounded, hallolder⟩ := (hall d.key).of_mem hev
  rcases Event.reply_cases hreply with ⟨t, hcause, -⟩ | ⟨sender, receiver, msg, hcause, htransition⟩
  · obtain ⟨block, mem, cause⟩ := ev
    cases hcause
    cases hreply
    cases hd
  · have hkey : d.key = ev.key := by
      rw [Instance.key_of_transition htransition hd, Event.key, hcause]
    obtain ⟨hfinal, hnone⟩ := Instance.final_of_transition htransition hd
    rw [← hkey] at hfinal
    have hcertified := ((vouched_reply hgrounded hreply).final d.hash hfinal).of_cons
      ((Event.answer_of_reply hreply).trans hnone)
    exact hallolder.proposed_of_certified hcertified hhash

/-- A justified graph has integrity. -/
theorem integrity_of_justified {lasting : BlockID → Prop} (hparams : g.params = p)
    (h : ∀ key, Justified p key (fun b => ∃ e ∈ done, e.block = b) lasting g) : g.Integrity done where
  sender b s hs msg hmsg x hx := by
    rcases (h msg.nodeRound).out b s hs msg hmsg rfl with ⟨ev, hev, rfl, hanswer⟩ | rfl
    · obtain ⟨older, -, hgrounded, -⟩ := (h msg.nodeRound).trace.of_mem hev
      exact hgrounded.sender_of_answer hanswer x hx
    · cases hx
  output b s hs msg hmsg hhash := by
    rcases (h msg.nodeRound).out b s hs msg hmsg rfl with ⟨ev, hev, -, hanswer⟩ | rfl
    · exact AllGrounded.proposed_of_answered _ le_rfl (h msg.nodeRound).trace ⟨ev, hev, hanswer⟩ rfl hhash
    · exact (h ⟨b.node, b.round⟩).proposed b s hs
  prepared b s hs k hash hprepared hhash := by
    obtain ⟨y, hcommitted⟩ := ((h ⟨k.node, k.round⟩).inst b s hs).prepared k.view hash hprepared
    exact (h ⟨k.node, k.round⟩).trace.proposed_of_committed hcommitted hhash
  votes b s hs k epoch voter hash hepoch hvote hhash := by
    have hj := h ⟨k.node, k.round⟩
    cases hfound : g.heap.votes[(⟨epoch, k⟩ : VoteRef)]? with
    | none => simp [Heap.readVotes, hfound] at hvote
    | some vcs =>
      rw [Heap.readVotes, hfound] at hvote
      obtain ⟨ev, hev, w, hballot⟩ := hj.votes ⟨epoch, k⟩ vcs voter hash rfl hfound hvote
      obtain ⟨older, -, hallolder, hanswered⟩ := hj.trace.of_ballot hev hballot rfl
      exact AllGrounded.proposed_of_answered _ le_rfl hallolder hanswered rfl hhash
  final b s hs key hash hfinal hhash :=
    (h key).trace.proposed_of_certified (((h key).inst b s hs).final hash hfinal) hhash
  delivers := hparams ▸ deliversGenuine_of_grounded lasting fun key => (h key).trace
  handsOut i hi b hb := by
    obtain ⟨hhash, hcertified⟩ := (h ⟨b.node, b.round⟩).callbacks i hi b hb rfl
    exact (h ⟨b.node, b.round⟩).trace.proposed_of_certified hcertified hhash

/-- A run makes nothing up, whatever is added and however far it has got: the
outputs and states are genuine after every entry, and so are the deliveries and
the blocks handed to the callback, also of a run that stops. Every block handed
out was added. -/
theorem integrity_addAll (p : Params) (lastInterpreted : Nat) (bgs : List BlockGraph) (n : Nat) :
    Ensures (actAll (new p lastInterpreted) ((bgs.flatMap actions).take n))
      (fun g => g.Integrity (interpreted ((bgs.flatMap actions).take n)))
      (fun halt => DeliversGenuine p (interpreted ((bgs.flatMap actions).take n))
          halt.host.trace ∧
        HandsOut (interpreted ((bgs.flatMap actions).take n)) halt.host.callbacks) ∧
    ∀ e ∈ interpreted ((bgs.flatMap actions).take n), ∃ bg ∈ bgs,
      e.block = bg.block ∨ ∃ dep ∈ bg.deps, e.block = dep.block := by
  generalize hacts : (bgs.flatMap actions).take n = acts
  have hjustified (key : NodeRound) : Ensures (actAll (new p lastInterpreted) acts)
      (Justified p key (fun b => ∃ e ∈ interpreted acts, e.block = b) fun _ => True)
      (StopsGrounded p key (fun b => ∃ e ∈ interpreted acts, e.block = b) fun _ => True) :=
    justified_actAll (fun e he => ⟨e, he, rfl⟩) (fun _ _ _ _ _ _ => trivial)
  constructor
  · cases hrun : actAll (new p lastInterpreted) acts with
    | ok g =>
      exact integrity_of_justified ((params_actAll p lastInterpreted acts).of_ok hrun)
        fun key => (hjustified key).of_ok hrun
    | error halt =>
      refine ⟨deliversGenuine_of_grounded (fun _ => True) fun key => ?_, fun i hi b hb => ?_⟩
      · obtain ⟨ev, older, htrace, hall, -⟩ := (hjustified key).of_error hrun
        exact htrace ▸ hall
      · obtain ⟨ev, older, htrace, hall, -, -, hcallbacks⟩ :=
          (hjustified ⟨b.node, b.round⟩).of_error hrun
        obtain ⟨hhash, hcertified⟩ := hcallbacks i hi b hb rfl
        exact hall.2.proposed_of_certified hcertified hhash
  · intro e he
    have hmem : e ∈ bgs.flatMap entries := by
      rw [← interpreted_actions, interpreted]
      rw [← hacts, interpreted] at he
      exact (take_sublist _ _).filterMap _ |>.subset he
    obtain ⟨bg, hbg, hentry⟩ := mem_flatMap.mp hmem
    refine ⟨bg, hbg, ?_⟩
    rcases mem_append.mp hentry with hdeps | hown
    · obtain ⟨dep, hdep, rfl⟩ := mem_map.mp hdeps
      exact Or.inr ⟨dep, hdep, rfl⟩
    · rw [mem_singleton.mp hown]
      exact Or.inl rfl

end Runs

end Graph

end Blockmania
