/-
# The trail of a chain

The state of a chain evolves by three operations: a new block starts from the
state of its predecessor, timeouts fall due, and messages are processed. A
recording host notes every single step with the memory it starts from. The
steps of a run link up to a trail, each starting in the memory the one before
left behind, and facts about whole runs are proved by induction on the trail.
-/

import Blockmania.Interpreter.Loops

namespace Blockmania

open Math List

/-- A host that only records. -/
def recorder : Host (List Event) where
  output _ _ := []
  deliver events _ := .ok events
  observe events event := events ++ [event]

/-- What happens to the state of a chain. -/
inductive Op
  /-- The next block of the chain begins. -/
  | next (minround : Nat) (e : Entry)
  /-- Timeouts fall due at a block. -/
  | timeouts (block : BlockID) (ts : List Timeout)
  /-- `processMessages` is called. -/
  | messages (call : Call) (msgs : List Message)

/-- The memory the next block of a chain starts from. -/
def Memory.next (p : Params) (mem : Memory) (minround : Nat) (e : Entry) : Memory :=
  Memory.schedule p ⟨mem.heap.tick, mem.state.clone minround⟩ e

variable {minround : Nat} {e : Entry}

/-- Starting a block keeps the instances of the rounds it does not prune. -/
theorem inst_next {p : Params} {mem : Memory} {key : NodeRound} (hmin : minround ≤ key.round) :
    (mem.next p minround e).inst key = mem.inst key := by
  rw [Memory.next, inst_schedule, inst_clone, if_neg (not_lt.mpr hmin)]
  rfl

/-- Perform an operation and record its steps. -/
def perform (p : Params) (session : Session (List Event)) :
    Op → Except (Halt (List Event)) (Session (List Event))
  | .next minround e => .ok ⟨session.host, session.mem.next p minround e, ∅⟩
  | .timeouts block ts =>
    let (events, mem, _) := expireAll recorder block ts session.host session.mem
    .ok ⟨events, mem, session.processed⟩
  | .messages call msgs => do
    let (session, _) ← processMessages recorder p call msgs session
    return session

def performAll (p : Params) (session : Session (List Event)) :
    List Op → Except (Halt (List Event)) (Session (List Event))
  | [] => .ok session
  | op :: ops => do
    let session ← perform p session op
    performAll p session ops

/-- A chain before its first block. -/
def unwritten : Session (List Event) := ⟨[], ⟨Heap.empty, State.fresh⟩, ∅⟩

/-- The operations prune no round from `round` on. -/
def Keeps (round : Nat) (ops : List Op) : Prop :=
  ∀ minround e, Op.next minround e ∈ ops → minround ≤ round

namespace Event

/-- What the step of an event does. -/
def reply (p : Params) (ev : Event) : Except Crash Reply :=
  match ev.cause with
  | .timeout t => .ok ⟨(ev.mem.expire ev.block.node t).1, (ev.mem.expire ev.block.node t).2, none⟩
  | .message sender receiver msg => processMessage p ev.mem sender receiver ev.block msg

/-- The message a step answers with. -/
def answer (p : Params) (ev : Event) : Option Message :=
  match ev.reply p with
  | .ok reply => reply.resp
  | .error _ => none

/-- The instance an event is about. -/
def key (ev : Event) : NodeRound :=
  match ev.cause with
  | .timeout t => ⟨t.node, t.round⟩
  | .message _ _ msg => msg.nodeRound

variable {ev : Event} {reply : Reply} {msg : Message}

/-- A step leaves every other instance alone. -/
theorem reply_inst {p : Params} (h : ev.reply p = .ok reply) {key : NodeRound} (hne : key ≠ ev.key) :
    reply.mem.inst key = ev.mem.inst key := by
  unfold Event.reply at h
  unfold Event.key at hne
  split at h
  · rename_i t hcause
    cases h
    rw [hcause] at hne
    exact (expire_effect ev.block.node t).inst key hne
  · rename_i sender receiver msg hcause
    rw [hcause] at hne
    exact (processMessage_effect h).inst key hne

/-- What the step of an event does to its own instance. -/
theorem reply_cases {p : Params} (h : ev.reply p = .ok reply) :
    (∃ t, ev.cause = .timeout t ∧ (reply.mem.inst ev.key, reply.resp) =
      (ev.mem.inst ev.key).expire ev.key ev.block.node t.view) ∨
    (∃ sender receiver msg, ev.cause = .message sender receiver msg ∧
      (ev.mem.inst ev.key).Transition p sender receiver msg
        ⟨reply.mem.inst ev.key, reply.resp, reply.delivery⟩) := by
  obtain ⟨block, mem, cause⟩ := ev
  cases cause with
  | timeout t =>
    cases h
    exact .inl ⟨t, rfl, expire_outcome mem block.node t⟩
  | message sender receiver msg =>
    exact .inr ⟨sender, receiver, msg, rfl, transition_of_processMessage h⟩

theorem answer_of_reply {p : Params} (h : ev.reply p = .ok reply) :
    ev.answer p = reply.resp := by
  rw [answer, h]

theorem reply_of_answer {p : Params} (h : ev.answer p = some msg) :
    ∃ reply, ev.reply p = .ok reply ∧ reply.resp = some msg := by
  unfold answer at h
  split at h
  · rename_i reply hreply
    exact ⟨reply, hreply, h⟩
  · cases h

/-- The two kinds of step that answer: a view of an open instance runs out, or
the instance makes a transition. -/
theorem answer_cases {p : Params} (h : ev.answer p = some msg) :
    (∃ t, ev.cause = .timeout t ∧ (ev.mem.inst ev.key).closed = false ∧
      (ev.mem.inst ev.key).current ≤ t.view ∧
      msg = .viewChange ⟨((ev.mem.inst ev.key).prepared t.view).getD [], ev.key.node, ev.key.round,
        ev.block.node, u32 (t.view + 1)⟩) ∨
    (∃ sender receiver cause o, ev.cause = .message sender receiver cause ∧ o.resp = some msg ∧
      (ev.mem.inst ev.key).Transition p sender receiver cause o) := by
  obtain ⟨reply, hreply, hresp⟩ := reply_of_answer h
  rcases reply_cases hreply with ⟨t, hcause, houtcome⟩ | ⟨sender, receiver, cause, hcause, htransition⟩
  · left
    obtain ⟨hexpired, -⟩ | ⟨hexpired, hopen, hview⟩ :=
      (ev.mem.inst ev.key).expire_cases ev.key ev.block.node t.view
    · have hnone := (Prod.mk.inj (houtcome.trans hexpired)).2
      rw [hresp] at hnone
      cases hnone
    · have hfired := (Prod.mk.inj (houtcome.trans hexpired)).2
      rw [hresp] at hfired
      exact ⟨t, hcause, hopen, hview, Option.some.inj hfired⟩
  · exact .inr ⟨sender, receiver, cause, _, hcause, hresp, htransition⟩

/-- A property of instances that messages and expiring views keep. -/
theorem reply_keeps {p : Params} {inv : Instance → Prop}
    (hmessage : ∀ {i : Instance} {sender receiver : Nat} {msg : Message} {o : Outcome}, inv i →
      i.Transition p sender receiver msg o → inv o.inst)
    (hexpire : ∀ {i : Instance} (w : Nat), i.closed = false → inv i → inv (i.setView w))
    (key : NodeRound) (ev : Event) (reply : Reply) (hinv : inv (ev.mem.inst key))
    (h : ev.reply p = .ok reply) : inv (reply.mem.inst key) := by
  by_cases hkey : key = ev.key
  · subst hkey
    rcases reply_cases h with ⟨t, -, houtcome⟩ | ⟨sender, receiver, msg, -, htransition⟩
    · obtain ⟨hexpired, -⟩ | ⟨hexpired, hopen, -⟩ :=
        (ev.mem.inst ev.key).expire_cases ev.key ev.block.node t.view
      · rw [(Prod.mk.inj (houtcome.trans hexpired)).1]
        exact hinv
      · rw [(Prod.mk.inj (houtcome.trans hexpired)).1]
        exact hexpire _ hopen hinv
    · exact hmessage hinv htransition
  · rwa [reply_inst h hkey]

end Event

/-- After the steps `evs`, which extend `pre`, a memory that was `start` is
`mem`. In between the output of a block is stored, the heap changes where the
chain does not see it, and the next block begins, which prunes no round from
`round` on. -/
inductive Trail (p : Params) (round : Nat) (pre : List Event) (start : Memory) :
    List Event → Memory → Prop
  | start : Trail p round pre start pre start
  | next {evs : List Event} {mem : Memory} (trail : Trail p round pre start evs mem) (minround : Nat)
      (e : Entry) (hmin : minround ≤ round) : Trail p round pre start evs (mem.next p minround e)
  | emit {evs : List Event} {mem : Memory} (trail : Trail p round pre start evs mem)
      (out : List Message) :
      Trail p round pre start evs { mem with state := { mem.state with out } }
  | frame {evs : List Event} {mem mem' : Memory} (trail : Trail p round pre start evs mem)
      (hsame : mem.Same mem') : Trail p round pre start evs mem'
  | step {evs : List Event} (ev : Event) {reply : Reply}
      (trail : Trail p round pre start evs ev.mem) (hreply : ev.reply p = .ok reply) :
      Trail p round pre start (evs ++ [ev]) reply.mem

namespace Trail

variable {p : Params} {round : Nat} {pre evs : List Event} {start mem : Memory}

/-- The first steps of a trail are a trail. -/
theorem take (trail : Trail p round [] start evs mem) (i : Nat) :
    ∃ mem', Trail p round [] start (evs.take i) mem' := by
  induction trail with
  | start => exact ⟨start, by simpa using Trail.start⟩
  | next _ _ _ _ ih | emit _ _ ih | frame _ _ ih => exact ih
  | @step evs ev reply trail hreply ih =>
    by_cases hi : i ≤ evs.length
    · rw [take_append_of_le_length hi]
      exact ih
    · rw [take_of_length_le (by simp; omega)]
      exact ⟨_, trail.step ev hreply⟩

/-- A trail extends the steps it starts with. -/
theorem append (trail : Trail p round pre start evs mem) : pre <+: evs := by
  induction trail with
  | start => exact prefix_rfl
  | next _ _ _ _ ih | emit _ _ ih | frame _ _ ih => exact ih
  | step _ _ _ ih => exact ih.trans (prefix_append _ _)

theorem length_le (trail : Trail p round pre start evs mem) : pre.length ≤ evs.length :=
  trail.append.length_le

/-- An invariant of the memory holds before every step of a trail, if
starting a block and taking a step keep it and it cannot tell memories apart that
show the same. -/
theorem memory_invariant {inv : Memory → Prop}
    (hnext : ∀ (mem : Memory) (minround : Nat) (e : Entry), minround ≤ round → inv mem →
      inv (mem.next p minround e))
    (hsame : ∀ {mem mem' : Memory}, mem.Same mem' → inv mem → inv mem')
    (trail : Trail p round pre start evs mem)
    (hstep : ∀ ev ∈ evs, ∀ reply, inv ev.mem → ev.reply p = .ok reply → inv reply.mem)
    (hstart : inv start) :
    inv mem ∧ ∀ ev ∈ evs.drop pre.length, inv ev.mem ∧ ∃ reply, ev.reply p = .ok reply := by
  induction trail with
  | start => exact ⟨hstart, by simp⟩
  | next trail minround e hmin ih => exact ⟨hnext _ minround e hmin (ih hstep).1, (ih hstep).2⟩
  | @emit evs mem trail out ih =>
    have heq : mem.Same { mem with state := { mem.state with out } } :=
      ⟨fun _ => rfl, fun _ => rfl⟩
    exact ⟨hsame heq (ih hstep).1, (ih hstep).2⟩
  | frame trail heq ih => exact ⟨hsame heq (ih hstep).1, (ih hstep).2⟩
  | step ev trail hreply ih =>
    have hbefore := ih fun ev' hev' => hstep ev' (mem_append_left _ hev')
    have hmem := hstep ev (mem_append_right _ (mem_singleton_self ev)) _ hbefore.1 hreply
    refine ⟨hmem, fun ev' hev' => ?_⟩
    rw [drop_append_of_le_length trail.length_le, mem_append, mem_singleton] at hev'
    rcases hev' with hev' | rfl
    · exact hbefore.2 ev' hev'
    · exact ⟨hbefore.1, _, hreply⟩

/-- An invariant of an instance holds before every step of a trail, if one
step keeps it. -/
theorem invariant {key : NodeRound} (hround : round ≤ key.round) {inv : Instance → Prop}
    (hstep : ∀ (ev : Event) (reply : Reply), inv (ev.mem.inst key) → ev.reply p = .ok reply →
      inv (reply.mem.inst key))
    (trail : Trail p round pre start evs mem) (hstart : inv (start.inst key)) :
    inv (mem.inst key) ∧
      ∀ ev ∈ evs.drop pre.length, inv (ev.mem.inst key) ∧ ∃ reply, ev.reply p = .ok reply := by
  apply memory_invariant (fun mem minround e hmin hinv => ?_) (fun hsame hinv => ?_) trail
    (fun ev _ => hstep ev) hstart
  · rwa [inst_next (hmin.trans hround)]
  · rwa [hsame.inst]

end Trail

/-- A host that keeps a log of the steps of a block. -/
structure Host.Logs {σ : Type} (H : Host σ) (block : BlockID) (log : σ → List Event) : Prop where
  observe : ∀ host ev, ev.block = block → log (H.observe host ev) = log host ++ [ev]
  deliver : ∀ host delivery host', H.deliver host delivery = .ok host' → log host' = log host

theorem recorder_logs (block : BlockID) : recorder.Logs block id where
  observe _ _ _ := rfl
  deliver _ _ _ h := (Except.ok.inj h).symm

/-- The run stopped at a step of the block, right after a trail. -/
def Stopped {σ : Type} (p : Params) (round : Nat) (pre : List Event) (start : Memory)
    (block : BlockID) (log : σ → List Event) (halt : Halt σ) : Prop :=
  ∃ evs ev, log halt.host = evs ++ [ev] ∧ ev.block = block ∧ Trail p round pre start evs ev.mem

variable {session session' : Session (List Event)}

section Runs

variable {p : Params} {round : Nat} {pre : List Event} {start : Memory} {σ : Type} {H : Host σ}
  {log : σ → List Event} {host : σ}

theorem trail_expire {block : BlockID} (hlogs : H.Logs block log) (t : Timeout) {mem : Memory}
    (trail : Trail p round pre start (log host) mem) :
    Trail p round pre start (log (H.observe host ⟨block, mem, .timeout t⟩))
      (mem.expire block.node t).1 := by
  rw [hlogs.observe _ _ rfl]
  exact Trail.step ⟨block, mem, .timeout t⟩ trail rfl

/-- Processing a message is one more step. -/
theorem trail_kept (call : Call) (hlogs : H.Logs call.origin log) (source : Message → Prop) :
    Kept H p call source (fun session _ => Trail p round pre start (log session.host) session.mem)
      (Stopped p round pre start call.origin log) := by
  intro session emitted msg trail _
  have hnoted : log (session.noting H call msg) = log session.host ++
      [⟨call.origin, session.mem, .message call.sender call.receiver msg⟩] := hlogs.observe _ _ rfl
  have hstopped (crash : Crash) :
      Stopped p round pre start call.origin log ⟨crash, session.noting H call msg⟩ :=
    ⟨_, _, hnoted, rfl, trail⟩
  apply ensures_answer (fun _ => trail) (fun crash _ => hstopped crash)
  intro reply hreply
  have hstep : Trail p round pre start (log (session.noting H call msg)) reply.mem := by
    rw [hnoted]
    exact Trail.step ⟨call.origin, session.mem, .message call.sender call.receiver msg⟩ trail hreply
  refine ensures_settle (fun _ => hstep) (fun d host' _ hdeliver => ?_)
    (fun _ crash _ _ => hstopped crash)
  rw [← hlogs.deliver _ d host' hdeliver] at hstep
  exact hstep

/-- The interpretation of a block extends the trail of its predecessor. -/
theorem trail_interpret (hmin : minround ≤ round) {mem : Memory} {prev : Option State}
    (hlogs : H.Logs e.block log)
    (hprev : (findOrCreateState mem.heap prev minround e).state = mem.state.clone minround)
    (trail : Trail p round pre start (log host) mem) :
    Ensures (interpret H p minround mem.heap prev host e)
      (fun r => Trail p round pre start (log r.1) r.2) (Stopped p round pre start e.block log) := by
  have hnext : (findOrCreateState mem.heap prev minround e).schedule p e =
      mem.next p minround e := by
    rw [Memory.next, ← hprev]
    rfl
  rw [interpret, hnext]
  refine (ensures_conduct (fun session _ => Trail p round pre start (log session.host) session.mem)
    (trail.next minround e hmin) (fun t _ host mem _ trail => trail_expire hlogs t trail)
    (trail_kept _ hlogs _) fun dep _ session emitted trail => ?_).mono ?_
  · exact ensures_processMessages (trail_kept ⟨dep.node, e.block.node, e.block⟩ hlogs fun _ => True)
      emitted (fun _ _ => .inl trivial) trail
  · rintro ⟨host', mem'⟩ ⟨last, processed, emitted, hlast, rfl⟩
    exact hlast.emit emitted

theorem trail_perform {op : Op} (trail : Trail p round pre start session.host session.mem)
    (hkeeps : Keeps round [op]) (h : perform p session op = .ok session') :
    Trail p round pre start session'.host session'.mem := by
  cases op with
  | next minround e =>
    cases h
    exact trail.next minround e (hkeeps minround e (mem_singleton.mpr rfl))
  | timeouts block ts =>
    cases h
    exact inv_expireAll (fun host mem _ => Trail p round pre start host mem)
      (fun t _ _ _ _ trail => trail_expire (recorder_logs block) t trail) [] trail
  | messages call msgs =>
    obtain ⟨⟨mid, out⟩, hprocess, h⟩ := bind_eq_ok.mp h
    cases h
    exact (ensures_processMessages (trail_kept call (recorder_logs call.origin) fun _ => True) []
      (fun _ _ => .inl trivial) trail).of_ok hprocess

/-- The recorded steps of a run form a trail. -/
theorem trail_performAll {ops : List Op} (hkeeps : Keeps round ops)
    (trail : Trail p round pre start session.host session.mem)
    (h : performAll p session ops = .ok session') :
    Trail p round pre start session'.host session'.mem := by
  induction ops generalizing session session' with
  | nil =>
    cases h
    exact trail
  | cons op ops ih =>
    obtain ⟨mid, hperform, h⟩ := bind_eq_ok.mp h
    refine ih (fun minround e hmem => hkeeps minround e (mem_cons_of_mem _ hmem))
      (trail_perform trail (fun minround e hmem => ?_) hperform) h
    rw [mem_singleton] at hmem
    exact hkeeps minround e (hmem ▸ mem_cons_self)

end Runs

end Blockmania
