/-
# Rules for the loops of the interpreter

The interpreter processes messages one by one in loops that call each other, and
any message may stop the program. The rules below carry an invariant through the
loops: if processing one message keeps it, and a crash then has a property of its
own, so does every loop. The invariant may speak about the messages emitted so
far, since an answer is processed only after it was emitted.
-/

import Blockmania.Interpreter.Transition

namespace Blockmania

open Math List

/-- The result of a computation satisfies `post`, or the computation stopped in
a way that satisfies `fail`. -/
def Ensures {ε α : Type} (x : Except ε α) (post : α → Prop) (fail : ε → Prop) : Prop :=
  match x with
  | .ok a => post a
  | .error e => fail e

namespace Ensures

variable {ε α γ : Type} {x : Except ε α} {post : α → Prop} {fail : ε → Prop}

theorem of_ok {a : α} (h : Ensures x post fail) (hx : x = .ok a) : post a := by
  subst hx
  exact h

theorem of_error {e : ε} (h : Ensures x post fail) (hx : x = .error e) : fail e := by
  subst hx
  exact h

variable {post' : α → Prop} {fail' : ε → Prop}

variable (h : Ensures x post fail)
include h

theorem mono (hpost : ∀ a, post a → post' a) :
    Ensures x post' fail := by
  cases x with
  | ok a => exact hpost a h
  | error e => exact h

theorem weaken (hfail : ∀ e, fail e → fail' e) :
    Ensures x post fail' := by
  cases x with
  | ok a => exact h
  | error e => exact hfail e h

/-- A property of every result may be added. -/
theorem and_of_ok {prop : α → Prop} (hok : ∀ a, x = .ok a → prop a) :
    Ensures x (fun a => post a ∧ prop a) fail := by
  cases x with
  | ok a => exact ⟨h, hok a rfl⟩
  | error e => exact h

/-- Two properties of one computation. -/
theorem and (h' : Ensures x post' fail') :
    Ensures x (fun a => post a ∧ post' a) (fun e => fail e ∧ fail' e) := by
  cases x with
  | ok a => exact ⟨h, h'⟩
  | error e => exact ⟨h, h'⟩

/-- Two computations one after another. -/
theorem bind {k : α → Except ε γ} {post' : γ → Prop}
    (hk : ∀ a, post a → Ensures (k a) post' fail) : Ensures (x >>= k) post' fail := by
  cases x with
  | ok a => exact hk a h
  | error e => exact h

end Ensures

/-- The computation succeeds with a result that passes the test. -/
def succeeds {ε α : Type} (x : Except ε α) (test : α → Bool) : Bool :=
  match x with
  | .ok a => test a
  | .error _ => false

theorem exists_of_succeeds {ε α : Type} {x : Except ε α} {test : α → Bool}
    (h : succeeds x test = true) : ∃ a, x = .ok a ∧ test a = true := by
  cases x with
  | ok a => exact ⟨a, rfl, h⟩
  | error e => cases h

/-- What a computation is stopped for. -/
def halted {ε α : Type} (x : Except ε α) : Option ε :=
  match x with
  | .ok _ => none
  | .error e => some e

theorem eq_error_of_halted {ε α : Type} {x : Except ε α} {e : ε} (h : halted x = some e) :
    x = .error e := by
  cases x with
  | ok a => cases h
  | error e' => exact congrArg Except.error (Option.some.inj h)

section Rules

variable {σ : Type} {H : Host σ} {p : Params} {call : Call} {fail : Halt σ → Prop}

/-- What an invariant has to keep: one message, taken from `source` or from the
messages emitted so far, and its answer is emitted. -/
def Kept (H : Host σ) (p : Params) (call : Call) (source : Message → Prop)
    (inv : Session σ → List Message → Prop) (fail : Halt σ → Prop) : Prop :=
  ∀ session emitted msg, inv session emitted → (source msg ∨ msg ∈ emitted) →
    Ensures (answer H p call session msg) (fun r => inv r.1 (emitted ++ r.2.toList)) fail

variable {source : Message → Prop} {inv : Session σ → List Message → Prop}

theorem ensures_pass (hkept : Kept H p call source inv fail) {msgs : List Message}
    {session : Session σ} {emitted : List Message}
    (hmsgs : ∀ msg ∈ msgs, source msg ∨ msg ∈ emitted) (hinv : inv session emitted) :
    Ensures (pass H p call msgs session) (fun r => inv r.1 (emitted ++ r.2)) fail := by
  induction msgs generalizing session emitted with
  | nil =>
    change inv session (emitted ++ [])
    rwa [append_nil]
  | cons msg msgs ih =>
    refine (hkept session emitted msg hinv (hmsgs msg mem_cons_self)).bind ?_
    rintro ⟨session', resp⟩ hinv'
    refine (ih (fun m hm => ?_) hinv').bind ?_
    · exact (hmsgs m (mem_cons_of_mem _ hm)).imp_right (mem_append_left _)
    · rintro ⟨session'', out⟩ hinv''
      change inv session'' (emitted ++ (resp.toList ++ out))
      rwa [← append_assoc]

theorem ensures_answers (hkept : Kept H p call source inv fail) {depth : Nat} {out : List Message}
    {session : Session σ} {emitted : List Message} (hinv : inv session (emitted ++ out)) :
    Ensures (answers H p call depth out session) (fun r => inv r.1 (emitted ++ r.2)) fail := by
  induction depth generalizing out session emitted with
  | zero => exact hinv
  | succ depth ih =>
    refine (ensures_pass hkept (fun msg hmsg => .inr (mem_append_right _ hmsg)) hinv).bind ?_
    rintro ⟨session', next⟩ hinv'
    refine (ih hinv').bind ?_
    rintro ⟨session'', rest⟩ hinv''
    change inv session'' (emitted ++ (out ++ rest))
    rwa [← append_assoc]

variable {msgs : List Message} {session session' : Session σ} {msg resp : Message} {host host' : σ}
  {block : BlockID} {deps : List BlockID} {mem mem' : Memory}

/-- The rule for `processMessages`. -/
theorem ensures_processMessages (hkept : Kept H p call source inv fail) (emitted : List Message)
    (hmsgs : ∀ msg ∈ msgs, source msg ∨ msg ∈ emitted) (hinv : inv session emitted) :
    Ensures (processMessages H p call msgs session) (fun r => inv r.1 (emitted ++ r.2)) fail := by
  refine (ensures_pass hkept hmsgs hinv).bind ?_
  rintro ⟨session', out⟩ hinv'
  exact ensures_answers hkept hinv'

/-- The rule for the loop over the referenced blocks. -/
theorem ensures_processDeps {block : BlockID} {deps : List BlockID}
    (hcall : ∀ dep ∈ deps, ∀ session emitted, inv session emitted →
      Ensures (processMessages H p ⟨dep.node, block.node, block⟩ (H.output session.host dep) session)
        (fun r => inv r.1 (emitted ++ r.2)) fail)
    {session : Session σ} {emitted : List Message} (hinv : inv session emitted) :
    Ensures (processDeps H p block deps session) (fun r => inv r.1 (emitted ++ r.2)) fail := by
  induction deps generalizing session emitted with
  | nil =>
    change inv session (emitted ++ [])
    rwa [append_nil]
  | cons dep deps ih =>
    refine (hcall dep mem_cons_self session emitted hinv).bind ?_
    rintro ⟨session', out⟩ hinv'
    refine (ih (fun d hd => hcall d (mem_cons_of_mem _ hd)) hinv').bind ?_
    rintro ⟨session'', rest⟩ hinv''
    change inv session'' (emitted ++ (out ++ rest))
    rwa [← append_assoc]

/-- One message: it was seen before, or it is processed and what it decides is
delivered. -/
theorem ensures_answer {post : Session σ × Option Message → Prop}
    (hskip : session.processed[msg]?.getD false = true → post (session, none))
    (hcrash : ∀ crash, processMessage p session.mem call.sender call.receiver call.origin msg =
      .error crash → fail ⟨crash, session.noting H call msg⟩)
    (hreply : ∀ reply, processMessage p session.mem call.sender call.receiver call.origin msg =
      .ok reply → Ensures (settle H (session.noting H call msg) reply.delivery)
        (fun host => post (⟨host, reply.mem, session.processed.insert msg true⟩, reply.resp)) fail) :
    Ensures (answer H p call session msg) post fail := by
  unfold answer
  split
  · rename_i hseen
    exact hskip hseen
  · cases hprocess : processMessage p session.mem call.sender call.receiver call.origin msg with
    | error crash => exact hcrash crash hprocess
    | ok reply => exact (hreply reply hprocess).bind fun host hhost => hhost

theorem haltAt_eq_ok {α : Type} {x : Except Crash α} {a : α} :
    haltAt host x = .ok a ↔ x = .ok a := by
  cases x <;> simp [haltAt]

/-- The two ways to get past a message. -/
theorem answer_eq_ok {resp : Option Message}
    (h : answer H p call session msg = .ok (session', resp)) :
    session.processed[msg]?.getD false = true ∧ session' = session ∧ resp = none ∨
    session.processed[msg]?.getD false = false ∧ ∃ reply host,
      processMessage p session.mem call.sender call.receiver call.origin msg = .ok reply ∧
      settle H (session.noting H call msg) reply.delivery = .ok host ∧
      session' = ⟨host, reply.mem, session.processed.insert msg true⟩ ∧ resp = reply.resp := by
  unfold answer at h
  split at h
  · rename_i hseen
    cases h
    exact .inl ⟨hseen, rfl, rfl⟩
  · rename_i hfresh
    obtain ⟨reply, hreply, h⟩ := bind_eq_ok.mp h
    obtain ⟨host, hsettle, h⟩ := bind_eq_ok.mp h
    cases h
    exact .inr ⟨eq_false_of_ne_true hfresh, reply, host, haltAt_eq_ok.mp hreply, hsettle, rfl, rfl⟩

/-- Delivering what a message decided, if anything. -/
theorem ensures_settle {delivery : Option Delivery} {post : σ → Prop}
    (hnone : delivery = none → post host)
    (hdeliver : ∀ d host', delivery = some d → H.deliver host d = .ok host' → post host')
    (hcrash : ∀ d crash, delivery = some d → H.deliver host d = .error crash → fail ⟨crash, host⟩) :
    Ensures (settle H host delivery) post fail := by
  cases delivery with
  | none => exact hnone rfl
  | some d =>
    change Ensures (haltAt host (H.deliver host d)) post fail
    cases hd : H.deliver host d with
    | error crash => exact hcrash d crash rfl hd
    | ok host' => exact hdeliver d host' rfl hd

/-- The loop over the timeouts that fall due keeps what each of them keeps. -/
theorem inv_expireAll {ts : List Timeout} (inv : σ → Memory → List Message → Prop)
    (hexpire : ∀ t ∈ ts, ∀ host mem emitted, inv host mem emitted →
      inv (H.observe host ⟨block, mem, .timeout t⟩) (mem.expire block.node t).1
        (emitted ++ (mem.expire block.node t).2.toList)) (emitted : List Message)
    (hinv : inv host mem emitted) :
    inv (expireAll H block ts host mem).1 (expireAll H block ts host mem).2.1
      (emitted ++ (expireAll H block ts host mem).2.2) := by
  induction ts generalizing host mem emitted with
  | nil =>
    change inv host mem (emitted ++ [])
    rwa [append_nil]
  | cons t ts ih =>
    have hrest := ih (fun u hu => hexpire u (mem_cons_of_mem _ hu)) _
      (hexpire t mem_cons_self host mem emitted hinv)
    rwa [append_assoc] at hrest

/-- The rule for interpreting a block. The invariant starts with the
PrePrepare of the block emitted, and is kept by every timeout that falls due, by
every message of the block itself and by every message of a block it references.
In the end the messages emitted are the output. -/
theorem ensures_conduct {start : Memory} (inv : Session σ → List Message → Prop)
    (hstart : inv ⟨host, start, ∅⟩ [.prePrepare ⟨block.hash, block.node, block.round, 0⟩])
    (hexpire : ∀ t ∈ start.timeoutsAt block.round,
      ∀ host mem emitted, inv ⟨host, mem, ∅⟩ emitted →
        inv ⟨H.observe host ⟨block, mem, .timeout t⟩, (mem.expire block.node t).1, ∅⟩
          (emitted ++ (mem.expire block.node t).2.toList))
    (hown : Kept H p ⟨block.node, block.node, block⟩ (fun _ => False) inv fail)
    (hdeps : ∀ dep ∈ deps, ∀ session emitted, inv session emitted →
      Ensures (processMessages H p ⟨dep.node, block.node, block⟩ (H.output session.host dep)
        session) (fun r => inv r.1 (emitted ++ r.2)) fail) :
    Ensures (conduct H p block deps host start)
      (fun r => ∃ mem processed emitted, inv ⟨r.1, mem, processed⟩ emitted ∧
        r.2 = { mem with state := { mem.state with out := emitted } }) fail := by
  have hdue := inv_expireAll (fun host mem emitted => inv ⟨host, mem, ∅⟩ emitted) hexpire _ hstart
  unfold conduct
  dsimp only
  refine (ensures_processMessages hown _ (fun _ hmsg => .inr hmsg) hdue).bind ?_
  rintro ⟨session, own⟩ hinv
  refine (ensures_processDeps hdeps hinv).bind ?_
  rintro ⟨session', received⟩ hinv'
  exact ⟨session'.mem, session'.processed, _, hinv', rfl⟩

/-- The rule for a property that the steps of a block keep, whatever they emit. -/
theorem ensures_conduct_of_steps {start : Memory} (inv : σ → Memory → Prop) (hstart : inv host start)
    (hexpire : ∀ t ∈ start.timeoutsAt block.round, ∀ host mem, inv host mem →
      inv (H.observe host ⟨block, mem, .timeout t⟩) (mem.expire block.node t).1)
    (hcrash : ∀ host mem sender msg crash, inv host mem →
      processMessage p mem sender block.node block msg = .error crash →
        fail ⟨crash, H.observe host ⟨block, mem, .message sender block.node msg⟩⟩)
    (hreply : ∀ host mem sender msg reply, inv host mem →
      processMessage p mem sender block.node block msg = .ok reply →
        Ensures (settle H (H.observe host ⟨block, mem, .message sender block.node msg⟩) reply.delivery)
          (fun host' => inv host' reply.mem) fail) :
    Ensures (conduct H p block deps host start)
      (fun r => ∃ mem out, inv r.1 mem ∧ r.2 = { mem with state := { mem.state with out } }) fail := by
  have hkept : ∀ sender source, Kept H p ⟨sender, block.node, block⟩ source
      (fun session _ => inv session.host session.mem) fail := by
    intro sender source session emitted msg hinv _
    exact ensures_answer (fun _ => hinv) (fun crash h => hcrash _ _ _ _ crash hinv h)
      (fun reply h => hreply _ _ _ _ reply hinv h)
  refine (ensures_conduct (fun session _ => inv session.host session.mem) hstart
    (fun t ht host mem _ => hexpire t ht host mem) (hkept block.node fun _ => False)
    fun dep _ session emitted hinv => ?_).mono ?_
  · exact ensures_processMessages (hkept dep.node fun _ => True) emitted (fun _ _ => .inl trivial) hinv
  · rintro ⟨host', mem'⟩ ⟨last, processed, out, hinv, rfl⟩
    exact ⟨last, out, hinv, rfl⟩

/-- A property of the memory that every message and every timeout keeps. -/
theorem mem_conduct (inv : Memory → Prop)
    (hmessage : ∀ (mem : Memory) (sender : Nat) (msg : Message) (reply : Reply), inv mem →
      processMessage p mem sender block.node block msg = .ok reply → inv reply.mem)
    (hexpire : ∀ (mem : Memory) (t : Timeout), inv mem → inv (mem.expire block.node t).1)
    (hstart : inv mem) (h : conduct H p block deps host mem = .ok (host', mem')) :
    ∃ last out, inv last ∧ mem' = { last with state := { last.state with out } } := by
  have hensures : Ensures (conduct H p block deps host mem) _ (fun _ => True) :=
    ensures_conduct_of_steps (fun _ mem => inv mem) hstart (fun t _ _ mem hinv => hexpire mem t hinv)
      (fun _ _ _ _ _ _ _ => trivial) fun host mem sender msg reply hinv hreply =>
        have hnext := hmessage mem sender msg reply hinv hreply
        ensures_settle (fun _ => hnext) (fun _ _ _ _ => hnext) (fun _ _ _ _ => trivial)
  exact hensures.of_ok h

/-- Interpreting a block records no delays. -/
theorem delay_conduct (h : conduct H p block deps host mem = .ok (host', mem')) :
    mem'.state.delay = mem.state.delay := by
  obtain ⟨last, out, hdelay, rfl⟩ := mem_conduct (fun last => last.state.delay = mem.state.delay)
    (fun _ _ _ _ hdelay hreply => (processMessage_effect hreply).delay.trans hdelay)
    (fun _ t hdelay => (expire_effect block.node t).delay.trans hdelay) rfl h
  exact hdelay

/-- Interpreting a block does not change its timeout value. -/
theorem timeout_conduct (h : conduct H p block deps host mem = .ok (host', mem')) :
    mem'.state.timeout = mem.state.timeout := by
  obtain ⟨last, out, htimeout, rfl⟩ := mem_conduct (fun last => last.state.timeout = mem.state.timeout)
    (fun _ _ _ _ htimeout hreply => (processMessage_effect hreply).timeout.trans htimeout)
    (fun _ t htimeout => (expire_effect block.node t).timeout.trans htimeout) rfl h
  exact htimeout

/-- Interpreting a block writes to its own step and to what its state refers to. -/
theorem owned_conduct {E : Nat → Prop} (hclock : E mem.heap.clock) (howns : mem.state.Owns E)
    (h : conduct H p block deps host mem = .ok (host', mem')) :
    mem'.state.Owns E ∧ mem.heap.SameOutside E mem'.heap ∧ mem'.heap.clock = mem.heap.clock := by
  have hkeeps : ∀ {key : NodeRound} {fs : List Filing} {last next : Memory},
      last.state.Owns E ∧ mem.heap.SameOutside E last.heap ∧ last.heap.clock = mem.heap.clock →
      Memory.Effect key fs last next →
      next.state.Owns E ∧ mem.heap.SameOutside E next.heap ∧ next.heap.clock = mem.heap.clock := by
    intro key fs last next hlast heffect
    obtain ⟨howns', hsame, hclock'⟩ := hlast
    obtain ⟨howns'', hsame'⟩ := heffect.owned E (hclock' ▸ hclock) howns'
    exact ⟨howns'', hsame.trans hsame', heffect.clock.trans hclock'⟩
  obtain ⟨last, out, hlast, rfl⟩ := mem_conduct (fun last => last.state.Owns E ∧
      mem.heap.SameOutside E last.heap ∧ last.heap.clock = mem.heap.clock)
    (fun _ _ _ _ hlast hreply => hkeeps hlast (processMessage_effect hreply))
    (fun _ t hlast => hkeeps hlast (expire_effect block.node t)) ⟨howns, .refl E _, rfl⟩ h
  exact ⟨⟨hlast.1.votes, hlast.1.timeouts⟩, hlast.2⟩

/-- The place of a kind of message in the longest cascade of answers. -/
def Message.stage : Message → Nat
  | .viewChange _ => 0
  | .newView _ => 1
  | .prePrepare _ => 2
  | .prepare _ => 3
  | .commit _ => 4

/-- An answer is of a later kind than its message. -/
theorem stage_lt_of_transition {i : Instance} {sender receiver : Nat} {o : Outcome}
    (h : i.Transition p sender receiver msg o) (hresp : o.resp = some resp) :
    msg.stage < resp.stage := by
  cases h <;> cases hresp <;> simp [Message.stage]

theorem stage_lt_of_answer (h : answer H p call session msg = .ok (session', some resp)) :
    msg.stage < resp.stage := by
  rcases answer_eq_ok h with ⟨-, -, hnone⟩ | ⟨-, reply, -, hreply, -, -, hresp⟩
  · cases hnone
  · exact stage_lt_of_transition (transition_of_processMessage hreply) hresp.symm

/-- The answers to messages from some stage on are of later stages. -/
theorem stage_lt_of_pass {stage : Nat} (hmsgs : ∀ msg ∈ msgs, stage ≤ msg.stage)
    {out : List Message} (h : pass H p call msgs session = .ok (session', out)) :
    ∀ resp ∈ out, stage < resp.stage := by
  induction msgs generalizing session session' out with
  | nil =>
    intro resp hresp
    cases h
    cases hresp
  | cons msg msgs ih =>
    intro resp hresp
    obtain ⟨⟨mid, first⟩, hanswer, h⟩ := bind_eq_ok.mp h
    obtain ⟨⟨last, rest⟩, hpass, h⟩ := bind_eq_ok.mp h
    cases h
    rcases mem_append.mp hresp with hfirst | hrest
    · rw [Option.mem_toList] at hfirst
      obtain rfl : first = some resp := hfirst
      have := hmsgs msg mem_cons_self
      have := stage_lt_of_answer hanswer
      omega
    · exact ih (fun m hm => hmsgs m (mem_cons_of_mem _ hm)) hpass resp hrest

/-- What an invariant about the messages still to be processed has to keep: the
next message goes and its answer joins the queue. -/
def Drains (H : Host σ) (p : Params) (call : Call) (inv : Session σ → List Message → Prop)
    (fail : Halt σ → Prop) : Prop :=
  ∀ session msg queue, inv session (msg :: queue) →
    Ensures (answer H p call session msg) (fun r => inv r.1 (queue ++ r.2.toList)) fail

theorem drains_pass (hdrains : Drains H p call inv fail) {queue : List Message}
    (hinv : inv session (msgs ++ queue)) :
    Ensures (pass H p call msgs session) (fun r => inv r.1 (queue ++ r.2)) fail := by
  induction msgs generalizing session queue with
  | nil =>
    change inv session (queue ++ [])
    rwa [append_nil]
  | cons msg msgs ih =>
    refine (hdrains session msg (msgs ++ queue) hinv).bind ?_
    rintro ⟨session', resp⟩ hinv'
    rw [append_assoc] at hinv'
    refine (ih hinv').bind ?_
    rintro ⟨session'', out⟩ hinv''
    change inv session'' (queue ++ (resp.toList ++ out))
    rwa [← append_assoc]

theorem drains_answers (hdrains : Drains H p call inv fail) {depth : Nat} {out : List Message}
    (hstage : ∀ msg ∈ out, 5 - depth ≤ msg.stage) (hinv : inv session out) :
    Ensures (answers H p call depth out session) (fun r => inv r.1 []) fail := by
  induction depth generalizing out session with
  | zero =>
    cases out with
    | nil => exact hinv
    | cons msg out =>
      -- there is no kind of message past the last stage
      have hlarge := hstage msg mem_cons_self
      cases msg <;> simp [Message.stage] at hlarge
  | succ depth ih =>
    rw [← append_nil out] at hinv
    refine ((drains_pass hdrains hinv).and_of_ok fun r hr => stage_lt_of_pass hstage hr).bind ?_
    rintro ⟨session', next⟩ ⟨hinv', hlater⟩
    refine (ih (fun msg hmsg => ?_) hinv').bind fun r hr => hr
    have := hlater msg hmsg
    omega

/-- The queue is empty when `processMessages` returns. -/
theorem drains_processMessages (hdrains : Drains H p call inv fail) (hinv : inv session msgs) :
    Ensures (processMessages H p call msgs session) (fun r => inv r.1 []) fail := by
  rw [← append_nil msgs] at hinv
  refine ((drains_pass hdrains hinv).and_of_ok
    fun r hr => stage_lt_of_pass (fun msg _ => Nat.zero_le msg.stage) hr).bind ?_
  rintro ⟨session', out⟩ ⟨hinv', hlater⟩
  exact drains_answers hdrains hlater hinv'

end Rules

end Blockmania
