/-
# Websocket clients

Every published transaction is handed to a goroutine of its own, which takes the mutex of
the service and puts the transaction into the channel of each client, one after another,
under the mutex of that channel. A client is served by a goroutine that takes transactions
from its channel and writes them to a websocket. If a write fails, it takes the mutex of
the channel to leave a mark there, by which the channel is removed later.

A run is any interleaving of these goroutines, where what happens between two points at
which a goroutine may have to wait happens at once. A channel holds a hundred
transactions. That it is closed in the end has no effect, since its goroutine has returned
before.
-/

import Blockmania.Interpreter.Loops

namespace Blockmania.Rest

open Math List FiniteMap

/-- Where the goroutine of a client stands. Transactions go by their number. -/
inductive Loop
  /-- It waits for the mutex of the service, to add its channel. -/
  | adding
  | waiting
  | writing (tx : Nat)
  /-- It waits for the mutex of its channel, to leave its mark. -/
  | closing
  | returned
  deriving DecidableEq, Repr

/-- The loop was not left. -/
def Loop.live : Loop → Bool
  | waiting => true
  | writing _ => true
  | _ => false

/-- A `chanCloser` and what its client has received. `since` is the number of transactions
that were published before it was added. -/
structure Channel where
  queue : List Nat
  close : Bool
  loop : Loop
  received : List Nat
  since : Nat
  deriving DecidableEq, Repr

def Channel.new : Channel := ⟨[], false, .adding, [], 0⟩

/-- `make(chan payload, 100)`. -/
def capacity : Nat := 100

/-- A goroutine of `Callback` that holds the mutex of the service, with the keys and the
channels it has still to visit. `locked` says that it holds the mutex of the first one. -/
structure Running where
  tx : Nat
  left : List (Nat × Nat)
  locked : Bool
  doneConn : List Nat
  deriving DecidableEq, Repr

/-- The state of the service. `pending` lists the goroutines of `Callback` that wait for the
mutex of the service, and `done` says that the context is done. -/
structure Service (τ : Type) where
  published : List τ
  pending : List Nat
  running : Option Running
  chans : FiniteMap Nat Nat
  channels : FiniteMap Nat Channel
  done : Bool

/-- What a client does in its loop. -/
inductive Turn
  /-- It takes a transaction from its channel. -/
  | receive
  /-- The transaction was written. -/
  | wrote
  /-- It could not be written. -/
  | fail
  /-- The context is done. -/
  | quit
  deriving DecidableEq, Repr

/-- A piece of work. -/
inductive Act (τ : Type)
  /-- `Publish` calls `Callback`. -/
  | publish (x : τ)
  /-- A goroutine of `Callback` takes the mutex of the service and goes through the channels
  in the given order. -/
  | take (tx : Nat) (order : List (Nat × Nat))
  /-- It takes the mutex of the next channel. -/
  | lock
  /-- It sends its transaction, or finds the mark, and releases the mutex of the channel. -/
  | send
  /-- It removes channels and releases the mutex of the service. -/
  | finish
  /-- `Websocket` makes a channel. -/
  | connect (chan : Nat)
  | addChan (cltID chan : Nat)
  | turn (chan : Nat) (turn : Turn)
  /-- `chanCloser.Close`. -/
  | close (chan : Nat)
  /-- The context is done. -/
  | cancel

/-- One turn of the loop. -/
def Channel.turn (done : Bool) (ch : Channel) : Turn → Channel
  | .receive =>
    match ch.loop, ch.queue with
    | .waiting, tx :: queue => { ch with loop := .writing tx, queue }
    | _, _ => ch
  | .wrote =>
    match ch.loop with
    | .writing tx => { ch with loop := .waiting, received := ch.received ++ [tx] }
    | _ => ch
  | .fail =>
    match ch.loop with
    | .writing _ => { ch with loop := .closing }
    | _ => ch
  | .quit => if done ∧ ch.loop = .waiting then { ch with loop := .closing } else ch

namespace Service

variable {τ : Type}

def start : Service τ := ⟨[], [], none, ∅, ∅, false⟩

/-- `Callback` holds the mutex of the channel. -/
def locks (s : Service τ) (chan : Nat) : Bool :=
  match s.running with
  | some ⟨_, (_, c) :: _, true, _⟩ => c = chan
  | _ => false

def setChannel (s : Service τ) (chan : Nat) (ch : Channel) : Service τ :=
  { s with channels := s.channels.insert chan ch }

/-- One piece of work. What cannot be done now changes nothing. -/
def step (s : Service τ) : Act τ → Service τ
  | .publish x => { s with
      published := s.published ++ [x]
      pending := s.pending ++ [s.published.length] }
  | .take tx order =>
    if s.running = none ∧ tx ∈ s.pending ∧ order.Perm s.chans.toList then
      { s with running := some ⟨tx, order, false, []⟩, pending := s.pending.erase tx }
    else s
  | .lock =>
    match s.running with
    | some ⟨tx, next :: left, false, doneConn⟩ =>
      { s with running := some ⟨tx, next :: left, true, doneConn⟩ }
    | _ => s
  | .send =>
    match s.running with
    | some ⟨tx, (k, c) :: left, true, doneConn⟩ =>
      match s.channels[c]? with
      | some ch =>
        if ch.close then { s with running := some ⟨tx, left, false, doneConn ++ [k]⟩ }
        else if ch.queue.length < capacity then
          { s.setChannel c { ch with queue := ch.queue ++ [tx] } with
            running := some ⟨tx, left, false, doneConn⟩ }
        else s
      | none => s
    | _ => s
  | .finish =>
    match s.running with
    | some ⟨_, [], false, doneConn⟩ =>
      { s with running := none, chans := doneConn.foldl (fun m k => m.erase k) s.chans }
    | _ => s
  | .connect chan => if s.channels[chan]?.isSome then s else s.setChannel chan .new
  | .addChan cltID chan =>
    match s.channels[chan]? with
    | some ch =>
      if s.running = none ∧ ch.loop = .adding then
        { s.setChannel chan { ch with loop := .waiting, since := s.published.length } with
          chans := s.chans.insert cltID chan }
      else s
    | none => s
  | .turn chan turn =>
    match s.channels[chan]? with
    | some ch => s.setChannel chan (ch.turn s.done turn)
    | none => s
  | .close chan =>
    match s.channels[chan]? with
    | some ch =>
      if ch.loop = .closing ∧ s.locks chan = false then
        s.setChannel chan { ch with close := true, loop := .returned }
      else s
    | none => s
  | .cancel => { s with done := true }

def run (s : Service τ) : List (Act τ) → Service τ := foldl step s

/-- Every step of the run meets the condition. -/
def meets (condition : Service τ → Act τ → Bool) (s : Service τ) : List (Act τ) → Bool
  | [] => true
  | act :: acts => condition s act && (s.step act).meets condition acts

/-- What every step preserves under the condition holds after a run. -/
theorem invariant_of_meets {condition : Service τ → Act τ → Bool} {Inv : Service τ → Prop}
    (hstep : ∀ s act, Inv s → condition s act = true → Inv (s.step act)) {s : Service τ}
    (h : Inv s) {acts : List (Act τ)} (hacts : s.meets condition acts = true) :
    Inv (s.run acts) := by
  induction acts generalizing s with
  | nil => exact h
  | cons act acts ih =>
    rw [meets, Bool.and_eq_true] at hacts
    exact ih (hstep s act h hacts.1) hacts.2

theorem lookup_setChannel (s : Service τ) (chan c : Nat) (ch : Channel) :
    (s.setChannel chan ch).channels[c]? = if chan = c then some ch else s.channels[c]? :=
  lookup_insert _ _ _ _

end Service

/-- The mark is left at the end, and a channel that was not added has seen nothing. -/
structure Channel.Sound (ch : Channel) : Prop where
  mark : ch.close = true ↔ ch.loop = .returned
  fresh : ch.loop = .adding → ch.queue = [] ∧ ch.received = []
  bounded : ch.queue.length ≤ capacity

theorem Channel.sound_new : Channel.new.Sound :=
  ⟨by decide, fun _ => ⟨rfl, rfl⟩, Nat.zero_le _⟩

/-- What a turn of the loop can do. -/
theorem Channel.turn_cases (done : Bool) (ch : Channel) (turn : Turn) :
    (∃ tx queue, ch.loop = .waiting ∧ ch.queue = tx :: queue ∧
      ch.turn done turn = { ch with loop := .writing tx, queue }) ∨
    (∃ tx, ch.loop = .writing tx ∧
      ch.turn done turn = { ch with loop := .waiting, received := ch.received ++ [tx] }) ∨
    (ch.loop.live = true ∧ ch.turn done turn = { ch with loop := .closing }) ∨
    ch.turn done turn = ch := by
  cases turn with
  | receive =>
    rw [Channel.turn]
    split
    · rename_i tx queue hloop hqueue
      exact .inl ⟨tx, queue, hloop, hqueue, rfl⟩
    · exact .inr (.inr (.inr rfl))
  | wrote =>
    rw [Channel.turn]
    split
    · rename_i tx hloop
      exact .inr (.inl ⟨tx, hloop, rfl⟩)
    · exact .inr (.inr (.inr rfl))
  | fail =>
    rw [Channel.turn]
    split
    · rename_i tx hloop
      exact .inr (.inr (.inl ⟨by rw [hloop]; rfl, rfl⟩))
    · exact .inr (.inr (.inr rfl))
  | quit =>
    rw [Channel.turn]
    split
    · rename_i hguard
      exact .inr (.inr (.inl ⟨by rw [hguard.2]; rfl, rfl⟩))
    · exact .inr (.inr (.inr rfl))

variable {ch : Channel}

/-- A channel whose loop runs gets another loop that was neither entered nor ended. -/
theorem Channel.Sound.setLoop {ch' : Channel} (h : ch.Sound) (hlive : ch.loop.live = true)
    (hclose : ch'.close = ch.close) (hadding : ch'.loop ≠ .adding)
    (hreturned : ch'.loop ≠ .returned) (hqueue : ch'.queue.length ≤ ch.queue.length) :
    ch'.Sound where
  mark := by
    refine iff_of_false (fun hmark => ?_) hreturned
    rw [h.mark.mp (hclose ▸ hmark)] at hlive
    cases hlive
  fresh := fun heq => absurd heq hadding
  bounded := hqueue.trans h.bounded

/-- A turn of the loop keeps a channel sound and added. -/
theorem Channel.Sound.turn (h : ch.Sound) (done : Bool) (turn : Turn) :
    (ch.turn done turn).Sound ∧ (ch.loop ≠ .adding → (ch.turn done turn).loop ≠ .adding) := by
  rcases Channel.turn_cases done ch turn with ⟨tx, queue, hloop, hqueue, heq⟩ | ⟨tx, hloop, heq⟩ |
    ⟨hlive, heq⟩ | heq
  · rw [heq]
    refine ⟨h.setLoop (by rw [hloop]; rfl) rfl nofun nofun ?_, fun _ => nofun⟩
    rw [hqueue]
    exact Nat.le_succ _
  · rw [heq]
    exact ⟨h.setLoop (by rw [hloop]; rfl) rfl nofun nofun le_rfl, fun _ => nofun⟩
  · rw [heq]
    exact ⟨h.setLoop hlive rfl nofun nofun le_rfl, fun _ => nofun⟩
  · rw [heq]
    exact ⟨h, id⟩

/-- A `Callback` has to visit channels of the service, each of them once. -/
structure Running.Sound (chans : FiniteMap Nat Nat) (r : Running) : Prop where
  nodup : (r.left.map Prod.snd).Nodup
  listed : ∀ x ∈ r.left, chans[x.1]? = some x.2
  held : r.locked = true → r.left ≠ []

namespace Service

/-- The invariant of all runs. A channel of the service was added and has one key. -/
structure Sound (s : Service τ) : Prop where
  channel : ∀ (c : Nat) ch, s.channels[c]? = some ch → ch.Sound
  known : ∀ (k c : Nat), s.chans[k]? = some c → ∃ ch, s.channels[c]? = some ch ∧ ch.loop ≠ .adding
  injective : ∀ (k k' c : Nat), s.chans[k]? = some c → s.chans[k']? = some c → k = k'
  running : ∀ r, s.running = some r → r.Sound s.chans

theorem sound_start : (start : Service τ).Sound where
  channel := fun c ch h => by simp [start] at h
  known := fun k c h => by simp [start] at h
  injective := fun k k' c h => by simp [start] at h
  running := fun r h => by simp [start] at h

variable {ch : Channel} {s : Service τ}

/-- A channel changes and stays added. -/
theorem Sound.setChannel (h : s.Sound) {c : Nat} {ch' : Channel} (hch : s.channels[c]? = some ch)
    (hsound : ch'.Sound) (hadded : ch.loop ≠ .adding → ch'.loop ≠ .adding) :
    (s.setChannel c ch').Sound := { h with
  channel := fun c' ch'' hch'' => by
    rw [lookup_setChannel] at hch''
    split at hch''
    · cases hch''
      exact hsound
    · exact h.channel c' ch'' hch''
  known := fun k c' hc' => by
    obtain ⟨ch'', hch'', hloop⟩ := h.known k c' hc'
    rw [lookup_setChannel]
    split
    · rename_i heq
      subst heq
      rw [hch] at hch''
      cases hch''
      exact ⟨ch', rfl, hadded hloop⟩
    · exact ⟨ch'', hch'', hloop⟩ }

/-- The goroutine at work changes. -/
theorem Sound.setRunning (h : s.Sound) {running : Option Running}
    (hrunning : ∀ r, running = some r → r.Sound s.chans) : Sound { s with running } :=
  { h with running := hrunning }

/-- A `Callback` that begins has to visit all channels. -/
theorem Sound.sound_of_perm (h : s.Sound) (tx : Nat) {order : List (Nat × Nat)}
    (hperm : order.Perm s.chans.toList) : Running.Sound s.chans ⟨tx, order, false, []⟩ := by
  have hmem : ∀ x, x ∈ s.chans.toList ↔ s.chans[x.1]? = some x.2 := fun x =>
    Std.ExtTreeMap.mem_toList_iff_getElem?_eq_some
  refine ⟨((hperm.map Prod.snd).nodup_iff).mpr
      ((nodup_toList s.chans).map_on fun x hx y hy heq => ?_),
    fun x hx => (hmem x).mp (hperm.mem_iff.mp hx), nofun⟩
  have hx' := (hmem x).mp hx
  have hy' := (hmem y).mp hy
  rw [← heq] at hy'
  exact Prod.ext (h.injective x.1 y.1 x.2 hx' hy') heq

theorem Sound.step {s : Service τ} (h : s.Sound) (act : Act τ) : (s.step act).Sound := by
  cases act with
  | publish x => exact { h with }
  | take tx order =>
    rw [Service.step]
    split
    · rename_i hguard
      refine { h with running := fun r hr => ?_ }
      cases hr
      exact h.sound_of_perm tx hguard.2.2
    · exact h
  | lock =>
    rw [Service.step]
    split
    · rename_i tx next left doneConn hrunning
      refine h.setRunning fun r hr => ?_
      cases hr
      obtain ⟨hnodup, hlisted, -⟩ := h.running _ hrunning
      exact ⟨hnodup, hlisted, fun _ => cons_ne_nil _ _⟩
    · exact h
  | send =>
    rw [Service.step]
    split
    · rename_i tx k c left doneConn hrunning
      obtain ⟨hnodup, hlisted, -⟩ := h.running _ hrunning
      have htail : ∀ doneConn r, some (⟨tx, left, false, doneConn⟩ : Running) = some r →
          r.Sound s.chans := by
        intro doneConn r hr
        cases hr
        exact ⟨(nodup_cons.mp hnodup).2, fun x hx => hlisted x (mem_cons_of_mem _ hx), nofun⟩
      split
      · rename_i ch hch
        split
        · exact h.setRunning (htail _)
        · split
          · rename_i hroom
            have hsound := h.channel c ch hch
            obtain ⟨ch', hch', hloop⟩ := h.known k c (hlisted (k, c) mem_cons_self)
            rw [hch] at hch'
            cases hch'
            have hsent : Sound (s.setChannel c { ch with queue := ch.queue ++ [tx] }) :=
              h.setChannel hch ⟨hsound.mark, fun hadding => absurd hadding hloop,
                length_append.trans_le hroom⟩ id
            exact hsent.setRunning (htail doneConn)
          · exact h
      · exact h
    · exact h
  | finish =>
    rw [Service.step]
    split
    · refine ⟨h.channel, fun k c hc => ?_, fun k k' c hc hc' => ?_, nofun⟩
      · dsimp only at hc
        rw [lookup_eraseAll] at hc
        split at hc
        · cases hc
        · exact h.known k c hc
      · dsimp only at hc hc'
        rw [lookup_eraseAll] at hc hc'
        split at hc
        · cases hc
        · split at hc'
          · cases hc'
          · exact h.injective k k' c hc hc'
    · exact h
  | connect chan =>
    rw [Service.step]
    split
    · exact h
    · rename_i hnew
      refine ⟨fun c ch hch => ?_, fun k c hc => ?_, h.injective, h.running⟩
      · rw [lookup_setChannel] at hch
        split at hch
        · cases hch
          exact Channel.sound_new
        · exact h.channel c ch hch
      · obtain ⟨ch, hch, hloop⟩ := h.known k c hc
        refine ⟨ch, ?_, hloop⟩
        rw [lookup_setChannel, if_neg]
        · exact hch
        · rintro rfl
          exact hnew (by rw [hch]; rfl)
  | addChan cltID chan =>
    rw [Service.step]
    split
    · rename_i ch hch
      split
      · rename_i hguard
        obtain ⟨hidle, hadding⟩ := hguard
        have hsound := h.channel chan ch hch
        have hadded : Sound (s.setChannel chan { ch with
            loop := .waiting
            since := s.published.length }) := by
          refine h.setChannel hch ⟨?_, nofun, hsound.bounded⟩ fun hne => absurd hadding hne
          have hmark := hsound.mark
          rw [hadding] at hmark
          exact hmark.trans (iff_of_false nofun nofun)
        -- the channel has no key yet
        have hnew : ∀ k : Nat, s.chans[k]? ≠ some chan := by
          intro k hk
          obtain ⟨ch', hch', hloop⟩ := h.known k chan hk
          rw [hch] at hch'
          cases hch'
          exact hloop hadding
        refine ⟨hadded.channel, fun k c hc => ?_, fun k k' c hc hc' => ?_, fun r hr => ?_⟩
        · dsimp only at hc
          rw [lookup_insert] at hc
          split at hc
          · cases hc
            refine ⟨_, (lookup_setChannel _ _ _ _).trans (if_pos rfl), ?_⟩
            exact nofun
          · exact hadded.known k c hc
        · dsimp only at hc hc'
          rw [lookup_insert] at hc hc'
          split at hc
          · cases hc
            split at hc'
            · rename_i hk hk'
              exact hk.symm.trans hk'
            · exact absurd hc' (hnew k')
          · split at hc'
            · cases hc'
              exact absurd hc (hnew k)
            · exact h.injective k k' c hc hc'
        · change s.running = some r at hr
          rw [hidle] at hr
          cases hr
      · exact h
    · exact h
  | turn chan turn =>
    rw [Service.step]
    split
    · rename_i ch hch
      obtain ⟨hsound, hadding⟩ := (h.channel chan ch hch).turn s.done turn
      exact h.setChannel hch hsound hadding
    · exact h
  | close chan =>
    rw [Service.step]
    split
    · rename_i ch hch
      split
      · exact h.setChannel hch ⟨iff_of_true rfl rfl, nofun, (h.channel chan ch hch).bounded⟩
          fun _ => nofun
      · exact h
    · exact h
  | cancel => exact { h with }

theorem Sound.run (h : s.Sound) (acts : List (Act τ)) : (s.run acts).Sound := by
  induction acts generalizing s with
  | nil => exact h
  | cons act acts ih => exact ih (h.step act)

/-! ## A service that is stuck -/

end Service

/-- A `Callback` that holds the mutex of the channel finds the mark or finds room, now or
when the client has taken a transaction. -/
def Channel.passable (ch : Channel) : Bool :=
  ch.close || decide (ch.queue.length < capacity) || ch.loop.live

namespace Service

/-- A `Callback` takes the mutex of a full channel only while the client is in its loop or
has left its mark, and while the mutex is taken the client does not leave its loop with the
channel full. -/
def heeds (s : Service τ) : Act τ → Bool
  | .lock =>
    match s.running with
    | some ⟨_, (_, c) :: _, false, _⟩ => s.channels[c]?.all Channel.passable
    | _ => true
  | .turn chan turn => !s.locks chan || s.channels[chan]?.all fun ch => (ch.turn s.done turn).passable
  | _ => true

/-- A `Callback` that holds the mutex of a channel can pass it. -/
def Flowing (s : Service τ) : Prop :=
  ∀ tx k c left doneConn, s.running = some ⟨tx, (k, c) :: left, true, doneConn⟩ →
    ∀ ch, s.channels[c]? = some ch → ch.passable = true

variable {s s' : Service τ} {c k tx : Nat} {ch : Channel} {doneConn : List Nat}
  {left : List (Nat × Nat)}

/-- A channel changes and can still be passed. -/
theorem Flowing.setChannel (h : s.Flowing) {ch' : Channel}
    (hpass : (∀ ch, s.channels[c]? = some ch → ch.passable = true) → ch'.passable = true) :
    (s.setChannel c ch').Flowing := by
  intro tx k c' left doneConn hrunning ch hch
  rw [lookup_setChannel] at hch
  split at hch
  · rename_i heq
    subst heq
    cases hch
    exact hpass (h tx k c left doneConn hrunning)
  · exact h tx k c' left doneConn hrunning ch hch

theorem Flowing.step {s : Service τ} (h : s.Flowing) {act : Act τ} (hheeds : s.heeds act = true) :
    (s.step act).Flowing := by
  cases act with
  | publish x => exact h
  | take tx order =>
    rw [Service.step]
    split
    · rintro _ _ _ _ _ ⟨⟩
    · exact h
  | lock =>
    rw [Service.step]
    split
    · rename_i tx next left doneConn hrunning
      obtain ⟨k, c⟩ := next
      rintro _ _ _ _ _ ⟨⟩ ch hch
      simp only [heeds, hrunning] at hheeds
      rw [hch] at hheeds
      exact hheeds
    · exact h
  | send =>
    rw [Service.step]
    split
    · split
      · split
        · rintro _ _ _ _ _ ⟨⟩
        · split
          · rintro _ _ _ _ _ ⟨⟩
          · exact h
      · exact h
    · exact h
  | finish =>
    rw [Service.step]
    split
    · rintro _ _ _ _ _ ⟨⟩
    · exact h
  | connect chan =>
    rw [Service.step]
    split
    · exact h
    · exact h.setChannel fun _ => rfl
  | addChan cltID chan =>
    rw [Service.step]
    split
    · split
      · rename_i hguard
        intro tx k c left doneConn hrunning
        change s.running = _ at hrunning
        rw [hguard.1] at hrunning
        cases hrunning
      · exact h
    · exact h
  | turn chan turn =>
    rw [Service.step]
    split
    · rename_i ch hch
      intro tx k c left doneConn hrunning ch' hch'
      change s.running = _ at hrunning
      rw [lookup_setChannel] at hch'
      split at hch'
      · rename_i heq
        subst heq
        cases hch'
        have hlocks : s.locks chan = true := by simp only [locks, hrunning, decide_true]
        simpa [heeds, hch, hlocks] using hheeds
      · exact h tx k c left doneConn hrunning ch' hch'
    · exact h
  | close chan =>
    rw [Service.step]
    split
    · split
      · exact h.setChannel fun _ => rfl
      · exact h
    · exact h
  | cancel => exact h

/-- Some run that heeds this ends there. -/
def Leads (s s' : Service τ) : Prop := ∃ acts, s.meets heeds acts = true ∧ s.run acts = s'

theorem Leads.refl (s : Service τ) : s.Leads s := ⟨[], rfl, rfl⟩

theorem Leads.cons {s s' : Service τ} {act : Act τ} (hheeds : s.heeds act = true)
    (h : (s.step act).Leads s') : s.Leads s' := by
  obtain ⟨acts, hacts, hrun⟩ := h
  refine ⟨act :: acts, ?_, hrun⟩
  rw [meets, hheeds, hacts]
  rfl

theorem Leads.trans {s'' : Service τ} (h : s.Leads s') (h' : s'.Leads s'') :
    s.Leads s'' := by
  obtain ⟨acts, hacts, rfl⟩ := h
  induction acts generalizing s with
  | nil => exact h'
  | cons act acts ih =>
    rw [meets, Bool.and_eq_true] at hacts
    exact .cons hacts.1 (ih hacts.2 h')

theorem Leads.sound (h : s.Leads s') (hs : s.Sound) : s'.Sound := by
  obtain ⟨acts, -, rfl⟩ := h
  exact hs.run acts

end Service

end Blockmania.Rest
