/-
# The order in which websocket clients see transactions

Each published transaction waits for the mutex of the service in a goroutine of its own,
and nothing decides which of the waiting goroutines is the next one to get it. If they get
it in the order in which they were started, then what a client receives is a contiguous
part of what was published, which starts no later than with the first transaction that was
published after the client was added.
-/

import Blockmania.Rest.Websocket

namespace Blockmania.Rest

open Math List

/-- The transaction that was taken from the channel and not written yet. -/
def Loop.hand : Loop → List Nat
  | writing tx => [tx]
  | _ => []

/-- The client receives a front part of the transactions `first, …, first + n - 1`, and all
the others are on their way while it is in its loop. -/
structure Channel.Streams (ch : Channel) (first n : Nat) : Prop where
  front : ch.received <+: range' first n
  whole : ch.loop.live = true → ch.received ++ ch.loop.hand ++ ch.queue = range' first n

variable {ch : Channel} {first n : Nat}

/-- The channel of a client that was just added. -/
theorem Channel.Sound.streams (h : ch.Sound) (hadding : ch.loop = .adding) (first since : Nat) :
    Channel.Streams { ch with loop := .waiting, since } first 0 := by
  obtain ⟨hqueue, hreceived⟩ := h.fresh hadding
  refine ⟨?_, fun _ => ?_⟩
  · change ch.received <+: _
    rw [hreceived]
    exact nil_prefix
  · change ch.received ++ [] ++ ch.queue = _
    rw [hqueue, hreceived]
    rfl

/-- A turn moves transactions on, or ends the stream. -/
theorem Channel.Streams.turn (h : ch.Streams first n) (done : Bool) (turn : Turn) :
    (ch.turn done turn).Streams first n ∧
      (ch.turn done turn).since = ch.since ∧
      ((ch.turn done turn).loop.live = true → ch.loop.live = true) := by
  rcases Channel.turn_cases done ch turn with ⟨tx, queue, hloop, hqueue, heq⟩ |
    ⟨tx, hloop, heq⟩ | ⟨hlive, heq⟩ | heq
  · have hlive : ch.loop.live = true := by
      rw [hloop]
      rfl
    have hwhole := h.whole hlive
    rw [hloop, hqueue] at hwhole
    rw [heq]
    refine ⟨⟨h.front, fun _ => ?_⟩, rfl, fun _ => hlive⟩
    rw [← hwhole]
    simp [Loop.hand]
  · have hlive : ch.loop.live = true := by
      rw [hloop]
      rfl
    have hwhole := h.whole hlive
    rw [hloop] at hwhole
    rw [heq]
    refine ⟨⟨?_, fun _ => ?_⟩, rfl, fun _ => hlive⟩
    · rw [← hwhole]
      exact prefix_append _ _
    · rw [← hwhole]
      simp [Loop.hand]
  · rw [heq]
    exact ⟨⟨h.front, nofun⟩, rfl, fun _ => hlive⟩
  · rw [heq]
    exact ⟨h, rfl, id⟩

/-- A transaction is put into the channel. -/
theorem Channel.Streams.send {tx : Nat} (h : ch.Streams first n) (hnext : first + n = tx) :
    Channel.Streams { ch with queue := ch.queue ++ [tx] } first (n + 1) := by
  rw [← hnext]
  refine ⟨?_, fun hlive => ?_⟩
  · rw [range'_1_concat]
    exact h.front.trans (prefix_append _ _)
  · rw [range'_1_concat, ← h.whole hlive, ← append_assoc]

/-- What a client has received is contiguous. -/
theorem Channel.Streams.received_eq (h : ch.Streams first n) :
    ∃ m ≤ n, ch.received = range' first m := by
  obtain ⟨rest, hrest⟩ := h.front
  obtain ⟨m, hm, hreceived, -⟩ := range'_eq_append_iff.mp hrest.symm
  exact ⟨m, hm, hreceived⟩

namespace Service

variable {τ : Type}

/-- The goroutines of `Callback` get the mutex of the service in the order in which they
were started. -/
def inOrder (s : Service τ) : Act τ → Bool
  | .take tx _ => s.pending.head? = some tx
  | _ => true

/-- The `Callback` at work has still to visit the channel. -/
def awaits (s : Service τ) (c : Nat) : Prop := ∃ r, s.running = some r ∧ c ∈ r.left.map Prod.snd

/-- The channel has seen all transactions from some `first` on, which is no later one than
the first to be published after the channel was added. As long as the service knows the
channel, only the transaction that the `Callback` at work has not brought may be missing. -/
def Keeps (s : Service τ) (t c : Nat) (ch : Channel) : Prop :=
  ∃ first n, first ≤ ch.since ∧ first + n ≤ t ∧ ch.Streams first n ∧
    (ch.loop.live = true → ∀ k : Nat, s.chans[k]? = some c →
      (s.awaits c → first + n + 1 = t) ∧ (¬ s.awaits c → first + n = t))

/-- `t` goroutines of `Callback` got the mutex of the service, in order. -/
structure Paced (s : Service τ) (t : Nat) : Prop where
  le : t ≤ s.published.length
  pending : s.pending = range' t (s.published.length - t)
  current : ∀ r, s.running = some r → r.tx + 1 = t
  keeps : ∀ (c : Nat) ch, s.channels[c]? = some ch → ch.loop ≠ .adding → s.Keeps t c ch

variable {c t tx k : Nat} {ch : Channel} {s : Service τ} {doneConn : List Nat}
  {left : List (Nat × Nat)}

/-- The service changes in ways that the channel does not notice. -/
theorem Keeps.congr {s' : Service τ} (h : s.Keeps t c ch)
    (hchans : ∀ k : Nat, s'.chans[k]? = some c → s.chans[k]? = some c)
    (hawaits : s'.awaits c ↔ s.awaits c) : s'.Keeps t c ch := by
  obtain ⟨first, n, hfirst, hn, hstreams, hlive⟩ := h
  refine ⟨first, n, hfirst, hn, hstreams, fun hloop k hk => ?_⟩
  rw [hawaits]
  exact hlive hloop k (hchans k hk)

/-- A channel changes, and its stream goes on. -/
theorem Paced.setChannel (h : s.Paced t) {ch' : Channel}
    (hch' : ch'.loop ≠ .adding → s.Keeps t c ch') : (s.setChannel c ch').Paced t := { h with
  keeps := fun c' ch hch hloop => by
    rw [lookup_setChannel] at hch
    split at hch
    · rename_i heq
      subst heq
      cases hch
      exact (hch' hloop).congr (fun _ hk => hk) Iff.rfl
    · exact (h.keeps c' ch hch hloop).congr (fun _ hk => hk) Iff.rfl }

theorem awaits_of_running {r : Running} (hrunning : s.running = some r) (c : Nat) :
    s.awaits c ↔ c ∈ r.left.map Prod.snd := by
  constructor
  · rintro ⟨r', hr', hmem⟩
    rw [hrunning] at hr'
    cases hr'
    exact hmem
  · exact fun hmem => ⟨r, hrunning, hmem⟩

theorem not_awaits_of_idle (hrunning : s.running = none) (c : Nat) :
    ¬ s.awaits c := by
  rintro ⟨r, hr, -⟩
  rw [hrunning] at hr
  cases hr

/-- A `Callback` gets the mutex of the service. -/
theorem Paced.take (h : s.Paced t) {order : List (Nat × Nat)} (hidle : s.running = none)
    (hperm : order.Perm s.chans.toList) (hhead : s.pending.head? = some tx) :
    Paced { s with running := some ⟨tx, order, false, []⟩, pending := s.pending.erase tx }
      (t + 1) := by
  obtain ⟨rest, hrest⟩ := List.head?_eq_some_iff.mp hhead
  have hcount := h.pending
  rw [hrest] at hcount
  have hroom : ∃ m, s.published.length - t = m + 1 := by
    cases hm : s.published.length - t with
    | zero =>
      rw [hm] at hcount
      cases hcount
    | succ m => exact ⟨m, rfl⟩
  obtain ⟨m, hm⟩ := hroom
  rw [hm, range'_succ, List.cons.injEq] at hcount
  obtain ⟨rfl, hrest'⟩ := hcount
  refine ⟨by dsimp only; omega, ?_, ?_, fun c ch hch hloop => ?_⟩
  · dsimp only
    rw [hrest, erase_cons_head, hrest']
    congr 1
    omega
  · rintro r ⟨⟩
    rfl
  · obtain ⟨first, n, hfirst, hn, hstreams, hlive⟩ := h.keeps c ch hch hloop
    refine ⟨first, n, hfirst, hn.trans (Nat.le_succ _), hstreams, fun hloop k hk => ?_⟩
    have hall := (hlive hloop k hk).2 (not_awaits_of_idle hidle c)
    refine ⟨fun _ => by rw [hall], fun hnot => absurd ⟨_, rfl, ?_⟩ hnot⟩
    -- the order lists every channel of the service
    have hmem : (k, c) ∈ order :=
      hperm.mem_iff.mpr (Std.ExtTreeMap.mem_toList_iff_getElem?_eq_some.mpr hk)
    exact mem_map_of_mem hmem

/-- The `Callback` at work finds the mark in a channel and moves on. -/
theorem Paced.skip (hs : s.Sound) (h : s.Paced t)
    (hrunning : s.running = some ⟨tx, (k, c) :: left, true, doneConn⟩)
    (hch : s.channels[c]? = some ch) (hclose : ch.close = true) :
    Paced { s with running := some ⟨tx, left, false, doneConn ++ [k]⟩ } t := by
  have hcurrent : tx + 1 = t := h.current _ hrunning
  refine ⟨h.le, h.pending, ?_, fun c' ch' hch' hloop => ?_⟩
  · rintro r ⟨⟩
    exact hcurrent
  · have hkeeps := h.keeps c' ch' hch' hloop
    by_cases heq : c' = c
    · -- the client of this channel has returned
      subst heq
      dsimp only at hch'
      rw [hch] at hch'
      cases hch'
      obtain ⟨first, n, hfirst, hn, hstreams, -⟩ := hkeeps
      refine ⟨first, n, hfirst, hn, hstreams, fun hlive => ?_⟩
      rw [(hs.channel c' ch hch).mark.mp hclose] at hlive
      cases hlive
    · refine hkeeps.congr (fun _ hk => hk) ?_
      rw [awaits_of_running hrunning, awaits_of_running rfl, map_cons, mem_cons]
      exact ⟨.inr, fun hmem => hmem.resolve_left heq⟩

/-- The `Callback` at work brings its transaction to a channel. -/
theorem Paced.send (hs : s.Sound) (h : s.Paced t)
    (hrunning : s.running = some ⟨tx, (k, c) :: left, true, doneConn⟩)
    (hch : s.channels[c]? = some ch) :
    Paced { s.setChannel c { ch with queue := ch.queue ++ [tx] } with
      running := some ⟨tx, left, false, doneConn⟩ } t := by
  obtain ⟨hnodup, hlisted, -⟩ := hs.running _ hrunning
  have hlist := hlisted (k, c) mem_cons_self
  rw [map_cons, nodup_cons] at hnodup
  have hcurrent : tx + 1 = t := h.current _ hrunning
  refine ⟨h.le, h.pending, ?_, fun c' ch' hch' hloop => ?_⟩
  · rintro r ⟨⟩
    exact hcurrent
  · change (s.setChannel c _).channels[c']? = _ at hch'
    rw [lookup_setChannel] at hch'
    split at hch'
    · rename_i heq
      subst heq
      cases hch'
      obtain ⟨first, n, hfirst, hn, hstreams, hlive⟩ := h.keeps c ch hch hloop
      by_cases hloop' : ch.loop.live = true
      · have hbehind := (hlive hloop' k hlist).1
          ((awaits_of_running hrunning c).mpr mem_cons_self)
        refine ⟨first, n + 1, hfirst, by omega, hstreams.send (by omega), fun _ _ _ => ?_⟩
        refine ⟨fun hawaits => absurd ((awaits_of_running rfl c).mp hawaits) hnodup.1, fun _ => ?_⟩
        omega
      · exact ⟨first, n, hfirst, hn, ⟨hstreams.front, fun hyes => absurd hyes hloop'⟩,
          fun hyes => absurd hyes hloop'⟩
    · rename_i hne
      refine (h.keeps c' ch' hch' hloop).congr (fun _ hk => hk) ?_
      rw [awaits_of_running hrunning, awaits_of_running rfl, map_cons, mem_cons]
      exact ⟨.inr, fun hmem => hmem.resolve_left (Ne.symm hne)⟩

/-- A client is added when no `Callback` is at work. -/
theorem Paced.addChan (hs : s.Sound) (h : s.Paced t) {chan : Nat} (cltID : Nat)
    (hch : s.channels[chan]? = some ch) (hidle : s.running = none) (hadding : ch.loop = .adding) :
    Paced { s.setChannel chan { ch with loop := .waiting, since := s.published.length } with
      chans := s.chans.insert cltID chan } t := by
  refine ⟨h.le, h.pending, h.current, fun c ch' hch' hloop => ?_⟩
  change (s.setChannel chan _).channels[c]? = _ at hch'
  rw [lookup_setChannel] at hch'
  split at hch'
  · cases hch'
    refine ⟨t, 0, h.le, le_rfl, (hs.channel chan ch hch).streams hadding t _, fun _ _ _ => ?_⟩
    refine ⟨fun hawaits => absurd hawaits ?_, fun _ => rfl⟩
    exact not_awaits_of_idle hidle c
  · rename_i hne
    refine (h.keeps c ch' hch' hloop).congr (fun k hk => ?_) Iff.rfl
    dsimp only at hk
    rw [FiniteMap.lookup_insert] at hk
    split at hk
    · cases hk
      exact absurd rfl hne
    · exact hk

theorem Paced.step {s : Service τ} (hs : s.Sound) {t : Nat} (h : s.Paced t) {act : Act τ}
    (horder : s.inOrder act = true) : ∃ t', (s.step act).Paced t' := by
  cases act with
  | publish x =>
    refine ⟨t, ?_, ?_, h.current, h.keeps⟩
    · have hle := h.le
      simp only [Service.step, length_append, length_singleton]
      omega
    · have hle := h.le
      simp only [Service.step, length_append, length_singleton]
      rw [h.pending, Nat.sub_add_comm hle, range'_1_concat, Nat.add_sub_cancel' hle]
  | take tx order =>
    rw [Service.step]
    split
    · rename_i hguard
      exact ⟨t + 1, h.take hguard.1 hguard.2.2 (of_decide_eq_true horder)⟩
    · exact ⟨t, h⟩
  | lock =>
    rw [Service.step]
    split
    · rename_i tx next left doneConn hrunning
      have hcurrent : tx + 1 = t := h.current _ hrunning
      refine ⟨t, h.le, h.pending, ?_, fun c ch hch hloop => ?_⟩
      · rintro r ⟨⟩
        exact hcurrent
      · refine (h.keeps c ch hch hloop).congr (fun _ hk => hk) ?_
        rw [awaits_of_running hrunning, awaits_of_running rfl]
    · exact ⟨t, h⟩
  | send =>
    rw [Service.step]
    split
    · rename_i tx k c left doneConn hrunning
      split
      · rename_i ch hch
        split
        · rename_i hclose
          exact ⟨t, h.skip hs hrunning hch hclose⟩
        · split
          · exact ⟨t, h.send hs hrunning hch⟩
          · exact ⟨t, h⟩
      · exact ⟨t, h⟩
    · exact ⟨t, h⟩
  | finish =>
    rw [Service.step]
    split
    · rename_i tx doneConn hrunning
      refine ⟨t, h.le, h.pending, by simp, fun c ch hch hloop => ?_⟩
      refine (h.keeps c ch hch hloop).congr (fun k hk => ?_) ?_
      · dsimp only at hk
        rw [FiniteMap.lookup_eraseAll] at hk
        split at hk
        · cases hk
        · exact hk
      · refine iff_of_false (not_awaits_of_idle rfl c) fun hawaits => ?_
        exact absurd ((awaits_of_running hrunning c).mp hawaits) not_mem_nil
    · exact ⟨t, h⟩
  | connect chan =>
    rw [Service.step]
    split
    · exact ⟨t, h⟩
    · exact ⟨t, h.setChannel fun hloop => absurd rfl hloop⟩
  | addChan cltID chan =>
    rw [Service.step]
    split
    · rename_i ch hch
      split
      · rename_i hguard
        exact ⟨t, h.addChan hs cltID hch hguard.1 hguard.2⟩
      · exact ⟨t, h⟩
    · exact ⟨t, h⟩
  | turn chan turn =>
    rw [Service.step]
    split
    · rename_i ch hch
      refine ⟨t, h.setChannel fun hloop => ?_⟩
      have hadded : ch.loop ≠ .adding := by
        intro hadding
        refine hloop ?_
        cases turn <;> simp [Channel.turn, hadding]
      obtain ⟨first, n, hfirst, hn, hstreams, hlive⟩ := h.keeps chan ch hch hadded
      obtain ⟨hstreams', hsince, hlive'⟩ := hstreams.turn s.done turn
      exact ⟨first, n, hsince ▸ hfirst, hn, hstreams', fun hyes => hlive (hlive' hyes)⟩
    · exact ⟨t, h⟩
  | close chan =>
    rw [Service.step]
    split
    · rename_i ch hch
      split
      · rename_i hguard
        have hadded : ch.loop ≠ .adding := by
          simp [hguard.1]
        obtain ⟨first, n, hfirst, hn, hstreams, -⟩ := h.keeps chan ch hch hadded
        refine ⟨t, h.setChannel fun _ => ⟨first, n, hfirst, hn, ⟨hstreams.front, ?_⟩, ?_⟩⟩
        · simp [Loop.live]
        · simp [Loop.live]
      · exact ⟨t, h⟩
    · exact ⟨t, h⟩
  | cancel => exact ⟨t, h.le, h.pending, h.current, h.keeps⟩

/-- In a run whose goroutines get the mutex in order, every state is sound and paced. -/
theorem paced_of_inOrder {acts : List (Act τ)}
    (horder : (start : Service τ).meets inOrder acts = true) :
    (start.run acts : Service τ).Sound ∧ ∃ t, (start.run acts : Service τ).Paced t := by
  have hstart : (start : Service τ).Paced 0 :=
    ⟨le_rfl, rfl, nofun, fun c ch hch => by simp [start] at hch⟩
  have hstep : ∀ (s : Service τ) (act : Act τ), (s.Sound ∧ ∃ t, s.Paced t) →
      s.inOrder act = true → (s.step act).Sound ∧ ∃ t, (s.step act).Paced t := by
    rintro s act ⟨hs, t, ht⟩ hact
    exact ⟨hs.step act, ht.step hs hact⟩
  exact invariant_of_meets hstep ⟨sound_start, 0, hstart⟩ horder

/-- Clients see the order of publication, in a run in which the goroutines of `Callback`
get the mutex of the service in the order in which they were started. What a client has
received is contiguous, starts no later than with the first transaction published after
the client was added, and nothing of it is lost: once every `Callback` is done, what a
client in its loop has not received is in its hand or in its channel. -/
theorem received_in_order (acts : List (Act τ))
    (horder : (start : Service τ).meets inOrder acts = true) (c : Nat) (ch : Channel)
    (hch : ((start : Service τ).run acts).channels[c]? = some ch) :
    ∃ first n, first ≤ ch.since ∧ first + n ≤ ((start : Service τ).run acts).published.length ∧
      ch.received = range' first n ∧
      (ch.loop.live = true → (∃ k : Nat, ((start : Service τ).run acts).chans[k]? = some c) →
        ((start : Service τ).run acts).running = none →
        ((start : Service τ).run acts).pending = [] →
        ch.received ++ ch.loop.hand ++ ch.queue =
          range' first (((start : Service τ).run acts).published.length - first)) := by
  obtain ⟨hs, t, ht⟩ := paced_of_inOrder horder
  generalize (start : Service τ).run acts = s at hs ht hch ⊢
  by_cases hadding : ch.loop = .adding
  · refine ⟨0, 0, Nat.zero_le _, Nat.zero_le _, ((hs.channel c ch hch).fresh hadding).2, ?_⟩
    rw [hadding]
    exact nofun
  · obtain ⟨first, n, hfirst, hn, hstreams, hlive⟩ := ht.keeps c ch hch hadding
    obtain ⟨m, hm, hreceived⟩ := hstreams.received_eq
    have hle := ht.le
    refine ⟨first, m, hfirst, by omega, hreceived, ?_⟩
    rintro hloop ⟨k, hk⟩ hidle hpending
    have hall : first + n = t := (hlive hloop k hk).2 (not_awaits_of_idle hidle c)
    have hdone : s.published.length - t = 0 := by
      rw [ht.pending] at hpending
      simpa using hpending
    rw [hstreams.whole hloop]
    congr 1
    omega

/-- A `Callback` brings its transaction to the only client, which writes it. -/
def bringActs (tx : Nat) : List (Act Unit) :=
  [.take tx [(1, 7)], .lock, .send, .finish, .turn 7 .receive, .turn 7 .wrote]

/-- A client is added after the first of three transactions was published. -/
def threeActs : List (Act Unit) :=
  [.publish (), .connect 7, .addChan 1 7, .publish (), .publish ()] ++ bringActs 0 ++ bringActs 1 ++
    [.take 2 [(1, 7)], .lock, .send, .finish]

theorem received_in_order_three :
    (start : Service Unit).meets inOrder threeActs = true ∧
      ((start : Service Unit).run threeActs).channels[7]? =
        some ⟨[2], false, .waiting, [0, 1], 1⟩ ∧
      ∃ first n, first ≤ 1 ∧ first + n ≤ ((start : Service Unit).run threeActs).published.length ∧
        [0, 1] = range' first n := by
  have horder : (start : Service Unit).meets inOrder threeActs = true := by decide +kernel
  have hch : ((start : Service Unit).run threeActs).channels[7]? =
      some ⟨[2], false, .waiting, [0, 1], 1⟩ := by
    decide +kernel
  obtain ⟨first, n, hfirst, hn, hreceived, -⟩ := received_in_order threeActs horder 7 _ hch
  exact ⟨horder, hch, first, n, hfirst, hn, hreceived⟩

/-- Two transactions are published to a client, and the second goroutine gets the mutex
before the first: the client receives them in the other order. -/
theorem received_swapped :
    ((start : Service Unit).run ([.connect 7, .addChan 1 7, .publish (), .publish ()] ++
      bringActs 1 ++ bringActs 0)).channels[7]? = some ⟨[], false, .waiting, [1, 0], 0⟩ ∧
      ¬ ∃ first n, [1, 0] = range' first n := by
  refine ⟨by decide +kernel, ?_⟩
  rintro ⟨first, n, heq⟩
  obtain rfl : 2 = n := by simpa using congrArg List.length heq
  cases heq

end Service

end Blockmania.Rest
