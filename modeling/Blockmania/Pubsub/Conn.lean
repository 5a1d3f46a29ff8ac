/-
# Published transactions on a connection

A node publishes transactions to its subscribers on connections of their own. Frames are
the same as between nodes, but a timeout or the end of the stream is no error: `Write`
gives up the rest of its frame, `Read` forgets what it has read of one, and both return as
if nothing had happened. The two ends stay in step as long as this happens between frames
only.
-/

import Blockmania.Network.Frames

namespace Blockmania.Pubsub

open Blockmania.Broadcast Blockmania.Network List

/-- What a write to the connection returns, with the number of bytes that it takes. -/
inductive Departure
  | chunk (n : Nat)
  /-- A timeout or the end of the stream. -/
  | timeout (n : Nat)
  /-- Any other error. -/
  | failure (n : Nat)
  deriving DecidableEq, Repr

/-- How a call of `Write` ends. -/
inductive Ending
  /-- Without an error. -/
  | returned
  | failed
  | unfinished
  deriving DecidableEq, Repr

/-- The loop of `Write`, and what it sends. -/
def send : List Departure → List UInt8 → Ending × List UInt8
  | [], left => (if left = [] then .returned else .unfinished, [])
  | departure :: departures, left =>
    if left = [] then (.returned, [])
    else
      match departure with
      | .chunk n =>
        let (ending, sent) := send departures (left.drop n)
        (ending, left.take n ++ sent)
      | .timeout n => (.returned, left.take n)
      | .failure n => (.failed, left.take n)

def write (payload : List UInt8) (departures : List Departure) : Ending × List UInt8 :=
  send departures (frame payload)

/-- What calls of `Write` have sent, if all of them have returned without an error. -/
def writeAll : List (List UInt8 × List Departure) → Option (List UInt8)
  | [] => some []
  | (payload, departures) :: calls =>
    match write payload departures with
    | (.returned, sent) => (writeAll calls).map (sent ++ ·)
    | _ => none

/-- A timeout strikes only when the connection has taken all that was left. -/
def Patient : List Departure → List UInt8 → Prop
  | [], _ => True
  | departure :: departures, left =>
    left = [] ∨
      match departure with
      | .chunk n => Patient departures (left.drop n)
      | .timeout n => left.length ≤ n
      | .failure _ => True

instance decidablePatient : ∀ (departures : List Departure) (left : List UInt8),
    Decidable (Patient departures left)
  | [], _ => isTrue trivial
  | departure :: departures, left =>
    have : Decidable (match departure with
        | .chunk n => Patient departures (left.drop n)
        | .timeout n => left.length ≤ n
        | .failure _ => True) :=
      match departure with
      | .chunk n => decidablePatient departures (left.drop n)
      | .timeout n => inferInstanceAs (Decidable (left.length ≤ n))
      | .failure _ => isTrue trivial
    inferInstanceAs (Decidable (_ ∨ _))

theorem send_of_patient (departures : List Departure) {left sent : List UInt8}
    (hpatient : Patient departures left) (h : send departures left = (.returned, sent)) :
    sent = left := by
  induction departures generalizing left sent with
  | nil =>
    rw [send] at h
    split at h
    · rename_i hempty
      cases h
      exact hempty.symm
    · cases h
  | cons departure departures ih =>
    rw [send.eq_def] at h
    dsimp only at h
    split at h
    · rename_i hempty
      cases h
      exact hempty.symm
    · rename_i hleft
      have hrest := hpatient.resolve_left hleft
      cases departure with
      | chunk n =>
        obtain ⟨hending, hsent⟩ := Prod.mk.inj h
        have hsend : send departures (left.drop n) = (.returned, (send departures (left.drop n)).2) :=
          Prod.ext hending rfl
        rw [← hsent, ih hrest hsend, take_append_drop]
      | timeout n =>
        cases h
        exact take_of_length_le hrest
      | failure n => cases h

/-- Calls that no timeout has cut short have sent one frame after another. -/
theorem stream_of_writeAll (calls : List (List UInt8 × List Departure)) {stream : List UInt8}
    (hpatient : ∀ call ∈ calls, Patient call.2 (frame call.1)) (h : writeAll calls = some stream) :
    stream = (calls.map Prod.fst).flatMap frame := by
  induction calls generalizing stream with
  | nil =>
    cases h
    rfl
  | cons call calls ih =>
    obtain ⟨payload, departures⟩ := call
    obtain ⟨hfirst, hpatient⟩ := forall_mem_cons.mp hpatient
    rw [writeAll] at h
    split at h
    · rename_i sent hwrite
      obtain ⟨later, hlater, rfl⟩ := Option.map_eq_some_iff.mp h
      rw [send_of_patient departures hfirst hwrite, ih hpatient hlater]
      rfl
    · cases h

/-- `Read` takes any size, and a negative one is out of range. -/
def readPolicy : Policy where
  check size := if 2 ^ 31 ≤ size then .error .indexOutOfRange else .ok none
  lenient := true

/-- One call of `Read` after another. -/
def readAll : Reader → List UInt8 → List Arrival → Except Fault (Reader × List UInt8)
  | r, bytes, [] => .ok (r, bytes)
  | r, bytes, arrival :: arrivals => do
    let (r, bytes) ← r.step readPolicy bytes arrival
    readAll r bytes arrivals

/-- What a read has to meet: a timeout or the end of the stream strikes only when the
call has read no byte of a frame. -/
def Meets (r : Reader) : Arrival → Prop
  | .timeout | .eof => r.phase = .header 4
  | _ => True

instance (r : Reader) (arrival : Arrival) : Decidable (Meets r arrival) :=
  match arrival with
  | .timeout => inferInstanceAs (Decidable (_ = _))
  | .eof => inferInstanceAs (Decidable (_ = _))
  | .chunk _ => isTrue trivial
  | .failure => isTrue trivial

/-- All reads of a run meet it. -/
def MeetsAll : Reader → List UInt8 → List Arrival → Prop
  | _, _, [] => True
  | r, bytes, arrival :: arrivals => Meets r arrival ∧
    match r.step readPolicy bytes arrival with
    | .ok (r, bytes) => MeetsAll r bytes arrivals
    | .error _ => True

instance decidableMeetsAll : ∀ (arrivals : List Arrival) (r : Reader) (bytes : List UInt8),
    Decidable (MeetsAll r bytes arrivals)
  | [], _, _ => isTrue trivial
  | arrival :: arrivals, r, bytes =>
    have : Decidable (match r.step readPolicy bytes arrival with
        | .ok (r, bytes) => MeetsAll r bytes arrivals
        | .error _ => True) :=
      match r.step readPolicy bytes arrival with
      | .ok (r, bytes) => decidableMeetsAll arrivals r bytes
      | .error _ => isTrue trivial
    inferInstanceAs (Decidable (_ ∧ _))

/-- The invariant. The reader is in step with the frames that are to come, or the
connection was closed. -/
def InStep (written : List (List UInt8)) (r : Reader) (bytes : List UInt8) : Prop :=
  (∃ coming, r.Follows bytes coming ∧ written = r.payloads ++ coming) ∨
    (∃ why, r.phase = .closed why) ∧ r.payloads <+: written

variable {bytes : List UInt8} {r : Reader} {written : List (List UInt8)}

theorem InStep.isPrefix (h : InStep written r bytes) : r.payloads <+: written := by
  rcases h with ⟨coming, -, rfl⟩ | ⟨-, hprefix⟩
  · exact prefix_append _ _
  · exact hprefix

/-- A closed connection stays closed. -/
theorem step_of_closed {policy : Policy} {why : Closing} (h : r.phase = .closed why)
    (bytes : List UInt8) (arrival : Arrival) : r.step policy bytes arrival = .ok (r, bytes) := by
  have hstop : ∀ arrival, Except.ok (r.stop policy arrival, bytes) =
      (Except.ok (r, bytes) : Except Fault _) := by
    intro arrival
    rw [Reader.stop, h]
  cases arrival with
  | chunk n =>
    rw [Reader.step, Reader.receive, h]
    rfl
  | timeout => exact hstop .timeout
  | eof => exact hstop .eof
  | failure => exact hstop .failure

/-- A call that has read nothing returns nothing, and the next one begins where it began. -/
theorem InStep.pause {arrival : Arrival} (h : InStep written r bytes) (hphase : r.phase = .header 4)
    (hquiet : arrival = .timeout ∨ arrival = .eof) :
    InStep written (r.stop readPolicy arrival) bytes := by
  rcases h with ⟨coming, hfollows, hwritten⟩ | ⟨⟨why, hclosed⟩, -⟩
  · have hstop : r.stop readPolicy arrival =
        { r with phase := .header 4, returned := r.returned ++ [none] } := by
      rw [Reader.stop, hphase]
      exact if_pos ⟨rfl, hquiet⟩
    have hstream := hfollows.stream
    rw [Reader.pending, hphase] at hstream
    rw [hstop]
    refine .inl ⟨coming, ⟨hfollows.room, ⟨by decide, by decide⟩, hstream⟩, ?_⟩
    rw [hwritten, Reader.payloads, Reader.payloads, filterMap_append]
    simp
  · rw [hclosed] at hphase
    cases hphase

/-- One read keeps the reader in step. -/
theorem InStep.step {written : List (List UInt8)} {r : Reader} {bytes : List UInt8}
    {arrival : Arrival} (h : InStep written r bytes)
    (hsize : ∀ payload ∈ written, payload.length < 2 ^ 31) (hmeets : Meets r arrival) :
    ∃ r' bytes', r.step readPolicy bytes arrival = .ok (r', bytes') ∧ InStep written r' bytes' := by
  cases arrival with
  | timeout => exact ⟨_, bytes, rfl, h.pause hmeets (.inl rfl)⟩
  | eof => exact ⟨_, bytes, rfl, h.pause hmeets (.inr rfl)⟩
  | failure =>
    rcases h with ⟨coming, hfollows, hwritten⟩ | hclosed
    · refine ⟨{ r with phase := .closed (.stopped .failure) }, bytes, ?_,
        .inr ⟨⟨_, rfl⟩, coming, hwritten.symm⟩⟩
      have hrange := hfollows.range
      rw [Reader.InRange] at hrange
      rw [Reader.step, Reader.stop]
      · split
        · rename_i why hphase
          rw [hphase] at hrange
          exact hrange.elim
        · rfl
      · intro n heq
        cases heq
    · obtain ⟨why, hphase⟩ := hclosed.1
      exact ⟨r, bytes, step_of_closed hphase bytes _, .inr hclosed⟩
  | chunk n =>
    rcases h with ⟨coming, hfollows, hwritten⟩ | hclosed
    · have hcheck : ∀ payload ∈ coming, payload.length < 2 ^ 32 ∧
          readPolicy.check payload.length = .ok none := by
        intro payload hpayload
        have hlt := hsize payload (hwritten ▸ mem_append_right _ hpayload)
        exact ⟨by omega, if_neg (by omega)⟩
      obtain ⟨r', bytes', done, coming', hrun, hadvances, -⟩ := hfollows.receive hcheck n
      refine ⟨r', bytes', hrun, .inl ⟨coming', hadvances.follows, ?_⟩⟩
      rw [hwritten, hadvances.coming, Reader.payloads, Reader.payloads, hadvances.returned,
        filterMap_append, filterMap_map, append_assoc]
      simp
    · obtain ⟨why, hphase⟩ := hclosed.1
      exact ⟨r, bytes, step_of_closed hphase bytes _, .inr hclosed⟩

theorem InStep.readAll (hsize : ∀ payload ∈ written, payload.length < 2 ^ 31)
    (arrivals : List Arrival) :
    ∀ {r : Reader} {bytes : List UInt8}, InStep written r bytes → MeetsAll r bytes arrivals →
      ∃ r' bytes', readAll r bytes arrivals = .ok (r', bytes') ∧ InStep written r' bytes' := by
  induction arrivals with
  | nil => exact fun {r bytes} h _ => ⟨r, bytes, rfl, h⟩
  | cons arrival arrivals ih =>
    intro r bytes h hmeets
    obtain ⟨r₁, bytes₁, hstep, h₁⟩ := h.step hsize hmeets.1
    have hrest := hmeets.2
    rw [hstep] at hrest
    obtain ⟨r₂, bytes₂, hrun, h₂⟩ := ih h₁ hrest
    exact ⟨r₂, bytes₂, bind_eq_ok.mpr ⟨_, hstep, hrun⟩, h₂⟩

/-- The two ends stay in step. The payloads that were returned are the first ones that
were written, in the same order, and no size is out of range, if all payloads are smaller
than two gigabytes and timeouts strike between frames only. -/
theorem streams_stay_in_step {P : Type} (unmarshal : List UInt8 → P)
    (calls : List (List UInt8 × List Departure)) (stream : List UInt8) (arrivals : List Arrival)
    (hwritten : writeAll calls = some stream) (hsize : ∀ call ∈ calls, call.1.length < 2 ^ 31)
    (hpatient : ∀ call ∈ calls, Patient call.2 (frame call.1))
    (hmeets : MeetsAll .new stream arrivals) :
    ∃ r bytes, readAll .new stream arrivals = .ok (r, bytes) ∧
      r.payloads.map unmarshal <+: (calls.map Prod.fst).map unmarshal := by
  have hstart : InStep (calls.map Prod.fst) .new stream := by
    rw [stream_of_writeAll calls hpatient hwritten]
    exact Or.inl ⟨calls.map Prod.fst, Reader.follows_new _, rfl⟩
  obtain ⟨r, bytes, hrun, h⟩ := hstart.readAll (forall_mem_map.mpr hsize) arrivals hmeets
  exact ⟨r, bytes, hrun, h.isPrefix.map unmarshal⟩

/-- Two payloads, and a timeout before each of them. -/
theorem streams_stay_in_step_two :
    ∃ r bytes, readAll .new (frame [123, 125] ++ frame [91, 93])
        [.timeout, .chunk 3, .chunk 0, .chunk 9, .chunk 2, .timeout, .chunk 4, .chunk 9] =
          .ok (r, bytes) ∧
      r.payloads.map List.length <+: [2, 2] :=
  streams_stay_in_step List.length
    [([123, 125], [.chunk 1, .chunk 0, .timeout 9]), ([91, 93], [.chunk 9])]
    _ _ (by decide) (by decide) (by decide) (by decide +kernel)

/-- Ends out of step. A call of `Write` that times out before it has sent a byte returns
no error, and the next payload takes its place. A call of `Read` that times out inside a
header or a payload returns no error either, and the next one takes the bytes that follow
for a header: it returns a payload that nobody has written, or fails on a negative size. -/
theorem streams_out_of_step :
    (∃ stream r, writeAll [([123, 125], [.timeout 0]), ([91, 93], [.chunk 9])] = some stream ∧
      readAll .new stream [.chunk 4, .chunk 2] = .ok (r, []) ∧ r.payloads = [[91, 93]] ∧
      ¬ r.payloads <+: [[123, 125], [91, 93]]) ∧
    (∃ stream r bytes, writeAll [([0, 0, 7], [.chunk 9])] = some stream ∧
      readAll .new stream [.chunk 2, .timeout, .chunk 4] = .ok (r, bytes) ∧ r.payloads = [[]] ∧
      ¬ r.payloads <+: [[0, 0, 7]]) ∧
    ∃ stream, writeAll [([0, 0, 0, 255], [.chunk 9])] = some stream ∧
      readAll .new stream [.chunk 4, .timeout, .chunk 4] = .error .indexOutOfRange := by
  refine ⟨?_, ?_, ?_⟩
  · have hcheck : succeeds (readAll .new (frame [91, 93]) [.chunk 4, .chunk 2])
        (fun x => x.1.payloads = [[91, 93]] ∧ x.2 = []) = true := by decide +kernel
    obtain ⟨⟨r, bytes⟩, hrun, htest⟩ := exists_of_succeeds hcheck
    obtain ⟨hpayloads, rfl⟩ := of_decide_eq_true htest
    exact ⟨_, r, by decide, hrun, hpayloads, by rw [hpayloads]; decide⟩
  · have hcheck : succeeds (readAll .new (frame [0, 0, 7]) [.chunk 2, .timeout, .chunk 4])
        (fun x => x.1.payloads = [[]]) = true := by decide +kernel
    obtain ⟨⟨r, bytes⟩, hrun, htest⟩ := exists_of_succeeds hcheck
    have hpayloads := of_decide_eq_true htest
    exact ⟨_, r, bytes, by decide, hrun, hpayloads, by rw [hpayloads]; decide⟩
  · have hcheck : halted (readAll .new (frame [0, 0, 0, 255]) [.chunk 4, .timeout, .chunk 4]) =
        some .indexOutOfRange := by decide +kernel
    exact ⟨_, by decide, eq_error_of_halted hcheck⟩

end Blockmania.Pubsub
