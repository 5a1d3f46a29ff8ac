/-
# Reading frames

A frame is a payload after its length, which takes four bytes. A reader asks the
connection for as many bytes as are missing from the header or from the payload, and gets
some of them, none, or an error. `Reader.step` is what it does with one such answer. A
reader that has returned a payload goes on with the next header.

Readers differ in which sizes they accept and in what they make of a timeout. Whatever the
pieces in which the frames arrive, the part of a frame that was read and the bytes that
are still to come make up the frames that were not returned yet.
-/

import Blockmania.Broadcast.Pool

namespace Blockmania.Network

open Blockmania.Broadcast List

/-- What a read from the connection returns. -/
inductive Arrival
  /-- At most the given number of bytes, of those that were asked for and are there. -/
  | chunk (n : Nat)
  | timeout
  | eof
  /-- Any other error. -/
  | failure
  deriving DecidableEq, Repr

/-- Why a frame is refused. -/
inductive Refusal
  | overflow
  | tooLarge (size : Nat)
  deriving DecidableEq, Repr

def Refusal.text : Refusal → String
  | overflow => "network: payload size overflows an int32"
  | tooLarge size => s!"network: payload size {size} exceeds max payload size"

/-- Why the connection was closed. -/
inductive Closing
  | stopped (why : Arrival)
  | refused (refusal : Refusal)
  deriving DecidableEq, Repr

/-- Where a call stands, with the number of bytes that it needs. -/
inductive Phase
  | header (need : Nat)
  | body (size need : Nat)
  | closed (why : Closing)
  deriving DecidableEq, Repr

/-- A connection and what the calls on it have returned, with `none` for a call that has
returned nothing and no error. -/
structure Reader where
  buf : List UInt8
  phase : Phase
  returned : List (Option (List UInt8))
  deriving DecidableEq, Repr

/-- What readers differ in: what they make of the size of a frame, and whether a timeout or
the end of the stream is an error. -/
structure Policy where
  check : Nat → Except Fault (Option Refusal)
  lenient : Bool

namespace Reader

/-- A new connection. -/
def new : Reader := ⟨replicate 1024 0, .header 4, []⟩

/-- The header is complete. A buffer that is too small is replaced, and a payload without
bytes is returned at once. -/
def enter (r : Reader) (size : Nat) : Reader :=
  let buf := if r.buf.length < size then replicate size 0 else r.buf
  if size = 0 then { r with buf, phase := .header 4, returned := r.returned ++ [some []] }
  else { r with buf, phase := .body size size }

/-- The bytes that a read hands out. -/
def grab (n need : Nat) (bytes : List UInt8) : List UInt8 := bytes.take (min n need)

/-- Bytes arrive. -/
def receive (policy : Policy) (r : Reader) (bytes : List UInt8) (n : Nat) :
    Except Fault (Reader × List UInt8) :=
  match r.phase with
  | .header need =>
    if 4 ≤ r.buf.length then do
      let got := grab n need bytes
      let buf ← putAt r.buf (4 - need) got
      let need := need - got.length
      if need > 0 then return ({ r with buf, phase := .header need }, bytes.drop got.length)
      else
        let size := littleEndian (buf.take 4)
        match ← policy.check size with
        | some refusal =>
          return ({ r with buf, phase := .closed (.refused refusal) }, bytes.drop got.length)
        | none => return ({ r with buf }.enter size, bytes.drop got.length)
    else .error .indexOutOfRange
  | .body size need =>
    if size ≤ r.buf.length then do
      let got := grab n need bytes
      let buf ← putAt r.buf (size - need) got
      let need := need - got.length
      if need > 0 then return ({ r with buf, phase := .body size need }, bytes.drop got.length)
      else
        let returned := r.returned ++ [some (buf.take size)]
        return ({ r with buf, phase := .header 4, returned }, bytes.drop got.length)
    else .error .indexOutOfRange
  | .closed _ => return (r, bytes)

/-- The connection returns an error. -/
def stop (policy : Policy) (r : Reader) (why : Arrival) : Reader :=
  match r.phase with
  | .closed _ => r
  | _ =>
    if policy.lenient ∧ (why = .timeout ∨ why = .eof) then
      { r with phase := .header 4, returned := r.returned ++ [none] }
    else { r with phase := .closed (.stopped why) }

/-- One answer of the connection. -/
def step (policy : Policy) (r : Reader) (bytes : List UInt8) :
    Arrival → Except Fault (Reader × List UInt8)
  | .chunk n => r.receive policy bytes n
  | why => .ok (r.stop policy why, bytes)

/-- The payloads that were returned. -/
def payloads (r : Reader) : List (List UInt8) := r.returned.filterMap id

end Reader

/-- A payload after its length. -/
def frame (payload : List UInt8) : List UInt8 :=
  littleEndianBytes 4 payload.length ++ payload

theorem length_frame (payload : List UInt8) : (frame payload).length = 4 + payload.length := by
  rw [frame, length_append, length_littleEndianBytes]

theorem littleEndianBytes_inj {m n : Nat} (hm : m < 2 ^ 32) (hn : n < 2 ^ 32)
    (h : littleEndianBytes 4 m = littleEndianBytes 4 n) : m = n := by
  have heq := congrArg littleEndian h
  rw [littleEndian_littleEndianBytes, littleEndian_littleEndianBytes] at heq
  omega

/-- The first frame of a stream is the one whose header comes first. -/
theorem eq_cons_of_header {payloads : List (List UInt8)} {header rest : List UInt8}
    (hheader : header.length = 4) (h : header ++ rest = payloads.flatMap frame) :
    ∃ payload later, payloads = payload :: later ∧ header = littleEndianBytes 4 payload.length ∧
      rest = payload ++ later.flatMap frame := by
  cases payloads with
  | nil =>
    have hlength := congrArg List.length h
    rw [length_append, hheader] at hlength
    simp at hlength
  | cons payload later =>
    rw [flatMap_cons, frame, append_assoc] at h
    obtain ⟨hfirst, hrest⟩ := append_inj h (by rw [hheader, length_littleEndianBytes])
    exact ⟨payload, later, rfl, hfirst, hrest⟩

/-! ## What is read and what is to come -/

namespace Reader

/-- The part of the current frame that was read. -/
def pending (r : Reader) : List UInt8 :=
  match r.phase with
  | .header need => r.buf.take (4 - need)
  | .body size need => littleEndianBytes 4 size ++ r.buf.take (size - need)
  | .closed _ => []

/-- The numbers that go with a phase. -/
def InRange (r : Reader) : Prop :=
  match r.phase with
  | .header need => 0 < need ∧ need ≤ 4
  | .body size need => 0 < need ∧ need ≤ size ∧ size ≤ r.buf.length ∧ size < 2 ^ 32
  | .closed _ => False

/-- The invariant. What was read and what is to come are the given frames. -/
structure Follows (r : Reader) (bytes : List UInt8) (coming : List (List UInt8)) : Prop where
  room : 4 ≤ r.buf.length
  range : r.InRange
  stream : r.pending ++ bytes = coming.flatMap frame

theorem follows_new (payloads : List (List UInt8)) :
    new.Follows (payloads.flatMap frame) payloads where
  room := by rw [new, length_replicate]; decide
  range := ⟨by decide, by decide⟩
  stream := rfl

theorem grab_append (n need : Nat) (bytes : List UInt8) :
    grab n need bytes ++ bytes.drop (grab n need bytes).length = bytes := by
  rw [grab, length_take]
  rcases Nat.le_total (min n need) bytes.length with hle | hle
  · rw [Nat.min_eq_left hle, take_append_drop]
  · rw [Nat.min_eq_right hle, take_of_length_le hle, drop_length, append_nil]

theorem length_grab_le (n need : Nat) (bytes : List UInt8) : (grab n need bytes).length ≤ need := by
  rw [grab, length_take]
  omega

variable {bytes body header : List UInt8} {need : Nat} {r : Reader} {coming : List (List UInt8)}
  {policy : Policy} {refusal : Refusal}

/-- Some bytes are handed out if some are asked for and there. -/
theorem length_grab_pos {n : Nat} (hn : 0 < n) (hneed : 0 < need) (hbytes : bytes ≠ []) :
    0 < (grab n need bytes).length := by
  have hlength := length_pos_iff.mpr hbytes
  rw [grab, length_take]
  omega

/-- How a step goes on with the frames that are to come. -/
structure Advances (r : Reader) (bytes : List UInt8) (coming : List (List UInt8)) (r' : Reader)
    (bytes' : List UInt8) (done coming' : List (List UInt8)) : Prop where
  coming : coming = done ++ coming'
  returned : r'.returned = r.returned ++ done.map some
  follows : r'.Follows bytes' coming'
  shrinks : bytes'.length ≤ bytes.length

/-- A reader that has read the header of a frame goes on with its payload. -/
theorem advances_enter {r : Reader} {bytes : List UInt8} {payload : List UInt8}
    {later : List (List UInt8)} (hroom : 4 ≤ r.buf.length) (hsize : payload.length < 2 ^ 32)
    (hbytes : bytes = payload ++ later.flatMap frame) :
    ∃ done coming', r.Advances bytes (payload :: later) (r.enter payload.length) bytes done coming' := by
  have hbuf : 4 ≤ (if r.buf.length < payload.length then replicate payload.length 0
      else r.buf).length ∧ payload.length ≤ (if r.buf.length < payload.length then
      replicate payload.length 0 else r.buf).length := by
    split
    · rw [length_replicate]
      omega
    · omega
  unfold enter
  by_cases hempty : payload.length = 0
  · rw [if_pos hempty]
    rw [length_eq_zero_iff.mp hempty] at hbytes ⊢
    refine ⟨[[]], later, rfl, rfl, ⟨?_, ⟨by decide, by decide⟩, hbytes⟩, Nat.le_refl _⟩
    rw [hempty] at hbuf
    exact hbuf.1
  · rw [if_neg hempty]
    refine ⟨[], payload :: later, rfl, by simp, ⟨hbuf.1, ?_, ?_⟩, Nat.le_refl _⟩
    · exact ⟨Nat.pos_of_ne_zero hempty, Nat.le_refl _, hbuf.2, hsize⟩
    · rw [pending]
      dsimp only
      rw [Nat.sub_self, take_zero, append_nil, hbytes, flatMap_cons, frame, append_assoc]

/-- What a reader does with bytes of a header. -/
theorem receive_header (policy : Policy) (hphase : r.phase = .header need)
    (hroom : 4 ≤ r.buf.length) (hle : need ≤ 4) (bytes : List UInt8) (n : Nat) :
    ∃ buf, buf.length = r.buf.length ∧
      buf.take (4 - need + (grab n need bytes).length) =
        r.buf.take (4 - need) ++ grab n need bytes ∧
      ((grab n need bytes).length < need → r.receive policy bytes n =
        .ok ({ r with buf, phase := .header (need - (grab n need bytes).length) },
          bytes.drop (grab n need bytes).length)) ∧
      ((grab n need bytes).length = need → r.receive policy bytes n = (do
        match ← policy.check (littleEndian (buf.take 4)) with
        | some refusal => return ({ r with buf, phase := .closed (.refused refusal) },
            bytes.drop (grab n need bytes).length)
        | none => return ({ r with buf }.enter (littleEndian (buf.take 4)),
            bytes.drop (grab n need bytes).length))) := by
  have hgot := length_grab_le n need bytes
  obtain ⟨buf, hput, hlength, htake⟩ := putAt_of_le r.buf (4 - need) (grab n need bytes) (by omega)
  refine ⟨buf, hlength, htake, fun hmore => ?_, fun hfull => ?_⟩
  · rw [receive, hphase]
    dsimp only
    rw [if_pos hroom, hput]
    change (if _ then _ else _) = _
    rw [if_pos (by omega)]
    rfl
  · rw [receive, hphase]
    dsimp only
    rw [if_pos hroom, hput]
    change (if _ then _ else _) = _
    rw [if_neg (by omega)]

theorem Follows.receive_header (h : r.Follows bytes coming)
    (hcheck : ∀ payload ∈ coming, payload.length < 2 ^ 32 ∧ policy.check payload.length = .ok none)
    (hphase : r.phase = .header need) (n : Nat) :
    ∃ r' done coming', r.receive policy bytes n =
        .ok (r', bytes.drop (grab n need bytes).length) ∧
      r.Advances bytes coming r' (bytes.drop (grab n need bytes).length) done coming' := by
  obtain ⟨hpos, hle⟩ : 0 < need ∧ need ≤ 4 := by
    have hrange := h.range
    rw [InRange, hphase] at hrange
    exact hrange
  have hroom := h.room
  have hstream := h.stream
  rw [pending, hphase] at hstream
  have hgot := length_grab_le n need bytes
  obtain ⟨buf, hlength, htake, hmore, hfull⟩ := Reader.receive_header policy hphase hroom hle bytes n
  have hread : buf.take (4 - need + (grab n need bytes).length) ++
      bytes.drop (grab n need bytes).length = coming.flatMap frame := by
    rw [htake, append_assoc, grab_append]
    exact hstream
  rcases Nat.lt_or_eq_of_le hgot with hless | heq
  · -- the header is not complete
    refine ⟨_, [], coming, hmore hless, rfl, by simp, ⟨?_, ?_, ?_⟩, by simp⟩
    · dsimp only
      omega
    · exact ⟨Nat.sub_pos_of_lt hless, by omega⟩
    · rw [← hread, pending]
      dsimp only
      congr 2
      omega
  · -- the header is complete, and it is that of the first frame
    rw [show 4 - need + (grab n need bytes).length = 4 by omega] at hread
    obtain ⟨payload, later, rfl, hheader, hrest⟩ := eq_cons_of_header
      (by rw [length_take]; omega) hread
    obtain ⟨hsize, hadmitted⟩ := hcheck payload mem_cons_self
    have hvalue : littleEndian (buf.take 4) = payload.length := by
      rw [hheader, littleEndian_littleEndianBytes]
      exact Nat.mod_eq_of_lt hsize
    obtain ⟨done, coming', hadvances⟩ := @advances_enter { r with buf } _ payload later
      (by dsimp only; omega) hsize hrest
    refine ⟨_, done, coming', ?_, hadvances.coming, hadvances.returned, hadvances.follows, by simp⟩
    rw [hfull heq, hvalue, hadmitted]
    rfl

/-- The invariant of a reader that will refuse a frame. As long as the header is not
complete the reader waits for the rest of it, and then it has read no more. -/
def Refuses (r : Reader) (bytes header body : List UInt8) (refusal : Refusal) : Prop :=
  (∃ need, r.phase = .header need ∧ 0 < need ∧ need ≤ 4 ∧ 4 ≤ r.buf.length ∧
    r.buf.take (4 - need) ++ bytes = header ++ body) ∨
  r.phase = .closed (.refused refusal) ∧ bytes = body

theorem Refuses.receive (h : r.Refuses bytes header body refusal) (hheader : header.length = 4)
    (hcheck : policy.check (littleEndian header) = .ok (some refusal)) (n : Nat) :
    ∃ r' bytes', r.receive policy bytes n = .ok (r', bytes') ∧ r'.returned = r.returned ∧
      r'.Refuses bytes' header body refusal ∧ bytes'.length ≤ bytes.length ∧
      (0 < n → body.length < bytes.length → bytes'.length < bytes.length) := by
  rcases h with ⟨need, hphase, hpos, hle, hroom, hstream⟩ | ⟨hphase, hbytes⟩
  · have hgot := length_grab_le n need bytes
    obtain ⟨buf, hlength, htake, hmore, hfull⟩ :=
      Reader.receive_header policy hphase hroom hle bytes n
    have hread : buf.take (4 - need + (grab n need bytes).length) ++
        bytes.drop (grab n need bytes).length = header ++ body := by
      rw [htake, append_assoc, grab_append]
      exact hstream
    have hshrinks : (bytes.drop (grab n need bytes).length).length ≤ bytes.length := by
      rw [length_drop]
      omega
    have hless' : 0 < n → body.length < bytes.length →
        (bytes.drop (grab n need bytes).length).length < bytes.length := by
      intro hn hlt
      have hsome := length_grab_pos hn hpos (ne_nil_of_length_pos (Nat.zero_lt_of_lt hlt))
      rw [length_drop]
      omega
    rcases Nat.lt_or_eq_of_le hgot with hless | heq
    · refine ⟨_, _, hmore hless, rfl,
        .inl ⟨_, rfl, Nat.sub_pos_of_lt hless, by omega, ?_, ?_⟩, hshrinks, hless'⟩
      · dsimp only
        omega
      · dsimp only
        rw [← hread]
        congr 2
        omega
    · rw [show 4 - need + (grab n need bytes).length = 4 by omega] at hread
      obtain ⟨hfirst, hrest⟩ := append_inj hread (by rw [length_take, hheader]; omega)
      refine ⟨{ r with buf, phase := .closed (.refused refusal) }, _, ?_, rfl, .inr ⟨rfl, hrest⟩,
        hshrinks, hless'⟩
      rw [hfull heq, hfirst, hcheck]
      rfl
  · refine ⟨r, bytes, ?_, rfl, .inr ⟨hphase, hbytes⟩, Nat.le_refl _, fun _ hlt => ?_⟩
    · rw [Reader.receive, hphase]
      rfl
    · rw [hbytes] at hlt
      exact absurd hlt (Nat.lt_irrefl _)

/-- The payload is not touched. -/
theorem Refuses.suffix (h : r.Refuses bytes header body refusal) (hheader : header.length = 4) :
    body <:+ bytes := by
  rcases h with ⟨need, -, -, -, -, hstream⟩ | ⟨-, hbytes⟩
  · obtain ⟨rest, hrest⟩ : ∃ rest, header = r.buf.take (4 - need) ++ rest ∧ bytes = rest ++ body := by
      have hle : (r.buf.take (4 - need)).length ≤ header.length := by
        rw [length_take]
        omega
      obtain ⟨rest, hrest⟩ := prefix_of_prefix_length_le (prefix_append _ bytes)
        (hstream ▸ prefix_append header body) hle
      refine ⟨rest, hrest.symm, ?_⟩
      rw [← hrest, append_assoc] at hstream
      exact append_cancel_left hstream
    exact ⟨rest, hrest.2.symm⟩
  · rw [hbytes]

/-- The header is complete once there are no more bytes than those of the payload. -/
theorem Refuses.closed (h : r.Refuses bytes header body refusal) (hheader : header.length = 4)
    (hbytes : bytes.length ≤ body.length) :
    r.phase = .closed (.refused refusal) ∧ bytes = body := by
  rcases h with ⟨need, -, hpos, hle, hroom, hstream⟩ | hclosed
  · have hlength := congrArg List.length hstream
    rw [length_append, length_append, length_take, hheader] at hlength
    omega
  · exact hclosed

theorem Follows.receive_body {policy : Policy} {r : Reader} {bytes : List UInt8}
    {coming : List (List UInt8)} (h : r.Follows bytes coming)
    (hcheck : ∀ payload ∈ coming, payload.length < 2 ^ 32)
    {size need : Nat} (hphase : r.phase = .body size need) (n : Nat) :
    ∃ r' done coming', r.receive policy bytes n =
        .ok (r', bytes.drop (grab n need bytes).length) ∧
      r.Advances bytes coming r' (bytes.drop (grab n need bytes).length) done coming' := by
  obtain ⟨hpos, hle, hbuf, hsize⟩ :
      0 < need ∧ need ≤ size ∧ size ≤ r.buf.length ∧ size < 2 ^ 32 := by
    have hrange := h.range
    rw [InRange, hphase] at hrange
    exact hrange
  have hroom := h.room
  have hstream := h.stream
  rw [pending, hphase] at hstream
  have hgot := length_grab_le n need bytes
  obtain ⟨buf, hput, hlength, htake⟩ := putAt_of_le r.buf (size - need) (grab n need bytes) (by omega)
  have hread : littleEndianBytes 4 size ++ (buf.take (size - need + (grab n need bytes).length) ++
      bytes.drop (grab n need bytes).length) = coming.flatMap frame := by
    rw [htake, append_assoc, grab_append, ← append_assoc]
    exact hstream
  rw [receive, hphase]
  dsimp only
  rw [if_pos hbuf, hput]
  by_cases hmore : need - (grab n need bytes).length > 0
  · -- the payload is not complete
    refine ⟨{ r with buf, phase := .body size (need - (grab n need bytes).length) }, [], coming, ?_,
      rfl, by simp, ⟨?_, ?_, ?_⟩, by simp⟩
    · change (if _ then _ else _) = _
      rw [if_pos hmore]
      rfl
    · dsimp only
      omega
    · exact ⟨hmore, by omega, by dsimp only; omega, hsize⟩
    · rw [← hread, pending, append_assoc]
      dsimp only
      congr 3
      omega
  · -- the payload is complete, and it is that of the first frame
    have hfull : size - need + (grab n need bytes).length = size := by omega
    rw [hfull] at hread
    obtain ⟨payload, later, rfl, hheader, hrest⟩ := eq_cons_of_header
      (length_littleEndianBytes 4 size) hread
    have hsame := littleEndianBytes_inj hsize (hcheck payload mem_cons_self) hheader
    obtain ⟨hpayload, hrest⟩ := append_inj hrest (by rw [length_take]; omega)
    refine ⟨{ r with
        buf
        phase := .header 4
        returned := r.returned ++ [some (buf.take size)] }, [payload], later, ?_, rfl, ?_,
      ⟨?_, ⟨by decide, by decide⟩, hrest⟩, by simp⟩
    · change (if _ then _ else _) = _
      rw [if_neg hmore]
      rfl
    · rw [hpayload]
      rfl
    · dsimp only
      omega

/-- Bytes of the frames arrive, and a payload is returned once it is complete. As long
as bytes are to come, an answer that is not empty takes some of them. -/
theorem Follows.receive (h : r.Follows bytes coming)
    (hcheck : ∀ payload ∈ coming, payload.length < 2 ^ 32 ∧ policy.check payload.length = .ok none)
    (n : Nat) :
    ∃ r' bytes' done coming', r.receive policy bytes n = .ok (r', bytes') ∧
      r.Advances bytes coming r' bytes' done coming' ∧
      (0 < n → bytes ≠ [] → bytes'.length < bytes.length) := by
  have hless : ∀ {need : Nat}, 0 < need → 0 < n → bytes ≠ [] →
      (bytes.drop (grab n need bytes).length).length < bytes.length := by
    intro need hneed hn hbytes
    have hgot := length_grab_pos hn hneed hbytes
    have hlength := length_pos_iff.mpr hbytes
    rw [length_drop]
    omega
  have hrange := h.range
  rw [InRange] at hrange
  cases hphase : r.phase with
  | header need =>
    rw [hphase] at hrange
    obtain ⟨r', done, coming', hrun, hadvances⟩ := h.receive_header hcheck hphase n
    exact ⟨r', _, done, coming', hrun, hadvances, hless hrange.1⟩
  | body size need =>
    rw [hphase] at hrange
    obtain ⟨r', done, coming', hrun, hadvances⟩ :=
      @Follows.receive_body policy r bytes coming h
        (fun payload hpayload => (hcheck payload hpayload).1) size need hphase n
    exact ⟨r', _, done, coming', hrun, hadvances, hless hrange.1⟩
  | closed why =>
    rw [hphase] at hrange
    exact hrange.elim

/-- When no bytes are to come, all frames were returned. -/
theorem Follows.eq_nil (h : r.Follows [] coming)
    (hcheck : ∀ payload ∈ coming, payload.length < 2 ^ 32) :
    coming = [] ∧ r.phase = .header 4 := by
  have hrange := h.range
  have hstream := h.stream
  rw [InRange] at hrange
  rw [pending, append_nil] at hstream
  cases hphase : r.phase with
  | header need =>
    rw [hphase] at hrange hstream
    have hlength := congrArg List.length hstream
    rw [length_take] at hlength
    have hroom := h.room
    cases coming with
    | nil =>
      rw [flatMap_nil, length_nil] at hlength
      refine ⟨rfl, congrArg Phase.header ?_⟩
      omega
    | cons payload later =>
      rw [flatMap_cons, length_append, length_frame] at hlength
      omega
  | body size need =>
    rw [hphase] at hrange hstream
    obtain ⟨payload, later, rfl, hheader, hrest⟩ := eq_cons_of_header
      (length_littleEndianBytes 4 size) hstream
    have hsame := littleEndianBytes_inj hrange.2.2.2 (hcheck payload mem_cons_self) hheader
    have hlength := congrArg List.length hrest
    rw [length_take, length_append] at hlength
    omega
  | closed why =>
    rw [hphase] at hrange
    exact hrange.elim

end Reader

end Blockmania.Network
