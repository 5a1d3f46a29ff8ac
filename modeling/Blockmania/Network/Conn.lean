/-
# Payloads between nodes

`WritePayload` sends a payload behind its length, and `readPayload` reads one. Both use the
buffer of their connection, the one for the header it sends, the other one for all it
reads. The connection takes and hands out bytes in pieces of any size.
-/

import Blockmania.Network.Frames

namespace Blockmania.Network

open Blockmania.Broadcast List

/-- The loop that writes until nothing is left, with the number of bytes that each write
takes: what was sent, what is left, and the numbers that were not used. -/
def send : List Nat → List UInt8 → List UInt8 × List UInt8 × List Nat
  | [], left => ([], left, [])
  | n :: taken, left =>
    if left = [] then ([], [], n :: taken)
    else
      let (sent, left', unused) := send taken (left.drop n)
      (left.take n ++ sent, left', unused)

/-- How a call of `WritePayload` ends. It is not over as long as the connection has not
taken all bytes. -/
inductive Writing
  | refused (refusal : Refusal)
  | unfinished (sent : List UInt8)
  | finished (sent : List UInt8)
  deriving DecidableEq, Repr

/-- The header is written, and then the payload. -/
def transmit (header payload : List UInt8) (taken : List Nat) : Writing :=
  match send taken header with
  | (sent, [], taken) =>
    match send taken payload with
    | (sent', [], _) => .finished (sent ++ sent')
    | (sent', _ :: _, _) => .unfinished (sent ++ sent')
  | (sent, _ :: _, _) => .unfinished sent

/-- `WritePayload`, with the buffer of the connection. -/
def writePayload (limit : Nat) (buf payload : List UInt8) (taken : List Nat) :
    Except Fault (List UInt8 × Writing) :=
  if payload.length > limit then .ok (buf, .refused (.tooLarge payload.length))
  else do
    let buf ← putAt buf 0 (littleEndianBytes 4 payload.length)
    return (buf, transmit (buf.take 4) payload taken)

/-- One call after another, each with the numbers of bytes that the connection takes. There
is no result if a call is refused or not over. -/
def writeAll (limit : Nat) : List UInt8 → List (List UInt8 × List Nat) →
    Except Fault (Option (List UInt8))
  | _, [] => .ok (some [])
  | buf, (payload, taken) :: calls => do
    let (buf, writing) ← writePayload limit buf payload taken
    match writing with
    | .finished sent => do
      let later ← writeAll limit buf calls
      return later.map (sent ++ ·)
    | _ => return none

/-- Nothing is lost or added on the way. -/
theorem send_append (taken : List Nat) : ∀ left : List UInt8,
    (send taken left).1 ++ (send taken left).2.1 = left := by
  induction taken with
  | nil => exact fun left => rfl
  | cons n taken ih =>
    intro left
    rw [send]
    split
    · rename_i hempty
      rw [hempty]
      rfl
    · dsimp only
      rw [append_assoc, ih, take_append_drop]

variable {taken : List Nat}

/-- A header and a payload that were written leave nothing out. -/
theorem eq_append_of_transmit {header payload sent : List UInt8}
    (h : transmit header payload taken = .finished sent) : sent = header ++ payload := by
  have hheader := send_append taken header
  rw [transmit] at h
  split at h
  · rename_i first taken' hfirst
    have hpayload := send_append taken' payload
    split at h
    · rename_i second unused hsecond
      cases h
      rw [hfirst, append_nil] at hheader
      rw [hsecond, append_nil] at hpayload
      rw [← hheader, ← hpayload]
    · cases h
  · cases h

/-- A call that is over has sent one frame. -/
theorem writePayload_eq {limit : Nat} {buf payload : List UInt8} (hroom : 4 ≤ buf.length)
    (hsize : payload.length ≤ limit) :
    ∃ buf' writing, writePayload limit buf payload taken = .ok (buf', writing) ∧
      buf'.length = buf.length ∧ ∀ sent, writing = .finished sent → sent = frame payload := by
  obtain ⟨buf', hput, hlength, htake⟩ := putAt_of_le buf 0 (littleEndianBytes 4 payload.length)
    (by rw [length_littleEndianBytes]; omega)
  rw [length_littleEndianBytes, Nat.zero_add, take_zero, nil_append] at htake
  refine ⟨buf', transmit (buf'.take 4) payload taken, ?_, hlength, fun sent hsent => ?_⟩
  · rw [writePayload, if_neg (Nat.not_lt.mpr hsize), hput]
    rfl
  · rw [eq_append_of_transmit hsent, htake, frame]

/-- Calls that are over have sent one frame after another, and none of their payloads
is over the limit. -/
theorem stream_of_writeAll {limit : Nat} (calls : List (List UInt8 × List Nat))
    {buf stream : List UInt8} (hroom : 4 ≤ buf.length)
    (h : writeAll limit buf calls = .ok (some stream)) :
    stream = (calls.map Prod.fst).flatMap frame ∧
      ∀ payload ∈ calls.map Prod.fst, payload.length ≤ limit := by
  induction calls generalizing buf stream with
  | nil =>
    cases h
    exact ⟨rfl, by simp⟩
  | cons call calls ih =>
    obtain ⟨payload, taken⟩ := call
    by_cases hsize : payload.length ≤ limit
    · obtain ⟨buf', writing, hwrite, hlength, hsent⟩ := @writePayload_eq taken limit buf payload
        hroom hsize
      obtain ⟨⟨buf₁, writing₁⟩, hwrite₁, h⟩ := bind_eq_ok.mp h
      rw [hwrite] at hwrite₁
      cases hwrite₁
      cases writing with
      | refused refusal => cases h
      | unfinished sent => cases h
      | finished sent =>
        obtain ⟨later, hlater, h⟩ := bind_eq_ok.mp h
        cases later with
        | none => cases h
        | some rest =>
          cases h
          obtain ⟨rfl, hall⟩ := ih (by omega) hlater
          rw [hsent sent rfl]
          exact ⟨rfl, forall_mem_cons.mpr ⟨hsize, hall⟩⟩
    · rw [writeAll, writePayload, if_pos (Nat.not_le.mp hsize)] at h
      cases h

/-- `readPayload` looks at the size as a signed number of 32 bits, and at the limit. Any
error of the connection is one of the call. -/
def readPolicy (limit : Nat) : Policy where
  check size := .ok <|
    if 2 ^ 31 ≤ size then some .overflow
    else if limit < size then some (.tooLarge size)
    else none
  lenient := false

/-- What happens at the reading end: a read returns, or, between two calls of
`readPayload`, a payload of the given size is written and its header takes the first bytes
of the buffer. -/
inductive Use
  | read (arrival : Arrival)
  | write (size : Nat)
  deriving DecidableEq, Repr

namespace Reader

def use (limit : Nat) (r : Reader) (bytes : List UInt8) : Use → Except Fault (Reader × List UInt8)
  | .read arrival => r.step (readPolicy limit) bytes arrival
  | .write size =>
    match r.phase with
    | .header 4 => do
      let buf ← putAt r.buf 0 (littleEndianBytes 4 size)
      return ({ r with buf }, bytes)
    | _ => return (r, bytes)

def useAll (limit : Nat) : Reader → List UInt8 → List Use → Except Fault (Reader × List UInt8)
  | r, bytes, [] => .ok (r, bytes)
  | r, bytes, use :: uses => do
    let (r, bytes) ← r.use limit bytes use
    useAll limit r bytes uses

end Reader

/-- The connection hands out bytes, and it does not fail. -/
def Use.calm : Use → Bool
  | .read (.chunk _) => true
  | .read _ => false
  | .write _ => true

/-- How many reads were not empty, if bytes were there. -/
def chunks (uses : List Use) : Nat :=
  uses.countP fun use => match use with
    | .read (.chunk n) => 0 < n
    | _ => false

namespace Reader

variable {limit : Nat} {r : Reader} {bytes : List UInt8} {coming : List (List UInt8)}

/-- The buffer may be used for something else between two calls. -/
theorem Follows.write (h : r.Follows bytes coming) (size : Nat) :
    ∃ r', r.use limit bytes (.write size) = .ok (r', bytes) ∧ r'.returned = r.returned ∧
      r'.Follows bytes coming := by
  rw [use]
  split
  · rename_i hphase
    obtain ⟨buf, hput, hlength, -⟩ := putAt_of_le r.buf 0 (littleEndianBytes 4 size)
      (by have := h.room; rw [length_littleEndianBytes]; omega)
    have hstream := h.stream
    rw [pending, hphase] at hstream
    rw [hput]
    refine ⟨{ r with buf }, rfl, rfl, ?_, ?_, ?_⟩
    · dsimp only
      rw [hlength]
      exact h.room
    · rw [InRange]
      dsimp only
      rw [hphase]
      exact ⟨by decide, by decide⟩
    · rw [pending]
      dsimp only
      rw [hphase]
      exact hstream
  · exact ⟨r, rfl, rfl, h⟩

variable {u : Use}

/-- One use of the connection goes on with the frames that are to come. -/
theorem Follows.use (hlimit : limit < 2 ^ 31) (h : r.Follows bytes coming)
    (hsize : ∀ payload ∈ coming, payload.length ≤ limit) (hcalm : u.calm = true) :
    ∃ r' bytes' done coming', r.use limit bytes u = .ok (r', bytes') ∧
      r.Advances bytes coming r' bytes' done coming' ∧
      (chunks [u] = 1 → bytes ≠ [] → bytes'.length < bytes.length) := by
  cases u with
  | write size =>
    obtain ⟨r', hrun, hreturned, hfollows⟩ := @Follows.write limit r bytes coming h size
    refine ⟨r', bytes, [], coming, hrun, ⟨rfl, ?_, hfollows, Nat.le_refl _⟩, fun hchunk => ?_⟩
    · rw [hreturned, map_nil, append_nil]
    · cases hchunk
  | read arrival =>
    cases arrival with
    | chunk n =>
      have hcheck : ∀ payload ∈ coming, payload.length < 2 ^ 32 ∧
          (readPolicy limit).check payload.length = .ok none := by
        intro payload hpayload
        have hle := hsize payload hpayload
        refine ⟨by omega, ?_⟩
        rw [readPolicy]
        dsimp only
        rw [if_neg (by omega), if_neg (by omega)]
      obtain ⟨r', bytes', done, coming', hrun, hadvances, hless⟩ := h.receive hcheck n
      refine ⟨r', bytes', done, coming', hrun, hadvances, fun hchunk => hless ?_⟩
      by_contra hzero
      rw [Nat.eq_zero_of_not_pos hzero] at hchunk
      cases hchunk
    | timeout => cases hcalm
    | eof => cases hcalm
    | failure => cases hcalm

theorem chunks_cons (u : Use) (uses : List Use) :
    chunks (u :: uses) = chunks [u] + chunks uses ∧ chunks [u] ≤ 1 := by
  rw [chunks, chunks, chunks, countP_cons, countP_cons, countP_nil]
  split_ifs <;> omega

theorem Follows.useAll (hlimit : limit < 2 ^ 31) (uses : List Use) (h : r.Follows bytes coming)
    (hsize : ∀ payload ∈ coming, payload.length ≤ limit) (hcalm : ∀ u ∈ uses, u.calm = true) :
    ∃ r' bytes' done coming', r.useAll limit bytes uses = .ok (r', bytes') ∧
      r.Advances bytes coming r' bytes' done coming' ∧ (bytes.length ≤ chunks uses →
      bytes' = []) := by
  induction uses generalizing r bytes coming with
  | nil =>
    refine ⟨r, bytes, [], coming, rfl, ⟨rfl, by simp, h, Nat.le_refl _⟩, fun hnone => ?_⟩
    exact length_eq_zero_iff.mp (Nat.le_zero.mp hnone)
  | cons u uses ih =>
    obtain ⟨hfirst, hcalm⟩ := forall_mem_cons.mp hcalm
    obtain ⟨r₁, bytes₁, done₁, coming₁, hstep, hadvances₁, hless⟩ := h.use hlimit hsize hfirst
    have hsize₁ : ∀ payload ∈ coming₁, payload.length ≤ limit := fun payload hpayload =>
      hsize payload (hadvances₁.coming ▸ mem_append_right done₁ hpayload)
    obtain ⟨r₂, bytes₂, done₂, coming₂, hrun, hadvances₂, hdone⟩ :=
      ih hadvances₁.follows hsize₁ hcalm
    refine ⟨r₂, bytes₂, done₁ ++ done₂, coming₂, bind_eq_ok.mpr ⟨_, hstep, hrun⟩, ⟨?_, ?_,
      hadvances₂.follows, Nat.le_trans hadvances₂.shrinks hadvances₁.shrinks⟩, fun hmany => ?_⟩
    · rw [hadvances₁.coming, hadvances₂.coming, append_assoc]
    · rw [hadvances₂.returned, hadvances₁.returned, map_append, append_assoc]
    · apply hdone
      have hcount := chunks_cons u uses
      have hshrinks := hadvances₁.shrinks
      by_cases hempty : bytes = []
      · rw [hempty, length_nil] at hshrinks
        omega
      · by_cases hchunk : chunks [u] = 1
        · have hlt := hless hchunk hempty
          omega
        · omega

variable {header body : List UInt8} {refusal : Refusal}

theorem Refuses.use (hheader : header.length = 4)
    (hcheck : (readPolicy limit).check (littleEndian header) = .ok (some refusal))
    (h : r.Refuses bytes header body refusal) (hcalm : u.calm = true) :
    ∃ r' bytes', r.use limit bytes u = .ok (r', bytes') ∧ r'.returned = r.returned ∧
      r'.Refuses bytes' header body refusal ∧ bytes'.length ≤ bytes.length ∧
      (chunks [u] = 1 → body.length < bytes.length → bytes'.length < bytes.length) := by
  cases u with
  | write size =>
    rw [Reader.use]
    split
    · rename_i hphase
      rcases h with ⟨need, hneed, -, -, hroom, hstream⟩ | ⟨hclosed, -⟩
      · obtain ⟨buf, hput, hlength, -⟩ := putAt_of_le r.buf 0 (littleEndianBytes 4 size)
          (by rw [length_littleEndianBytes]; omega)
        rw [hneed] at hphase
        cases hphase
        rw [hput]
        refine ⟨{ r with buf }, bytes, rfl, rfl, .inl ⟨4, hneed, by decide, Nat.le_refl _, ?_,
          hstream⟩, Nat.le_refl _, fun hchunk => ?_⟩
        · dsimp only
          omega
        · cases hchunk
      · rw [hclosed] at hphase
        cases hphase
    · exact ⟨r, bytes, rfl, rfl, h, Nat.le_refl _, fun hchunk => (by cases hchunk)⟩
  | read arrival =>
    cases arrival with
    | chunk n =>
      obtain ⟨r', bytes', hrun, hreturned, hrefuses, hshrinks, hless⟩ := h.receive hheader hcheck n
      refine ⟨r', bytes', hrun, hreturned, hrefuses, hshrinks, fun hchunk => hless ?_⟩
      by_contra hzero
      rw [Nat.eq_zero_of_not_pos hzero] at hchunk
      cases hchunk
    | timeout => cases hcalm
    | eof => cases hcalm
    | failure => cases hcalm

/-- A frame that is refused is not read, however its bytes arrive. -/
theorem Refuses.useAll (hheader : header.length = 4)
    (hcheck : (readPolicy limit).check (littleEndian header) = .ok (some refusal)) (uses : List Use)
    (h : r.Refuses bytes header body refusal) (hcalm : ∀ u ∈ uses, u.calm = true) :
    ∃ r' bytes', r.useAll limit bytes uses = .ok (r', bytes') ∧ r'.returned = r.returned ∧
      r'.Refuses bytes' header body refusal ∧ (bytes.length ≤ body.length + chunks uses →
      bytes'.length ≤ body.length) := by
  induction uses generalizing r bytes with
  | nil => exact ⟨r, bytes, rfl, rfl, h, fun hle => hle⟩
  | cons u uses ih =>
    obtain ⟨hfirst, hcalm⟩ := forall_mem_cons.mp hcalm
    obtain ⟨r₁, bytes₁, hstep, hreturned₁, h₁, hshrinks, hless⟩ := h.use hheader hcheck hfirst
    obtain ⟨r₂, bytes₂, hrun, hreturned₂, h₂, hdone⟩ := ih h₁ hcalm
    refine ⟨r₂, bytes₂, bind_eq_ok.mpr ⟨_, hstep, hrun⟩, hreturned₂.trans hreturned₁, h₂,
      fun hmany => hdone ?_⟩
    have hcount := chunks_cons u uses
    by_cases hlt : body.length < bytes.length
    · by_cases hchunk : chunks [u] = 1
      · have := hless hchunk hlt
        omega
      · omega
    · omega

end Reader

/-- Framing survives any chunking. Payloads were written, in pieces of any size, and their
bytes arrive in pieces of any size, some of them empty, while the reading end uses the same
buffer for what it writes. The calls return the payloads one after another: what was
returned and what is to come are the payloads that were written, and the bytes that were
not read are those of the frames that are to come, but for the part of a frame that is at
hand. No index is out of range and no error is returned. Once enough reads were not empty,
all payloads were returned. A frame of a size over the limit is refused when its header was
read, and nothing else of it is. -/
theorem framing_survives_chunking (limit : Nat) (hlimit : limit < 2 ^ 31) :
    (∀ (calls : List (List UInt8 × List Nat)) (stream : List UInt8) (uses : List Use),
      writeAll limit Reader.new.buf calls = .ok (some stream) → (∀ u ∈ uses, u.calm = true) →
      ∃ r bytes done coming, Reader.new.useAll limit stream uses = .ok (r, bytes) ∧
        calls.map Prod.fst = done ++ coming ∧ r.returned = done.map some ∧
        r.pending ++ bytes = coming.flatMap frame ∧ (∀ why, r.phase ≠ .closed why) ∧
        (stream.length ≤ chunks uses → coming = [] ∧ bytes = [] ∧ r.phase = .header 4)) ∧
    ∀ (r : Reader) (header body : List UInt8) (uses : List Use),
      r.phase = .header 4 → 4 ≤ r.buf.length → header.length = 4 →
      limit < littleEndian header → (∀ u ∈ uses, u.calm = true) →
      ∃ r' bytes, r.useAll limit (header ++ body) uses = .ok (r', bytes) ∧
        r'.returned = r.returned ∧ body <:+ bytes ∧
        (4 ≤ chunks uses → bytes = body ∧ r'.phase = .closed (.refused
          (if 2 ^ 31 ≤ littleEndian header then .overflow else .tooLarge (littleEndian header)))) := by
  constructor
  · intro calls stream uses hwritten hcalm
    obtain ⟨rfl, hsize⟩ := stream_of_writeAll calls (Reader.follows_new []).room hwritten
    obtain ⟨r, bytes, done, coming, hrun, hadvances, hempty⟩ :=
      (Reader.follows_new (calls.map Prod.fst)).useAll hlimit uses hsize hcalm
    have hfollows := hadvances.follows
    refine ⟨r, bytes, done, coming, hrun, hadvances.coming, hadvances.returned, hfollows.stream,
      fun why hclosed => ?_, fun hmany => ?_⟩
    · have hrange := hfollows.range
      rw [Reader.InRange, hclosed] at hrange
      exact hrange
    · have hnone := hempty hmany
      rw [hnone] at hfollows
      obtain ⟨hcoming, hphase⟩ := hfollows.eq_nil fun payload hpayload => by
        have hle := hsize payload (hadvances.coming ▸ mem_append_right done hpayload)
        omega
      exact ⟨hcoming, hnone, hphase⟩
  · intro r header body uses hphase hroom hheader hlarge hcalm
    have hcheck : (readPolicy limit).check (littleEndian header) = .ok (some
        (if 2 ^ 31 ≤ littleEndian header then .overflow else .tooLarge (littleEndian header))) := by
      rw [readPolicy]
      dsimp only
      rw [if_pos hlarge]
      split_ifs <;> rfl
    have hrefuses : r.Refuses (header ++ body) header body
        (if 2 ^ 31 ≤ littleEndian header then .overflow else .tooLarge (littleEndian header)) :=
      Or.inl ⟨4, hphase, by decide, Nat.le_refl _, hroom, rfl⟩
    obtain ⟨r', bytes, hrun, hreturned, h, hdone⟩ := hrefuses.useAll hheader hcheck uses hcalm
    refine ⟨r', bytes, hrun, hreturned, h.suffix hheader, fun hmany => ?_⟩
    obtain ⟨hclosed, hbytes⟩ := h.closed hheader (hdone (by rw [length_append]; omega))
    exact ⟨hbytes, hclosed⟩

/-- Twelve pieces, some of them larger than what is left of a frame. -/
def pieces : List Use :=
  [.read (.chunk 3), .read (.chunk 0), .read (.chunk 2), .read (.chunk 1), .read (.chunk 1),
    .write 9, .read (.chunk 9), .read (.chunk 1), .read (.chunk 1), .read (.chunk 1),
    .read (.chunk 1), .read (.chunk 1)]

/-- Two payloads, the second of which is empty. -/
theorem framing_survives_chunking_two :
    ∃ r, Reader.new.useAll 100 (frame [7, 8] ++ frame []) pieces = .ok (r, []) ∧
      r.returned = [some [7, 8], some []] := by
  obtain ⟨r, bytes, done, coming, hrun, hcalls, hreturned, -, -, hall⟩ :=
    (framing_survives_chunking 100 (by decide)).1 [([7, 8], [1, 3, 2]), ([], [4])]
      (frame [7, 8] ++ frame []) pieces (by decide +kernel) (by decide)
  obtain ⟨rfl, rfl, -⟩ := hall (by decide)
  refine ⟨r, hrun, ?_⟩
  rw [hreturned]
  rw [append_nil] at hcalls
  rw [← hcalls]
  rfl

end Blockmania.Network
