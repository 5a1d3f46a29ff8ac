/-
# Hellos

A connection begins with a hello, in which the client names itself and the server and
signs both together with a nonce and the time. The server checks the signature and the
time, and looks the nonce up among the used ones. A loop removes nonces that have
expired. No step adds one, so nothing keeps a hello from being sent a second time. A hello
without a payload is not checked at all.
-/

import Blockmania.Interpreter.Loops

namespace Blockmania.Node

open Math List

/-- `Sub` of two times in nanoseconds. The difference stops at the ends of the range of
64-bit integers. -/
def timeSub (t u : Int) : Int := max (-2 ^ 63) (min (2 ^ 63 - 1) (t - u))

/-- A duration without its sign. The least one has no counterpart and stays as it is. -/
def unsigned (diff : Int) : Int :=
  if diff < 0 then if diff = -2 ^ 63 then diff else -diff else diff

structure Hello where
  payload : List UInt8
  signature : List UInt8
  deriving DecidableEq, Repr

/-- The content of a payload. -/
structure HelloInfo where
  client : Nat
  nonce : List UInt8
  server : Nat
  timestamp : Int
  deriving DecidableEq, Repr

structure UsedNonce where
  nonce : List UInt8
  ts : Int
  deriving DecidableEq, Repr

/-- What is fixed for a server. How payloads are decoded and signatures are verified is left
open. -/
structure Config where
  id : Nat
  /-- The nodes whose public keys are known. -/
  keys : List Nat
  unmarshal : List UInt8 → Option HelloInfo
  verify : Nat → List UInt8 → List UInt8 → Bool
  nonceExpiration : Int

/-- The errors of `verifyPeerID`. -/
inductive Refusal
  /-- The error of the decoder. -/
  | undecodable
  | mismatchedServer (expected got : Nat)
  | unknownClient (client : Nat)
  | badSignature (client : Nat)
  | clockSkew (diff : Int)
  | duplicateNonce (client : Nat)
  deriving DecidableEq, Repr

/-- The text of an error. That of the decoder is its own. -/
def Refusal.text : Refusal → String
  | undecodable => ""
  | mismatchedServer expected got =>
    s!"node: mismatched server field in hello payload: expected {expected}, got {got}"
  | unknownClient client => s!"node: could not find public signing key for node {client}"
  | badSignature client =>
    s!"node: could not validate signature claiming to be from node {client}"
  | clockSkew diff =>
    s!"node: timestamp in client hello is outside of the max clock skew range: {diff}"
  | duplicateNonce client => s!"node: received duplicate nonce from {client}"

abbrev NonceMap : Type := FiniteMap Nat (List UsedNonce)

namespace Config

variable (conf : Config)

/-- `verifyPeerID` at the time `now`. It changes nothing. -/
def verifyPeerID (nonceMap : NonceMap) (now : Int) (hello : Hello) : Except Refusal Nat :=
  if hello.payload = [] then .ok 0
  else
    match conf.unmarshal hello.payload with
    | none => .error .undecodable
    | some info =>
      if info.server ≠ conf.id then .error (.mismatchedServer conf.id info.server)
      else if info.client ∉ conf.keys then .error (.unknownClient info.client)
      else if ¬ conf.verify info.client hello.payload hello.signature then
        .error (.badSignature info.client)
      else
        let diff := unsigned (timeSub now info.timestamp)
        if diff > conf.nonceExpiration then .error (.clockSkew diff)
        else if (nonceMap[info.client]?.getD []).any fun used => used.nonce = info.nonce then
          .error (.duplicateNonce info.client)
        else .ok info.client

/-- One round of `pruneNonceMap` at the time `now`. -/
def pruneNonceMap (now : Int) (nonceMap : NonceMap) : NonceMap :=
  nonceMap.toList.foldl (fun nmap entry =>
    let xs := entry.2.filter fun used => unsigned (timeSub now used.ts) < conf.nonceExpiration
    if xs ≠ [] then nmap.insert entry.1 xs else nmap) ∅

end Config

/-- A hello comes in, or the ticker fires, at the time `now`. -/
inductive Event
  | hello (now : Int) (hello : Hello)
  | tick (now : Int)

/-- A call of `verifyPeerID` and what it returned. -/
structure Call where
  now : Int
  hello : Hello
  result : Except Refusal Nat

namespace Config

variable (conf : Config)

/-- The calls of a run. -/
def run : List Event → NonceMap → List Call
  | [], _ => []
  | .hello now hello :: events, nonceMap =>
    ⟨now, hello, conf.verifyPeerID nonceMap now hello⟩ :: run events nonceMap
  | .tick now :: events, nonceMap => run events (conf.pruneNonceMap now nonceMap)

/-- The timestamp of a hello is within `nonceExpiration` of the time of the call. -/
def fresh (now : Int) (info : HelloInfo) : Bool :=
  -conf.nonceExpiration ≤ now - info.timestamp && now - info.timestamp ≤ conf.nonceExpiration

/-- The hello is addressed to this server, and the key of its client verifies it. -/
def vouched (info : HelloInfo) (hello : Hello) : Bool :=
  info.server = conf.id && conf.keys.contains info.client &&
    conf.verify info.client hello.payload hello.signature

/-- No hello succeeds twice while its timestamp is fresh, and success means that the key of
the client verifies the hello. -/
structure Protects (calls : List Call) : Prop where
  noReplay : calls.Pairwise fun a b => ∀ info info', conf.unmarshal a.hello.payload = some info →
    conf.unmarshal b.hello.payload = some info' → info.client = info'.client →
    info.nonce = info'.nonce → conf.fresh a.now info = true → conf.fresh b.now info' = true →
    ¬ (a.result.isOk = true ∧ b.result.isOk = true)
  authentic : ∀ call ∈ calls, ∀ peer, call.result = .ok peer →
    ∃ info, conf.unmarshal call.hello.payload = some info ∧ info.client = peer ∧
      conf.vouched info call.hello = true

/-- The hellos of a run with the times at which they come in. -/
def hellos : List Event → List (Int × Hello)
  | [] => []
  | .hello now hello :: events => (now, hello) :: hellos events
  | .tick _ :: events => hellos events

/-- A hello that has to be accepted once. -/
def presentable (x : Int × Hello) (info : HelloInfo) : Prop :=
  conf.unmarshal x.2.payload = some info ∧ conf.vouched info x.2 = true ∧
    conf.fresh x.1 info = true

/-- Every hello has a payload, or an empty one is a valid hello of node 0, and no two
valid hellos of a client have the same nonce. -/
structure Unrepeated (events : List Event) : Prop where
  payload : ∀ x ∈ hellos events, x.2.payload = [] →
    ∃ info, conf.unmarshal [] = some info ∧ info.client = 0 ∧ conf.vouched info x.2 = true
  nonce : (hellos events).Pairwise fun x y => ∀ info info', conf.presentable x info →
    conf.presentable y info' → ¬ (info.client = info'.client ∧ info.nonce = info'.nonce)

variable {conf} {now : Int} {hello : Hello} {info : HelloInfo}

theorem pruneNonceMap_empty (now : Int) : conf.pruneNonceMap now ∅ = ∅ :=
  rfl

/-- The calls of a run do not depend on each other. -/
theorem run_eq (events : List Event) :
    conf.run events ∅ = (hellos events).map fun x =>
      ⟨x.1, x.2, conf.verifyPeerID ∅ x.1 x.2⟩ := by
  induction events with
  | nil => rfl
  | cons event events ih =>
    cases event with
    | hello now hello => rw [run, hellos, map_cons, ih]
    | tick now => rw [run, hellos, pruneNonceMap_empty, ih]

/-- A fresh timestamp passes the test of the clock. -/
theorem unsigned_timeSub_le (hexp : conf.nonceExpiration < 2 ^ 63)
    (hfresh : conf.fresh now info = true) :
    unsigned (timeSub now info.timestamp) ≤ conf.nonceExpiration := by
  simp only [fresh, Bool.and_eq_true, decide_eq_true_eq] at hfresh
  have hexact : timeSub now info.timestamp = now - info.timestamp := by
    unfold timeSub
    omega
  rw [hexact, unsigned]
  split
  · split <;> omega
  · omega

/-- Without used nonces a presentable hello is accepted, as often as it comes. -/
theorem isOk_of_presentable (hexp : conf.nonceExpiration < 2 ^ 63)
    (h : conf.presentable (now, hello) info) :
    (conf.verifyPeerID ∅ now hello).isOk = true := by
  obtain ⟨hdecode, hvouched, hfresh⟩ := h
  have hclock := unsigned_timeSub_le hexp hfresh
  simp only [vouched, Bool.and_eq_true, decide_eq_true_eq, contains_eq_mem] at hvouched
  obtain ⟨⟨hserver, hknown⟩, hverify⟩ := hvouched
  unfold verifyPeerID
  split
  · rfl
  · dsimp only at hdecode
    rw [hdecode]
    dsimp only
    rw [if_neg (not_not.mpr hserver), if_neg (not_not.mpr hknown), if_neg (not_not.mpr hverify),
      if_neg (not_lt.mpr hclock), if_neg (by simp)]
    rfl

/-- A hello that is accepted has no payload or is vouched for. -/
theorem of_verifyPeerID {nonceMap : NonceMap} {peer : Nat}
    (h : conf.verifyPeerID nonceMap now hello = .ok peer) :
    hello.payload = [] ∧ peer = 0 ∨ ∃ info, conf.unmarshal hello.payload = some info ∧
      info.client = peer ∧ conf.vouched info hello = true := by
  unfold verifyPeerID at h
  split at h
  · rename_i hempty
    cases h
    exact .inl ⟨hempty, rfl⟩
  split at h
  · cases h
  rename_i info hdecode
  split at h
  · cases h
  rename_i hserver
  split at h
  · cases h
  rename_i hknown
  split at h
  · cases h
  rename_i hverify
  dsimp only at h
  split at h
  · cases h
  split at h
  · cases h
  · cases h
    refine .inr ⟨info, hdecode, rfl, ?_⟩
    simp only [vouched, Bool.and_eq_true, decide_eq_true_eq, contains_eq_mem]
    exact ⟨⟨not_not.mp hserver, not_not.mp hknown⟩, not_not.mp hverify⟩

/-- Hellos are protected from replay exactly if nobody replays one. -/
theorem protects_iff_unrepeated (hexp : conf.nonceExpiration < 2 ^ 63) (events : List Event) :
    conf.Protects (conf.run events ∅) ↔ conf.Unrepeated events := by
  rw [run_eq]
  constructor
  · intro h
    refine ⟨fun x hx hempty => ?_, (pairwise_map.mp h.noReplay).imp ?_⟩
    · obtain ⟨info, hdecode, hclient, hvouched⟩ := h.authentic _ (mem_map_of_mem hx) 0
        (if_pos hempty)
      exact ⟨info, hempty ▸ hdecode, hclient, hvouched⟩
    · rintro x y hnone info info' hx hy ⟨hclient, hnonce⟩
      exact hnone info info' hx.1 hy.1 hclient hnonce hx.2.2 hy.2.2
        ⟨isOk_of_presentable hexp hx, isOk_of_presentable hexp hy⟩
  · intro h
    -- whoever is let in is vouched for
    have hauthentic : ∀ x ∈ hellos events, ∀ peer, conf.verifyPeerID ∅ x.1 x.2 = .ok peer →
        ∃ info, conf.unmarshal x.2.payload = some info ∧ info.client = peer ∧
          conf.vouched info x.2 = true := by
      intro x hx peer hpeer
      rcases of_verifyPeerID hpeer with ⟨hempty, rfl⟩ | hvouched
      · rw [hempty]
        exact h.payload x hx hempty
      · exact hvouched
    have hpresentable : ∀ x ∈ hellos events, ∀ info, conf.unmarshal x.2.payload = some info →
        conf.fresh x.1 info = true → (conf.verifyPeerID ∅ x.1 x.2).isOk = true →
        conf.presentable x info := by
      intro x hx info hdecode hfresh hok
      cases hresult : conf.verifyPeerID ∅ x.1 x.2 with
      | error e =>
        rw [hresult] at hok
        cases hok
      | ok peer =>
        obtain ⟨info', hdecode', -, hvouched⟩ := hauthentic x hx peer hresult
        obtain rfl := Option.some.inj (hdecode.symm.trans hdecode')
        exact ⟨hdecode, hvouched, hfresh⟩
    refine ⟨?_, ?_⟩
    · rw [pairwise_map]
      refine h.nonce.imp_of_mem ?_
      rintro x y hx hy hnone info info' hdecode hdecode' hclient hnonce hfresh hfresh' ⟨hok, hok'⟩
      exact hnone info info' (hpresentable x hx info hdecode hfresh hok)
        (hpresentable y hy info' hdecode' hfresh' hok') ⟨hclient, hnonce⟩
    · intro call hcall peer hpeer
      obtain ⟨x, hx, rfl⟩ := mem_map.mp hcall
      exact hauthentic x hx peer hpeer

/-- A server whose clients sign with their number. A payload holds the client, the server,
the time and the nonce. -/
def plain : Config where
  id := 1
  keys := [1, 2, 3, 4]
  unmarshal
    | client :: server :: timestamp :: nonce =>
      some ⟨client.toNat, nonce, server.toNat, timestamp.toNat⟩
    | _ => some ⟨0, [], 0, 0⟩
  verify client _ signature := signature = [client.toUInt8]
  nonceExpiration := 30

/-- Two hellos of the second node with different nonces. -/
theorem protects_plain :
    plain.Protects (plain.run [.hello 100 ⟨[2, 1, 100, 7], [2]⟩, .tick 110,
      .hello 120 ⟨[2, 1, 120, 8], [2]⟩] ∅) := by
  refine (protects_iff_unrepeated (by decide) _).mpr ⟨by decide, ?_⟩
  refine pairwise_pair.mpr ?_
  rintro info info' hx hy ⟨-, hnonce⟩
  obtain rfl := Option.some.inj hx.1
  obtain rfl := Option.some.inj hy.1
  exact absurd hnonce (by decide)

/-- A hello is sent twice and is accepted twice. A hello without a payload is accepted as
well, and node 0 has no key. -/
theorem replayed_plain :
    (∃ a b, plain.run [.hello 100 ⟨[2, 1, 100, 7], [2]⟩, .hello 101 ⟨[2, 1, 100, 7], [2]⟩] ∅ =
        [a, b] ∧ a.hello = b.hello ∧ a.result.toOption = some 2 ∧ b.result.toOption = some 2 ∧
        ¬ plain.Protects [a, b]) ∧
      (∃ call, plain.run [.hello 100 ⟨[], []⟩] ∅ = [call] ∧ call.result.toOption = some 0 ∧
        ¬ plain.Protects [call]) ∧
      0 ∉ plain.keys := by
  refine ⟨⟨_, _, rfl, rfl, rfl, rfl, fun h => ?_⟩, ⟨_, rfl, rfl, fun h => ?_⟩, by decide⟩
  · exact pairwise_pair.mp h.noReplay _ _ rfl rfl rfl rfl (by decide) (by decide)
      ⟨by decide, by decide⟩
  · obtain ⟨info, hinfo, -, hvouched⟩ := h.authentic _ (mem_singleton.mpr rfl) 0 rfl
    cases hinfo
    revert hvouched
    decide

end Config

end Blockmania.Node
