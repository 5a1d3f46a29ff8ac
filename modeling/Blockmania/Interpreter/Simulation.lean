/-
# Comparing two interpretations

Two interpretations of a block may differ in rounds that nobody looks at any
more. A predicate `keep` says which instances are looked at. If the memories
agree on those, and the outputs received agree on the messages of those, then so
do the results, whatever the other instances do: messages of other instances are
stuttering steps of one side, and messages of the kept ones are processed on
both sides with the same effect.
-/

import Blockmania.Interpreter.Loops

namespace Blockmania

open Math List

/-- Two lists have the same kept elements in the same order. -/
inductive SameKept {α : Type} (keep : α → Bool) : List α → List α → Prop
  | nil : SameKept keep [] []
  | left {a : α} {as bs : List α} (hdrop : keep a = false) (h : SameKept keep as bs) :
      SameKept keep (a :: as) bs
  | right {b : α} {as bs : List α} (hdrop : keep b = false) (h : SameKept keep as bs) :
      SameKept keep as (b :: bs)
  | both {a : α} {as bs : List α} (hkeep : keep a = true) (h : SameKept keep as bs) :
      SameKept keep (a :: as) (a :: bs)

namespace SameKept

variable {α : Type} {keep : α → Bool}

theorem of_filter_eq : ∀ {as bs : List α}, as.filter keep = bs.filter keep → SameKept keep as bs := by
  intro as
  induction as with
  | nil =>
    intro bs
    induction bs with
    | nil => exact fun _ => .nil
    | cons b bs ih =>
      intro h
      have hnone : ∀ x ∈ b :: bs, ¬ keep x = true := filter_eq_nil_iff.mp h.symm
      refine .right (eq_false_of_ne_true (hnone b mem_cons_self)) (ih ?_)
      exact (filter_eq_nil_iff.mpr fun x hx => hnone x (mem_cons_of_mem _ hx)).symm
  | cons a as ih =>
    intro bs h
    cases hkeep : keep a with
    | false =>
      rw [filter_cons_of_neg (by simp [hkeep])] at h
      exact .left hkeep (ih h)
    | true =>
      rw [filter_cons_of_pos hkeep] at h
      -- the kept head is found in the other list behind elements that are dropped
      induction bs with
      | nil => cases h
      | cons b bs ihb =>
        cases hkeepb : keep b with
        | false =>
          rw [filter_cons_of_neg (by simp [hkeepb])] at h
          exact .right hkeepb (ihb h)
        | true =>
          rw [filter_cons_of_pos hkeepb] at h
          obtain ⟨rfl, htail⟩ := List.cons.inj h
          exact .both hkeep (ih htail)

theorem refl (as : List α) : SameKept keep as as := of_filter_eq rfl

variable {as bs cs : List α}

theorem symm (h : SameKept keep as bs) : SameKept keep bs as := by
  induction h with
  | nil => exact .nil
  | left hdrop _ ih => exact .right hdrop ih
  | right hdrop _ ih => exact .left hdrop ih
  | both hkeep _ ih => exact .both hkeep ih

theorem filter_eq (h : SameKept keep as bs) : as.filter keep = bs.filter keep := by
  induction h with
  | nil => rfl
  | left hdrop _ ih => rwa [filter_cons_of_neg (by simp [hdrop])]
  | right hdrop _ ih => rwa [filter_cons_of_neg (by simp [hdrop])]
  | both hkeep _ ih => rw [filter_cons_of_pos hkeep, filter_cons_of_pos hkeep, ih]

theorem eq_of_all (hall : ∀ a, keep a = true) (h : SameKept keep as bs) : as = bs := by
  have hsame := h.filter_eq
  rwa [filter_eq_self.mpr fun a _ => hall a, filter_eq_self.mpr fun a _ => hall a] at hsame

theorem trans (h : SameKept keep as bs) (h' : SameKept keep bs cs) :
    SameKept keep as cs :=
  of_filter_eq (h.filter_eq.trans h'.filter_eq)

theorem append {ds : List α} (h : SameKept keep as bs) (h' : SameKept keep cs ds) :
    SameKept keep (as ++ cs) (bs ++ ds) :=
  of_filter_eq (by rw [filter_append, filter_append, h.filter_eq, h'.filter_eq])

end SameKept

/-- The messages of kept instances. -/
def keptMessage (keep : NodeRound → Bool) (msg : Message) : Bool := keep msg.nodeRound

/-- The timeouts of kept instances. -/
def keptTimeout (keep : NodeRound → Bool) (t : Timeout) : Bool := keep ⟨t.node, t.round⟩

/-- Two memories agree on the kept instances, on the timeout value and on the
timeouts of kept instances under live deadlines. -/
structure Agree (keep : NodeRound → Bool) (live : Nat → Prop) (mem mem' : Memory) : Prop where
  inst : ∀ key, keep key = true → mem.inst key = mem'.inst key
  timeout : mem.state.timeout = mem'.state.timeout
  timeoutsAt : ∀ d, live d →
    SameKept (keptTimeout keep) (mem.timeoutsAt d) (mem'.timeoutsAt d)

namespace Agree

variable {keep : NodeRound → Bool} {live : Nat → Prop} {p : Params} {mem mem' : Memory}

theorem symm (h : Agree keep live mem mem') : Agree keep live mem' mem where
  inst key hkeep := (h.inst key hkeep).symm
  timeout := h.timeout.symm
  timeoutsAt d hd := (h.timeoutsAt d hd).symm

variable {fs : List Filing} {key : NodeRound} {next : Memory}

/-- A change to an instance that is not kept goes unnoticed. -/
theorem left (h : Agree keep live mem mem') (hdrop : keep key = false)
    (heffect : Memory.Effect key fs mem next)
    (hfiled : ∀ f ∈ fs, (⟨f.timeout.node, f.timeout.round⟩ : NodeRound) = key) :
    Agree keep live next mem' where
  inst key' hkeep := by
    rw [← h.inst key' hkeep]
    refine heffect.inst key' ?_
    rintro rfl
    rw [hdrop] at hkeep
    cases hkeep
  timeout := heffect.timeout.trans h.timeout
  timeoutsAt d hd := by
    rw [heffect.timeoutsAt, ← append_nil (mem'.timeoutsAt d)]
    refine (h.timeoutsAt d hd).append (SameKept.of_filter_eq (filter_eq_nil_iff.mpr ?_))
    intro t ht
    obtain ⟨f, hf, rfl⟩ := mem_map.mp ht
    rw [keptTimeout, hfiled f (mem_filter.mp hf).1, hdrop]
    exact Bool.false_ne_true

/-- The same change to a kept instance on both sides. -/
theorem both {next' : Memory} (h : Agree keep live mem mem')
    (heffect : Memory.Effect key fs mem next) (heffect' : Memory.Effect key fs mem' next')
    (hinst : next.inst key = next'.inst key) :
    Agree keep live next next' where
  inst key' hkeep := by
    by_cases hkey : key' = key
    · rw [hkey, hinst]
    · rw [heffect.inst key' hkey, heffect'.inst key' hkey, h.inst key' hkeep]
  timeout := heffect.timeout.trans (h.timeout.trans heffect'.timeout.symm)
  timeoutsAt d hd := by
    rw [heffect.timeoutsAt, heffect'.timeoutsAt]
    exact (h.timeoutsAt d hd).append (SameKept.refl _)

end Agree

/-- The timeout an answer goes with is one of the instance of the message. -/
theorem filings_key {p : Params} {mem : Memory} {sender receiver : Nat} {origin : BlockID}
    {msg : Message} {reply : Reply}
    (h : processMessage p mem sender receiver origin msg = .ok reply) (deadline : Nat) :
    ∀ f ∈ filings deadline reply.resp,
      (⟨f.timeout.node, f.timeout.round⟩ : NodeRound) = msg.nodeRound := by
  intro f hf
  have hresp : ∀ resp, reply.resp = some resp → resp.nodeRound = msg.nodeRound :=
    fun _ => Instance.nodeRound_of_transition (transition_of_processMessage h)
  unfold filings at hf
  split at hf
  · rename_i m hm
    rw [mem_singleton] at hf
    subst hf
    exact hresp (.prePrepare m) hm
  · cases hf

variable {keep : NodeRound → Bool} {live : Nat → Prop} {p : Params} {mem mem' : Memory}
  {reply reply' : Reply} {sender receiver : Nat} {origin : BlockID} {msg : Message}

/-- A message of an instance that is not kept is a stuttering step. -/
theorem agree_message_left (h : Agree keep live mem mem') (hdrop : keptMessage keep msg = false)
    (hreply : processMessage p mem sender receiver origin msg = .ok reply) :
    Agree keep live reply.mem mem' ∧
      (∀ resp ∈ reply.resp, keptMessage keep resp = false) ∧
      ∀ d ∈ reply.delivery, keep d.key = false := by
  have htransition := transition_of_processMessage hreply
  refine ⟨h.left hdrop (processMessage_effect hreply) (filings_key hreply _), fun resp hresp => ?_,
    fun d hd => ?_⟩
  · rw [keptMessage, Instance.nodeRound_of_transition htransition hresp]
    exact hdrop
  · rw [Instance.key_of_transition htransition hd]
    exact hdrop

/-- A message of a kept instance has the same effect on both sides. -/
theorem agree_message_both (h : Agree keep live mem mem') (hkeep : keptMessage keep msg = true)
    (hreply : processMessage p mem sender receiver origin msg = .ok reply)
    (hreply' : processMessage p mem' sender receiver origin msg = .ok reply') :
    Agree keep live reply.mem reply'.mem ∧ reply.resp = reply'.resp ∧
      reply.delivery = reply'.delivery := by
  have hstep := step_of_processMessage hreply
  rw [h.inst msg.nodeRound hkeep, step_of_processMessage hreply'] at hstep
  obtain ⟨hinst, hresp, hdelivery⟩ := Outcome.mk.inj (Except.ok.inj hstep)
  have heffect := processMessage_effect hreply
  rw [h.timeout, ← hresp] at heffect
  exact ⟨h.both heffect (processMessage_effect hreply') hinst.symm, hresp.symm, hdelivery.symm⟩

variable {t : Timeout}

/-- A view of an instance that is not kept runs out. -/
theorem agree_expire_left (h : Agree keep live mem mem') (node : Nat)
    (hdrop : keptTimeout keep t = false) :
    Agree keep live (mem.expire node t).1 mem' ∧
      ∀ vc ∈ (mem.expire node t).2, keptMessage keep vc = false := by
  refine ⟨h.left hdrop (expire_effect node t) (by simp), fun vc hvc => ?_⟩
  have houtcome := expire_outcome mem node t
  obtain ⟨hexpired, -⟩ | ⟨hexpired, -⟩ :=
    (mem.inst ⟨t.node, t.round⟩).expire_cases ⟨t.node, t.round⟩ node t.view
  · rw [(Prod.mk.inj (houtcome.trans hexpired)).2] at hvc
    cases hvc
  · rw [(Prod.mk.inj (houtcome.trans hexpired)).2] at hvc
    cases hvc
    exact hdrop

/-- A view of a kept instance runs out on both sides. -/
theorem agree_expire_both (h : Agree keep live mem mem') (node : Nat)
    (hkeep : keptTimeout keep t = true) :
    Agree keep live (mem.expire node t).1 (mem'.expire node t).1 ∧
      (mem.expire node t).2 = (mem'.expire node t).2 := by
  have houtcome := expire_outcome mem node t
  rw [h.inst _ hkeep, ← expire_outcome mem' node t] at houtcome
  obtain ⟨hinst, hvc⟩ := Prod.mk.inj houtcome
  exact ⟨h.both (expire_effect node t) (expire_effect node t) hinst, hvc⟩

/-! ## Sessions -/

variable {σ σ' : Type} {H : Host σ} {H' : Host σ'} {rel : σ → σ' → Prop} {call : Call}

/-- A relation of hosts that only deliveries of kept instances can see. -/
structure Coupling (H : Host σ) (H' : Host σ') (keep : NodeRound → Bool) (rel : σ → σ' → Prop) :
    Prop where
  observe_left : ∀ {s s'} ev, rel s s' → rel (H.observe s ev) s'
  observe_right : ∀ {s s'} ev, rel s s' → rel s (H'.observe s' ev)
  deliver_left : ∀ {s s' d t}, rel s s' → keep d.key = false → H.deliver s d = .ok t → rel t s'
  deliver_right : ∀ {s s' d t'}, rel s s' → keep d.key = false → H'.deliver s' d = .ok t' → rel s t'
  deliver_both : ∀ {s s' d t t'}, rel s s' → keep d.key = true → H.deliver s d = .ok t →
    H'.deliver s' d = .ok t' → rel t t'

theorem Coupling.symm (c : Coupling H H' keep rel) : Coupling H' H keep (fun s' s => rel s s') where
  observe_left := c.observe_right
  observe_right := c.observe_left
  deliver_left := c.deliver_right
  deliver_right := c.deliver_left
  deliver_both hrel hkeep h h' := c.deliver_both hrel hkeep h' h

/-- Two sessions agree on what is kept. -/
structure Coupled (keep : NodeRound → Bool) (live : Nat → Prop) (rel : σ → σ' → Prop)
    (s : Session σ) (s' : Session σ') : Prop where
  host : rel s.host s'.host
  mem : Agree keep live s.mem s'.mem
  processed : ∀ msg, keptMessage keep msg = true →
    s.processed[msg]?.getD false = s'.processed[msg]?.getD false

variable {s t : Session σ} {s' t' : Session σ'} {resp : Option Message}
  {msgs msgs' out : List Message} {block : BlockID} {lost : σ → Prop} {ts : List Timeout}
  {deps : List BlockID} {lost' : σ' → Prop} {fail : Halt σ' → Prop} {depth : Nat}

theorem Coupled.symm (h : Coupled keep live rel s s') :
    Coupled keep live (fun s' s => rel s s') s' s where
  host := h.host
  mem := h.mem.symm
  processed msg hkeep := (h.processed msg hkeep).symm

theorem coupled_answer_left (c : Coupling H H' keep rel) (h : Coupled keep live rel s s')
    (hdrop : keptMessage keep msg = false) (hanswer : answer H p call s msg = .ok (t, resp)) :
    Coupled keep live rel t s' ∧ SameKept (keptMessage keep) resp.toList [] := by
  rcases answer_eq_ok hanswer with ⟨-, rfl, rfl⟩ | ⟨-, reply, host, hreply, hsettle, rfl, rfl⟩
  · exact ⟨h, .nil⟩
  obtain ⟨hmem, hresp, hdelivery⟩ := agree_message_left h.mem hdrop hreply
  refine ⟨⟨?_, hmem, fun m hm => ?_⟩, ?_⟩
  · have hnoted : rel (s.noting H call msg) s'.host := c.observe_left _ h.host
    cases hd : reply.delivery with
    | none =>
      rw [hd] at hsettle
      cases hsettle
      exact hnoted
    | some d =>
      rw [hd] at hsettle
      exact c.deliver_left hnoted (hdelivery d hd) (haltAt_eq_ok.mp hsettle)
  · rw [← h.processed m hm, FiniteMap.lookup_insert_of_ne]
    rintro rfl
    rw [hdrop] at hm
    cases hm
  · cases hr : reply.resp with
    | none => exact .nil
    | some r => exact .left (hresp r hr) .nil

theorem coupled_answer_both (c : Coupling H H' keep rel) {resp' : Option Message}
    (h : Coupled keep live rel s s') (hkeep : keptMessage keep msg = true)
    (hanswer : answer H p call s msg = .ok (t, resp))
    (hanswer' : answer H' p call s' msg = .ok (t', resp')) :
    Coupled keep live rel t t' ∧ SameKept (keptMessage keep) resp.toList resp'.toList := by
  have hsame := h.processed msg hkeep
  rcases answer_eq_ok hanswer with ⟨hseen, rfl, rfl⟩ | ⟨hfresh, reply, host, hreply, hsettle, rfl, rfl⟩
  · rcases answer_eq_ok hanswer' with ⟨-, rfl, rfl⟩ | ⟨hfresh, -⟩
    · exact ⟨h, .nil⟩
    · rw [hseen, hfresh] at hsame
      cases hsame
  rcases answer_eq_ok hanswer' with ⟨hseen, -, -⟩ | ⟨-, reply', host', hreply', hsettle', rfl, rfl⟩
  · rw [hseen, hfresh] at hsame
    cases hsame
  obtain ⟨hmem, hresp, hdelivery⟩ := agree_message_both h.mem hkeep hreply hreply'
  refine ⟨⟨?_, hmem, fun m hm => ?_⟩, hresp ▸ SameKept.refl _⟩
  · have hnoted : rel (s.noting H call msg) (s'.noting H' call msg) :=
      c.observe_left _ (c.observe_right _ h.host)
    cases hd : reply.delivery with
    | none =>
      rw [← hdelivery, hd] at hsettle'
      rw [hd] at hsettle
      cases hsettle
      cases hsettle'
      exact hnoted
    | some d =>
      rw [← hdelivery, hd] at hsettle'
      rw [hd] at hsettle
      have hkey := Instance.key_of_transition (transition_of_processMessage hreply) hd
      exact c.deliver_both hnoted (hkey ▸ hkeep) (haltAt_eq_ok.mp hsettle)
        (haltAt_eq_ok.mp hsettle')
  · simp only [FiniteMap.lookup_insert]
    split
    · rfl
    · exact h.processed m hm

/-- A property of the surroundings that is never lost again. -/
structure Host.Lasts (H : Host σ) (lost : σ → Prop) : Prop where
  observe : ∀ {s} ev, lost s → lost (H.observe s ev)
  deliver : ∀ {s d t}, lost s → H.deliver s d = .ok t → lost t

section

variable (hlasts : H.Lasts lost)
include hlasts

theorem Host.Lasts.expireAll {host : σ} (mem : Memory) (hlost : lost host) :
    lost (Blockmania.expireAll H block ts host mem).1 :=
  inv_expireAll (fun host _ _ => lost host) (fun _ _ _ _ _ hinv => hlasts.observe _ hinv) [] hlost

theorem Host.Lasts.kept :
    Kept H p call (fun _ => True) (fun session _ => lost session.host) (fun _ => True) := by
  intro session emitted msg hinv _
  have hnoted : lost (session.noting H call msg) := hlasts.observe _ hinv
  apply ensures_answer (fun _ => hinv) (fun _ _ => trivial)
  intro reply _
  exact ensures_settle (fun _ => hnoted) (fun d host' _ h => hlasts.deliver hnoted h)
    (fun _ _ _ _ => trivial)

theorem Host.Lasts.pass (hlost : lost s.host)
    (hrun : Blockmania.pass H p call msgs s = .ok (t, out)) : lost t.host :=
  (@ensures_pass σ H p call _ _ _ hlasts.kept msgs s [] (fun _ _ => .inl trivial) hlost).of_ok hrun

theorem Host.Lasts.answers (hlost : lost s.host)
    (hrun : Blockmania.answers H p call depth msgs s = .ok (t, out)) : lost t.host :=
  (@ensures_answers σ H p call _ _ _ hlasts.kept depth msgs s [] hlost).of_ok hrun

theorem Host.Lasts.processMessages (emitted : List Message) (hlost : lost s.host) :
    Ensures (Blockmania.processMessages H p call msgs s) (fun r => lost r.1.host) (fun _ => True) :=
  ensures_processMessages hlasts.kept emitted (fun _ _ => .inl trivial) hlost

theorem Host.Lasts.processDeps (hlost : lost s.host) :
    Ensures (Blockmania.processDeps H p block deps s) (fun r => lost r.1.host) (fun _ => True) :=
  @ensures_processDeps σ H p _ (fun session _ => lost session.host) block deps
    (fun _ _ _ emitted hinv => hlasts.processMessages emitted hinv) s [] hlost

end

theorem Host.lasts_false (H : Host σ) : H.Lasts (fun _ => False) :=
  ⟨fun _ h => h, fun h _ => h⟩

/-- One interpretation keeps up with another one: it agrees with it after every message,
or stops in a way that satisfies `fail`, unless the other one is lost. If it is lost itself
it stays so. -/
structure Leads (H : Host σ) (H' : Host σ') (p : Params) (keep : NodeRound → Bool)
    (live : Nat → Prop) (rel : σ → σ' → Prop) (lost : σ → Prop) (lost' : σ' → Prop)
    (fail : Halt σ' → Prop) : Prop where
  coupling : Coupling H H' keep rel
  lasts : H.Lasts lost
  lasts' : ∀ {block deps s'}, lost' s'.host →
    Ensures (processDeps H' p block deps s') (fun r => lost' r.1.host) fail
  right : ∀ {call s s' msg}, Coupled keep live rel s s' → ¬ lost s.host →
    keptMessage keep msg = false → Ensures (answer H' p call s' msg)
      (fun r => Coupled keep live rel s r.1 ∧ SameKept (keptMessage keep) [] r.2.toList) fail
  both : ∀ {call s t s' msg resp}, Coupled keep live rel s s' → keptMessage keep msg = true →
    answer H p call s msg = .ok (t, resp) → ¬ lost t.host → Ensures (answer H' p call s' msg)
      (fun r => Coupled keep live rel t r.1 ∧ SameKept (keptMessage keep) resp.toList r.2.toList)
      fail

section Leads

variable (leads : Leads H H' p keep live rel lost lost' fail)
include leads

theorem leads_pass (hmsgs : SameKept (keptMessage keep) msgs msgs') (h : Coupled keep live rel s s')
    (hpass : pass H p call msgs s = .ok (t, out)) (hkept : ¬ lost t.host) :
    Ensures (pass H' p call msgs' s')
      (fun r => Coupled keep live rel t r.1 ∧ SameKept (keptMessage keep) out r.2) fail := by
  induction hmsgs generalizing s t s' out with
  | nil =>
    cases hpass
    exact ⟨h, .nil⟩
  | left hdrop _ ih =>
    obtain ⟨⟨mid, resp⟩, hanswer, hpass⟩ := bind_eq_ok.mp hpass
    obtain ⟨⟨last, rest⟩, hrest, hpass⟩ := bind_eq_ok.mp hpass
    cases hpass
    obtain ⟨hmid, hresp⟩ := coupled_answer_left leads.coupling h hdrop hanswer
    exact (ih hmid hrest hkept).mono fun r hr => ⟨hr.1, hresp.append hr.2⟩
  | right hdrop _ ih =>
    have hstart : ¬ lost s.host := fun hlost => hkept (leads.lasts.pass hlost hpass)
    refine (leads.right h hstart hdrop).bind ?_
    rintro ⟨mid', resp'⟩ ⟨hmid, hresp⟩
    refine (ih hmid hpass hkept).bind ?_
    rintro ⟨last', rest'⟩ ⟨hlast, hout⟩
    exact ⟨hlast, hresp.append hout⟩
  | both hkeep _ ih =>
    obtain ⟨⟨mid, resp⟩, hanswer, hpass⟩ := bind_eq_ok.mp hpass
    obtain ⟨⟨last, rest⟩, hrest, hpass⟩ := bind_eq_ok.mp hpass
    cases hpass
    have hmiddle : ¬ lost mid.host := fun hlost => hkept (leads.lasts.pass hlost hrest)
    refine (leads.both h hkeep hanswer hmiddle).bind ?_
    rintro ⟨mid', resp'⟩ ⟨hmid, hresp⟩
    refine (ih hmid hrest hkept).bind ?_
    rintro ⟨last', rest'⟩ ⟨hlast, hout⟩
    exact ⟨hlast, hresp.append hout⟩

theorem leads_answers (hmsgs : SameKept (keptMessage keep) msgs msgs')
    (h : Coupled keep live rel s s') (hanswers : answers H p call depth msgs s = .ok (t, out))
    (hkept : ¬ lost t.host) :
    Ensures (answers H' p call depth msgs' s')
      (fun r => Coupled keep live rel t r.1 ∧ SameKept (keptMessage keep) out r.2) fail := by
  induction depth generalizing msgs msgs' s t s' out with
  | zero =>
    cases hanswers
    exact ⟨h, hmsgs⟩
  | succ depth ih =>
    obtain ⟨⟨mid, next⟩, hpass, hanswers⟩ := bind_eq_ok.mp hanswers
    obtain ⟨⟨last, rest⟩, hrest, hanswers⟩ := bind_eq_ok.mp hanswers
    cases hanswers
    have hmiddle : ¬ lost mid.host := fun hlost => hkept (leads.lasts.answers hlost hrest)
    refine (leads_pass leads hmsgs h hpass hmiddle).bind ?_
    rintro ⟨mid', next'⟩ ⟨hmid, hnext⟩
    refine (ih hnext hmid hrest hkept).bind ?_
    rintro ⟨last', rest'⟩ ⟨hlast, hout⟩
    exact ⟨hlast, hmsgs.append hout⟩

theorem leads_processMessages (hmsgs : SameKept (keptMessage keep) msgs msgs')
    (h : Coupled keep live rel s s') (hrun : processMessages H p call msgs s = .ok (t, out))
    (hkept : ¬ lost t.host) :
    Ensures (processMessages H' p call msgs' s')
      (fun r => Coupled keep live rel t r.1 ∧ SameKept (keptMessage keep) out r.2) fail := by
  obtain ⟨⟨mid, first⟩, hpass, hrun⟩ := bind_eq_ok.mp hrun
  have hmiddle : ¬ lost mid.host := fun hlost => hkept (leads.lasts.answers hlost hrun)
  refine (leads_pass leads hmsgs h hpass hmiddle).bind ?_
  rintro ⟨mid', first'⟩ ⟨hmid, hfirst⟩
  exact leads_answers leads hfirst hmid hrun hkept

/-- The outputs only have to agree as long as nothing is lost. -/
theorem leads_processDeps (houtput : ∀ dep ∈ deps, ∀ {s s'}, rel s s' → ¬ lost s → ¬ lost' s' →
      SameKept (keptMessage keep) (H.output s dep) (H'.output s' dep))
    (h : Coupled keep live rel s s') (hrun : processDeps H p block deps s = .ok (t, out))
    (hkept : ¬ lost t.host) :
    Ensures (processDeps H' p block deps s') (fun r => ¬ lost' r.1.host →
      Coupled keep live rel t r.1 ∧ SameKept (keptMessage keep) out r.2) fail := by
  induction deps generalizing s t s' out with
  | nil =>
    cases hrun
    exact fun _ => ⟨h, .nil⟩
  | cons dep deps ih =>
    by_cases hlost' : lost' s'.host
    · exact (leads.lasts' hlost').mono fun r hr hkept' => absurd hr hkept'
    have hstart : ¬ lost s.host := fun hlost => hkept ((leads.lasts.processDeps hlost).of_ok hrun)
    obtain ⟨⟨mid, first⟩, hfirst, hrun⟩ := bind_eq_ok.mp hrun
    obtain ⟨⟨last, rest⟩, hrest, hrun⟩ := bind_eq_ok.mp hrun
    cases hrun
    have hmiddle : ¬ lost mid.host := fun hlost => hkept ((leads.lasts.processDeps hlost).of_ok hrest)
    refine (leads_processMessages leads (houtput dep mem_cons_self h.host hstart hlost') h hfirst
      hmiddle).bind ?_
    rintro ⟨mid', first'⟩ ⟨hmid, hout⟩
    refine (ih (fun d hd => houtput d (mem_cons_of_mem _ hd)) hmid hrest hkept).bind ?_
    rintro ⟨last', rest'⟩ hlast hkept'
    exact ⟨(hlast hkept').1, hout.append (hlast hkept').2⟩

end Leads

theorem coupled_expireAll (c : Coupling H H' keep rel) (block : BlockID) {ts' : List Timeout}
    (hts : SameKept (keptTimeout keep) ts ts') :
    ∀ {s : σ} {s' : σ'} {mem mem' : Memory}, rel s s' → Agree keep live mem mem' →
      rel (expireAll H block ts s mem).1 (expireAll H' block ts' s' mem').1 ∧
      Agree keep live (expireAll H block ts s mem).2.1 (expireAll H' block ts' s' mem').2.1 ∧
      SameKept (keptMessage keep) (expireAll H block ts s mem).2.2
        (expireAll H' block ts' s' mem').2.2 := by
  have hdropped : ∀ {vc : Option Message}, (∀ m ∈ vc, keptMessage keep m = false) →
      SameKept (keptMessage keep) vc.toList [] := by
    rintro (_ | m) hm
    · exact .nil
    · exact .left (hm m rfl) .nil
  induction hts with
  | nil => exact fun hrel hmem => ⟨hrel, hmem, .nil⟩
  | left hdrop _ ih =>
    intro s s' mem mem' hrel hmem
    obtain ⟨hmem', hvc⟩ := agree_expire_left hmem block.node hdrop
    obtain ⟨hhost, hlast, hout⟩ := ih (c.observe_left _ hrel) hmem'
    exact ⟨hhost, hlast, (hdropped hvc).append hout⟩
  | right hdrop _ ih =>
    intro s s' mem mem' hrel hmem
    obtain ⟨hmem', hvc⟩ := agree_expire_left hmem.symm block.node hdrop
    obtain ⟨hhost, hlast, hout⟩ := ih (c.observe_right _ hrel) hmem'.symm
    exact ⟨hhost, hlast, (hdropped hvc).symm.append hout⟩
  | both hkeep _ ih =>
    intro s s' mem mem' hrel hmem
    obtain ⟨hmem', hvc⟩ := agree_expire_both hmem block.node hkeep
    obtain ⟨hhost, hlast, hout⟩ := ih (c.observe_left _ (c.observe_right _ hrel)) hmem'
    exact ⟨hhost, hlast, (hvc ▸ SameKept.refl _ : SameKept _ _ _).append hout⟩

/-- Scheduling keeps agreement if it comes to the same timeout value. -/
theorem Agree.schedule {e e' : Entry}
    (hinst : ∀ key, keep key = true → mem.inst key = mem'.inst key)
    (htimeouts : ∀ d, live d → SameKept (keptTimeout keep) (mem.timeoutsAt d) (mem'.timeoutsAt d))
    (hblock : e.block = e'.block)
    (hvalue : timeoutValue p (recordDelays e.block.round e.deps mem.state.delay) =
      timeoutValue p (recordDelays e'.block.round e'.deps mem'.state.delay)) :
    Agree keep live (mem.schedule p e) (mem'.schedule p e') where
  inst key hkeep := by
    rw [inst_schedule, inst_schedule, hinst key hkeep]
  timeout := by
    rw [timeout_schedule, timeout_schedule, hvalue]
  timeoutsAt d hd := by
    rw [timeoutsAt_schedule, timeoutsAt_schedule, hvalue, hblock]
    exact (htimeouts d hd).append (SameKept.refl _)

/-- An interpretation keeps up with another one and agrees with it on what is kept, if
the states they start from and the outputs they receive do. -/
theorem leads_conduct (leads : Leads H H' p keep live rel lost lost' fail) {s t : σ} {s' : σ'}
    {last : Memory} (hlive : live block.round)
    (houtput : ∀ dep ∈ deps, ∀ {s s'}, rel s s' → ¬ lost s → ¬ lost' s' →
      SameKept (keptMessage keep) (H.output s dep) (H'.output s' dep)) (hrel : rel s s')
    (hmem : Agree keep live mem mem') (hrun : conduct H p block deps s mem = .ok (t, last))
    (hkept : ¬ lost t) :
    Ensures (conduct H' p block deps s' mem') (fun r => ¬ lost' r.1 → rel t r.1 ∧
      Agree keep live last r.2 ∧ SameKept (keptMessage keep) last.state.out r.2.state.out) fail := by
  obtain ⟨hhost, hdue, hvcs⟩ :=
    coupled_expireAll leads.coupling block (hmem.timeoutsAt block.round hlive) hrel hmem
  obtain ⟨⟨mid, own⟩, hown, hrun⟩ := bind_eq_ok.mp hrun
  obtain ⟨⟨end₁, received⟩, hdeps, hrun⟩ := bind_eq_ok.mp hrun
  cases hrun
  have hfirst : SameKept (keptMessage keep) _ _ :=
    SameKept.refl [.prePrepare ⟨block.hash, block.node, block.round, 0⟩]
  have hout := hfirst.append hvcs
  have hmiddle : ¬ lost mid.host := fun hlost => hkept ((leads.lasts.processDeps hlost).of_ok hdeps)
  refine (leads_processMessages leads hout ⟨hhost, hdue, fun _ _ => rfl⟩ hown hmiddle).bind ?_
  rintro ⟨mid', own'⟩ ⟨hmid, hanswers⟩
  refine (leads_processDeps leads houtput hmid hdeps hkept).bind ?_
  rintro ⟨end₂, received'⟩ hreceived hkept'
  obtain ⟨hlast, hreceived⟩ := hreceived hkept'
  exact ⟨hlast.host, ⟨hlast.mem.inst, hlast.mem.timeout, hlast.mem.timeoutsAt⟩,
    (hout.append hanswers).append hreceived⟩

/-- Two interpretations that both come to an end. -/
theorem Coupling.leads (c : Coupling H H' keep rel) (hlasts : H.Lasts lost)
    (hlasts' : H'.Lasts lost') : Leads H H' p keep live rel lost lost' (fun _ => True) where
  coupling := c
  lasts := hlasts
  lasts' := hlasts'.processDeps
  right {call s s' msg} h _ hdrop := by
    cases hanswer : answer H' p call s' msg with
    | error halt => trivial
    | ok r =>
      obtain ⟨hr, hresp⟩ := coupled_answer_left c.symm h.symm hdrop hanswer
      exact ⟨hr.symm, hresp.symm⟩
  both {call s t s' msg resp} h hkeep hanswer _ := by
    cases hanswer' : answer H' p call s' msg with
    | error halt => trivial
    | ok r => exact coupled_answer_both c h hkeep hanswer hanswer'

/-- Two interpretations of a block agree on what is kept, if the states they
start from and the outputs they receive do. -/
theorem coupled_conduct (c : Coupling H H' keep rel) (hlasts : H.Lasts lost)
    (hlasts' : H'.Lasts lost') {s t : σ} {s' t' : σ'} {last last' : Memory}
    (hlive : live block.round) (houtput : ∀ dep ∈ deps, ∀ {s s'}, rel s s' → ¬ lost s → ¬ lost' s' →
      SameKept (keptMessage keep) (H.output s dep) (H'.output s' dep)) (hrel : rel s s')
    (hmem : Agree keep live mem mem') (hrun : conduct H p block deps s mem = .ok (t, last))
    (hrun' : conduct H' p block deps s' mem' = .ok (t', last')) (hkept : ¬ lost t)
    (hkept' : ¬ lost' t') :
    rel t t' ∧ Agree keep live last last' ∧
      SameKept (keptMessage keep) last.state.out last'.state.out :=
  (leads_conduct (c.leads hlasts hlasts') hlive houtput hrel hmem hrun hkept).of_ok hrun' hkept'

end Blockmania
