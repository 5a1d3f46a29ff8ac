/-
# The rounds a state mentions

A state mentions a round in the messages of its output, in the data of an instance,
and in a timeout. Interpreting a block adds nothing about rounds past those that its
predecessor, the outputs it reads and its own round mention.

The timeouts of a state lie in arrays that other states share. A block that files a
timeout in the room behind an inherited slice overwrites whatever another successor
of the same state filed there. In a run in which that never changes a timeout that a
stored state holds, every state keeps the timeouts it was stored with.
-/

import Blockmania.Graph.Siblings

namespace Blockmania

open Math List

/-- A memory mentions a round: in a message of the output, in the data or the votes
of an instance, or in a timeout. -/
def Memory.Mentions (mem : Memory) (round : Nat) : Prop :=
  (∃ msg ∈ mem.state.out, msg.nodeRound.round = round) ∨
    (∃ key : NodeRound, key.round = round ∧ mem.inst key ≠ Instance.empty) ∨
    ∃ d, ∃ t ∈ mem.timeoutsAt d, t.round = round

/-- Nothing but the output mentions a round past `bound`. -/
structure Memory.Within (bound : Nat) (mem : Memory) : Prop where
  inst : ∀ key : NodeRound, bound < key.round → mem.inst key = Instance.empty
  timeouts : ∀ d, ∀ t ∈ mem.timeoutsAt d, t.round ≤ bound

/-- The output mentions no round past `bound`. -/
def State.Says (bound : Nat) (s : State) : Prop := ∀ msg ∈ s.out, msg.nodeRound.round ≤ bound

theorem Memory.Mentions.le {mem : Memory} {bound round : Nat} (h : mem.Mentions round)
    (hwithin : mem.Within bound) (hsaid : mem.state.Says bound) : round ≤ bound := by
  rcases h with ⟨msg, hmsg, rfl⟩ | ⟨key, rfl, hinst⟩ | ⟨d, t, ht, rfl⟩
  · exact hsaid msg hmsg
  · by_contra hlarge
    exact hinst (hwithin.inst key (not_le.mp hlarge))
  · exact hwithin.timeouts d t ht

/-- Whether anything is known of an instance does not depend on the heap. -/
theorem inst_eq_empty_of_heap {heap : Heap} {s : State} {key : NodeRound} (heap' : Heap)
    (h : Memory.inst ⟨heap, s⟩ key = Instance.empty) :
    Memory.inst ⟨heap', s⟩ key = Instance.empty := by
  have hvotes : ∀ w, s.data.viewChanged[(⟨key.node, key.round, w⟩ : NodeRoundView)]? = none := by
    intro w
    have hw := congrFun (congrArg Instance.viewChanged h) w
    simpa [Memory.inst, Instance.empty] using hw
  rw [← h]
  ext1 <;> try rfl
  funext w
  simp only [Memory.inst, hvotes w, Option.map_none]

namespace Memory.Within

variable {bound bound' : Nat} {mem : Memory}

theorem mono (h : mem.Within bound) (hle : bound ≤ bound') : mem.Within bound' where
  inst key hkey := h.inst key (lt_of_le_of_lt hle hkey)
  timeouts d t ht := (h.timeouts d t ht).trans hle

theorem fresh (heap : Heap) : Memory.Within bound ⟨heap, State.fresh⟩ where
  inst key _ := by simp [Memory.inst, State.fresh, Data.empty, Instance.empty]
  timeouts d t ht := by simp [Memory.timeoutsAt, State.fresh, Heap.read, Slice.nil] at ht

theorem clone {heap : Heap} {s : State} (h : Memory.Within bound ⟨heap, s⟩) (minround : Nat) :
    Memory.Within bound ⟨heap.tick, s.clone minround⟩ where
  inst key hkey := by
    rw [inst_clone]
    split
    · rfl
    · exact inst_eq_empty_of_heap _ (h.inst key hkey)
  timeouts d t ht := by
    rw [Memory.timeoutsAt_clone] at ht
    split at ht
    · cases ht
    · exact h.timeouts d t ht

theorem schedule (h : mem.Within bound) (p : Params) {e : Entry} (hround : e.block.round ≤ bound) :
    (mem.schedule p e).Within bound where
  inst key hkey := (inst_schedule p mem e key).trans (h.inst key hkey)
  timeouts d t ht := by
    rw [timeoutsAt_schedule, mem_append] at ht
    rcases ht with ht | ht
    · exact h.timeouts d t ht
    · split at ht
      · obtain ⟨xnode, -, rfl⟩ := mem_map.mp ht
        exact hround
      · cases ht

end Memory.Within

namespace Event

variable {p : Params} {ev : Event}

/-- An answer is about the instance of its step. -/
theorem answer_key {msg : Message} (h : ev.answer p = some msg) : msg.nodeRound = ev.key := by
  rcases answer_cases h with ⟨t, -, -, -, rfl⟩ | ⟨sender, receiver, cause, o, hcause, hresp, htransition⟩
  · rfl
  · rw [Instance.nodeRound_of_transition htransition hresp, key, hcause]

/-- A timeout is filed for the instance of the step. -/
theorem filed_key {f : Filing} (h : f ∈ ev.filed p) :
    (⟨f.timeout.node, f.timeout.round⟩ : NodeRound) = ev.key := by
  unfold filed at h
  cases hanswer : ev.answer p with
  | none =>
    rw [hanswer] at h
    cases h
  | some msg =>
    rw [hanswer] at h
    cases msg with
    | prePrepare m =>
      obtain rfl := mem_singleton.mp h
      exact answer_key hanswer
    | prepare m | commit m | viewChange m | newView m => cases h

end Event

/-- A step mentions the rounds mentioned before and the one it is about. -/
theorem Memory.Within.reply {bound : Nat} {p : Params} {ev : Event} {reply : Reply}
    (h : ev.mem.Within bound) (hkey : ev.key.round ≤ bound) (hreply : ev.reply p = .ok reply) :
    reply.mem.Within bound := by
  have heffect := Event.effect hreply
  constructor
  · intro key hround
    have hne : key ≠ ev.key := by
      rintro rfl
      omega
    rw [heffect.inst key hne]
    exact h.inst key hround
  · intro d t ht
    rw [heffect.timeoutsAt, mem_append] at ht
    rcases ht with ht | ht
    · exact h.timeouts d t ht
    · obtain ⟨f, hf, rfl⟩ := mem_map.mp ht
      have hround := congrArg NodeRound.round (Event.filed_key (mem_filter.mp hf).1)
      exact le_of_eq_of_le hround hkey

namespace Graph

variable {g : Graph} {e : Entry}

/-- The rule for blocks that build on nothing past a bound. All their steps are about
rounds up to the bound, so it is enough if such steps and deliveries keep the invariant. -/
theorem ensures_within {bound : Nat} (inv : Graph → Prop) {fail : Halt Graph → Prop}
    (hround : e.block.round ≤ bound) (hopened : (g.opened e).Within bound)
    (hdeps : ∀ dep ∈ e.deps, ∀ s, g.statess[dep]? = some s → s.Says bound) (hstart : inv g)
    (hobserve : ∀ g ev, inv g → inv (host.observe g ev))
    (hdeliver : ∀ g d, inv g → d.key.round ≤ bound →
      Ensures (deliver g d) inv (fun crash => fail ⟨crash, g⟩))
    (hcrash : ∀ mem sender msg crash (g' : Graph),
      processMessage g.params mem sender e.block.node e.block msg = .error crash → fail ⟨crash, g'⟩) :
    Ensures (interpret host g.params g.round g.heap g.statess[e.prev]? g e)
      (fun r => inv r.1 ∧ r.2.Within bound ∧ r.2.state.Says bound) fail := by
  let invs : Session Graph → List Message → Prop := fun session emitted =>
    (Follows g session.host ∧ inv session.host) ∧ session.mem.Within bound ∧
      ∀ msg ∈ emitted, msg.nodeRound.round ≤ bound
  have hanswers {ev : Event} {reply : Reply} {emitted : List Message}
      (hstep : ev.reply g.params = .ok reply) (hle : ev.key.round ≤ bound)
      (hemitted : ∀ m ∈ emitted, m.nodeRound.round ≤ bound) :
      ∀ m ∈ emitted ++ reply.resp.toList, m.nodeRound.round ≤ bound := by
    intro m hm
    rcases mem_append.mp hm with hm | hm
    · exact hemitted m hm
    · rw [Option.mem_toList] at hm
      have hanswer := Event.answer_key ((Event.answer_of_reply hstep).trans hm)
      exact le_of_eq_of_le (congrArg NodeRound.round hanswer) hle
  have hkept : ∀ sender source, (∀ msg, source msg → msg.nodeRound.round ≤ bound) →
      Kept host g.params ⟨sender, e.block.node, e.block⟩ source invs fail := by
    intro sender source hsource session emitted msg hinvs hmsg
    obtain ⟨⟨⟨evs, hadvances⟩, hinv⟩, hwithin, hemitted⟩ := hinvs
    have hle : msg.nodeRound.round ≤ bound := hmsg.elim (hsource msg) (hemitted msg)
    apply ensures_answer
    · exact fun _ => ⟨⟨⟨evs, hadvances⟩, hinv⟩, hwithin, by simpa using hemitted⟩
    · exact fun crash hstop => hcrash _ _ _ crash _ hstop
    intro reply hreply
    have hstep : Event.reply g.params ⟨e.block, session.mem, .message sender e.block.node msg⟩ =
        .ok reply := hreply
    have hnext := hwithin.reply hle hstep
    have hout := hanswers hstep hle hemitted
    have hnoted := hadvances.trans (Advances.observe session.host
      ⟨e.block, session.mem, .message sender e.block.node msg⟩)
    have hnow := hobserve _ ⟨e.block, session.mem, .message sender e.block.node msg⟩ hinv
    have hdelivered : ∀ d, reply.delivery = some d →
        Ensures (deliver (session.noting host ⟨sender, e.block.node, e.block⟩ msg) d) inv
          (fun crash => fail ⟨crash, session.noting host ⟨sender, e.block.node, e.block⟩ msg⟩) := by
      intro d hd
      have hkey := Instance.key_of_transition (transition_of_processMessage hreply) hd
      exact hdeliver _ d hnow (hkey ▸ hle)
    exact ensures_settle (fun _ => ⟨⟨⟨_, hnoted⟩, hnow⟩, hnext, hout⟩)
      (fun d host' hd hdone => ⟨⟨⟨_, hnoted.trans (advances_of_deliver hdone)⟩,
        (hdelivered d hd).of_ok hdone⟩, hnext, hout⟩)
      (fun d crash hd hstop => (hdelivered d hd).of_error hstop)
  have hscheduled := hopened.schedule g.params hround
  refine (ensures_conduct invs ⟨⟨⟨[], Advances.refl g⟩, hstart⟩, hscheduled, ?_⟩ ?_
    (hkept _ _ fun _ h => h.elim) ?_).mono ?_
  · intro msg hmsg
    rw [mem_singleton.mp hmsg]
    exact hround
  · rintro t ht host' mem emitted ⟨⟨⟨evs, hadvances⟩, hinv⟩, hwithin, hemitted⟩
    have hle : t.round ≤ bound := hscheduled.timeouts _ t ht
    have hstep : Event.reply g.params ⟨e.block, mem, .timeout t⟩ =
        .ok ⟨(mem.expire e.block.node t).1, (mem.expire e.block.node t).2, none⟩ := rfl
    exact ⟨⟨⟨_, hadvances.trans (Advances.observe host' _)⟩, hobserve _ _ hinv⟩,
      hwithin.reply hle hstep, hanswers hstep hle hemitted⟩
  · intro dep hdep session emitted hinvs
    obtain ⟨evs, hadvances⟩ := hinvs.1.1
    refine ensures_processMessages (hkept dep.node (fun msg => msg.nodeRound.round ≤ bound) fun _ h => h)
      emitted (fun msg hmsg => .inl ?_) hinvs
    obtain ⟨s, hs, hmsg⟩ := hadvances.output hmsg
    exact hdeps dep hdep s hs msg hmsg
  · rintro ⟨host', mem'⟩ ⟨last, processed, emitted, hinvs, rfl⟩
    exact ⟨hinvs.1.2, ⟨hinvs.2.1.inst, hinvs.2.1.timeouts⟩, hinvs.2.2⟩

/-- A block mentions no round past its own and those of what it builds on. -/
theorem within_interpret {bound : Nat} (hround : e.block.round ≤ bound)
    (hopened : (g.opened e).Within bound)
    (hdeps : ∀ dep ∈ e.deps, ∀ s, g.statess[dep]? = some s → s.Says bound) :
    Ensures (interpret host g.params g.round g.heap g.statess[e.prev]? g e)
      (fun r => r.2.Within bound ∧ r.2.state.Says bound) (fun _ => True) := by
  refine (ensures_within (fun _ => True) hround hopened hdeps trivial (fun _ _ _ => trivial)
    (fun g d _ _ => ?_) fun _ _ _ _ _ _ => trivial).mono fun _ hr => hr.2
  cases deliver g d <;> trivial

/-- What the block files leaves the timeouts of the stored states as they are: where
the slice of one of them lies in an array the block inherits, and goes past the
inherited slice, it holds what the block files there. -/
def spares (g : Graph) (e : Entry) : Bool :=
  match g.process e with
  | .error _ => true
  | .ok g' =>
    let filings := filedBy g.params (g.opened e).state.delay e (g.since g')
    g.statess.toList.all fun x => x.2.timeouts.toList.all fun y =>
      match (g.opened e).state.timeouts[y.1]? with
      | none => true
      | some old => decide (y.2.ref y.1 ≠ old.ref y.1) ||
        (((g.heap.read y.1 y.2).drop old.len).zip (filedAt filings y.1)).all fun z => decide (z.1 = z.2)

/-- A stored state keeps its timeouts, if the block spares them. -/
theorem timeoutsAt_of_spares {g' : Graph} (hsettled : g.Allocated) (hprocess : g.process e = .ok g')
    (hspares : g.spares e = true) {b : BlockID} {s : State} (hs : g.statess[b]? = some s) (d : Nat) :
    Memory.timeoutsAt ⟨g'.heap, s⟩ d = Memory.timeoutsAt ⟨g.heap, s⟩ d := by
  obtain ⟨last, mem, -, hstore, -, hwrites⟩ := hsettled.process hprocess
  have hheap : g'.heap = mem.heap := by rw [hstore]; rfl
  rw [hheap]
  unfold spares at hspares
  rw [hprocess] at hspares
  refine hwrites.filed.timeoutsAt_eq (hsettled b s hs).placed (fun d slice hslice => ?_) ?_ d
  · have hle := (hsettled b s hs).owns.timeouts d slice hslice
    change slice.epoch ≠ g.heap.clock + 1
    omega
  intro d slice old i t t' hslice hold href hlow hi hcell hfiled
  have hstate := all_eq_true.mp hspares (b, s)
    (Std.ExtTreeMap.mem_toList_iff_getElem?_eq_some.mpr hs)
  have hslot := all_eq_true.mp hstate (d, slice)
    (Std.ExtTreeMap.mem_toList_iff_getElem?_eq_some.mpr hslice)
  simp only [hold, href, ne_eq, not_true_eq_false, decide_false, Bool.false_or, all_eq_true,
    decide_eq_true_eq] at hslot
  have hread : ((g.heap.read d slice).drop old.len)[i - old.len]? = some t := by
    rw [List.getElem?_drop, Nat.add_sub_cancel' hlow]
    exact (List.getElem?_take_of_lt hi).trans hcell
  refine hslot (t, t') (mem_of_getElem? (i := i - old.len) ?_)
  rw [List.getElem?_zip_eq_some]
  exact ⟨hread, hfiled⟩

/-- No block of a run changes the timeouts of a stored state. -/
def undisturbed (g : Graph) : List Action → Bool
  | [] => true
  | a :: acts =>
    (match a with
      | .register _ => true
      | .process e => g.spares e) &&
    match g.act a with
    | .error _ => true
    | .ok g' => g'.undisturbed acts

theorem spares_of_undisturbed {rest : List Action} :
    ∀ {done : List Action} {g mid : Graph}, g.undisturbed (done ++ .process e :: rest) = true →
      actAll g done = .ok mid → mid.spares e = true := by
  intro done
  induction done with
  | nil =>
    intro g mid h hrun
    cases hrun
    exact (Bool.and_eq_true_iff.mp h).1
  | cons a done ih =>
    intro g mid h hrun
    obtain ⟨next, hact, hrun⟩ := bind_eq_ok.mp hrun
    have hrest := (Bool.and_eq_true_iff.mp h).2
    rw [hact] at hrest
    exact ih hrest hrun

end Graph

/-- Five peers. A slice with two timeouts for each of them has room for six more. -/
def Params.five : Params := ⟨[1, 2, 3, 4, 5], fun cap => 2 * cap⟩

/-- The blocks of a node in consecutive rounds, which reference nobody. -/
def stretch (node first last : Nat) : List Dep :=
  (range' first (last + 1 - first)).map fun round => depAt node round []

/-- The other block of a node in a round. -/
def twinAt (node round : Nat) : BlockID := ⟨[node.toUInt8, round.toUInt8, 2], node, round⟩

end Blockmania
