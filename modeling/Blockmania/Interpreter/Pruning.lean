/-
# Pruning a chain

When a block begins, the state of its predecessor is cloned without the rounds
that were delivered. Instances are pruned by their round, but timeouts are pruned
by their deadline, and the deadline of an announced view is counted from the
round of the block that announces it. A chain that lags behind may hold a
timeout of a round far ahead under a deadline that is pruned before the chain
gets there. As long as no such timeout is lost, what is pruned cannot be seen in
the rounds that are left.
-/

import Blockmania.Graph.Run
import Blockmania.Interpreter.Chain
import Blockmania.Interpreter.Simulation

namespace Blockmania

open Math List

/-- The instances of the rounds from `R` on. -/
def fromRound (R : Nat) (key : NodeRound) : Bool := decide (R ≤ key.round)

namespace Chain

/-- Cloning the state loses no timeout of a round from `R` on under a deadline
that is among the rounds to come. -/
def losesNoTimeout (R minround : Nat) (c : Chain) (rounds : List Nat) : Bool :=
  rounds.all fun d => decide (d < minround → ∀ t ∈ c.mem.timeoutsAt d, t.round < R)

/-- The rounds of blocks. -/
def rounds (links : List Link) : List Nat :=
  (links.map Link.entry).map fun e => e.block.round

/-- No block of the chain loses such a timeout. -/
def prunesCleanly (p : Params) (foreign : BlockID → List Message) (R : Nat) :
    Chain → List Link → Bool
  | _, [] => true
  | c, link :: links => c.losesNoTimeout R link.minround (rounds (link :: links)) &&
    match c.extend p foreign link with
    | .ok c => c.prunesCleanly p foreign R links
    | .error _ => true

/-- Two interpretations of a chain look the same in the kept instances: every
block has the same output messages about them, ViewChanges included, and the same
values are delivered. -/
structure SameTape (keep : NodeRound → Bool) (tape tape' : Tape) : Prop where
  outputs : ∀ b : BlockID, tape.outputs[b]?.map (List.filter (keptMessage keep)) =
    tape'.outputs[b]?.map (List.filter (keptMessage keep))
  deliveries : tape.deliveries.filter (fun d => keep d.key) =
    tape'.deliveries.filter (fun d => keep d.key)

theorem SameTape.output {keep : NodeRound → Bool} {tape tape' : Tape}
    (h : SameTape keep tape tape') (foreign : BlockID → List Message) (b : BlockID) :
    SameKept (keptMessage keep) ((Tape.host foreign).output tape b)
      ((Tape.host foreign).output tape' b) := by
  have hb := h.outputs b
  simp only [Tape.host]
  cases hleft : tape.outputs[b]? with
  | none =>
    cases hright : tape'.outputs[b]? with
    | none => exact SameKept.refl _
    | some out' => simp [hleft, hright] at hb
  | some out =>
    cases hright : tape'.outputs[b]? with
    | none => simp [hleft, hright] at hb
    | some out' => exact SameKept.of_filter_eq (by simpa [hleft, hright] using hb)

theorem coupling (keep : NodeRound → Bool) (foreign : BlockID → List Message) :
    Coupling (Tape.host foreign) (Tape.host foreign) keep (SameTape keep) where
  observe_left _ h := ⟨h.outputs, h.deliveries⟩
  observe_right _ h := ⟨h.outputs, h.deliveries⟩
  deliver_left h hdrop hdeliver := by
    cases hdeliver
    refine ⟨h.outputs, ?_⟩
    rw [filter_append, h.deliveries]
    simp [hdrop]
  deliver_right h hdrop hdeliver := by
    cases hdeliver
    refine ⟨h.outputs, ?_⟩
    rw [filter_append, h.deliveries]
    simp [hdrop]
  deliver_both h _ hdeliver hdeliver' := by
    cases hdeliver
    cases hdeliver'
    refine ⟨h.outputs, ?_⟩
    rw [filter_append, filter_append, h.deliveries]

/-- Two interpretations of a chain that still has blocks of the given rounds to
come. -/
structure Alike (R : Nat) (rounds : List Nat) (c c' : Chain) : Prop where
  tape : SameTape (fromRound R) c.tape c'.tape
  last : c.last.isSome = c'.last.isSome
  mem : Agree (fromRound R) (fun d => d ∈ rounds) c.mem c'.mem
  delay : c.mem.state.delay = c'.mem.state.delay

variable {live : Nat → Prop} {e : Entry}

section

variable {p : Params} {foreign : BlockID → List Message} {R : Nat}

theorem agree_fresh {heap heap' : Heap} :
    Agree (fromRound R) live (Memory.schedule p ⟨heap, State.fresh⟩ e)
      (Memory.schedule p ⟨heap', State.fresh⟩ e) := by
  refine Agree.schedule (fun key _ => ?_) (fun d _ => ?_) rfl rfl
  · simp [Memory.inst, State.fresh, Data.empty]
  · have hnone : ∀ heap : Heap, Memory.timeoutsAt ⟨heap, State.fresh⟩ d = [] := by
      simp [Memory.timeoutsAt, State.fresh, Heap.read, Slice.nil]
    rw [hnone, hnone]
    exact .nil

/-- What is left of the timeouts of a live deadline after a clone. -/
theorem sameKept_clone {heap : Heap} {s : State} {minround d : Nat}
    (hloses : d < minround → ∀ t ∈ Memory.timeoutsAt ⟨heap, s⟩ d, t.round < R) :
    SameKept (keptTimeout (fromRound R)) (Memory.timeoutsAt ⟨heap.tick, s.clone minround⟩ d)
      (Memory.timeoutsAt ⟨heap, s⟩ d) := by
  rw [Memory.timeoutsAt_clone]
  split
  · rename_i hd
    refine SameKept.of_filter_eq (filter_eq_nil_iff.mpr fun t ht => ?_).symm
    simpa [keptTimeout, fromRound] using hloses hd t ht
  · exact SameKept.refl _

/-- The states two blocks begin with. -/
theorem agree_findOrCreateState {c c' : Chain} {minround minround' : Nat}
    (hlast : c.last.isSome = c'.last.isSome) (hmem : Agree (fromRound R) live c.mem c'.mem)
    (hdelay : c.mem.state.delay = c'.mem.state.delay) (hmin : minround ≤ R) (hmin' : minround' ≤ R)
    (hloses : ∀ d, live d → d < minround → ∀ t ∈ c.mem.timeoutsAt d, t.round < R)
    (hloses' : ∀ d, live d → d < minround' → ∀ t ∈ c'.mem.timeoutsAt d, t.round < R) :
    Agree (fromRound R) live ((findOrCreateState c.heap c.last minround e).schedule p e)
        ((findOrCreateState c'.heap c'.last minround' e).schedule p e) ∧
      ((findOrCreateState c.heap c.last minround e).schedule p e).state.delay =
        ((findOrCreateState c'.heap c'.last minround' e).schedule p e).state.delay := by
  obtain ⟨tape, heap, last⟩ := c
  obtain ⟨tape', heap', last'⟩ := c'
  cases hvalid : e.prev.valid with
  | false => simpa [findOrCreateState, hvalid, delay_schedule] using agree_fresh
  | true =>
    cases last with
    | none =>
      obtain rfl : last' = none := by simpa using hlast.symm
      simpa [findOrCreateState, hvalid, delay_schedule] using agree_fresh
    | some s =>
      obtain ⟨s', rfl⟩ : ∃ s', last' = some s' := Option.isSome_iff_exists.mp hlast.symm
      replace hdelay : s.delay = s'.delay := hdelay
      simp only [findOrCreateState, hvalid, if_true, delay_schedule]
      refine ⟨Agree.schedule (fun key hkey => ?_) (fun d hd => ?_) rfl ?_, ?_⟩
      · have hround : R ≤ key.round := of_decide_eq_true hkey
        rw [inst_clone, inst_clone, if_neg (by omega), if_neg (by omega)]
        exact hmem.inst key hkey
      · exact ((sameKept_clone (hloses d hd)).trans (hmem.timeoutsAt d hd)).trans
          (sameKept_clone (hloses' d hd)).symm
      · simp only [State.clone, hdelay]
      · simp only [State.clone, hdelay]

/-- One more block. -/
theorem alike_extend {link link' : Link} {later : List Nat} {c c' d d' : Chain}
    (h : Alike R (link.entry.block.round :: later) c c') (hentry : link.entry = link'.entry)
    (hmin : link.minround ≤ R) (hmin' : link'.minround ≤ R)
    (hloses : c.losesNoTimeout R link.minround (link.entry.block.round :: later))
    (hloses' : c'.losesNoTimeout R link'.minround (link.entry.block.round :: later))
    (hextend : c.extend p foreign link = .ok d) (hextend' : c'.extend p foreign link' = .ok d') :
    Alike R later d d' := by
  obtain ⟨hmem, hdelay⟩ := agree_findOrCreateState (p := p) (e := link.entry) h.last h.mem h.delay
    hmin hmin' (fun d hd => of_decide_eq_true (all_eq_true.mp hloses d hd))
    (fun d hd => of_decide_eq_true (all_eq_true.mp hloses' d hd))
  obtain ⟨⟨tape, mem⟩, hinterpret, hextend⟩ := bind_eq_ok.mp hextend
  obtain ⟨⟨tape', mem'⟩, hinterpret', hextend'⟩ := bind_eq_ok.mp hextend'
  cases hextend
  cases hextend'
  rw [interpret, ← hentry] at hinterpret'
  obtain ⟨hrel, hlast, hout⟩ := coupled_conduct (coupling (fromRound R) foreign)
    (Host.lasts_false _) (Host.lasts_false _) mem_cons_self
    (fun dep _ _ _ hrel _ _ => hrel.output foreign dep) h.tape hmem hinterpret hinterpret' id id
  refine ⟨⟨fun b => ?_, hrel.deliveries⟩, rfl, ⟨hlast.inst, hlast.timeout, ?_⟩, ?_⟩
  · simp only [FiniteMap.lookup_insert, hentry]
    split
    · simp [hout.filter_eq]
    · exact hrel.outputs b
  · intro d hd
    exact hlast.timeoutsAt d (mem_cons_of_mem _ hd)
  · exact (delay_conduct hinterpret).trans (hdelay.trans (delay_conduct hinterpret').symm)

/-- A chain goes on as two interpretations of it began. -/
theorem alike_extendAll {links : List Link} {links' : List Link} {c c' d d' : Chain}
    (hentries : links.map Link.entry = links'.map Link.entry)
    (hmin : ∀ link ∈ links, link.minround ≤ R) (hmin' : ∀ link ∈ links', link.minround ≤ R)
    (h : Alike R (rounds links) c c') (hclean : c.prunesCleanly p foreign R links)
    (hclean' : c'.prunesCleanly p foreign R links') (hrun : c.extendAll p foreign links = .ok d)
    (hrun' : c'.extendAll p foreign links' = .ok d') : Alike R [] d d' := by
  induction links generalizing links' c c' d d' with
  | nil =>
    obtain rfl : links' = [] := by simpa using hentries.symm
    cases hrun
    cases hrun'
    exact h
  | cons link links ih =>
    cases links' with
    | nil => simp at hentries
    | cons link' links' =>
      obtain ⟨hentry, hrest⟩ := List.cons.inj hentries
      obtain ⟨mid, hextend, hrun⟩ := bind_eq_ok.mp hrun
      obtain ⟨mid', hextend', hrun'⟩ := bind_eq_ok.mp hrun'
      obtain ⟨hloses, hclean⟩ := Bool.and_eq_true_iff.mp hclean
      obtain ⟨hloses', hclean'⟩ := Bool.and_eq_true_iff.mp hclean'
      rw [hextend] at hclean
      rw [hextend'] at hclean'
      have hrounds : rounds (link' :: links') = rounds (link :: links) := by
        rw [rounds, rounds, hentries]
      rw [hrounds] at hloses'
      refine ih hrest (fun l hl => hmin l (mem_cons_of_mem _ hl))
        (fun l hl => hmin' l (mem_cons_of_mem _ hl)) ?_ hclean hclean' hrun hrun'
      exact alike_extend h hentry (hmin link mem_cons_self) (hmin' link' mem_cons_self)
        hloses hloses' hextend hextend'

/-- Pruning cannot be seen in the rounds from `R` on, whatever rounds up to
`R` the two interpretations of a chain prune, if neither loses a timeout of a
round from `R` on that would have fallen due. -/
theorem sameTape_of_prunesCleanly {links links' : List Link} {c c' : Chain}
    (hentries : links.map Link.entry = links'.map Link.entry)
    (hmin : ∀ link ∈ links, link.minround ≤ R) (hmin' : ∀ link ∈ links', link.minround ≤ R)
    (hclean : Chain.new.prunesCleanly p foreign R links)
    (hclean' : Chain.new.prunesCleanly p foreign R links')
    (hrun : Chain.new.extendAll p foreign links = .ok c)
    (hrun' : Chain.new.extendAll p foreign links' = .ok c') :
    SameTape (fromRound R) c.tape c'.tape := by
  have hstart : Alike R (rounds links) Chain.new Chain.new :=
    ⟨⟨fun _ => rfl, rfl⟩, rfl, ⟨fun _ _ => rfl, rfl, fun _ _ => SameKept.refl _⟩, rfl⟩
  exact (alike_extendAll hentries hmin hmin' hstart hclean hclean' hrun hrun').tape

end

/-- A block of node 4, far ahead of the chain, announces view 1 of an instance
of round 60. -/
def announcedAhead (b : BlockID) : List Message :=
  if b = blockAt 4 100 then [.newView ⟨[], 2, 60, 4, 1⟩] else []

/-- The first blocks of node 1, which lags behind. The second one hears of nodes
2 and 3, which are near, and of node 4, which is far ahead. From the third block
on the rounds below `minround` are pruned. -/
def laggingLinks (minround blocks : Nat) : List Link :=
  (range blocks).map fun i =>
    ⟨if i < 2 then 0 else minround, blockAt 1 (i + 1),
      if i = 1 then [blockAt 1 1, blockAt 2 1, blockAt 3 1, blockAt 4 100] else [blockAt 1 i],
      blockAt 1 i⟩

/-- Pruning a few rounds goes unnoticed. -/
theorem sameTape_laggingLinks :
    ∃ c c', Chain.new.extendAll .four announcedAhead (laggingLinks 0 6) = .ok c ∧
      Chain.new.extendAll .four announcedAhead (laggingLinks 3 6) = .ok c' ∧
      SameTape (fromRound 3) c.tape c'.tape := by
  have hcheck : succeeds (Chain.new.extendAll .four announcedAhead (laggingLinks 0 6)) (fun _ =>
      succeeds (Chain.new.extendAll .four announcedAhead (laggingLinks 3 6)) fun _ =>
        Chain.new.prunesCleanly .four announcedAhead 3 (laggingLinks 0 6) &&
        Chain.new.prunesCleanly .four announcedAhead 3 (laggingLinks 3 6)) = true := by
    decide +kernel
  obtain ⟨c, hrun, hfacts⟩ := exists_of_succeeds hcheck
  obtain ⟨c', hrun', hfacts⟩ := exists_of_succeeds hfacts
  obtain ⟨hclean, hclean'⟩ := Bool.and_eq_true_iff.mp hfacts
  exact ⟨c, c', hrun, hrun',
    sameTape_of_prunesCleanly (by decide) (by decide) (by decide) hclean hclean' hrun hrun'⟩

/-- The timeout of the announced view has the deadline 17. Pruned below round 50,
the chain has lost it when it gets there, and the ViewChange for round 60 is
missing from the output of its block of round 17. -/
theorem not_sameTape_laggingLinks :
    ∃ c c', Chain.new.extendAll .four announcedAhead (laggingLinks 0 17) = .ok c ∧
      Chain.new.extendAll .four announcedAhead (laggingLinks 50 17) = .ok c' ∧
      ¬ SameTape (fromRound 50) c.tape c'.tape := by
  have hcheck : succeeds (Chain.new.extendAll .four announcedAhead (laggingLinks 0 17)) (fun c =>
      succeeds (Chain.new.extendAll .four announcedAhead (laggingLinks 50 17)) fun c' =>
        decide (c.tape.outputs[blockAt 1 17]?.map (List.filter (keptMessage (fromRound 50))) ≠
          c'.tape.outputs[blockAt 1 17]?.map (List.filter (keptMessage (fromRound 50))))) = true := by
    decide +kernel
  obtain ⟨c, hrun, hfacts⟩ := exists_of_succeeds hcheck
  obtain ⟨c', hrun', hfacts⟩ := exists_of_succeeds hfacts
  exact ⟨c, c', hrun, hrun', fun h => of_decide_eq_true hfacts (h.outputs _)⟩

end Chain

end Blockmania
