/-
# The quorum of a view change

A view is announced once a quorum of nodes asks for it. The votes are kept in a
map per instance and local view, whatever view they ask for, so a vote that
arrives before the local view has caught up with it is filed in the wrong place.
A view that no such vote asks for or is filed under is announced exactly with the
vote that completes its quorum.
-/

import Blockmania.Interpreter.Trail

namespace Blockmania

open Math List

namespace Event

/-- The sender of a ViewChange for the view `w` of an instance, if the event
processes one while the local view is not past `w`. -/
def protester (ev : Event) (key : NodeRound) (w : Nat) : Option Nat :=
  match ev.cause with
  | .message _ _ (.viewChange m) =>
    if (⟨m.node, m.round⟩ : NodeRound) = key ∧ m.view = w ∧ (ev.mem.inst key).current ≤ w then
      some m.sender
    else none
  | _ => none

/-- The event answers a ViewChange with a NewView for the view `w` of an
instance. -/
def announces (p : Params) (ev : Event) (key : NodeRound) (w : Nat) : Bool :=
  match ev.cause, ev.reply p with
  | .message _ _ (.viewChange _), .ok ⟨_, some (.newView m), _⟩ =>
    decide ((⟨m.node, m.round⟩ : NodeRound) = key ∧ m.view = w)
  | _, _ => false

/-- The event does not process a ViewChange of the instance that the local view has not
reached, if `w` is the view it asks for or the local view. -/
def inStep (ev : Event) (key : NodeRound) (w : Nat) : Bool :=
  match ev.cause with
  | .message _ _ (.viewChange m) =>
    decide ((⟨m.node, m.round⟩ : NodeRound) = key → m.view = w ∨ (ev.mem.inst key).current = w →
      m.view ≤ (ev.mem.inst key).current)
  | _ => true

end Event

/-- The nodes whose ViewChanges for a view of an instance were processed while
the local view was not past it. -/
def protesters (evs : List Event) (key : NodeRound) (w : Nat) : Finset Nat :=
  (evs.filterMap fun ev => ev.protester key w).toFinset

/-- Some event announced the view. -/
def announced (p : Params) (evs : List Event) (key : NodeRound) (w : Nat) : Bool :=
  evs.any fun ev => ev.announces p key w

/-- The event `i` announces the view `w` for the first time exactly if it brings the number
of nodes asking for it to the quorum. -/
def ExactQuorumAt (p : Params) (key : NodeRound) (evs : List Event) (i w : Nat) : Prop :=
  (announced p (evs.take (i + 1)) key w ∧ ¬ announced p (evs.take i) key w) ↔
    (protesters (evs.take i) key w).card < p.quorum2f1 ∧
      (protesters (evs.take (i + 1)) key w).card = p.quorum2f1

def ExactQuorum (p : Params) (key : NodeRound) (evs : List Event) : Prop :=
  ∀ i w : Nat, 1 ≤ w → ExactQuorumAt p key evs i w

theorem protesters_append (evs : List Event) (ev : Event) (key : NodeRound) (w : Nat) :
    protesters (evs ++ [ev]) key w =
      (ev.protester key w).toFinset ∪ protesters evs key w := by
  unfold protesters
  rw [filterMap_append, toFinset_append, Finset.union_comm]
  congr 1
  cases hp : ev.protester key w <;> simp [hp]

theorem announced_append (p : Params) (evs : List Event) (ev : Event) (key : NodeRound) (w : Nat) :
    announced p (evs ++ [ev]) key w = (announced p evs key w || ev.announces p key w) := by
  simp [announced]

/-- One event adds at most one node. -/
theorem card_protesters_append (evs : List Event) (ev : Event) (key : NodeRound) (w : Nat) :
    (protesters evs key w).card ≤ (protesters (evs ++ [ev]) key w).card ∧
      (protesters (evs ++ [ev]) key w).card ≤ (protesters evs key w).card + 1 := by
  rw [protesters_append]
  cases ev.protester key w with
  | none => simp
  | some x =>
    rw [Option.toFinset_some, ← Finset.insert_eq]
    exact ⟨Finset.card_le_card (Finset.subset_insert _ _), Finset.card_insert_le _ _⟩

/-- The vote map of a view holds exactly the nodes that asked for it, and the view is
announced once a quorum did. -/
structure Booked (p : Params) (key : NodeRound) (w : Nat) (evs : List Event) (i : Instance) :
    Prop where
  isOpen : i.closed = false
  votes : ((i.viewChanged w).getD ∅).domain = protesters evs key w
  announced : announced p evs key w = true ↔ p.quorum2f1 ≤ (protesters evs key w).card

namespace Booked

variable {p : Params} {key : NodeRound} {w : Nat} {evs : List Event} {i : Instance} {ev : Event}

theorem empty : Booked p key w [] Instance.empty where
  isOpen := rfl
  votes := rfl
  announced := by simp [Blockmania.announced, protesters, Params.quorum2f1]

variable {i' : Instance}

/-- A step that is no vote for the view keeps the book. -/
theorem of_same (h : Booked p key w evs i) (hclosed : i'.closed = i.closed)
    (hvotes : i'.viewChanged w = i.viewChanged w) (hprotester : ev.protester key w = none)
    (hannounces : ev.announces p key w = false) : Booked p key w (evs ++ [ev]) i' where
  isOpen := hclosed.trans h.isOpen
  votes := by
    rw [hvotes, h.votes, protesters_append, hprotester]
    simp
  announced := by
    rw [announced_append, protesters_append, hprotester, hannounces]
    simpa using h.announced

/-- A vote for the current view is booked there, and the view is announced if it
is the vote that completes the quorum or repeats one of it. -/
theorem of_vote {m : Vote} (h : Booked p key w evs i) (hclosed : i'.closed = i.closed)
    (hview : i.current = w) (hvotes : i'.viewChanged w = some (i.protests m))
    (hprotester : ev.protester key w = some m.sender)
    (hannounces : ev.announces p key w = decide ((i.protests m).size = p.quorum2f1)) :
    Booked p key w (evs ++ [ev]) i' := by
  have hdomain : (i.protests m).domain = insert m.sender (protesters evs key w) := by
    rw [Instance.protests, FiniteMap.domain_insert, hview, h.votes]
  have hnext : protesters (evs ++ [ev]) key w = (i.protests m).domain := by
    rw [hdomain, protesters_append, hprotester]
    simp
  constructor
  case isOpen => exact hclosed.trans h.isOpen
  case votes => rw [hvotes, hnext, Option.getD_some]
  case announced =>
    have hcard := card_protesters_append evs ev key w
    rw [announced_append, hannounces, Bool.or_eq_true, h.announced, decide_eq_true_eq,
      FiniteMap.size_eq_card_domain, ← hnext]
    omega

end Booked

variable {sender receiver : Nat} {reply : Reply}

variable {p : Params} {key : NodeRound} {w : Nat} {evs : List Event}

/-- Events of other instances are no votes and no announcements. -/
theorem protester_of_ne {ev : Event} (hne : key ≠ ev.key) : ev.protester key w = none := by
  unfold Event.protester
  split
  · rename_i sender receiver m hcause
    rw [Event.key, hcause] at hne
    exact if_neg fun h => hne h.1.symm
  · rfl

theorem announces_of_ne {ev : Event} (hne : key ≠ ev.key) : ev.announces p key w = false := by
  unfold Event.announces
  split
  · rename_i sender receiver vc mem m delivery hcause hreply
    rw [Event.reply, hcause] at hreply
    rw [Event.key, hcause] at hne
    have hsame : (⟨m.node, m.round⟩ : NodeRound) = (Message.viewChange vc).nodeRound :=
      Instance.nodeRound_of_transition (transition_of_processMessage hreply) rfl
    exact decide_eq_false fun h => hne (h.1.symm.trans hsame)
  · rfl

/-- A ViewChange for the current view is booked; one for an earlier view is dropped, and one
for a later view is filed elsewhere. -/
theorem booked_viewChange {mem : Memory} {block : BlockID} {m : Vote}
    (h : Booked p ⟨m.node, m.round⟩ w evs (mem.inst ⟨m.node, m.round⟩))
    (hreply : processMessage p mem sender receiver block (.viewChange m) = .ok reply)
    (hstep : m.view = w ∨ (mem.inst ⟨m.node, m.round⟩).current = w →
      m.view ≤ (mem.inst ⟨m.node, m.round⟩).current) :
    Booked p ⟨m.node, m.round⟩ w (evs ++ [⟨block, mem, .message sender receiver (.viewChange m)⟩])
      (reply.mem.inst ⟨m.node, m.round⟩) := by
  have htransition := transition_of_processMessage hreply
  obtain ⟨mem', resp, delivery⟩ := reply
  change Instance.Transition p (mem.inst ⟨m.node, m.round⟩) sender receiver _
    ⟨mem'.inst ⟨m.node, m.round⟩, resp, delivery⟩ at htransition
  generalize ho : Outcome.mk (mem'.inst ⟨m.node, m.round⟩) resp delivery = o at htransition
  cases htransition with
  | closed hclosed => simp [h.isOpen] at hclosed
  | drop hopen hdrop =>
    obtain ⟨hinst, rfl, rfl⟩ := Outcome.mk.inj ho
    have hpast : m.view < (mem.inst ⟨m.node, m.round⟩).current := hdrop
    rw [hinst]
    refine h.of_same rfl rfl ?_ ?_
    · simp [Event.protester]
      omega
    · simp [Event.announces, Event.reply, hreply]
  | protest hopen hview hcount | depose hopen hview hcount hmerge =>
    obtain ⟨hinst, rfl, rfl⟩ := Outcome.mk.inj ho
    rw [hinst]
    by_cases hw : m.view = w
    · have hcurrent := (le_antisymm hview (hstep (.inl hw))).trans hw
      refine h.of_vote (m := m) rfl hcurrent ?_ ?_ ?_
      · rw [← hcurrent]
        exact Function.update_self _ _ _
      · simp [Event.protester, hw, hcurrent]
      · simp [Event.announces, Event.reply, hreply, hcount, hw]
    · have hcurrent : w ≠ (mem.inst ⟨m.node, m.round⟩).current := fun heq =>
        hw ((le_antisymm (hstep (.inr heq.symm)) hview).trans heq.symm)
      refine h.of_same rfl (Function.update_of_ne hcurrent _ _) ?_ ?_
      · simp [Event.protester, hw]
      · simp [Event.announces, Event.reply, hreply, hw]

/-- A message of another kind leaves the vote maps alone. -/
theorem viewChanged_of_transition {i : Instance} {msg : Message} {o : Outcome}
    (h : i.Transition p sender receiver msg o) (hkind : ∀ m, msg ≠ .viewChange m) :
    o.inst.closed = i.closed ∧ o.inst.viewChanged = i.viewChanged := by
  cases h with
  | commit => constructor <;> dsimp only <;> split <;> rfl
  | protest | depose => exact absurd rfl (hkind _)
  | _ => exact ⟨rfl, rfl⟩

/-- One step keeps the book, unless it processes a vote for a view not yet reached that
concerns it. -/
theorem booked_step {ev : Event} (h : Booked p key w evs (ev.mem.inst key))
    (hreply : ev.reply p = .ok reply) (hstep : ev.inStep key w) :
    Booked p key w (evs ++ [ev]) (reply.mem.inst key) := by
  obtain ⟨block, mem, cause⟩ := ev
  by_cases hkey : key = Event.key ⟨block, mem, cause⟩
  · subst hkey
    cases cause with
    | timeout t =>
      cases hreply
      have hinst := congrArg Prod.fst (expire_outcome mem block.node t)
      refine h.of_same ?_ (congrFun (?_ : Instance.viewChanged _ = _) w) rfl rfl <;>
        refine (congrArg _ hinst).trans ?_ <;>
        obtain ⟨hexpire, -⟩ | ⟨hexpire, -⟩ :=
          (mem.inst ⟨t.node, t.round⟩).expire_cases ⟨t.node, t.round⟩ block.node t.view <;>
        rw [hexpire] <;> rfl
    | message sender receiver msg =>
      change processMessage p mem sender receiver block msg = .ok reply at hreply
      cases msg with
      | viewChange m => exact booked_viewChange h hreply (of_decide_eq_true hstep rfl)
      | _ =>
        obtain ⟨hclosed, hvotes⟩ := viewChanged_of_transition
          (transition_of_processMessage hreply) (by simp)
        exact h.of_same hclosed (congrFun hvotes w) rfl rfl
  · have hinst := Event.reply_inst hreply hkey
    exact h.of_same (by rw [hinst]) (by rw [hinst]) (protester_of_ne hkey) (announces_of_ne hkey)

/-- Along a whole trail. -/
theorem booked_trail {round : Nat} {start mem : Memory} (hround : round ≤ key.round)
    (hstart : start.inst key = Instance.empty) (trail : Trail p round [] start evs mem)
    (hsteps : ∀ ev ∈ evs, ev.inStep key w) : Booked p key w evs (mem.inst key) := by
  induction trail with
  | start =>
    rw [hstart]
    exact Booked.empty
  | next trail minround e hmin ih =>
    rw [inst_next (hmin.trans hround)]
    exact ih hsteps
  | emit trail out ih => exact ih hsteps
  | frame trail hsame ih =>
    rw [hsame.inst]
    exact ih hsteps
  | step ev trail hreply ih =>
    refine booked_step (ih fun ev' hev' => ?_) hreply (hsteps ev (by simp))
    exact hsteps ev' (mem_append_left _ hev')

/-- The quorum of a view is exact in every run up to the first ViewChange that asks for the
view before the local view has reached it, or for a later view while the view is the local
one. -/
theorem exactQuorum_of_inStep {p : Params} {key : NodeRound} {ops : List Op}
    {session : Session (List Event)} {i w : Nat} (hkeeps : Keeps key.round ops)
    (hrun : performAll p unwritten ops = .ok session)
    (hsteps : ∀ ev ∈ session.host.take (i + 1), ev.inStep key w) :
    ExactQuorumAt p key session.host i w := by
  have trail : Trail p key.round [] unwritten.mem session.host session.mem :=
    trail_performAll hkeeps Trail.start hrun
  have hbooked : ∀ j ≤ i + 1, (announced p (session.host.take j) key w = true ↔
      p.quorum2f1 ≤ (protesters (session.host.take j) key w).card) := by
    intro j hj
    obtain ⟨mem, htake⟩ := trail.take j
    refine (booked_trail le_rfl ?_ htake fun ev hev => hsteps ev ?_).announced
    · simp [unwritten, Memory.inst, State.fresh, Data.empty, Instance.empty]
    · exact (take_prefix_take_left hj).subset hev
  rw [ExactQuorumAt, hbooked _ le_rfl, hbooked _ (Nat.le_succ i)]
  by_cases hi : i < session.host.length
  · have hcard := card_protesters_append (session.host.take i) (session.host[i]) key w
    rw [take_append_getElem hi] at hcard
    omega
  · rw [take_of_length_le (by omega), take_of_length_le (by omega)]
    omega

/-- ViewChanges for a view of an instance, as the fourth node processes them. -/
def voteForView (view sender : Nat) : Op :=
  .messages ⟨sender, 4, ⟨[4], 4, 20⟩⟩ [.viewChange ⟨[], 1, 1, sender, view⟩]

/-- The timeout of view 0 of that instance falls due at the fourth node. -/
def viewZeroRunsOut : Op := .timeouts ⟨[4], 4, 20⟩ [⟨1, 1, 0⟩]

/-- Votes that wait for the local timeout are counted: the third one announces the view. A
vote for the second view that came earlier does not matter. -/
theorem exactQuorum_voteAfterTimeout :
    ∃ session, performAll .four unwritten [voteForView 2 3, viewZeroRunsOut, voteForView 1 4,
        voteForView 1 1, voteForView 1 2] = .ok session ∧
      announced .four session.host ⟨1, 1⟩ 1 = true ∧
      ∀ i, ExactQuorumAt .four ⟨1, 1⟩ session.host i 1 := by
  have hcheck : succeeds (performAll .four unwritten [voteForView 2 3, viewZeroRunsOut,
      voteForView 1 4, voteForView 1 1, voteForView 1 2]) (fun session =>
        announced .four session.host ⟨1, 1⟩ 1 &&
        session.host.all fun ev => ev.inStep ⟨1, 1⟩ 1) = true := by decide +kernel
  obtain ⟨session, hrun, hfacts⟩ := exists_of_succeeds hcheck
  obtain ⟨hannounced, hsteps⟩ := Bool.and_eq_true_iff.mp hfacts
  refine ⟨session, hrun, hannounced, fun i => exactQuorum_of_inStep (fun minround e hmem => ?_) hrun
    fun ev hev => all_eq_true.mp hsteps ev (mem_of_mem_take hev)⟩
  simp [viewZeroRunsOut, voteForView] at hmem

/-- Two votes that come before the local timeout are filed under view 0, and the
third vote finds none of them: a quorum asked for view 1 and nothing announces
it. -/
theorem not_exactQuorum_voteBeforeTimeout :
    ∃ session, performAll .four unwritten
        [voteForView 1 1, voteForView 1 2, viewZeroRunsOut, voteForView 1 4] = .ok session ∧
      ¬ ExactQuorum .four ⟨1, 1⟩ session.host := by
  have hcheck : succeeds (performAll .four unwritten
      [voteForView 1 1, voteForView 1 2, viewZeroRunsOut, voteForView 1 4])
      (fun session => decide ((protesters (session.host.take 3) ⟨1, 1⟩ 1).card < 3 ∧
        (protesters (session.host.take 4) ⟨1, 1⟩ 1).card = 3 ∧
        announced .four (session.host.take 4) ⟨1, 1⟩ 1 = false)) = true := by decide +kernel
  obtain ⟨session, hrun, hfacts⟩ := exists_of_succeeds hcheck
  obtain ⟨hbefore, hafter, hsilent⟩ := of_decide_eq_true hfacts
  refine ⟨session, hrun, fun hexact => ?_⟩
  have hannounced := ((hexact 3 1 le_rfl).mpr ⟨hbefore, hafter⟩).1
  rw [hsilent] at hannounced
  cases hannounced

end Blockmania
