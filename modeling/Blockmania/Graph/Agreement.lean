/-
# Agreement

Two blocks that decide an instance decide it alike, if three things go well that the
interpreter does not see to.

A view that runs out hands on the value prepared in it and no other. If a value was
prepared in an earlier view and none in this one, the ViewChange does not mention it,
and a quorum of such ViewChanges starts the next view with no value at all.

The votes against a view are kept under the view the receiver is in, whatever view
they ask for. Votes for different views may complete a quorum, and the votes for an
earlier view do not tell what has been prepared since.

A PrePrepare counts as a vote of the node it comes from, also when that node accepts or
hands on another value in the same view, and then votes twice.

Where none of this happens, a value that a quorum has committed to in some view is the
only one that is ever committed to in a later one.
-/

import Blockmania.Graph.Observers
import Blockmania.Graph.Prepared
import Blockmania.Graph.Views

namespace Blockmania

open Math List FiniteMap
open BlockGraph (actions)

namespace Event

/-- A view that runs out at a node outside `F` has a prepared value, if an earlier view
has one that is not empty. -/
def remembers (p : Params) (F : Finset Nat) (ev : Event) : Bool :=
  match ev.cause with
  | .timeout t => decide (ev.block.node ∈ F) || !(ev.answer p).isSome ||
      ((ev.mem.inst ev.key).prepared t.view).isSome ||
      (range t.view).all fun w => decide (((ev.mem.inst ev.key).prepared w).getD [] = [])
  | .message .. => true

/-- A view is announced by votes for that view alone. -/
def unanimous (p : Params) (older : List Event) (ev : Event) : Bool :=
  match ev.answer p with
  | some (.newView m) => older.all fun ev' =>
      match ev'.ballot with
      | some (ref, vote) => decide (vote.view = m.view) || decide (ref ≠ ev.mem.voteRef ev.key)
      | none => true
  | _ => true

/-- The value that a step accepts, and the node it comes from. -/
def accepted (p : Params) (ev : Event) : Option (PrePrepare × Nat) :=
  match ev.cause with
  | .message sender _ (.prePrepare m) => if (ev.answer p).isSome then some (m, sender) else none
  | _ => none

/-- No node outside `F` backs two values of one later view: it backs what it accepts, and what
is accepted from it. -/
def steady (p : Params) (F : Finset Nat) (older : List Event) (ev : Event) : Bool :=
  (ev.accepted p).all fun (m, sender) => decide (m.view = 0) || older.all fun ev' =>
    (ev'.accepted p).all fun (m', sender') =>
      decide (m'.node = m.node ∧ m'.round = m.round ∧ m'.view = m.view → m'.hash = m.hash ∨
        ∀ x ∈ [sender, ev.block.node], x ∈ [sender', ev'.block.node] → x ∈ F)

end Event

/-- The steps of a trace, newest first, are taken with care. -/
def careful (p : Params) (F : Finset Nat) : List Event → Bool
  | [] => true
  | ev :: older => (ev.remembers p F && ev.unanimous p older && ev.steady p F older && ev.fits) &&
      careful p F older

variable {p : Params} {F : Finset Nat} {trace older : List Event} {ev : Event}

theorem careful_of_suffix (h : careful p F trace = true) (hsuffix : ev :: older <:+ trace) :
    ev.remembers p F = true ∧ ev.unanimous p older = true ∧ ev.steady p F older = true ∧
      ev.fits = true := by
  induction trace with
  | nil => simp at hsuffix
  | cons first rest ih =>
    obtain ⟨hfirst, hrest⟩ := Bool.and_eq_true_iff.mp h
    rcases suffix_cons_iff.mp hsuffix with heq | hsuffix
    · cases heq
      simp only [Bool.and_eq_true] at hfirst
      exact ⟨hfirst.1.1.1, hfirst.1.1.2, hfirst.1.2, hfirst.2⟩
    · exact ih hrest hsuffix

theorem Event.prepared_of_remembers (h : ev.remembers p F = true) {t : Timeout}
    (hcause : ev.cause = .timeout t) (hnode : ev.block.node ∉ F) (hanswer : (ev.answer p).isSome)
    {w : Nat} {hash : Hash} (hw : w < t.view) (hprepared : (ev.mem.inst ev.key).prepared w = some hash)
    (hhash : hash ≠ []) : ((ev.mem.inst ev.key).prepared t.view).isSome := by
  unfold Event.remembers at h
  rw [hcause] at h
  simp only [Bool.or_eq_true, decide_eq_true_eq, Bool.not_eq_true', all_eq_true, mem_range] at h
  rcases h with ((hmem | hnone) | hsome) | hempty
  · exact absurd hmem hnode
  · rw [hnone] at hanswer
    cases hanswer
  · exact hsome
  · have hvalue := hempty w hw
    rw [hprepared] at hvalue
    exact absurd hvalue hhash

theorem Event.view_of_unanimous (h : ev.unanimous p older = true) {m : Vote}
    (hanswer : ev.answer p = some (.newView m)) {ev' : Event} (hev' : ev' ∈ older) {vote : Vote}
    (hballot : ev'.ballot = some (ev.mem.voteRef ev.key, vote)) : vote.view = m.view := by
  unfold Event.unanimous at h
  rw [hanswer] at h
  have hvote := all_eq_true.mp h ev' hev'
  rw [hballot] at hvote
  simpa using hvote

theorem Event.hash_of_steady (h : ev.steady p F older = true) {ev' : Event} (hev' : ev' ∈ older)
    {hash hash' : Hash} {node round view sender receiver sender' receiver' : Nat} (hview : view ≠ 0)
    (hcause : ev.cause = .message sender receiver (.prePrepare ⟨hash, node, round, view⟩))
    (hcause' : ev'.cause = .message sender' receiver' (.prePrepare ⟨hash', node, round, view⟩))
    (hanswer : (ev.answer p).isSome) (hanswer' : (ev'.answer p).isSome) {x : Nat} (hx : x ∉ F)
    (hbacks : x = sender ∨ x = ev.block.node) (hbacks' : x = sender' ∨ x = ev'.block.node) :
    hash' = hash := by
  have haccepted : ev.accepted p = some (⟨hash, node, round, view⟩, sender) := by
    simp [Event.accepted, hcause, hanswer]
  have haccepted' : ev'.accepted p = some (⟨hash', node, round, view⟩, sender') := by
    simp [Event.accepted, hcause', hanswer']
  simp only [Event.steady, haccepted, Option.all_some, Bool.or_eq_true, decide_eq_true_eq,
    all_eq_true] at h
  have hone := h.resolve_left hview ev' hev'
  simp only [haccepted', Option.all_some, decide_eq_true_eq] at hone
  rcases hone ⟨trivial, trivial, trivial⟩ with hsame | hfaulty
  · exact hsame
  · exact absurd (hfaulty x (by simpa using hbacks) (by simpa using hbacks')) hx

variable {key : NodeRound} {proposed lasting : BlockID → Prop} {x : Nat}

/-- In a grounded trace, a step that the chain takes because a timeout falls due finds a
view that the chain has reached. -/
theorem pending_of_trail {mem : Memory} {heap : Heap}
    (hall : AllGrounded p key proposed lasting trace) (hfits : ∀ ev ∈ trace, ev.fits = true)
    (trail : Trail p key.round [] ⟨heap, State.fresh⟩ (eventsOf x trace) mem) :
    ∀ ev ∈ eventsOf x trace, ev.mem.Pending key ∧ ∃ reply, ev.reply p = .ok reply := by
  suffices hinv : mem.Pending key ∧
      ∀ ev ∈ eventsOf x trace, ev.mem.Pending key ∧ ∃ reply, ev.reply p = .ok reply from hinv.2
  apply trail.memory_invariant ?_ ?_ ?_ (Graph.pending_fresh heap key)
  · intro mem minround e hmin hpending
    exact Graph.pending_schedule (Graph.pending_clone hpending hmin).2 p e
  · intro mem mem' hsame hpending d t ht htkey
    rw [hsame.inst key]
    exact hpending d t (hsame.timeoutsAt d ▸ ht) htkey
  · intro ev hev reply hpending hreply
    have hmem := (mem_eventsOf.mp hev).1
    obtain ⟨older, -, hgrounded, -⟩ := hall.of_mem hmem
    apply hpending.of_reply hreply (hfits ev hmem)
    intro t hcause
    exact hpending ev.block.round t (hgrounded.due t hcause)

/-- What one chain says about an instance, in the order it says it. -/
structure Steadfast (p : Params) (key : NodeRound) (evs : List Event) : Prop where
  once : VotesOnce p key evs
  kept : evs.Pairwise fun ev later => ∃ reply, ev.reply p = .ok reply ∧
    (reply.mem.inst key).Retains p (later.mem.inst key)
  forward : evs.Pairwise fun ev later => ∃ reply, ev.reply p = .ok reply ∧
    (reply.mem.inst key).current ≤ (later.mem.inst key).current
  due : ∀ ev ∈ evs, ∀ t, ev.cause = .timeout t → (⟨t.node, t.round⟩ : NodeRound) = key →
    t.view ≤ (ev.mem.inst key).current

theorem steadfast_of_trail (hall : AllGrounded p key proposed lasting trace)
    (hfits : ∀ ev ∈ trace, ev.fits = true) (htrail : HasTrail p key.round (fun _ => True) x trace) :
    Steadfast p key (eventsOf x trace) := by
  obtain ⟨pre, heap, mem, trail, hpre⟩ := htrail
  obtain rfl : pre = [] := eq_nil_iff_forall_not_mem.mpr fun ev hev => hpre ev hev trivial
  have hcourse := trail.course le_rfl (by simp [Memory.inst, State.fresh, Data.empty, Instance.empty])
  rw [length_nil, drop_zero] at hcourse
  have hpending := pending_of_trail hall hfits trail
  have hgrounded : ∀ ev ∈ eventsOf x trace, ∃ older, Grounded p key proposed lasting older ev := by
    intro ev hev
    obtain ⟨older, -, hgrounded, -⟩ := hall.of_mem (mem_eventsOf.mp hev).1
    exact ⟨older, hgrounded⟩
  have hdue : ∀ ev ∈ eventsOf x trace, ∀ t, ev.cause = .timeout t →
      (⟨t.node, t.round⟩ : NodeRound) = key → t.view ≤ (ev.mem.inst key).current := by
    intro ev hev t hcause
    obtain ⟨older, hgrounded⟩ := hgrounded ev hev
    exact (hpending ev hev).1 ev.block.round t (hgrounded.due t hcause)
  refine ⟨hcourse.votesOnce (x := x) fun ev hev sender receiver msg hcause => ?_, hcourse.retains.2, ?_, hdue⟩
  · obtain ⟨older, hgrounded⟩ := hgrounded ev hev
    rw [hgrounded.receiver _ _ _ hcause, (mem_eventsOf.mp hev).2]
  · refine (hcourse.pairwise (fun i j => i.current ≤ j.current) (fun _ _ => le_rfl) le_trans ?_).2
    intro ev hev reply hreply
    exact (view_of_reply hreply (hfits ev (mem_eventsOf.mp hev).1) (hdue ev hev)).1

/-- The steps about an instance in a graph of `3f+1` peers, all but at most `f` of which
take theirs along one chain, and all of which take them with care. -/
structure Assembly (p : Params) (key : NodeRound) (F : Finset Nat) (proposed : BlockID → Prop)
    (trace : List Event) : Prop where
  peers : p.peers.Nodup
  count : p.peerCount % 3 = 1
  faults : F.card ≤ p.faults
  author : ∀ b, proposed b → b.node ∈ p.peers
  single : key.node ∉ F → ∀ hash hash', proposed ⟨hash, key.node, key.round⟩ →
    proposed ⟨hash', key.node, key.round⟩ → hash = hash'
  grounded : AllGrounded p key proposed (fun _ => True) trace
  chains : ∀ x, x ∉ F → HasTrail p key.round (fun _ => True) x trace
  careful : careful p F trace = true

namespace Assembly

variable {a b : Hash}

variable {m : Vote}

section

variable (h : Assembly p key F proposed trace)
include h

theorem steadfast (hx : x ∉ F) :
    Steadfast p key (eventsOf x trace) := by
  apply steadfast_of_trail h.grounded _ (h.chains x hx)
  intro ev hev
  obtain ⟨older, hsuffix, -, -⟩ := h.grounded.of_mem hev
  exact (careful_of_suffix h.careful hsuffix).2.2.2

/-- Two quorums of peers share one that is not faulty. -/
theorem exists_common {A B : Finset Nat}
    (hA : ∀ x ∈ A, x ∈ p.peers) (hB : ∀ x ∈ B, x ∈ p.peers)
    (hcardA : p.quorum2f1 ≤ A.card) (hcardB : p.quorum2f1 ≤ B.card) : ∃ x ∈ A, x ∈ B ∧ x ∉ F := by
  have huniverse : p.peers.toFinset.card = p.peerCount := toFinset_card_of_nodup h.peers
  apply exists_mem_inter_not_mem (fun x hx => mem_toFinset.mpr (hA x hx))
    (fun x hx => mem_toFinset.mpr (hB x hx))
  have hcount := h.count
  have hfaults := h.faults
  rw [huniverse]
  unfold Params.quorum2f1 Params.faults Params.peerCount at *
  omega

/-- A step that answers with a vote is taken by the node that votes. -/
theorem block_of_prepare (hev : ev ∈ trace) (hanswer : ev.answer p = some (.prepare m)) :
    ev.block.node = m.sender ∧ m.sender ∈ p.peers := by
  obtain ⟨older, -, hgrounded, -⟩ := h.grounded.of_mem hev
  have hnode : ev.block.node = m.sender := by
    rcases Event.answer_cases hanswer with ⟨t, -, -, -, hmsg⟩ | ⟨sender, receiver, cause, o, hcause, hresp,
      htransition⟩
    · cases hmsg
    · rw [← hgrounded.receiver _ _ _ hcause]
      exact (Instance.of_answer_prepare htransition hresp).2.1
  exact ⟨hnode, hnode ▸ h.author _ hgrounded.block⟩

/-- A node that is not faulty accepts one value in a view. -/
theorem accepted_unique {w : Nat} (hx : x ∉ F)
    (ha : Answered p trace (.prepare ⟨a, key.node, key.round, x, w⟩))
    (hb : Answered p trace (.prepare ⟨b, key.node, key.round, x, w⟩)) : a = b := by
  obtain ⟨ev, hev, hanswer⟩ := ha
  obtain ⟨ev', hev', hanswer'⟩ := hb
  exact (h.steadfast hx).once.hash_unique (mem_eventsOf.mpr ⟨hev, (h.block_of_prepare hev hanswer).1⟩)
    (mem_eventsOf.mpr ⟨hev', (h.block_of_prepare hev' hanswer').1⟩) hanswer hanswer'

/-- A ViewChange asks for the view after the one that ran out. -/
theorem of_viewChange (hkey : (⟨m.node, m.round⟩ : NodeRound) = key)
    (hanswered : Answered p trace (.viewChange m)) :
    ∃ ev older t, ev :: older <:+ trace ∧ Grounded p key proposed (fun _ => True) older ev ∧
      ev.cause = .timeout t ∧ ev.key = key ∧ ev.answer p = some (.viewChange m) ∧
      ev.block.node = m.sender ∧ m.hash = ((ev.mem.inst key).prepared t.view).getD [] ∧
      m.view = t.view + 1 := by
  obtain ⟨ev, older, t, hsuffix, hgrounded, -, hcause, hevkey, hanswer, hnode, -, -, hhash, hview⟩ :=
    h.grounded.of_viewChange hkey hanswered
  refine ⟨ev, older, t, hsuffix, hgrounded, hcause, hevkey, hanswer, hnode, hhash, ?_⟩
  have hfits := (careful_of_suffix h.careful hsuffix).2.2.2
  rw [Event.fits, hcause] at hfits
  rw [hview]
  exact Nat.mod_eq_of_lt (of_decide_eq_true hfits)

/-- A NewView goes back to a quorum of ViewChanges for its view. -/
theorem of_newView (hkey : (⟨m.node, m.round⟩ : NodeRound) = key)
    (hanswered : Answered p trace (.newView m)) :
    ∃ vcs : FiniteMap Nat Hash, vcs.size = p.quorum2f1 ∧ mergeHashes vcs.values [] = some m.hash ∧
      ∀ (voter : Nat) (hash : Hash), vcs[voter]? = some hash →
        Answered p trace (.viewChange ⟨hash, key.node, key.round, voter, m.view⟩) := by
  obtain ⟨ev, older, vote, hsuffix, hall, hanswer, hballot, hview, vcs, hsize, hmerge, hballots⟩ :=
    h.grounded.of_newView hkey hanswered
  refine ⟨vcs, hsize, hmerge, fun voter hash hvoter => ?_⟩
  obtain ⟨ev', hev', w, hballot'⟩ := hballots voter hash hvoter
  have hw : w = m.view := by
    rcases mem_cons.mp hev' with rfl | hev'
    · cases hballot.symm.trans hballot'
      exact hview
    · have hevkey : ev.key = key := (Event.answer_key hanswer).symm.trans hkey
      exact Event.view_of_unanimous (careful_of_suffix h.careful hsuffix).2.1 hanswer hev'
        (hevkey.symm ▸ hballot')
  subst hw
  obtain ⟨older', hsuffix', -, hcast⟩ := hall.of_ballot hev' hballot' rfl
  exact hcast.mono (older_subset (hsuffix'.trans hsuffix))

/-- Nobody announces the first view. -/
theorem newView_ne_zero (hkey : (⟨m.node, m.round⟩ : NodeRound) = key)
    (hanswered : Answered p trace (.newView m)) :
    m.view ≠ 0 := by
  obtain ⟨vcs, hsize, -, hcast⟩ := h.of_newView hkey hanswered
  have hpos : 0 < vcs.domain.card := by
    rw [← size_eq_card_domain, hsize]
    exact Nat.succ_pos _
  obtain ⟨voter, hvoter⟩ := Finset.card_pos.mp hpos
  obtain ⟨hash, hhash⟩ := Option.isSome_iff_exists.mp (mem_domain.mp hvoter)
  obtain ⟨ev, older, t, -, -, -, -, -, -, -, hview⟩ := h.of_viewChange rfl (hcast voter hash hhash)
  rw [hview]
  exact Nat.succ_ne_zero _

/-- Whoever backs a value is a peer. In the first view it has accepted the value, or has
proposed it. -/
theorem of_backed {w : Nat} (hbacked : Backed p key trace x a w) :
    x ∈ p.peers ∧ (w = 0 → proposed ⟨a, key.node, key.round⟩ ∧
      (x = key.node ∨ Answered p trace (.prepare ⟨a, key.node, key.round, x, w⟩))) := by
  obtain ⟨ev, older, sender, hsuffix, hgrounded, -, hcause, hanswer, hvoter, horigin⟩ :=
    h.grounded.of_backed hbacked
  refine ⟨?_, ?_⟩
  · rcases hvoter with rfl | rfl
    · obtain ⟨b, hproposed, rfl⟩ := hgrounded.sender _ _ _ hcause
      exact h.author b hproposed
    · exact h.author _ hgrounded.block
  · rintro rfl
    rcases horigin with hannounced | ⟨-, hsender, hproposed, -⟩
    · obtain ⟨ev', older', announcer, hsuffix', -, hnew⟩ :=
        (h.grounded.of_suffix hsuffix).2.of_prePrepare hannounced
      have hsub : older' ⊆ trace := List.Subset.trans (older_subset hsuffix') (older_subset hsuffix)
      exact absurd rfl (h.newView_ne_zero rfl (hnew.mono hsub))
    · refine ⟨hproposed, hvoter.imp (fun hx => hx.trans hsender) fun hx => ?_⟩
      subst hx
      exact ⟨ev, hsuffix.subset mem_cons_self, Event.prepare_of_answer hcause hanswer⟩

/-- Nobody who is not faulty backs two values in a view. -/
theorem backed_unique {w : Nat} (hx : x ∉ F) (ha : Backed p key trace x a w)
    (hb : Backed p key trace x b w) : a = b := by
  by_cases hw : w = 0
  · obtain ⟨hproposed, hvote⟩ := (h.of_backed ha).2 hw
    obtain ⟨hproposed', hvote'⟩ := (h.of_backed hb).2 hw
    by_cases hauthor : x = key.node
    · exact h.single (hauthor ▸ hx) a b hproposed hproposed'
    · exact h.accepted_unique hx (hvote.resolve_left hauthor) (hvote'.resolve_left hauthor)
  · obtain ⟨ev, older, sender, hsuffix, -, -, hcause, hanswer, hvoter, -⟩ := h.grounded.of_backed ha
    obtain ⟨ev', older', sender', hsuffix', -, -, hcause', hanswer', hvoter', -⟩ :=
      h.grounded.of_backed hb
    have hsteady := (careful_of_suffix h.careful hsuffix).2.2.1
    have hsteady' := (careful_of_suffix h.careful hsuffix').2.2.1
    rcases List.suffix_or_suffix_of_suffix hsuffix hsuffix' with hbefore | hbefore
    · rcases suffix_cons_iff.mp hbefore with heq | hbefore
      · cases heq
        cases hcause.symm.trans hcause'
        rfl
      · exact Event.hash_of_steady hsteady' (hbefore.subset mem_cons_self) hw hcause' hcause hanswer'
          hanswer hx hvoter' hvoter
    · rcases suffix_cons_iff.mp hbefore with heq | hbefore
      · cases heq
        cases hcause.symm.trans hcause'
        rfl
      · exact (Event.hash_of_steady hsteady (hbefore.subset mem_cons_self) hw hcause hcause' hanswer
          hanswer' hx hvoter hvoter').symm

/-- A commitment is taken in the view it is for, leaves a prepared value behind, and goes
back to a quorum that backed its value. -/
theorem of_committed {y w : Nat} (hcommitted : Committed p key trace y a w) :
    (∃ ev older, ev :: older <:+ trace ∧ Grounded p key proposed (fun _ => True) older ev ∧
      ev.block.node = y ∧ ev.key = key ∧ (ev.mem.inst key).current = w ∧
      ev.answer p = some (.commit ⟨a, key.node, key.round, y, w⟩)) ∧ y ∈ p.peers ∧
      ∃ nodes : Finset Nat, p.quorum2f1 ≤ nodes.card ∧ ∀ x ∈ nodes, Backed p key trace x a w := by
  obtain ⟨ev, older, hsuffix, -, hnode, hevkey, hcurrent, hanswer, nodes, hcard, hnodes⟩ :=
    h.grounded.of_committed hcommitted
  have hgrounded := (h.grounded.of_suffix hsuffix).1
  have hsub := older_subset hsuffix
  exact ⟨⟨ev, older, hsuffix, hgrounded, hnode, hevkey, hcurrent, hanswer⟩,
    hnode ▸ h.author _ hgrounded.block, nodes, hcard.ge, fun x hx => (hnodes x hx).mono hsub⟩

/-- In one view nobody commits to another value. -/
theorem committed_unique {y y' w : Nat}
    (ha : Committed p key trace y a w) (hb : Committed p key trace y' b w) : a = b := by
  obtain ⟨-, -, nodes, hcard, hnodes⟩ := h.of_committed ha
  obtain ⟨-, -, nodes', hcard', hnodes'⟩ := h.of_committed hb
  obtain ⟨x, hx, hx', hF⟩ := h.exists_common (fun x hx => (h.of_backed (hnodes x hx)).1)
    (fun x hx => (h.of_backed (hnodes' x hx)).1) hcard hcard'
  exact h.backed_unique hF (hnodes x hx) (hnodes' x hx')

end

/-- Two different steps of a chain come one after the other. -/
theorem ordered {R : Event → Event → Prop} {evs : List Event} {ev' : Event} (h : evs.Pairwise R)
    (hev : ev ∈ evs) (hev' : ev' ∈ evs) (hne : ev ≠ ev') : R ev ev' ∨ R ev' ev := by
  have hsymm : Std.Symm fun ev ev' => R ev ev' ∨ R ev' ev := ⟨fun _ _ => Or.symm⟩
  have hboth : evs.Pairwise fun ev ev' => R ev ev' ∨ R ev' ev := h.imp fun hR => .inl hR
  exact hboth.forall hev hev' hne

/-- Whoever has committed in a view hands on the value when a later view runs out, if
nobody has committed to another one up to there. -/
theorem hash_of_committed (h : Assembly p key F proposed trace) {z w u : Nat} {hash : Hash} (hz : z ∉ F)
    (ha : a ≠ []) (hw : w ≤ u) (hlater : ∀ y c, Committed p key trace y c u → c = a)
    (hcommitted : Committed p key trace z a w)
    (hviewChange : Answered p trace (.viewChange ⟨hash, key.node, key.round, z, u + 1⟩)) : hash = a := by
  obtain ⟨ev, older, t, hsuffix, hgrounded, hcause, hevkey, hanswer, hnode, hhash, hview⟩ :=
    h.of_viewChange rfl hviewChange
  obtain ⟨⟨ev', older', hsuffix', hgrounded', hnode', hevkey', hcurrent, hanswer'⟩, -, -⟩ :=
    h.of_committed hcommitted
  obtain rfl : t.view = u := (Nat.succ.inj hview).symm
  have hev := mem_eventsOf.mpr ⟨hsuffix.subset mem_cons_self, hnode⟩
  have hev' := mem_eventsOf.mpr ⟨hsuffix'.subset mem_cons_self, hnode'⟩
  have hne : ev' ≠ ev := by
    rintro rfl
    cases hanswer.symm.trans hanswer'
  have hsteadfast := h.steadfast hz
  have hfits := (careful_of_suffix h.careful hsuffix).2.2.2
  -- the commitment came first, since it was made in an earlier view
  have hfirst : ∃ reply, ev'.reply p = .ok reply ∧ (reply.mem.inst key).Retains p (ev.mem.inst key) := by
    have hboth := hsteadfast.kept.and hsteadfast.forward
    rcases ordered hboth hev' hev hne with hbefore | hafter
    · exact hbefore.1
    · obtain ⟨reply, hreply, hle⟩ := hafter.2
      have hasked : ev.asked p key = some (t.view + 1) := Event.asked_eq_some.mpr ⟨_, hanswer, rfl, rfl⟩
      obtain ⟨-, hstored, -⟩ := (view_of_reply hreply hfits (hsteadfast.due ev hev)).2.1 _ hasked
      rw [Instance.current, hstored, hcurrent] at hle
      have hlt : t.view + 1 ≤ w := hle
      omega
  -- and the value has been kept since
  have hprepared : (ev.mem.inst key).prepared w = some a := by
    obtain ⟨reply, hreply, hretains⟩ := hfirst
    obtain ⟨sender, receiver, cause, -, hresp, htransition⟩ :=
      Event.transition_of_answer rfl hanswer' (by simp) hreply
    obtain ⟨-, -, -, -, hsome, -⟩ := Instance.of_answer_commit htransition hresp
    obtain ⟨value, hvalue⟩ := Option.isSome_iff_exists.mp hsome
    obtain ⟨y, hother⟩ := (vouched_reply hgrounded' hreply).prepared w value hvalue
    rw [h.committed_unique hcommitted (hother.mono hsuffix'.subset)]
    exact hretains.prepared w value hvalue
  rcases Nat.eq_or_lt_of_le hw with rfl | hlt
  · exact hhash.trans (by rw [hprepared]; rfl)
  · have hsome := Event.prepared_of_remembers (careful_of_suffix h.careful hsuffix).1 hcause (hnode ▸ hz)
      (by rw [hanswer]; rfl) hlt (hevkey.symm ▸ hprepared) ha
    rw [hevkey] at hsome
    obtain ⟨value, hvalue⟩ := Option.isSome_iff_exists.mp hsome
    obtain ⟨y, hother⟩ := hgrounded.inst.prepared _ value hvalue
    refine hhash.trans ?_
    rw [hvalue]
    exact hlater y value (hother.mono (older_subset hsuffix))

/-- What a quorum has committed to, nobody departs from in a later view. -/
theorem committed_later (h : Assembly p key F proposed trace) {w : Nat} {nodes : Finset Nat}
    (hcard : p.quorum2f1 ≤ nodes.card) (hnodes : ∀ y ∈ nodes, Committed p key trace y a w) (u : Nat)
    (hu : w ≤ u) : ∀ y c, Committed p key trace y c u → c = a := by
  have hpos : 0 < p.quorum2f1 := Nat.succ_pos _
  induction u, hu using Nat.le_induction with
  | base =>
    intro y c hcommitted
    obtain ⟨y', hy'⟩ := Finset.card_pos.mp (hpos.trans_le hcard)
    exact h.committed_unique hcommitted (hnodes y' hy')
  | succ u hu ih =>
    intro y c hcommitted
    -- the value was announced for its view
    obtain ⟨-, -, backers, hbackers, hbacked⟩ := h.of_committed hcommitted
    obtain ⟨x, hx⟩ := Finset.card_pos.mp (hpos.trans_le hbackers)
    obtain ⟨ev, older, sender, hsuffix, -, hall, -, -, -, horigin⟩ := h.grounded.of_backed (hbacked x hx)
    have hannounced := horigin.resolve_right fun hfirst => absurd hfirst.1 (Nat.succ_ne_zero u)
    obtain ⟨ev', older', announcer, hsuffix', -, hnew⟩ := hall.of_prePrepare hannounced
    have hsub : older' ⊆ trace := List.Subset.trans (older_subset hsuffix') (older_subset hsuffix)
    obtain ⟨vcs, hsize, hmerge, hcast⟩ := h.of_newView rfl (hnew.mono hsub)
    obtain ⟨hfrom, hmerged⟩ := mergeHashes_eq_some hmerge
    by_cases ha : a = []
    · -- a value would have been prepared in the view before
      by_contra hne
      obtain ⟨voter, hvoter⟩ := mem_values.mp (hfrom.resolve_left (ha ▸ hne))
      obtain ⟨ev, older, t, hsuffix, hgrounded, -, -, -, -, hhash, hview⟩ :=
        h.of_viewChange rfl (hcast voter c hvoter)
      obtain rfl : t.view = u := (Nat.succ.inj hview).symm
      cases hprepared : (ev.mem.inst key).prepared t.view with
      | none =>
        rw [hprepared] at hhash
        exact hne (hhash.trans ha.symm)
      | some value =>
        rw [hprepared] at hhash
        obtain ⟨y, hother⟩ := hgrounded.inst.prepared _ value hprepared
        obtain rfl : c = value := hhash
        exact hne (ih y c (hother.mono (older_subset hsuffix)))
    · -- somebody who has committed to the value asked for the view
      have hvoters : ∀ z ∈ vcs.domain, z ∈ p.peers := by
        intro z hz
        obtain ⟨hash, hvoter⟩ := Option.isSome_iff_exists.mp (mem_domain.mp hz)
        obtain ⟨ev, older, t, -, hgrounded, -, -, -, hnode, -⟩ := h.of_viewChange rfl (hcast z hash hvoter)
        change ev.block.node = z at hnode
        exact hnode ▸ h.author _ hgrounded.block
      obtain ⟨z, hz, hz', hF⟩ := h.exists_common hvoters
        (fun z hz => (h.of_committed (hnodes z hz)).2.1)
        (by rw [← size_eq_card_domain, hsize]) hcard
      obtain ⟨hash, hvoter⟩ := Option.isSome_iff_exists.mp (mem_domain.mp hz)
      obtain rfl := h.hash_of_committed hF ha hu ih (hnodes z hz') (hcast z hash hvoter)
      have hvalue := hmerged hash (mem_cons_of_mem _ (mem_values.mpr ⟨z, hvoter⟩))
      exact (hvalue.resolve_left ha).symm

/-- A quorum commits to one value. -/
theorem certified_unique (h : Assembly p key F proposed trace) (ha : Certified p key trace a)
    (hb : Certified p key trace b) : a = b := by
  obtain ⟨w, nodes, hcard, hnodes⟩ := ha
  obtain ⟨w', nodes', hcard', hnodes'⟩ := hb
  have hpos : 0 < p.quorum2f1 := Nat.succ_pos _
  rcases le_total w w' with hle | hle
  · obtain ⟨y, hy⟩ := Finset.card_pos.mp (hpos.trans_le hcard')
    exact (h.committed_later hcard hnodes w' hle y b (hnodes' y hy)).symm
  · obtain ⟨y, hy⟩ := Finset.card_pos.mp (hpos.trans_le hcard)
    exact h.committed_later hcard' hnodes' w hle y a (hnodes y hy)

end Assembly

/-! ## Runs -/

namespace Graph

/-- No two block states have decided an instance differently. Rounds count from 1. -/
def Agrees (g : Graph) : Prop :=
  ∀ (key : NodeRound) (b b' : BlockID) (s s' : State) (hash hash' : Hash), 1 ≤ key.round →
    g.statess[b]? = some s → g.statess[b']? = some s' → s.final[key]? = some hash →
    s'.final[key]? = some hash' → hash = hash'

section Runs

variable {p : Params} {acts : List Action} {F : Finset Nat}

/-- As long as no round is delivered, nothing is pruned and no state is forgotten. -/
theorem preserves_idle {round : Nat} (hround : 1 ≤ round) (acts : List Action) :
    Preserves (new p 0) acts round 0 (fun _ => True) := by
  intro done rest g _ hdone hlimit
  have hidle : g.callbacks = [] := length_eq_zero_iff.mp (Nat.le_zero.mp hlimit)
  have hrecorded := (recorded_actAll p done).of_ok hdone hidle
  refine ⟨hrecorded.round.trans_le hround, fun e he _ => ?_⟩
  exact (hrecorded.statess e.block).mpr (mem_map_of_mem he)

/-- A round that is delivered already does not stop the program again. -/
theorem round_of_mismatch (g : Graph) (e : Entry) :
    Ensures (process g e) (fun _ => True) (fun halt => ∀ key, halt.crash = .mismatchingHash key →
      halt.host.round ≤ key.round) := by
  apply ensures_process
  refine (ensures_conduct_of_steps (fun _ _ => True) trivial (fun _ _ _ _ _ => trivial) ?_ ?_).mono
    fun _ _ => trivial
  · rintro g' mem sender msg crash - hcrash key rfl
    rcases Instance.step_eq_error (step_of_processMessage_error hcrash) with hother | ⟨hother, -⟩ <;>
      cases hother
  · intro g' mem sender msg reply _ _
    refine ensures_settle (fun _ => trivial) (fun _ _ _ _ => trivial) ?_
    rintro d crash _ hdeliver key rfl
    by_contra hlate
    rcases deliver_eq_error hdeliver with hother | ⟨hmismatch, -⟩
    · cases hother
    · obtain rfl : key = d.key := Crash.mismatchingHash.inj hmismatch
      cases (deliver_of_lt (not_le.mp hlate)).symm.trans hdeliver

theorem round_of_mismatch_actAll (g : Graph) (acts : List Action) :
    Ensures (actAll g acts) (fun _ => True) (fun halt => ∀ key, halt.crash = .mismatchingHash key →
      halt.host.round ≤ key.round) := by
  apply ensures_actAll fun _ _ => True
  · intro done a rest mid _ _ _
    cases a with
    | register bg => trivial
    | process e => exact round_of_mismatch mid e
  · trivial

/-- The steps of a run make an assembly. -/
theorem assembly_of_run (hpeers : p.peers.Nodup) (hcount : p.peerCount % 3 = 1)
    (hfaults : F.card ≤ p.faults) (hcausal : Causal p.peers (interpreted acts))
    (hone : ∀ x, x ∉ F → OneChain (interpreted acts) x)
    (hgrounded : AllGrounded p key (fun b => ∃ e ∈ interpreted acts, e.block = b) (fun _ => True) trace)
    (hchains : ∀ x, x ∉ F → HasTrail p key.round (fun _ => True) x trace)
    (hcareful : careful p F trace = true) :
    Assembly p key F (fun b => ∃ e ∈ interpreted acts, e.block = b) trace where
  peers := hpeers
  count := hcount
  faults := hfaults
  author := by
    rintro b ⟨e, he, rfl⟩
    exact (hcausal.wellFormed e he).node
  single := by
    rintro hnode hash hash' ⟨e, he, hblock⟩ ⟨e', he', hblock'⟩
    have hsame := hone key.node hnode e he e' he' (by rw [hblock]) (by rw [hblock']) (by rw [hblock, hblock'])
    rw [hblock, hblock'] at hsame
    exact congrArg BlockID.hash hsame
  grounded := hgrounded
  chains := hchains
  careful := hcareful

/-- Agreement. In a graph of `3f+1` peers, all but at most `f` of which never fork, and
as long as no round is delivered, no two block states decide an instance differently, and
no delivery contradicts an earlier one, if all steps so far were taken with care. -/
theorem agrees_of_careful (hpeers : p.peers.Nodup) (hcount : p.peerCount % 3 = 1)
    (hfaults : F.card ≤ p.faults) (hcausal : Causal p.peers (interpreted acts))
    (hone : ∀ x, x ∉ F → OneChain (interpreted acts) x) :
    Ensures (actAll (new p 0) acts)
      (fun g => g.callbacks = [] → careful p F g.trace = true → g.Agrees)
      (fun halt => halt.host.callbacks = [] → careful p F halt.host.trace = true →
        ∀ key, halt.crash ≠ .mismatchingHash key) := by
  have hjustified (key : NodeRound) : Ensures (actAll (new p 0) acts)
      (Justified p key (fun b => ∃ e ∈ interpreted acts, e.block = b) (fun _ => True))
      (StopsGrounded p key (fun b => ∃ e ∈ interpreted acts, e.block = b) (fun _ => True)) :=
    justified_actAll (fun e he => ⟨e, he, rfl⟩) (fun _ _ _ _ _ _ => trivial)
  have htrail (key : NodeRound) (hround : 1 ≤ key.round) (x : Nat) (hx : x ∉ F) :=
    hasTrail_actAll hcausal (hone x hx) (fun _ _ _ _ _ => trivial) (preserves_idle hround acts)
  cases hrun : actAll (new p 0) acts with
  | ok g =>
    intro hidle hcareful key b b' s s' hash hash' hround hs hs' hfinal hfinal'
    have hgraph := (hjustified key).of_ok hrun
    have hassembly := assembly_of_run hpeers hcount hfaults hcausal hone hgraph.trace
      (fun x hx => (htrail key hround x hx).of_ok hrun (by rw [hidle]; rfl)) hcareful
    exact hassembly.certified_unique ((hgraph.inst b s hs).final hash hfinal)
      ((hgraph.inst b' s' hs').final hash' hfinal')
  | error halt =>
    intro hidle hcareful key hcrash
    have hlate := (round_of_mismatch_actAll (new p 0) acts).of_error hrun key hcrash
    have hhost := (round_actAll p 0 acts).of_error hrun
    rw [hidle] at hhost
    have hround : 1 ≤ key.round := by
      rw [hhost] at hlate
      exact hlate
    obtain ⟨ev, older, htrace, hgrounded, -, hmismatch, -⟩ := (hjustified key).of_error hrun
    obtain ⟨hash, hash', hne, hcertified, hcertified'⟩ := hmismatch hcrash
    have hchains : ∀ x, x ∉ F → HasTrail p key.round (fun _ => True) x older := by
      intro x hx
      obtain ⟨ev', older', htrace', htrail'⟩ := (htrail key hround x hx).of_error hrun (by rw [hidle]; rfl)
      cases htrace.symm.trans htrace'
      exact htrail'
    rw [htrace] at hcareful
    have hassembly := assembly_of_run hpeers hcount hfaults hcausal hone hgrounded.2 hchains
      (Bool.and_eq_true_iff.mp hcareful).2
    exact hne (hassembly.certified_unique hcertified hcertified')

end Runs

/-- Nodes 2 and 3 commit to the first block of node 1 with it, and node 1 decides it. -/
def decidedByOne : List BlockGraph :=
  ((range' 1 9).map fun round => ownAt 1 round []) ++
    [ownAt 1 10 [depAt 2 1 [blockAt 1 1], depAt 3 1 [blockAt 1 1], depAt 2 2 [blockAt 1 9, blockAt 3 1],
      depAt 3 2 [blockAt 1 9, blockAt 2 1]]]

/-- The others give up the first view, and decide the block in the second. There nodes 1 and 4
start with the first blocks of nodes 2 and 3, and nodes 2 and 3 with no block in their place. -/
def reaffirmed : List BlockGraph :=
  decidedByOne ++ [ownAt 1 11 (stretch 2 3 11 ++ [depAt 4 1 [], depAt 4 2 [blockAt 1 9]] ++
      stretch 4 3 11 ++ stretch 3 3 11),
    ownAt 1 12 [depAt 2 12 [blockAt 4 11, blockAt 3 11], depAt 3 12 [blockAt 4 11, blockAt 2 11],
      depAt 4 12 [blockAt 2 11, blockAt 1 11], depAt 2 13 [blockAt 3 12, blockAt 4 12],
      depAt 3 13 [blockAt 2 12, blockAt 4 12], depAt 4 13 [blockAt 2 12, blockAt 3 12],
      depAt 2 14 [blockAt 3 13, blockAt 4 13]]]

theorem agrees_reaffirmed :
    ∃ g, actAll (new .four 0) (reaffirmed.flatMap actions) = .ok g ∧
      (∀ b ∈ [blockAt 1 10, blockAt 2 14],
        g.statess[b]?.bind (fun s => s.final[(⟨1, 1⟩ : NodeRound)]?) = some [1, 1]) ∧
      Answered .four g.trace (.commit ⟨[1, 1], 1, 1, 2, 1⟩) ∧ g.Agrees := by
  have hcheck : succeeds (actAll (new .four 0) (reaffirmed.flatMap actions)) (fun g =>
      g.callbacks.isEmpty && careful .four {3} g.trace &&
      decide (∀ b ∈ [blockAt 1 10, blockAt 2 14],
        g.statess[b]?.bind (fun s => s.final[(⟨1, 1⟩ : NodeRound)]?) = some [1, 1]) &&
      g.trace.any (fun ev => ev.answer .four = some (.commit ⟨[1, 1], 1, 1, 2, 1⟩))) = true := by
    decide +kernel
  obtain ⟨g, hrun, hfacts⟩ := exists_of_succeeds hcheck
  obtain ⟨hfacts, hcommit⟩ := Bool.and_eq_true_iff.mp hfacts
  obtain ⟨hfacts, hfinal⟩ := Bool.and_eq_true_iff.mp hfacts
  obtain ⟨hidle, hcareful⟩ := Bool.and_eq_true_iff.mp hfacts
  obtain ⟨ev, hev, hanswer⟩ := any_eq_true.mp hcommit
  have hcausal : Causal Params.four.peers (interpreted (reaffirmed.flatMap actions)) := by
    rw [interpreted_actions]
    exact causal_of_check (by decide +kernel)
  have hone : ∀ x, x ∉ ({3} : Finset Nat) → OneChain (interpreted (reaffirmed.flatMap actions)) x := by
    rw [interpreted_actions]
    exact fun x _ => oneChain_of_check (by decide +kernel) x
  have hpeers : Params.four.peers.Nodup ∧ Params.four.peerCount % 3 = 1 ∧
      ({3} : Finset Nat).card ≤ Params.four.faults := by decide
  -- the run is not to be evaluated again
  generalize reaffirmed.flatMap actions = acts at hrun hcausal hone ⊢
  have hensures := agrees_of_careful hpeers.1 hpeers.2.1 hpeers.2.2 hcausal hone
  exact ⟨g, hrun, of_decide_eq_true hfinal, ⟨ev, hev, of_decide_eq_true hanswer⟩,
    hensures.of_ok hrun (List.isEmpty_iff.mp hidle) hcareful⟩

/-- The others give up the first view and hand the block on to the second, where they hear
nothing of each other until that view runs out too. Nobody mentions the block any more. -/
def forgotten : List BlockGraph :=
  decidedByOne ++ [ownAt 1 11 (stretch 2 3 11 ++ stretch 3 3 11 ++
      [depAt 4 1 [], depAt 4 2 [blockAt 1 9]] ++ stretch 4 3 11 ++
      [depAt 2 12 [blockAt 3 11, blockAt 4 11], depAt 3 12 [blockAt 2 11, blockAt 4 11],
        depAt 4 12 [blockAt 2 11, blockAt 3 11], depAt 2 13 [blockAt 4 3], depAt 3 13 [blockAt 4 3],
        depAt 4 13 [blockAt 2 3]] ++
      stretch 2 14 27 ++ stretch 3 14 27 ++ stretch 4 14 27 ++
      [depAt 2 28 [blockAt 3 27, blockAt 4 27], depAt 3 28 [blockAt 2 27, blockAt 4 27],
        depAt 4 28 [blockAt 2 27, blockAt 3 27], depAt 2 29 [blockAt 3 28, blockAt 4 28],
        depAt 3 29 [blockAt 2 28, blockAt 4 28], depAt 4 29 [blockAt 2 28, blockAt 3 28],
        depAt 2 30 [blockAt 3 29, blockAt 4 29]])]

/-- Block 30 of the second node decides for no block, against what node 1 has decided. -/
theorem disagrees_forgotten :
    Causal Params.four.peers (interpreted (forgotten.flatMap actions)) ∧
      (∀ x, OneChain (interpreted (forgotten.flatMap actions)) x) ∧
      ∃ halt, actAll (new .four 0) (forgotten.flatMap actions) = .error halt ∧
        halt.crash = .mismatchingHash ⟨1, 1⟩ ∧ halt.host.callbacks = [] := by
  have hcheck : (halted (actAll (new .four 0) (forgotten.flatMap actions))).any (fun halt =>
      decide (halt.crash = .mismatchingHash ⟨1, 1⟩) && halt.host.callbacks.isEmpty) = true := by
    decide +kernel
  obtain ⟨halt, hhalted, hfacts⟩ := (Option.any_eq_true _ _).mp hcheck
  rw [Bool.and_eq_true, decide_eq_true_eq, List.isEmpty_iff] at hfacts
  rw [interpreted_actions]
  exact ⟨causal_of_check (by decide +kernel), oneChain_of_check (by decide +kernel), halt,
    eq_error_of_halted hhalted, hfacts⟩

end Graph

end Blockmania
