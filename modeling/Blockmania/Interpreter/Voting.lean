/-
# A chain votes once

What an instance has said once it does not say again: an accepted value, an
entered view and a commitment each leave a mark, and no later step removes it.
The marks are copied from block to block, unlike the vote maps and the slices of
timeouts, which blocks with the same predecessor share. They outlast whatever
other blocks do to the shared memory.

A course follows one instance along a chain. Other blocks may change the votes
against views in between, and nothing else.
-/

import Blockmania.Interpreter.Trail

namespace Blockmania

open Math List

/-- After the steps `evs` of a chain an instance has come to be the given one.
In between, other blocks may have written to the vote maps. -/
inductive Course (p : Params) (key : NodeRound) : List Event → Instance → Prop
  | start : Course p key [] Instance.empty
  | drift {evs : List Event} {i : Instance} (course : Course p key evs i)
      (votes : Nat → Option (FiniteMap Nat Hash)) : Course p key evs { i with viewChanged := votes }
  | step {evs : List Event} (ev : Event) {reply : Reply}
      (course : Course p key evs (ev.mem.inst key)) (hreply : ev.reply p = .ok reply) :
      Course p key (evs ++ [ev]) (reply.mem.inst key)

variable {p : Params} {key : NodeRound} {evs : List Event} {i : Instance}

/-- Another heap shows other votes against views and nothing else. -/
theorem Course.heap {heap : Heap} {s : State} (course : Course p key evs (Memory.inst ⟨heap, s⟩ key))
    (heap' : Heap) : Course p key evs (Memory.inst ⟨heap', s⟩ key) :=
  course.drift (Memory.inst ⟨heap', s⟩ key).viewChanged

/-- What every step keeps relates every two steps of a course, if it is
transitive and does not look at votes against views: what the earlier step
leaves behind and what the later one finds. -/
theorem Course.pairwise (rel : Instance → Instance → Prop)
    (hdrift : ∀ (i : Instance) votes, rel i { i with viewChanged := votes })
    (htrans : ∀ {i j k}, rel i j → rel j k → rel i k) (course : Course p key evs i)
    (hstep : ∀ ev ∈ evs, ∀ reply, ev.reply p = .ok reply →
      rel (ev.mem.inst key) (reply.mem.inst key)) :
    (∀ ev ∈ evs, ∃ reply, ev.reply p = .ok reply ∧ rel (reply.mem.inst key) i) ∧
      evs.Pairwise fun ev ev' => ∃ reply, ev.reply p = .ok reply ∧
        rel (reply.mem.inst key) (ev'.mem.inst key) := by
  induction course with
  | start => simp
  | drift course votes ih =>
    obtain ⟨hlast, hpairs⟩ := ih hstep
    refine ⟨fun ev hev => ?_, hpairs⟩
    obtain ⟨reply, hreply, hrel⟩ := hlast ev hev
    exact ⟨reply, hreply, htrans hrel (hdrift _ votes)⟩
  | @step evs ev reply course hreply ih =>
    obtain ⟨hlast, hpairs⟩ := ih fun ev' hev' => hstep ev' (mem_append_left _ hev')
    have hkept := hstep ev (mem_append_right _ (mem_singleton_self ev)) _ hreply
    constructor
    · intro ev' hev'
      rcases mem_append.mp hev' with hev' | hev'
      · obtain ⟨reply', hreply', hrel⟩ := hlast ev' hev'
        exact ⟨reply', hreply', htrans hrel hkept⟩
      · rw [mem_singleton.mp hev']
        exact ⟨_, hreply, hdrift _ _⟩
    · rw [pairwise_append]
      refine ⟨hpairs, pairwise_singleton _ _, fun ev' hev' ev'' hev'' => ?_⟩
      rw [mem_singleton.mp hev'']
      exact hlast ev' hev'

/-- The steps of a trail are a course of every instance that is not pruned. -/
theorem Trail.course {round : Nat} {pre : List Event} {start mem : Memory} (hround : round ≤ key.round)
    (hstart : start.inst key = Instance.empty) (trail : Trail p round pre start evs mem) :
    Course p key (evs.drop pre.length) (mem.inst key) := by
  induction trail with
  | start =>
    rw [hstart, drop_length]
    exact Course.start
  | next trail minround e hmin ih =>
    rw [inst_next (hmin.trans hround)]
    exact ih
  | emit trail out ih => exact ih
  | frame trail hsame ih =>
    rw [hsame.inst]
    exact ih
  | step ev trail hreply ih =>
    rw [drop_append_of_le_length trail.length_le]
    exact ih.step ev hreply

namespace Instance

variable {j k : Instance}

/-- No mark of a vote is lost from one instance to another. -/
structure Retains (p : Params) (i j : Instance) : Prop where
  prePrepared : ∀ w m, i.prePrepared w = some m → j.prePrepared w = some m
  hnv : ∀ w, (i.hnv w).isSome → (j.hnv w).isSome
  prepared : ∀ w hash, i.prepared w = some hash → j.prepared w = some hash
  commits : ∀ hash w,
    (i.bitset p.peerCount hash w).committers ⊆ (j.bitset p.peerCount hash w).committers

theorem Retains.refl (i : Instance) : i.Retains p i :=
  ⟨fun _ _ h => h, fun _ h => h, fun _ _ h => h, fun _ _ => Finset.Subset.refl _⟩

theorem Retains.trans (h : i.Retains p j) (h' : j.Retains p k) : i.Retains p k where
  prePrepared w m hm := h'.prePrepared w m (h.prePrepared w m hm)
  hnv w hw := h'.hnv w (h.hnv w hw)
  prepared w hash hhash := h'.prepared w hash (h.prepared w hash hhash)
  commits hash w := (h.commits hash w).trans (h'.commits hash w)

/-- An instance keeps its marks if the votes on one value change and no
commitment to it is lost. -/
theorem retains_setBitset {hash : Hash} {w : Nat} {b : Bitset}
    (hcommits : (i.bitset p.peerCount hash w).committers ⊆ b.committers) :
    i.Retains p (i.opened.setBitset hash w b) := by
  refine ⟨fun _ _ h => h, fun _ h => h, fun _ _ h => h, fun hash' w' => ?_⟩
  rw [bitset_setBitset]
  split
  · rename_i heq
    rw [← heq.1, ← heq.2]
    exact hcommits
  · exact Finset.Subset.refl _

/-- No message removes a mark. -/
theorem retains_of_transition {sender receiver : Nat} {msg : Message} {o : Outcome}
    (h : i.Transition p sender receiver msg o) : i.Retains p o.inst := by
  cases h with
  | closed _ => exact Retains.refl i
  | drop _ _ => exact ⟨fun _ _ h => h, fun _ h => h, fun _ _ h => h, fun _ _ => Finset.Subset.refl _⟩
  | @accept m b b' hopen hview hfresh hsender hreceiver =>
    have hkept : i.Retains p (i.opened.setBitset m.hash m.view b') := by
      apply retains_setBitset
      rw [(Bitset.setPrepare_spec hreceiver).2, (Bitset.setPrepare_spec hsender).2]
    refine ⟨fun w m' hm' => ?_, hkept.hnv, hkept.prepared, hkept.commits⟩
    have hne : w ≠ m.view := by
      rintro rfl
      rw [hfresh] at hm'
      cases hm'
    exact (Function.update_of_ne hne _ _).trans hm'
  | note hopen hview hvote hshort =>
    apply retains_setBitset
    rw [(Bitset.setPrepare_spec hvote).2]
  | @commit m b b' hopen hview hvote hquorum hfresh hcommit =>
    have hkept : i.Retains p (i.opened.setBitset m.hash m.view b') := by
      apply retains_setBitset
      rw [(Bitset.setCommit_spec hcommit).1, (Bitset.setPrepare_spec hvote).2]
      exact Finset.subset_insert _ _
    dsimp only
    split
    · exact hkept
    · rename_i hnone
      refine ⟨hkept.prePrepared, hkept.hnv, fun w hash hhash => ?_, hkept.commits⟩
      have hne : w ≠ m.view := by
        rintro rfl
        rw [hhash] at hnone
        exact hnone rfl
      exact (Function.update_of_ne hne _ _).trans hhash
  | acknowledge hopen hview hvote hshort =>
    apply retains_setBitset
    rw [(Bitset.setCommit_spec hvote).1]
    exact Finset.subset_insert _ _
  | @decide m b hopen hview hvote hquorum hfresh =>
    have hkept : i.Retains p (i.opened.setBitset m.hash m.view b) := by
      apply retains_setBitset
      rw [(Bitset.setCommit_spec hvote).1]
      exact Finset.subset_insert _ _
    exact ⟨hkept.prePrepared, hkept.hnv, hkept.prepared, hkept.commits⟩
  | protest | depose =>
    exact ⟨fun _ _ h => h, fun _ h => h, fun _ _ h => h, fun _ _ => Finset.Subset.refl _⟩
  | @enter m hopen hview hfresh =>
    refine ⟨fun _ _ h => h, fun w hw => ?_, fun _ _ h => h, fun _ _ => Finset.Subset.refl _⟩
    have hne : w ≠ m.view := by
      rintro rfl
      rw [hfresh] at hw
      cases hw
    change (Function.update i.hnv m.view (some true) w).isSome
    rwa [Function.update_of_ne hne]

end Instance

variable {ev : Event} {reply : Reply}

/-- No step removes a mark of an instance. -/
theorem Event.retains (h : ev.reply p = .ok reply) (key : NodeRound) :
    (ev.mem.inst key).Retains p (reply.mem.inst key) := by
  apply Event.reply_keeps (fun hinv htransition => ?_) (fun w _ hinv => ?_) key ev reply
    (Instance.Retains.refl _) h
  · exact hinv.trans (Instance.retains_of_transition htransition)
  · exact ⟨hinv.prePrepared, hinv.hnv, hinv.prepared, hinv.commits⟩

/-- Marks stay along a course. -/
theorem Course.retains (course : Course p key evs i) :
    (∀ ev ∈ evs, ∃ reply, ev.reply p = .ok reply ∧ (reply.mem.inst key).Retains p i) ∧
      evs.Pairwise fun ev ev' => ∃ reply, ev.reply p = .ok reply ∧
        (reply.mem.inst key).Retains p (ev'.mem.inst key) := by
  apply course.pairwise (Instance.Retains p) (fun i votes => ?_) Instance.Retains.trans
    fun ev _ reply hreply => Event.retains hreply key
  exact ⟨fun _ _ h => h, fun _ h => h, fun _ _ h => h, fun _ _ => Finset.Subset.refl _⟩

/-- What the steps of a chain say about an instance, they say once: there is one
Prepare and one PrePrepare for a view, and one Commit for a view and a hash. A
Prepare is for the value that is stored as accepted. -/
structure VotesOnce (p : Params) (key : NodeRound) (evs : List Event) : Prop where
  prepare : evs.Pairwise fun ev ev' => ∀ m m', (⟨m.node, m.round⟩ : NodeRound) = key →
    (⟨m'.node, m'.round⟩ : NodeRound) = key → ev.answer p = some (.prepare m) →
    ev'.answer p = some (.prepare m') → m.view ≠ m'.view
  prePrepare : evs.Pairwise fun ev ev' => ∀ m m', (⟨m.node, m.round⟩ : NodeRound) = key →
    (⟨m'.node, m'.round⟩ : NodeRound) = key → ev.answer p = some (.prePrepare m) →
    ev'.answer p = some (.prePrepare m') → m.view ≠ m'.view
  commit : evs.Pairwise fun ev ev' => ∀ m m', (⟨m.node, m.round⟩ : NodeRound) = key →
    (⟨m'.node, m'.round⟩ : NodeRound) = key → ev.answer p = some (.commit m) →
    ev'.answer p = some (.commit m') → (m.view, m.hash) ≠ (m'.view, m'.hash)
  value : ∀ ev ∈ evs, ∀ m reply, (⟨m.node, m.round⟩ : NodeRound) = key →
    ev.answer p = some (.prepare m) → ev.reply p = .ok reply →
    reply.mem.state.data.prePrepared[(⟨m.node, m.round, m.view⟩ : NodeRoundView)]? = some m.pre

/-- A step that answers with anything but a ViewChange makes a transition. -/
theorem Event.transition_of_answer {msg : Message} (hkey : msg.nodeRound = key)
    (hanswer : ev.answer p = some msg) (hkind : ∀ m, msg ≠ .viewChange m)
    (hreply : ev.reply p = .ok reply) :
    ∃ sender receiver cause, ev.cause = .message sender receiver cause ∧ reply.resp = some msg ∧
      (ev.mem.inst key).Transition p sender receiver cause
        ⟨reply.mem.inst key, reply.resp, reply.delivery⟩ := by
  have hresp := (answer_of_reply hreply).symm.trans hanswer
  rcases reply_cases hreply with ⟨t, hcause, -⟩ | ⟨sender, receiver, cause, hcause, htransition⟩
  · rcases answer_cases hanswer with ⟨t', -, -, -, hmsg⟩ | ⟨sender, receiver, cause, o, hcause', -⟩
    · exact absurd hmsg (hkind _)
    · cases hcause.symm.trans hcause'
  · have hround := Instance.nodeRound_of_transition htransition hresp
    have hevkey : ev.key = key := by rw [Event.key, hcause, ← hkey, hround]
    rw [hevkey] at htransition
    exact ⟨sender, receiver, cause, hcause, hresp, htransition⟩

/-- A PrePrepare is answered with a Prepare for its value. -/
theorem Event.prepare_of_answer {sender receiver : Nat} {m : PrePrepare}
    (hcause : ev.cause = .message sender receiver (.prePrepare m)) (h : (ev.answer p).isSome) :
    ev.answer p = some (.prepare ⟨m.hash, m.node, m.round, receiver, m.view⟩) := by
  obtain ⟨msg, hmsg⟩ := Option.isSome_iff_exists.mp h
  rcases answer_cases hmsg with ⟨t, hcause', -⟩ | ⟨_, _, _, o, hcause', hresp, htransition⟩
  · cases hcause.symm.trans hcause'
  · cases hcause.symm.trans hcause'
    cases htransition <;> cases hresp
    exact hmsg

/-- Two answers of one instance along a course: the later transition starts with
the marks that the earlier one left. -/
theorem Course.answers (course : Course p key evs i) :
    evs.Pairwise fun ev ev' => ∀ msg msg' : Message, msg.nodeRound = key → msg'.nodeRound = key →
      (∀ m, msg ≠ .viewChange m) → (∀ m, msg' ≠ .viewChange m) →
      ev.answer p = some msg → ev'.answer p = some msg' →
      ∃ sender receiver cause o sender' receiver' cause' o',
        ev.cause = .message sender receiver cause ∧ ev'.cause = .message sender' receiver' cause' ∧
        (ev.mem.inst key).Transition p sender receiver cause o ∧ o.resp = some msg ∧
        (ev'.mem.inst key).Transition p sender' receiver' cause' o' ∧ o'.resp = some msg' ∧
        o.inst.Retains p (ev'.mem.inst key) := by
  obtain ⟨hreplies, hpairs⟩ := course.retains
  refine hpairs.imp_of_mem fun {ev ev'} _ hev' hretains msg msg' hkey hkey' hkind hkind' hanswer
    hanswer' => ?_
  obtain ⟨reply, hreply, hretains⟩ := hretains
  obtain ⟨reply', hreply', -⟩ := hreplies ev' hev'
  obtain ⟨sender, receiver, cause, hcause, hresp, htransition⟩ :=
    Event.transition_of_answer hkey hanswer hkind hreply
  obtain ⟨sender', receiver', cause', hcause', hresp', htransition'⟩ :=
    Event.transition_of_answer hkey' hanswer' hkind' hreply'
  exact ⟨_, _, _, _, _, _, _, _, hcause, hcause', htransition, hresp, htransition', hresp', hretains⟩

/-- Along a course an instance votes once, if all its steps are taken by one
node. -/
theorem Course.votesOnce {x : Nat} (course : Course p key evs i)
    (hreceiver : ∀ ev ∈ evs, ∀ sender receiver msg, ev.cause = .message sender receiver msg →
      receiver = x) : VotesOnce p key evs := by
  constructor
  · refine course.answers.imp fun {ev ev'} h m m' hm hm' hanswer hanswer' hview => ?_
    obtain ⟨_, _, _, _, _, _, _, _, -, -, htransition, hresp, htransition', hresp', hretains⟩ :=
      h (.prepare m) (.prepare m') hm hm' (by simp) (by simp) hanswer hanswer'
    obtain ⟨-, -, -, hmarked⟩ := Instance.of_answer_prepare htransition hresp
    obtain ⟨-, -, hfresh, -⟩ := Instance.of_answer_prepare htransition' hresp'
    rw [← hview, hretains.prePrepared _ _ hmarked] at hfresh
    cases hfresh
  · refine course.answers.imp fun {ev ev'} h m m' hm hm' hanswer hanswer' hview => ?_
    obtain ⟨_, _, _, _, _, _, _, _, -, -, htransition, hresp, htransition', hresp', hretains⟩ :=
      h (.prePrepare m) (.prePrepare m') hm hm' (by simp) (by simp) hanswer hanswer'
    obtain ⟨-, -, hmarked⟩ := Instance.of_answer_prePrepare htransition hresp
    obtain ⟨-, hfresh, -⟩ := Instance.of_answer_prePrepare htransition' hresp'
    have hkept := hretains.hnv _ hmarked
    rw [hview, hfresh] at hkept
    cases hkept
  · refine course.answers.imp_of_mem fun {ev ev'} hev hev' h m m' hm hm' hanswer hanswer' hsame => ?_
    obtain ⟨_, _, _, _, _, _, _, _, hcause, hcause', htransition, hresp, htransition', hresp',
      hretains⟩ := h (.commit m) (.commit m') hm hm' (by simp) (by simp) hanswer hanswer'
    -- the same node took both steps, so it committed under the same name
    obtain ⟨_, -, hsender, -⟩ := Instance.of_answer_commit htransition hresp
    obtain ⟨_, -, hsender', -⟩ := Instance.of_answer_commit htransition' hresp'
    have hnode : m.sender = m'.sender := by
      rw [← hsender, ← hsender', hreceiver ev hev _ _ _ hcause, hreceiver ev' hev' _ _ _ hcause']
    obtain ⟨hview, hhash⟩ := Prod.mk.inj hsame
    have hmarked := (Instance.committers_of_answer htransition hresp).2
    have hfresh := (Instance.committers_of_answer htransition' hresp').1
    rw [← hnode, ← hview, ← hhash] at hfresh
    exact hfresh (hretains.commits _ _ hmarked)
  · intro ev hev m reply hm hanswer hreply
    have hkey : (Message.prepare m).nodeRound = ⟨m.node, m.round⟩ := rfl
    obtain ⟨_, _, _, -, hresp, htransition⟩ :=
      Event.transition_of_answer hkey hanswer (by simp) hreply
    exact (Instance.of_answer_prepare htransition hresp).2.2.2

/-- A step that stops the program says nothing. -/
theorem VotesOnce.concat (h : VotesOnce p key evs) {crash : Crash}
    (hcrash : ev.reply p = .error crash) : VotesOnce p key (evs ++ [ev]) := by
  have hnone : ev.answer p = none := by rw [Event.answer, hcrash]
  have hpair {rel : Event → Event → Prop} (hevs : evs.Pairwise rel)
      (hlast : ∀ ev' ∈ evs, rel ev' ev) : (evs ++ [ev]).Pairwise rel := by
    rw [pairwise_append]
    refine ⟨hevs, pairwise_singleton _ _, fun ev' hev' last hmem => ?_⟩
    rw [mem_singleton.mp hmem]
    exact hlast ev' hev'
  have hlast {msg : Message} (hanswer : ev.answer p = some msg) : False := by
    cases hnone.symm.trans hanswer
  refine ⟨hpair h.prepare fun _ _ _ _ _ _ _ hanswer => (hlast hanswer).elim,
    hpair h.prePrepare fun _ _ _ _ _ _ _ hanswer => (hlast hanswer).elim,
    hpair h.commit fun _ _ _ _ _ _ _ hanswer => (hlast hanswer).elim, ?_⟩
  intro ev' hev' m reply hm hanswer hreply
  rcases mem_append.mp hev' with hev' | hev'
  · exact h.value ev' hev' m reply hm hanswer hreply
  · exact (hlast (mem_singleton.mp hev' ▸ hanswer)).elim

/-- A chain that votes once accepts one value in a view. -/
theorem VotesOnce.hash_unique (h : VotesOnce p key evs) {ev' : Event} (hev : ev ∈ evs)
    (hev' : ev' ∈ evs) {a b : Hash} {x w : Nat}
    (hanswer : ev.answer p = some (.prepare ⟨a, key.node, key.round, x, w⟩))
    (hanswer' : ev'.answer p = some (.prepare ⟨b, key.node, key.round, x, w⟩)) : a = b := by
  by_contra hne
  have hevne : ev ≠ ev' := by
    rintro rfl
    cases hanswer.symm.trans hanswer'
    exact hne rfl
  have hsymm : Std.Symm fun ev ev' : Event => ∀ m m' : Vote,
      (⟨m.node, m.round⟩ : NodeRound) = key → (⟨m'.node, m'.round⟩ : NodeRound) = key →
      ev.answer p = some (.prepare m) → ev'.answer p = some (.prepare m') → m.view ≠ m'.view :=
    ⟨fun ev ev' hpair m m' hm hm' hanswer hanswer' hview =>
      hpair m' m hm' hm hanswer' hanswer hview.symm⟩
  exact h.prepare.forall hev hev' hevne _ _ rfl rfl hanswer hanswer' rfl

/-- Operations on a chain, each with the heap that other blocks have left it. -/
def performShared (p : Params) (session : Session (List Event)) :
    List (Heap × Op) → Except (Halt (List Event)) (Session (List Event))
  | [] => .ok session
  | (heap, op) :: ops => do
    let session ← perform p { session with mem := { session.mem with heap } } op
    performShared p session ops

/-- All messages are processed by one node. -/
def OfNode (x : Nat) (ops : List Op) : Prop :=
  ∀ call msgs, Op.messages call msgs ∈ ops → call.receiver = x

variable {x : Nat}

/-- The steps recorded so far follow the instance, and one node took them. -/
def OnCourse (p : Params) (key : NodeRound) (x : Nat) (evs : List Event) (mem : Memory) : Prop :=
  Course p key evs (mem.inst key) ∧
    ∀ ev ∈ evs, ∀ sender receiver msg, ev.cause = .message sender receiver msg → receiver = x

theorem OnCourse.step {evs : List Event} (h : OnCourse p key x evs ev.mem)
    (hreply : ev.reply p = .ok reply)
    (hnode : ∀ sender receiver msg, ev.cause = .message sender receiver msg → receiver = x) :
    OnCourse p key x (evs ++ [ev]) reply.mem := by
  refine ⟨h.1.step ev hreply, fun ev' hev' => ?_⟩
  rcases mem_append.mp hev' with hev' | hev'
  · exact h.2 ev' hev'
  · rw [mem_singleton.mp hev']
    exact hnode

/-- One operation stays on course, and if it stops the program the votes up to
there were cast once. -/
theorem onCourse_perform (session : Session (List Event)) {op : Op} (hkeeps : Keeps key.round [op])
    (hnode : OfNode x [op]) (h : OnCourse p key x session.host session.mem) :
    Ensures (perform p session op) (fun session' => OnCourse p key x session'.host session'.mem)
      (fun halt => VotesOnce p key halt.host) := by
  cases op with
  | next minround e =>
    have hinst : (session.mem.next p minround e).inst key = session.mem.inst key :=
      inst_next (hkeeps minround e (mem_singleton.mpr rfl))
    refine ⟨?_, h.2⟩
    rw [hinst]
    exact h.1
  | timeouts block ts =>
    refine inv_expireAll (fun host mem _ => OnCourse p key x host mem)
      (fun t _ host mem _ hcourse => ?_) [] h
    have hstep : Event.reply p ⟨block, mem, .timeout t⟩ =
      .ok ⟨(mem.expire block.node t).1, (mem.expire block.node t).2, none⟩ := rfl
    exact hcourse.step hstep (by simp)
  | messages call msgs =>
    have hreceiver := hnode call msgs (mem_singleton.mpr rfl)
    have hkept : Kept recorder p call (fun _ => True)
        (fun session _ => OnCourse p key x session.host session.mem)
        (fun halt => VotesOnce p key halt.host) := by
      intro session emitted msg hcourse _
      let ev : Event := ⟨call.origin, session.mem, .message call.sender call.receiver msg⟩
      apply ensures_answer (fun _ => hcourse)
      · intro crash hcrash
        change ev.reply p = .error crash at hcrash
        exact (hcourse.1.votesOnce hcourse.2).concat hcrash
      · intro reply hreply
        change ev.reply p = .ok reply at hreply
        have hnext : OnCourse p key x (session.noting recorder call msg) reply.mem := by
          apply OnCourse.step hcourse hreply
          intro sender receiver msg' hcause
          cases hcause
          exact hreceiver
        refine ensures_settle (fun _ => hnext) (fun d host' _ hdeliver => ?_) (fun d crash _ hdeliver => ?_)
        · cases hdeliver
          exact hnext
        · cases hdeliver
    exact (ensures_processMessages hkept [] (fun _ _ => .inl trivial) h).bind fun r hr => hr

/-- A chain votes once, whatever messages it processes and whatever other
blocks do to the memory it shares with them, for every instance of a round that
none of its blocks prunes. -/
theorem votesOnce_performShared {ops : List (Heap × Op)} (hkeeps : Keeps key.round (ops.map Prod.snd))
    (hnode : OfNode x (ops.map Prod.snd)) :
    Ensures (performShared p unwritten ops) (fun session => VotesOnce p key session.host)
      (fun halt => VotesOnce p key halt.host) := by
  have hrun : ∀ (ops : List (Heap × Op)) (session : Session (List Event)),
      Keeps key.round (ops.map Prod.snd) → OfNode x (ops.map Prod.snd) →
      OnCourse p key x session.host session.mem →
      Ensures (performShared p session ops) (fun session => VotesOnce p key session.host)
        (fun halt => VotesOnce p key halt.host) := by
    intro ops
    induction ops with
    | nil => exact fun session _ _ h => h.1.votesOnce h.2
    | cons first rest ih =>
      obtain ⟨heap, op⟩ := first
      intro session hkeeps hnode h
      have hshared : OnCourse p key x session.host { session.mem with heap } := ⟨h.1.heap heap, h.2⟩
      refine (onCourse_perform { session with mem := { session.mem with heap } }
        (fun minround e hmem => ?_) (fun call msgs hmem => ?_) hshared).bind fun session' hcourse => ?_
      · rw [mem_singleton] at hmem
        exact hkeeps minround e (hmem ▸ mem_cons_self)
      · rw [mem_singleton] at hmem
        exact hnode call msgs (hmem ▸ mem_cons_self)
      · exact ih session' (fun minround e hmem => hkeeps minround e (mem_cons_of_mem _ hmem))
          (fun call msgs hmem => hnode call msgs (mem_cons_of_mem _ hmem)) hcourse
  apply hrun ops unwritten hkeeps hnode
  have hempty : unwritten.mem.inst key = Instance.empty := by
    simp [unwritten, Memory.inst, State.fresh, Data.empty, Instance.empty]
  refine ⟨?_, by simp [unwritten]⟩
  rw [hempty]
  exact Course.start

/-- The fourth node learns of two values of an instance and of a vote for the
first one, in two blocks in a row. -/
def repeatedVotes : List (Heap × Op) :=
  let msgs : List Message :=
    [.prePrepare ⟨[1], 1, 1, 0⟩, .prePrepare ⟨[2], 1, 1, 0⟩, .prepare ⟨[1], 1, 1, 2, 0⟩]
  [(Heap.empty, .messages ⟨1, 4, ⟨[4, 2], 4, 2⟩⟩ msgs),
    (Heap.empty, .next 1 ⟨⟨[4, 3], 4, 3⟩, [⟨[4, 2], 4, 2⟩], ⟨[4, 2], 4, 2⟩⟩),
    (Heap.empty, .messages ⟨1, 4, ⟨[4, 3], 4, 3⟩⟩ msgs)]

/-- It prepares and commits to the first value, once. -/
theorem votesOnce_repeatedVotes :
    ∃ session, performShared .four unwritten repeatedVotes = .ok session ∧
      session.host.filterMap (Event.answer .four) =
        [.prepare ⟨[1], 1, 1, 4, 0⟩, .commit ⟨[1], 1, 1, 4, 0⟩] ∧
      VotesOnce .four ⟨1, 1⟩ session.host := by
  have hcheck : succeeds (performShared .four unwritten repeatedVotes) (fun session =>
      session.host.filterMap (Event.answer .four) =
        [.prepare ⟨[1], 1, 1, 4, 0⟩, .commit ⟨[1], 1, 1, 4, 0⟩]) = true := by decide +kernel
  obtain ⟨session, hrun, hanswers⟩ := exists_of_succeeds hcheck
  have hkeeps : Keeps 1 (repeatedVotes.map Prod.snd) := by
    intro minround e hmem
    simp [repeatedVotes] at hmem
    omega
  have hnode : OfNode 4 (repeatedVotes.map Prod.snd) := by
    intro call msgs hmem
    simp [repeatedVotes] at hmem
    rcases hmem with ⟨rfl, -⟩ | ⟨rfl, -⟩ <;> rfl
  exact ⟨session, hrun, of_decide_eq_true hanswers,
    (votesOnce_performShared hkeeps hnode).of_ok hrun⟩

end Blockmania
