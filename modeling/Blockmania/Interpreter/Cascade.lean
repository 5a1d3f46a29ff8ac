/-
# Cascades of answers

`processMessages` has two loops. The second one runs over the list of answers and
extends it while it does, and nothing in it counts. It comes to an end because an answer
is of a later kind than the message it answers, so a message sets off at most four of
them. Here are the loops as they are written, with a log of the messages that were not
skipped; the interpreter's `processMessages`, which works in generations, returns the
same.
-/

import Blockmania.Interpreter.Loops

namespace Blockmania

open Math List

/-- The state of either loop: what `answer` changes, the answers so far, and the messages
that `processMessage` was called with. -/
structure Progress (σ : Type) where
  session : Session σ
  out : List Message
  handled : List Message

/-- The message is in the processed set. -/
def Session.seen {σ : Type} (session : Session σ) (msg : Message) : Bool :=
  session.processed[msg]?.getD false

section Loops

variable {σ : Type} (H : Host σ) (p : Params) (call : Call)

/-- The body of either loop. -/
def handle (q : Progress σ) (msg : Message) : Except (Halt σ) (Progress σ) := do
  let (session, resp) ← answer H p call q.session msg
  return ⟨session, q.out ++ resp.toList,
    if q.session.seen msg then q.handled else q.handled ++ [msg]⟩

/-- The second loop from index `i` on; `none` if `fuel` iterations are not enough. -/
def cascade (fuel i : Nat) (q : Progress σ) : Option (Except (Halt σ) (Progress σ)) :=
  match q.out[i]?, fuel with
  | none, _ => some (.ok q)
  | some _, 0 => none
  | some msg, fuel + 1 =>
    match handle H p call q msg with
    | .error halt => some (.error halt)
    | .ok q => cascade fuel (i + 1) q

/-- Both loops. -/
def processMessagesLoop (fuel : Nat) (msgs : List Message) (session : Session σ) :
    Option (Except (Halt σ) (Progress σ)) :=
  match msgs.foldlM (handle H p call) ⟨session, [], []⟩ with
  | .error halt => some (.error halt)
  | .ok q => cascade H p call fuel 0 q

end Loops

section Runs

variable {σ : Type} {H : Host σ} {p : Params} {call : Call} {start session : Session σ}
  {q q' : Progress σ} {msg : Message} {msgs : List Message} {fuel i : Nat}
  {result : Except (Halt σ) (Progress σ)}

/-- The processed set and the log belong together: a message was in the set from the
start, or it was handled once. -/
structure Logged (start : Session σ) (q : Progress σ) : Prop where
  seen_iff : ∀ msg, q.session.seen msg = true ↔ start.seen msg = true ∨ msg ∈ q.handled
  nodup : q.handled.Nodup
  fresh : ∀ msg ∈ q.handled, start.seen msg = false

/-- What one iteration does: the message has been seen after it, and an answer is of a
later kind. -/
structure Handles (q : Progress σ) (msg : Message) (q' : Progress σ) : Prop where
  seen : q'.session.seen msg = true
  kept : ∀ msg', q.session.seen msg' = true → q'.session.seen msg' = true
  out : ∃ resp : Option Message, q'.out = q.out ++ resp.toList ∧
    ∀ msg' ∈ resp, msg.stage < msg'.stage

theorem seen_insert {host : σ} {mem : Memory} {msg' : Message} :
    (⟨host, mem, session.processed.insert msg true⟩ : Session σ).seen msg' = true ↔
      msg' = msg ∨ session.seen msg' = true := by
  rw [Session.seen, FiniteMap.lookup_insert]
  split
  · rename_i h
    simp [h]
  · rename_i h
    simp [Session.seen, Ne.symm h]

theorem handle_spec (h : Logged start q) (hhandle : handle H p call q msg = .ok q') :
    Logged start q' ∧ Handles q msg q' := by
  obtain ⟨⟨session, resp⟩, hanswer, hreturn⟩ := bind_eq_ok.mp hhandle
  cases hreturn
  have hlater : ∀ msg' ∈ resp, msg.stage < msg'.stage := by
    rintro msg' rfl
    exact stage_lt_of_answer hanswer
  rcases answer_eq_ok hanswer with ⟨hseen, rfl, rfl⟩ | ⟨hfresh, reply, host, -, -, rfl, -⟩
  · simp only [show q.session.seen msg = true from hseen, if_true]
    exact ⟨⟨h.seen_iff, h.nodup, h.fresh⟩, hseen, fun _ h => h, none, rfl, nofun⟩
  · have hnot : ¬ (start.seen msg = true ∨ msg ∈ q.handled) := by
      rw [← h.seen_iff, Bool.not_eq_true]
      exact hfresh
    simp only [show q.session.seen msg = false from hfresh]
    refine ⟨⟨fun msg' => ?_, ?_, ?_⟩, seen_insert.mpr (.inl rfl),
      fun msg' h => seen_insert.mpr (.inr h), resp, rfl, hlater⟩
    · rw [seen_insert, h.seen_iff, if_neg Bool.false_ne_true, mem_append, mem_singleton,
        eq_comm, or_comm, or_assoc]
    · exact h.nodup.append (nodup_singleton msg)
        (disjoint_singleton.mpr fun hmem => hnot (.inr hmem))
    · intro msg' hmsg'
      rcases mem_append.mp hmsg' with hmem | hmem
      · exact h.fresh msg' hmem
      · rw [mem_singleton.mp hmem]
        exact Bool.eq_false_iff.mpr fun hseen => hnot (.inl hseen)

/-- How many answers the messages can still set off. -/
def room (msgs : List Message) : Nat := (msgs.map fun msg => 4 - msg.stage).sum

theorem room_append (msgs msgs' : List Message) :
    room (msgs ++ msgs') = room msgs + room msgs' := by
  rw [room, map_append, sum_append, room, room]

theorem room_cons (msg : Message) (msgs : List Message) :
    room (msg :: msgs) = (4 - msg.stage) + room msgs := sum_cons

/-- A message sets off no more than it has room for. -/
theorem Handles.room_le (h : Handles q msg q') :
    ∃ new, q'.out = q.out ++ new ∧ new.length + room new ≤ 4 - msg.stage := by
  obtain ⟨resp, hout, hlater⟩ := h.out
  refine ⟨_, hout, ?_⟩
  cases resp with
  | none => exact Nat.zero_le _
  | some msg' =>
    have hstage := hlater msg' rfl
    have hlast : msg'.stage ≤ 4 := by cases msg' <;> simp [Message.stage]
    rw [Option.toList_some, length_singleton, room_cons]
    change 1 + (4 - msg'.stage + 0) ≤ 4 - msg.stage
    omega

/-- The first loop: the messages have been seen, and the answers have room for four times
as many. -/
theorem foldlM_handle_spec (h : Logged start q) (hloop : msgs.foldlM (handle H p call) q = .ok q') :
    Logged start q' ∧ (∀ msg ∈ msgs, q'.session.seen msg = true) ∧
      (∀ msg, q.session.seen msg = true → q'.session.seen msg = true) ∧
      q'.out.length + room q'.out ≤ q.out.length + room q.out + 4 * msgs.length := by
  induction msgs generalizing q with
  | nil =>
    cases hloop
    exact ⟨h, nofun, fun _ h => h, Nat.le_refl _⟩
  | cons msg msgs ih =>
    rw [foldlM_cons] at hloop
    obtain ⟨mid, hhandle, hrest⟩ := bind_eq_ok.mp hloop
    obtain ⟨hmid, hhandles⟩ := handle_spec h hhandle
    obtain ⟨hlogged, hseen, hkept, hroom⟩ := ih hmid hrest
    obtain ⟨new, hout, hnew⟩ := hhandles.room_le
    refine ⟨hlogged, forall_mem_cons.mpr ⟨hkept _ hhandles.seen, hseen⟩,
      fun m hm => hkept m (hhandles.kept m hm), ?_⟩
    rw [hout, length_append, room_append] at hroom
    rw [length_cons]
    omega

/-- The second loop at index `i`: the messages and the answers before it have been seen,
and there will never be more than four answers for a message. -/
structure Bounded (start : Session σ) (msgs : List Message) (i : Nat) (q : Progress σ) : Prop
    extends Logged start q where
  visited : ∀ msg ∈ msgs ++ q.out.take i, q.session.seen msg = true
  room_le : q.out.length + room (q.out.drop i) ≤ 4 * msgs.length

theorem Bounded.handle (h : Bounded start msgs i q) (hmsg : q.out[i]? = some msg)
    (hhandle : handle H p call q msg = .ok q') : Bounded start msgs (i + 1) q' := by
  obtain ⟨hlogged, hhandles⟩ := handle_spec h.toLogged hhandle
  obtain ⟨new, hout, hnew⟩ := hhandles.room_le
  obtain ⟨hlt, hget⟩ := List.getElem?_eq_some_iff.mp hmsg
  have hle : i + 1 ≤ q.out.length := hlt
  have hroom := h.room_le
  rw [drop_eq_getElem_cons hlt, hget, room_cons] at hroom
  refine { hlogged with visited := fun m hm => ?_, room_le := ?_ }
  · rw [hout, take_append_of_le_length hle, take_add_one, hmsg, ← append_assoc] at hm
    rcases mem_append.mp hm with hbefore | hlast
    · exact hhandles.kept m (h.visited m hbefore)
    · rw [mem_singleton.mp hlast]
      exact hhandles.seen
  · rw [hout, drop_append_of_le_length hle, length_append, room_append]
    omega

theorem cascade_succ (hmsg : q.out[i]? = some msg) :
    cascade H p call (fuel + 1) i q = match handle H p call q msg with
      | .error halt => some (.error halt)
      | .ok q => cascade H p call fuel (i + 1) q := by
  rw [cascade.eq_def]
  simp only [hmsg]

theorem cascade_none (hmsg : q.out[i]? = none) : cascade H p call fuel i q = some (.ok q) := by
  rw [cascade.eq_def]
  simp only [hmsg]

/-- At the end of the list. -/
theorem Bounded.finish (h : Bounded start msgs i q) (hmsg : q.out[i]? = none) :
    Bounded start msgs q.out.length q := by
  have hle := List.getElem?_eq_none_iff.mp hmsg
  have hroom := h.room_le
  refine { h.toLogged with visited := ?_, room_le := ?_ }
  · rw [take_length, ← take_of_length_le hle]
    exact h.visited
  · rw [drop_length]
    exact (Nat.le_add_right _ _).trans hroom

/-- The second loop ends after as many iterations as there can be answers. -/
theorem exists_cascade (h : Bounded start msgs i q) (hfuel : 4 * msgs.length ≤ fuel + i) :
    ∃ result, cascade H p call fuel i q = some result ∧
      ∀ q', result = .ok q' → Bounded start msgs q'.out.length q' := by
  induction fuel generalizing i q with
  | zero =>
    have hroom := h.room_le
    have hnone : q.out[i]? = none := List.getElem?_eq_none_iff.mpr (by omega)
    refine ⟨_, cascade_none hnone, ?_⟩
    rintro _ ⟨⟩
    exact h.finish hnone
  | succ fuel ih =>
    cases hmsg : q.out[i]? with
    | none =>
      refine ⟨_, cascade_none hmsg, ?_⟩
      rintro _ ⟨⟩
      exact h.finish hmsg
    | some msg =>
      rw [cascade_succ hmsg]
      cases hhandle : handle H p call q msg with
      | error halt => exact ⟨_, rfl, nofun⟩
      | ok mid => exact ih (h.handle hmsg hhandle) (by omega)

/-- More fuel does not change the result. -/
theorem cascade_mono (h : cascade H p call fuel i q = some result) {fuel' : Nat}
    (hle : fuel ≤ fuel') : cascade H p call fuel' i q = some result := by
  induction fuel' generalizing fuel i q with
  | zero => rwa [Nat.le_zero.mp hle] at h
  | succ fuel' ih =>
    cases hmsg : q.out[i]? with
    | none => rwa [cascade_none hmsg] at h ⊢
    | some msg =>
      cases fuel with
      | zero =>
        rw [cascade.eq_def, hmsg] at h
        cases h
      | succ fuel =>
        rw [cascade_succ hmsg] at h ⊢
        cases hhandle : handle H p call q msg with
        | error halt => rwa [hhandle] at h
        | ok mid =>
          rw [hhandle] at h
          exact ih h (by omega)

/-- A loop over fixed messages does what a generation does. -/
theorem foldlM_handle_pass : Ensures (msgs.foldlM (handle H p call) q)
    (fun q' => ∃ next, pass H p call msgs q.session = .ok (q'.session, next) ∧
      q'.out = q.out ++ next)
    (fun halt => pass H p call msgs q.session = .error halt) := by
  induction msgs generalizing q with
  | nil => exact ⟨[], rfl, (append_nil _).symm⟩
  | cons msg msgs ih =>
    rw [foldlM_cons, handle, pass]
    cases hanswer : answer H p call q.session msg with
    | error halt => rfl
    | ok r =>
      obtain ⟨session, resp⟩ := r
      have hrest := @ih ⟨session, q.out ++ resp.toList,
        if q.session.seen msg then q.handled else q.handled ++ [msg]⟩
      refine (hrest.weaken fun halt hhalt => ?_).mono fun q' hq' => ?_
      · change (pass H p call msgs session >>= _) = _
        rw [hhalt]
        rfl
      · obtain ⟨next, hpass, hout⟩ := hq'
        refine ⟨resp.toList ++ next, ?_, by rw [hout, append_assoc]⟩
        change (pass H p call msgs session >>= _) = _
        exact bind_eq_ok.mpr ⟨_, hpass, rfl⟩

theorem out_of_handle (h : handle H p call q msg = .ok q') : ∃ new, q'.out = q.out ++ new := by
  obtain ⟨r, -, hreturn⟩ := bind_eq_ok.mp h
  cases hreturn
  exact ⟨_, rfl⟩

/-- The second loop over a part of the answers. -/
theorem cascade_append {done gen : List Message} (rest : List Message)
    (hout : q.out = done ++ gen ++ rest) (h : cascade H p call fuel done.length q = some result) :
    Ensures (gen.foldlM (handle H p call) q)
      (fun q' => ∃ fuel', cascade H p call fuel' (done ++ gen).length q' = some result)
      (fun halt => result = .error halt) := by
  induction gen generalizing done rest q fuel with
  | nil =>
    rw [append_nil]
    exact ⟨fuel, h⟩
  | cons msg gen ih =>
    have hmsg : q.out[done.length]? = some msg := by
      rw [hout, append_assoc, List.getElem?_append_right le_rfl]
      simp
    cases fuel with
    | zero =>
      rw [cascade.eq_def, hmsg] at h
      cases h
    | succ fuel =>
      rw [cascade_succ hmsg] at h
      rw [foldlM_cons]
      cases hhandle : handle H p call q msg with
      | error halt =>
        rw [hhandle] at h
        exact (Option.some.inj h).symm
      | ok mid =>
        rw [hhandle] at h
        obtain ⟨new, hnew⟩ := out_of_handle hhandle
        change Ensures (gen.foldlM (handle H p call) mid) _ _
        rw [← singleton_append, ← append_assoc]
        refine @ih mid fuel _ (rest ++ new) ?_ ?_
        · simp [hnew, hout]
        · simpa using h

/-- What a loop leaves without its log, as the interpreter returns it. -/
def Progress.returned (q : Progress σ) : Session σ × List Message := (q.session, q.out)

/-- The second loop over the last generations. -/
theorem cascade_returned {gen : List Message} (done : List Message) (depth : Nat)
    (hout : q.out = done ++ gen) (hstage : ∀ msg ∈ gen, 5 - depth ≤ msg.stage)
    (h : cascade H p call fuel done.length q = some result) :
    result.map Progress.returned =
      (answers H p call depth gen q.session).map fun r => (r.1, done ++ r.2) := by
  induction depth generalizing done gen q fuel with
  | zero =>
    cases gen with
    | nil =>
      rw [append_nil] at hout
      rw [cascade_none (by simp [hout])] at h
      cases h
      change Except.ok (q.session, q.out) = Except.ok (q.session, done ++ [])
      rw [hout, append_nil]
    | cons msg gen =>
      have hlarge := hstage msg mem_cons_self
      cases msg <;> simp [Message.stage] at hlarge
  | succ depth ih =>
    have hgen := cascade_append [] (by rw [hout, append_nil]) h
    have hpass : Ensures (gen.foldlM (handle H p call) q) _ _ := foldlM_handle_pass
    rw [answers]
    cases hloop : gen.foldlM (handle H p call) q with
    | error halt =>
      rw [hgen.of_error hloop, hpass.of_error hloop]
      rfl
    | ok q' =>
      obtain ⟨fuel', h'⟩ := hgen.of_ok hloop
      obtain ⟨next, hnext, hout'⟩ := hpass.of_ok hloop
      have hlater := stage_lt_of_pass hstage hnext
      rw [ih _ (by rw [hout', hout]) (fun msg hmsg => by have := hlater msg hmsg; omega) h', hnext]
      change _ = Except.map _ (answers H p call depth next q'.session >>= _)
      cases answers H p call depth next q'.session with
      | error halt => rfl
      | ok r => exact congrArg (fun out => Except.ok (r.1, out)) (append_assoc done gen r.2)

theorem logged_start (session : Session σ) : Logged session ⟨session, [], []⟩ :=
  ⟨fun _ => by simp, nodup_nil, nofun⟩

/-- What was handled is what the call added to the processed set. -/
theorem Logged.mem_handled_iff (h : Logged start q) :
    msg ∈ q.handled ↔ start.seen msg = false ∧ q.session.seen msg = true := by
  rw [h.seen_iff]
  constructor
  · exact fun hmem => ⟨h.fresh msg hmem, .inr hmem⟩
  · rintro ⟨hfresh, hseen | hmem⟩
    · rw [hfresh] at hseen
      cases hseen
    · exact hmem

/-- Cascades of answers end and are complete. An answer is of a later kind than its
message. The loops return, or stop for a crash, within four iterations of the second one
for a message, with what the interpreter's `processMessages` returns. There are at most
four answers for a message, all messages and answers are in the processed set in the end,
and `processMessage` was called once for each of them that was not in it at the start. -/
theorem processMessagesLoop_spec (H : Host σ) (p : Params) (call : Call) (msgs : List Message)
    (session : Session σ) :
    (∀ mem sender receiver origin msg reply, ∀ resp ∈ reply.resp,
      processMessage p mem sender receiver origin msg = .ok reply → msg.stage < resp.stage) ∧
    ∃ result, (∀ fuel, 4 * msgs.length ≤ fuel →
        processMessagesLoop H p call fuel msgs session = some result) ∧
      result.map Progress.returned = processMessages H p call msgs session ∧
      ∀ q, result = .ok q → q.out.length ≤ 4 * msgs.length ∧
        (∀ msg ∈ msgs ++ q.out, q.session.seen msg = true) ∧ q.handled.Nodup ∧
        ∀ msg, msg ∈ q.handled ↔ session.seen msg = false ∧ q.session.seen msg = true := by
  refine ⟨fun mem sender receiver origin msg reply resp hresp hreply =>
    stage_lt_of_transition (transition_of_processMessage hreply) hresp, ?_⟩
  have hpass : Ensures (msgs.foldlM (handle H p call) ⟨session, [], []⟩) _ _ := foldlM_handle_pass
  unfold processMessagesLoop processMessages
  cases hloop : msgs.foldlM (handle H p call) ⟨session, [], []⟩ with
  | error halt =>
    rw [hpass.of_error hloop]
    exact ⟨.error halt, fun _ _ => rfl, rfl, nofun⟩
  | ok q =>
    obtain ⟨hlogged, hseen, -, hroom⟩ := foldlM_handle_spec (logged_start session) hloop
    have hbounded : Bounded session msgs 0 q := {
      hlogged with
      visited := by simpa using hseen
      room_le := by simpa [room] using hroom }
    obtain ⟨result, hresult, hspec⟩ : ∃ result,
        cascade H p call (4 * msgs.length) 0 q = some result ∧ _ := exists_cascade hbounded le_rfl
    obtain ⟨next, hnext, hout⟩ := hpass.of_ok hloop
    refine ⟨result, fun fuel hfuel => cascade_mono hresult hfuel, ?_, fun q' hq' => ?_⟩
    · rw [hnext]
      have hstage := stage_lt_of_pass (fun msg _ => Nat.zero_le msg.stage) hnext
      refine (cascade_returned [] 4 hout hstage hresult).trans ?_
      change Except.map _ (answers H p call 4 next q.session) = answers H p call 4 next q.session
      cases answers H p call 4 next q.session <;> rfl
    · have hend := hspec q' hq'
      refine ⟨(Nat.le_add_right _ _).trans hend.room_le, ?_, hend.nodup,
        fun msg => hend.mem_handled_iff⟩
      simpa using hend.visited

end Runs

end Blockmania
