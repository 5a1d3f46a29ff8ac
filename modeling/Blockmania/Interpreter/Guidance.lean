/-
# Keeping up with an interpretation

Two interpretations of a block that are compared both have to come to an end. The one
that is to agree with the other must not stop where the other goes on. For messages of
kept instances it does what the other one does. For the rest it is on its own, and may
stumble over a node id or over votes that contradict each other, but not over a delivery.
-/

import Blockmania.Interpreter.Simulation

namespace Blockmania

open Math

/-- The program was stopped by a message, not by the delivery of a value. -/
def Stumbles {σ : Type} (halt : Halt σ) : Prop :=
  halt.crash = .indexOutOfRange ∨ ∃ key, halt.crash = .multipleHashes key

/-- What one host delivers the other can deliver as well, unless the first is lost. -/
structure Guides {σ σ' : Type} (H : Host σ) (H' : Host σ') (keep : NodeRound → Bool)
    (rel : σ → σ' → Prop) (lost : σ → Prop) : Prop where
  coupling : Coupling H H' keep rel
  lasts : H.Lasts lost
  right : ∀ {s s' d}, rel s s' → ¬ lost s → keep d.key = false → ∃ t', H'.deliver s' d = .ok t'
  both : ∀ {s s' d t}, rel s s' → keep d.key = true → H.deliver s d = .ok t → ¬ lost t →
    ∃ t', H'.deliver s' d = .ok t'

section Loops

variable {σ σ' : Type} {H : Host σ} {H' : Host σ'} {keep : NodeRound → Bool} {live : Nat → Prop}
  {rel : σ → σ' → Prop} {lost : σ → Prop} {p : Params} {call : Call} {msgs out msgs' : List Message}
  {s t : Session σ} {depth : Nat} {mem : Memory} {msg : Message} {s' : Session σ'} {block : BlockID}
  {deps : List BlockID}

/-- A message that stops the program makes it stumble. -/
theorem stumbles_of_processMessage {sender receiver : Nat} {origin : BlockID} {crash : Crash}
    (host : σ) (h : processMessage p mem sender receiver origin msg = .error crash) :
    Stumbles (⟨crash, host⟩ : Halt σ) := by
  rcases Instance.step_eq_error (step_of_processMessage_error h) with hcrash | ⟨hcrash, -⟩
  · exact .inl hcrash
  · exact .inr ⟨_, hcrash⟩

variable (hguides : Guides H H' keep rel lost)
include hguides

/-- A message of an instance that is not kept. -/
theorem follows_answer_right (h : Coupled keep live rel s s')
    (hkept : ¬ lost s.host) (hdrop : keptMessage keep msg = false) :
    Ensures (answer H' p call s' msg)
      (fun r => Coupled keep live rel s r.1 ∧ SameKept (keptMessage keep) [] r.2.toList) Stumbles := by
  have hcoupled : ∀ r, answer H' p call s' msg = .ok r →
      Coupled keep live rel s r.1 ∧ SameKept (keptMessage keep) [] r.2.toList := by
    rintro ⟨t', resp⟩ hanswer
    obtain ⟨ht, hresp⟩ := coupled_answer_left hguides.coupling.symm h.symm hdrop hanswer
    exact ⟨ht.symm, hresp.symm⟩
  have hdone : Ensures (answer H' p call s' msg) (fun _ => True) Stumbles := by
    apply ensures_answer (fun _ => trivial) (fun crash hcrash => stumbles_of_processMessage _ hcrash)
    intro reply hreply
    apply ensures_settle (fun _ => trivial) (fun _ _ _ _ => trivial)
    intro d crash hd hcrash
    have hkey := Instance.key_of_transition (transition_of_processMessage hreply) hd
    have hdropped : keep d.key = false := by rw [hkey]; exact hdrop
    obtain ⟨t', ht'⟩ := hguides.right (hguides.coupling.observe_right _ h.host) hkept hdropped
    cases ht'.symm.trans hcrash
  exact (hdone.and_of_ok hcoupled).mono fun _ hr => hr.2

/-- A message of a kept instance. -/
theorem follows_answer_both {resp : Option Message}
    (h : Coupled keep live rel s s') (hkeep : keptMessage keep msg = true)
    (hanswer : answer H p call s msg = .ok (t, resp)) (hkept : ¬ lost t.host) :
    Ensures (answer H' p call s' msg)
      (fun r => Coupled keep live rel t r.1 ∧ SameKept (keptMessage keep) resp.toList r.2.toList)
      Stumbles := by
  have hcoupled : ∀ r, answer H' p call s' msg = .ok r →
      Coupled keep live rel t r.1 ∧ SameKept (keptMessage keep) resp.toList r.2.toList := by
    rintro ⟨t', resp'⟩ hanswer'
    exact coupled_answer_both hguides.coupling h hkeep hanswer hanswer'
  have hdone : Ensures (answer H' p call s' msg) (fun _ => True) Stumbles := by
    rcases answer_eq_ok hanswer with ⟨hseen, -, -⟩ | ⟨-, reply, host, hreply, hsettle, rfl, -⟩
    · -- a message that one side has seen the other has seen too
      rw [h.processed msg hkeep] at hseen
      rw [answer, if_pos hseen]
      trivial
    apply ensures_answer (fun _ => trivial) (fun crash hcrash => stumbles_of_processMessage _ hcrash)
    intro reply' hreply'
    apply ensures_settle (fun _ => trivial) (fun _ _ _ _ => trivial)
    intro d crash hd hcrash
    obtain ⟨-, -, hdelivery⟩ := agree_message_both h.mem hkeep hreply hreply'
    rw [hdelivery, hd] at hsettle
    have hkey : keep d.key = true := by
      rw [Instance.key_of_transition (transition_of_processMessage hreply') hd]
      exact hkeep
    have hnoted : rel (s.noting H call msg) (s'.noting H' call msg) :=
      hguides.coupling.observe_left _ (hguides.coupling.observe_right _ h.host)
    obtain ⟨t', ht'⟩ := hguides.both hnoted hkey (haltAt_eq_ok.mp hsettle) hkept
    cases ht'.symm.trans hcrash
  exact (hdone.and_of_ok hcoupled).mono fun _ hr => hr.2

theorem Guides.leads :
    Leads H H' p keep live rel lost (fun _ => False) Stumbles := { hguides with
  lasts' := False.elim
  right := follows_answer_right hguides
  both := follows_answer_both hguides }

/-- An interpretation keeps up with another one and agrees with it on what is kept, if
the states they start from and the outputs they receive do, unless it stumbles. -/
theorem follows_conduct {s t : σ} {s' : σ'} {mem' last : Memory} (hlive : live block.round)
    (houtput : ∀ dep ∈ deps, ∀ {s s'}, rel s s' → ¬ lost s →
      SameKept (keptMessage keep) (H.output s dep) (H'.output s' dep)) (hrel : rel s s')
    (hmem : Agree keep live mem mem') (hrun : conduct H p block deps s mem = .ok (t, last))
    (hkept : ¬ lost t) :
    Ensures (conduct H' p block deps s' mem')
      (fun r => rel t r.1 ∧ Agree keep live last r.2 ∧
        SameKept (keptMessage keep) last.state.out r.2.state.out) Stumbles :=
  (leads_conduct hguides.leads hlive (fun dep hdep _ _ hrel hkept _ => houtput dep hdep hrel hkept) hrel
    hmem hrun hkept).mono fun _ hr => hr id

end Loops

end Blockmania
