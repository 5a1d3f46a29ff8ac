/-
# The interpretation of a chain

A chain is a sequence of blocks of one node, each the predecessor of the next.
Its interpretation depends on the outputs of the foreign blocks it references
and on the rounds that are pruned when a block begins. Both are arguments here,
so that a chain can be interpreted under any of them, and the deliveries and
outputs are recorded.
-/

import Blockmania.Interpreter.Trail
import Mathlib.Data.List.Chain

namespace Blockmania

open Math

/-- What the interpretation of a chain leaves behind besides the state. -/
structure Tape where
  /-- The outputs of the blocks of the chain. -/
  outputs : FiniteMap BlockID (List Message)
  deliveries : List Delivery
  events : List Event

/-- The surroundings of a chain. -/
def Tape.host (foreign : BlockID → List Message) : Host Tape where
  output tape dep := tape.outputs[dep]?.getD (foreign dep)
  deliver tape d := .ok { tape with deliveries := tape.deliveries ++ [d] }
  observe tape ev := { tape with events := tape.events ++ [ev] }

/-- A block of a chain and the round below which its state is pruned. -/
structure Link where
  minround : Nat
  entry : Entry

/-- A chain up to some block. -/
structure Chain where
  tape : Tape
  heap : Heap
  last : Option State

namespace Chain

/-- A chain without blocks. -/
def new : Chain := ⟨⟨∅, [], []⟩, Heap.empty, none⟩

/-- The memory the chain has come to. -/
def mem (c : Chain) : Memory := ⟨c.heap, c.last.getD State.fresh⟩

variable (p : Params) (foreign : BlockID → List Message)

/-- Interpret the next block. -/
def extend (c : Chain) (link : Link) : Except (Halt Tape) Chain := do
  let (tape, mem) ← interpret (Tape.host foreign) p link.minround c.heap c.last c.tape link.entry
  return ⟨{ tape with outputs := tape.outputs.insert link.entry.block mem.state.out }, mem.heap,
    some mem.state⟩

def extendAll (c : Chain) : List Link → Except (Halt Tape) Chain
  | [] => .ok c
  | link :: links => do
    let c ← c.extend p foreign link
    c.extendAll links

variable {p foreign}

/-- A block begins with the pruned state of its predecessor. -/
theorem findOrCreateState_state {c : Chain} {e : Entry} (minround : Nat)
    (hvalid : c.last.isSome → e.prev.valid = true) :
    (findOrCreateState c.heap c.last minround e).state = c.mem.state.clone minround := by
  cases hlast : c.last with
  | none => simp [findOrCreateState, mem, hlast]
  | some s => simp [findOrCreateState, mem, hlast, hvalid (by simp [hlast])]

theorem host_logs (block : BlockID) : (Tape.host foreign).Logs block Tape.events where
  observe _ _ _ := rfl
  deliver _ _ _ h := by
    cases h
    rfl

/-- A chain that grows extends its trail. -/
theorem trail_extendAll {round : Nat} {pre : List Event} {start : Memory} {links : List Link}
    (hmin : ∀ link ∈ links, link.minround ≤ round) {c c' : Chain}
    (hhead : ∀ link ∈ links.head?, c.last.isSome → link.entry.prev.valid = true)
    (htail : ∀ link ∈ links.tail, link.entry.prev.valid = true)
    (trail : Trail p round pre start c.tape.events c.mem)
    (h : c.extendAll p foreign links = .ok c') :
    Trail p round pre start c'.tape.events c'.mem := by
  induction links generalizing c c' with
  | nil =>
    cases h
    exact trail
  | cons link links ih =>
    obtain ⟨mid, hextend, h⟩ := bind_eq_ok.mp h
    obtain ⟨⟨tape, mem⟩, hinterpret, hextend⟩ := bind_eq_ok.mp hextend
    cases hextend
    have hnext : Trail p round pre start tape.events mem :=
      (trail_interpret (hmin link List.mem_cons_self) (host_logs link.entry.block)
        (findOrCreateState_state link.minround (hhead link rfl)) trail).of_ok hinterpret
    refine ih (fun l hl => hmin l (List.mem_cons_of_mem _ hl)) (fun l hl _ => ?_) (fun l hl => ?_)
      hnext h
    · exact htail l (List.mem_of_mem_head? hl)
    · exact htail l (List.mem_of_mem_tail hl)

end Chain

/-- Each block is the predecessor of the next. -/
def Linked (links : List Link) : Prop :=
  links.IsChain fun a b => a.entry.block.valid = true ∧ b.entry.prev = a.entry.block

/-- Every block but the first has a predecessor. -/
theorem Linked.valid_of_mem_tail {links : List Link} (h : Linked links) :
    ∀ link ∈ links.tail, link.entry.prev.valid = true := by
  induction h with
  | nil | singleton => simp
  | cons_cons hlink _ ih =>
    intro link hlink'
    rcases List.mem_cons.mp hlink' with rfl | hmem
    · exact hlink.2 ▸ hlink.1
    · exact ih link hmem

end Blockmania
