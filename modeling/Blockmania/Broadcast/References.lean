/-
# Own blocks are acceptable

A node references the blocks it has included, and other nodes check these
references when they receive its blocks: each has to be signed by the author of the
block it stands for, and none may stand for a block of the node itself. All
references come from blocks the node has accepted, so they are signed. Nothing
keeps the node from accepting its own blocks when a peer sends them back. If one of
them is ever found complete it is referenced, and from then on the node's blocks
are refused.
-/

import Blockmania.Broadcast.Depgraph

namespace Blockmania.Broadcast

open Math List FiniteMap

variable {β : Type}

/-- A block passes the checks on its references at every node. -/
def Wire.Acceptable (wire : Wire β) (block : Block β) : Prop :=
  ∃ deps, wire.checkReferences block 0 block.references = .ok deps

/-- The blocks that `genBlocks` is about to reference. -/
def Generator.refs : Generator β → List (BlockData β)
  | .waiting => []
  | .collected refs | .stored refs => refs

namespace Node

variable {wire : Wire β} {n n' : Node β}

/-- The block is not included yet, and all blocks it has to wait for are. -/
def complete (n : Node β) (block : BlockData β) : Bool :=
  !n.depgraph.included n.db block.id &&
    (block.links n.depgraph.self).all fun dep => n.depgraph.included n.db dep

/-- No block of the node itself is found complete. -/
def spares (n : Node β) : Step β → Bool
  | .take =>
    match n.loop, n.depgraph.inbox with
    | .waiting, info :: _ => info.id.node ≠ n.depgraph.self || !n.complete info
    | _, _ => true
  | .advance =>
    match n.loop with
    | .cascading _ _ (revdep :: _) _ _ =>
      match n.depgraph.pending[revdep]? with
      | some block => block.id.node ≠ n.depgraph.self || !n.complete block
      | none => true
    | _ => true
  | _ => true

/-- A block that may be referenced. -/
def Referable (wire : Wire β) (self : Nat) (info : BlockData β) : Prop :=
  wire.Vouched info ∧ info.id.node ≠ self

/-- What holds of the blocks a node waits with, and of those it is going to
reference. -/
structure Holds (waiting coming : BlockData β → Prop) (n : Node β) : Prop where
  inbox : ∀ info ∈ n.depgraph.inbox, waiting info
  pending : ∀ (id : BlockID) (info : BlockData β), n.depgraph.pending[id]? = some info → waiting info
  blocks : ∀ info ∈ n.depgraph.blocks, coming info
  refs : ∀ info ∈ n.gen.refs, coming info

theorem holds_start (self : Nat) (waiting coming : BlockData β → Prop) :
    (start self).Holds waiting coming := by
  constructor <;> simp [start, Depgraph.new, Generator.refs]

/-- Blocks come in from peers and from the database, and a block is going to be
referenced when it is found complete. -/
theorem Holds.changes {waiting coming : BlockData β → Prop} {s : Step β} (h : n.Holds waiting coming)
    (hchanges : Changes wire n s n')
    (haccept : ∀ signed info, wire.accept signed = .ok info → s = .receive signed →
      n'.db = n.db.setBlock info.id signed → waiting info)
    (hcomplete : ∀ info, n.next s = some info → waiting info → n.complete info = true → coming info)
    (hload : ∀ infos, n.db.getNotIncluded wire = .ok infos → ∀ info ∈ infos, waiting info) :
    n'.Holds waiting coming := by
  have hrefs := h.refs
  cases hchanges with
  | received hread =>
    refine { h with inbox := fun info hinfo => ?_ }
    rcases mem_append.mp hinfo with hinfo | hinfo
    · exact h.inbox info hinfo
    · rw [mem_singleton.mp hinfo]
      exact haccept _ _ hread rfl rfl
  | @processed _ block _ _ _ _ hcommits hnext hinbox hblock hrun =>
    have hqueue := fun info hinfo => h.inbox info (hinbox hinfo)
    have hwaiting : waiting block := by
      rcases hblock with hblock | ⟨id, hblock⟩
      · exact h.inbox block hblock
      · exact h.pending id block hblock
    obtain ⟨icache, -, hcases⟩ := Depgraph.processBlock_cases hrun
    rcases hcases with ⟨-, -, rfl⟩ | ⟨-, -, deps, -, -, rfl⟩ | ⟨-, hfresh, hall, rfl⟩
    · exact { h with inbox := hqueue }
    · refine { h with inbox := hqueue, pending := fun id info hinfo => ?_ }
      change (n.depgraph.pending.insert block.id block)[id]? = some info at hinfo
      rw [lookup_insert] at hinfo
      split at hinfo
      · cases hinfo
        exact hwaiting
      · exact h.pending id info hinfo
    · refine { h with inbox := hqueue, blocks := fun info hinfo => ?_ }
      rcases mem_append.mp hinfo with hinfo | hinfo
      · exact h.blocks info hinfo
      · rw [mem_singleton.mp hinfo]
        apply hcomplete block hnext hwaiting
        rw [complete, Bool.and_eq_true, all_eq_true]
        exact ⟨(congrArg (!·) hfresh).trans rfl, hall⟩
  | dropped hcommits hpending hicache =>
    exact { h with pending := fun id info hinfo => h.pending id info (hpending id info hinfo) }
  | collected hidx hgen =>
    refine { h with blocks := fun info hinfo => ?_, refs := fun info hinfo => ?_ }
    · exact h.blocks info (mem_of_mem_drop hinfo)
    · exact h.blocks info (mem_of_mem_take hinfo)
  | committed hgen hblock hsigned href =>
    rw [hgen] at hrefs
    exact { h with refs := hrefs }
  | settled hgen =>
    rw [hgen] at hrefs
    exact { h with refs := fun info hinfo => hrefs info (mem_cons_of_mem _ hinfo) }
  | finished hgen => exact { h with refs := forall_mem_nil _ }
  | restarted hinfos =>
    refine ⟨hload _ hinfos, ?_, ?_, forall_mem_nil _⟩
    · simp [Depgraph.new]
    · simp [Depgraph.new]

/-- What a node holds is vouched for, and what it is going to reference is not its
own. -/
structure Reputable (wire : Wire β) (n : Node β) : Prop
    extends Holds wire.Vouched (Referable wire n.depgraph.self) n where
  stored : ∀ id : BlockID, (n.db.notIncluded[id]?).isSome → id.node ∈ wire.keys ∧
    ∀ signed, n.db.blocks[id]? = some signed → wire.Authentic signed
  produced : ∀ block ∈ n.produced, wire.Acceptable block

theorem reputable_start (wire : Wire β) (self : Nat) : (start self).Reputable wire := by
  refine ⟨holds_start self _ _, ?_, ?_⟩ <;> simp [start, Database.empty]

/-- A block that is spared is not an own one that is complete. -/
theorem of_spares {s : Step β} {block : BlockData β} (h : n.spares s = true)
    (hnext : n.next s = some block) (hcomplete : n.complete block = true) :
    block.id.node ≠ n.depgraph.self := by
  cases s with
  | take =>
    rw [next] at hnext
    split at hnext
    · rename_i hloop
      obtain ⟨inbox, hinbox⟩ := head?_eq_some_iff.mp hnext
      simpa [spares, hloop, hinbox, hcomplete] using h
    · cases hnext
  | advance =>
    rw [next] at hnext
    split at hnext
    · rename_i hloop
      simpa [spares, hloop, hnext, hcomplete] using h
    · cases hnext
  | _ => cases hnext

/-- A block with referable references is acceptable. -/
theorem acceptable_of_referable {block : Block β} {refs : List (BlockData β)}
    (hrefs : ∀ info ∈ refs, Referable wire block.node info)
    (hblock : block.references = refs.map BlockData.ref) : wire.Acceptable block := by
  apply Wire.exists_checkReferences
  intro sref hsref i
  rw [hblock] at hsref
  obtain ⟨info, hinfo, rfl⟩ := mem_map.mp hsref
  obtain ⟨hvouched, hother⟩ := hrefs info hinfo
  exact ⟨info.id, Wire.checkReference_of_vouched hvouched hother i⟩

/-- Every piece of work keeps a node reputable that does not find an own block
complete. -/
theorem reputable_of_changes {s : Step β} (hspares : n.spares s = true) (h : n.Reputable wire)
    (hchanges : Changes wire n s n') : n'.Reputable wire := by
  have hholds : n'.Holds wire.Vouched (Referable wire n'.depgraph.self) := by
    rw [self_of_changes hchanges]
    apply h.toHolds.changes hchanges
    · exact fun signed info haccept _ _ => Wire.vouched_of_accept haccept
    · exact fun info hnext hvouched hcomplete => ⟨hvouched, of_spares hspares hnext hcomplete⟩
    · intro infos hinfos info hinfo
      obtain ⟨id, hid, signed, hsigned, hdata⟩ := of_getNotIncluded hinfos info hinfo
      exact vouched_of_getBlockData ((h.stored id hid).2 signed hsigned) hdata
  cases hchanges with
  | received haccept =>
    obtain ⟨-, hauthentic⟩ := getBlockData_of_accept haccept
    refine { hholds with stored := fun id hid => ?_, produced := h.produced }
    dsimp only [Database.setBlock] at hid ⊢
    split at hid
    · rename_i hset
      rw [if_pos hset]
      exact h.stored id hid
    · rename_i hset
      rw [if_neg hset]
      dsimp only at hid ⊢
      simp only [lookup_insert] at hid ⊢
      split at hid
      · rename_i heq
        rw [if_pos heq]
        refine ⟨heq ▸ (Wire.vouched_of_accept haccept).node, fun signed' hsigned' => ?_⟩
        cases hsigned'
        exact hauthentic
      · rename_i hne
        rw [if_neg hne]
        exact h.stored id hid
  | committed hgen hblock hsigned href =>
    subst hblock hsigned
    refine { hholds with stored := fun id hid => ?_, produced := fun block hblock => ?_ }
    · obtain ⟨hkeys, hstored⟩ := h.stored id (isSome_of_eraseAll hid)
      refine ⟨hkeys, fun signed hsigned => ?_⟩
      dsimp only [Database.setOwnBlock] at hsigned
      rw [lookup_insert] at hsigned
      split at hsigned
      · rename_i heq
        cases hsigned
        refine ⟨_, wire.unmarshalBlock_marshalBlock _, ?_, ?_⟩
        · rw [← heq] at hkeys
          exact hkeys
        · exact wire.verify_sign _ _
      · exact hstored signed hsigned
    · rcases mem_append.mp hblock with hblock | hblock
      · exact h.produced block hblock
      · rw [mem_singleton.mp hblock]
        exact acceptable_of_referable hholds.refs rfl
  | _ => exact { hholds with stored := h.stored, produced := h.produced }

theorem reputable_step (n : Node β) (s : Step β) (hspares : n.spares s = true)
    (h : n.Reputable wire) : Ensures (n.step wire s) (Reputable wire) (fun _ => True) := by
  cases hstep : n.step wire s with
  | error _ => trivial
  | ok n' => exact reputable_of_changes hspares h (changes_of_step hstep)

/-- Own blocks are acceptable, in every run in which no block of the node itself
is found complete. -/
theorem acceptable_of_spares (wire : Wire β) (self : Nat) (steps : List (Step β))
    (hspares : (start self).meets wire spares steps = true) :
    Ensures ((start self).run wire steps) (fun n => ∀ block ∈ n.produced, wire.Acceptable block)
      (fun _ => True) :=
  (ensures_run (Reputable wire) reputable_step steps (start self) hspares
    (reputable_start wire self)).mono fun _ h => h.produced

/-- A node receives the first block of the second node and references it. -/
def referencing : List (Step (List Nat)) :=
  [.receive ((plainWire [1, 2, 3, 4]).signBlock ⟨2, none, [], 1, none⟩), .take, .advance,
    .collect 1000, .commit ⟨0, []⟩]

theorem acceptable_referencing :
    ∃ n, (start 1).run (plainWire [1, 2, 3, 4]) referencing = .ok n ∧
      (n.produced.map fun block => block.references.length) = [1] ∧
      ∀ block ∈ n.produced, (plainWire [1, 2, 3, 4]).Acceptable block := by
  have hcheck : succeeds ((start 1).run (plainWire [1, 2, 3, 4]) referencing) (fun n =>
      (n.produced.map fun block => block.references.length) = [1]) = true := by decide +kernel
  obtain ⟨n, hrun, hproduced⟩ := exists_of_succeeds hcheck
  exact ⟨n, hrun, of_decide_eq_true hproduced,
    (acceptable_of_spares (plainWire [1, 2, 3, 4]) 1 referencing (by decide +kernel)).of_ok hrun⟩

/-- A node generates its first block and is sent it back by a peer. -/
def echoed : List (Step (List Nat)) :=
  [.collect 1000, .commit ⟨0, []⟩, .settle,
    .receive ((plainWire [1, 2, 3, 4]).signBlock ⟨1, none, [], 1, some ⟨0, []⟩⟩), .take, .advance,
    .collect 1000, .commit ⟨0, []⟩]

/-- The next block references the first one, and other nodes refuse it. -/
theorem not_acceptable_echoed :
    ∃ n, (start 1).run (plainWire [1, 2, 3, 4]) echoed = .ok n ∧
      ∃ block ∈ n.produced, block.round = 2 ∧
        (plainWire [1, 2, 3, 4]).checkReferences block 0 block.references = .error (.sameNode 0 2 1) ∧
        ¬ (plainWire [1, 2, 3, 4]).Acceptable block := by
  have hcheck : succeeds ((start 1).run (plainWire [1, 2, 3, 4]) echoed) (fun n =>
      n.produced.any fun block => decide (block.round = 2) &&
        decide ((plainWire [1, 2, 3, 4]).checkReferences block 0 block.references =
          .error (.sameNode 0 2 1))) = true := by decide +kernel
  obtain ⟨n, hrun, hfacts⟩ := exists_of_succeeds hcheck
  simp only [any_eq_true, Bool.and_eq_true, decide_eq_true_eq] at hfacts
  obtain ⟨block, hblock, hround, hrefused⟩ := hfacts
  refine ⟨n, hrun, block, hblock, hround, hrefused, ?_⟩
  rintro ⟨deps, hdeps⟩
  rw [hrefused] at hdeps
  cases hdeps

end Node

end Blockmania.Broadcast
