/-
# Every block is included that can be

Blocks reach the dependency graph in any order, and some more than once. When the
queue is drained, exactly those are included whose links were included before or are
included with them, whatever the order was. A block that is put off is registered
with each block it lacks, and nothing that is lacking loses its registrations. So the
cascade meets everything that waits for a block it includes, and gives up on a block
only as long as that block lacks another one.

A retry that fails registers nothing new. The cascade therefore ends: it works off the
registrations that were there when it began.
-/

import Mathlib.Data.Prod.Lex
import Blockmania.Broadcast.Inclusion
import Blockmania.Math.Support

namespace Blockmania.Broadcast

open Math List FiniteMap

variable {β : Type}

def Depgraph.add (d : Depgraph β) (info : BlockData β) : Depgraph β :=
  { d with inbox := d.inbox ++ [info] }

/-- What happens to a dependency graph. -/
inductive Feed (β : Type)
  | add (info : BlockData β)
  /-- `process` does its next piece of work. -/
  | proceed
  | prune (keep : BlockID → Bool)

namespace Feed

def adds : Feed β → List (BlockData β)
  | .add info => [info]
  | .proceed => []
  | .prune _ => []

/-- The blocks that are added, one after another. -/
def added (feeds : List (Feed β)) : List (BlockData β) := feeds.flatMap adds

end Feed

namespace Node

variable (wire : Wire β)

/-- A node that starts with the given database and no blocks to reload. -/
def fresh (db : Database β) (self : Nat) : Node β := ⟨db, .new self [], .waiting, .waiting, []⟩

def feed (n : Node β) : Feed β → Except Fault (Node β)
  | .add info => .ok { n with depgraph := n.depgraph.add info }
  | .proceed =>
    match n.loop with
    | .waiting => n.step wire .take
    | .cascading .. => n.step wire .advance
  | .prune keep => n.step wire (.prune keep)

def feedAll (n : Node β) : List (Feed β) → Except Fault (Node β)
  | [] => .ok n
  | f :: feeds => do
    let n ← n.feed wire f
    feedAll n feeds

/-- All blocks that were added have been handled. -/
def Drained (n : Node β) : Prop := n.loop = .waiting ∧ n.depgraph.inbox = []

end Node

namespace Depgraph

/-- A block that waits is registered with all blocks it lacks. -/
structure Registered (db : Database β) (d : Depgraph β) : Prop extends Cached db d where
  ids : ∀ (id : BlockID) (block : BlockData β), d.pending[id]? = some block → block.id = id
  awaiting : ∀ (id : BlockID) (block : BlockData β), d.pending[id]? = some block →
    ∀ dep ∈ block.links d.self, marked db d dep = false → id ∈ d.awaiting dep

/-- The block lacks one that it builds on. -/
def Lacking (db : Database β) (d : Depgraph β) (block : BlockData β) : Prop :=
  ∃ dep ∈ block.links d.self, marked db d dep = false

variable {db : Database β} {d : Depgraph β}

theorem registered_new (db : Database β) (self : Nat) (inbox : List (BlockData β)) :
    Registered db (.new self inbox) where
  tcache := by simp [new]
  icache := by simp [new]
  ids := by simp [new]
  awaiting := by simp [new]

theorem Registered.asked (h : Registered db d) {icache : FiniteMap BlockID Bool}
    (hcached : Cached db { d with icache }) : Registered db { d with icache } :=
  { hcached with ids := h.ids, awaiting := h.awaiting }

theorem Registered.inbox (h : Registered db d) (inbox : List (BlockData β)) :
    Registered db { d with inbox } :=
  { tcache := h.tcache, icache := h.icache, ids := h.ids, awaiting := h.awaiting }

variable {block : BlockData β} {deps : List BlockID}

theorem Registered.addPending (h : Registered db d)
    (hdeps : deps = (block.links d.self).filter fun dep => !marked db d dep) :
    Registered db (d.addPending block deps) := { h with
  ids id other hother := by
    rw [lookup_addPending] at hother
    split at hother
    · rename_i heq
      cases hother
      exact heq
    · exact h.ids id other hother
  awaiting id other hother dep hdep hmarked := by
    change marked db d dep = false at hmarked
    rw [mem_awaiting_addPending]
    rw [lookup_addPending] at hother
    split at hother
    · rename_i heq
      cases hother
      refine .inr ⟨heq.symm, ?_⟩
      rw [hdeps, mem_filter]
      exact ⟨hdep, by rw [hmarked]; rfl⟩
    · exact .inl (h.awaiting id other hother dep hdep hmarked) }

theorem Registered.markIncluded (h : Registered db d) (block : BlockData β) :
    Registered db { d.markIncluded block.id with blocks := d.blocks ++ [block] } :=
  { h.toCached.markIncluded block with
    ids := h.ids
    awaiting := fun id other hother dep hdep hmarked => by
      rw [marked_markIncluded db d d.icache, Bool.or_eq_false_iff] at hmarked
      exact h.awaiting id other hother dep hdep hmarked.1 }

/-- Only the registrations with an included block are dropped. -/
theorem Registered.finish (h : Registered db d) {next : BlockID} (hnext : marked db d next = true)
    (first : Bool) : Registered db (d.finish first next) := { h with
  ids id block hblock := h.ids id block (lookup_of_finish hblock)
  awaiting id block hblock dep hdep hmarked := by
    refine mem_awaiting_finish.mpr ⟨?_, h.awaiting id block (lookup_of_finish hblock) dep hdep hmarked⟩
    rintro rfl
    cases hnext.symm.trans hmarked }

/-- A retry that fails changes nothing. -/
theorem addPending_of_registered (hblock : d.pending[block.id]? = some block)
    (hdeps : ∀ dep ∈ deps, block.id ∈ d.awaiting dep) :
    d.addPending block deps = d := by
  have hpending : d.pending.insert block.id block = d.pending := by
    apply ext_lookup
    intro id
    rw [lookup_insert]
    split
    · rename_i heq
      rw [← heq, hblock]
    · rfl
  have hawait : (d.addPending block deps).await = d.await := by
    unfold addPending
    dsimp only
    induction deps with
    | nil => rfl
    | cons dep deps ih =>
      have hmem : block.id ∈ d.await[dep]?.getD [] := hdeps dep mem_cons_self
      rw [foldl_cons, if_pos hmem]
      exact ih fun dep' hdep' => hdeps dep' (mem_cons_of_mem _ hdep')
  unfold addPending at hawait ⊢
  dsimp only at hawait
  rw [hawait, hpending]

/-- What `processBlock` does with a block that waits: it is included now, or nothing
changes. -/
theorem Registered.retry (h : Registered db d) {d' : Depgraph β} {id : BlockID} {inc : Bool}
    (hblock : d.pending[id]? = some block) (hrun : processBlock db d block = .ok (d', inc)) :
    ∃ icache, Cached db { d with icache } ∧
      (inc = true ∧ marked db d id = true ∧ d' = { d with icache } ∨
      inc = false ∧ marked db d id = false ∧ Lacking db d block ∧ d' = { d with icache } ∨
      inc = true ∧ marked db d id = false ∧ (∀ dep ∈ block.links d.self, marked db d dep = true) ∧
        d' = { { d with icache }.markIncluded block.id with blocks := d.blocks ++ [block] }) := by
  obtain rfl := h.ids id block hblock
  obtain ⟨icache, hcached, hcases⟩ := h.toCached.processBlock_cases hrun
  refine ⟨icache, hcached, ?_⟩
  rcases hcases with hbefore | ⟨hinc, hmarked, deps, hne, hdeps, rfl⟩ | hnow
  · exact .inl hbefore
  · have hmissing : ∀ dep ∈ deps, dep ∈ block.links d.self ∧ marked db d dep = false := by
      intro dep hdep
      rw [hdeps, mem_filter, Bool.not_eq_true'] at hdep
      exact hdep
    obtain ⟨dep, hdep⟩ := exists_mem_of_ne_nil deps hne
    refine .inr (.inl ⟨hinc, hmarked, ⟨dep, hmissing dep hdep⟩, ?_⟩)
    exact addPending_of_registered hblock fun dep hdep =>
      h.awaiting _ block hblock dep (hmissing dep hdep).1 (hmissing dep hdep).2
  · exact .inr (.inr hnow)

/-- What the cascade works on is included. -/
def Queued (db : Database β) (d : Depgraph β) : Loop → Prop
  | .waiting => True
  | .cascading _ next revdeps processed _ =>
    (∀ id ∈ next :: processed, marked db d id = true) ∧ (revdeps ≠ [] → (d.await[next]?).isSome)

/-- What is left to do for the block the cascade is at, if there are registrations
with it, or else how many blocks come after it. -/
def effort (d : Depgraph β) : Loop → Nat ×ₗ Nat
  | .waiting => toLex (0, 0)
  | .cascading _ next revdeps processed _ =>
    if (d.await[next]?).isSome then toLex (0, revdeps.length) else toLex (processed.length + 1, 0)

theorem queued_awaiting {first : Bool} {next : BlockID} {processed : List BlockID}
    (seen : FiniteMap BlockID Bool) (hqueue : ∀ id ∈ next :: processed, marked db d id = true) :
    Queued db d (.cascading first next (d.awaiting next) processed seen) := by
  refine ⟨hqueue, fun hne => ?_⟩
  unfold awaiting at hne
  cases hawait : d.await[next]? with
  | none => simp [hawait] at hne
  | some ids => rfl

end Depgraph

namespace Node

variable {wire : Wire β} {n : Node β}

/-- What holds whatever blocks are added. -/
structure Orderly (n : Node β) : Prop where
  registered : n.depgraph.Registered n.db
  queued : n.depgraph.Queued n.db n.loop

/-- What is left to do until the queue is drained. -/
def rank (n : Node β) : Nat ×ₗ Nat ×ₗ Nat ×ₗ Nat :=
  toLex (n.depgraph.inbox.length, toLex (n.depgraph.await.size, n.depgraph.effort n.loop))

variable {n' : Node β}

theorem rank_lt_of_inbox (h : n'.depgraph.inbox.length < n.depgraph.inbox.length) :
    n'.rank < n.rank :=
  Prod.Lex.toLex_lt_toLex.mpr (.inl h)

theorem rank_lt_of_await (hinbox : n'.depgraph.inbox = n.depgraph.inbox)
    (h : n'.depgraph.await.size < n.depgraph.await.size) : n'.rank < n.rank :=
  Prod.Lex.toLex_lt_toLex.mpr (.inr ⟨congrArg List.length hinbox, Prod.Lex.toLex_lt_toLex.mpr (.inl h)⟩)

theorem rank_lt_of_effort (hinbox : n'.depgraph.inbox = n.depgraph.inbox)
    (hawait : n'.depgraph.await.size = n.depgraph.await.size)
    (h : n'.depgraph.effort n'.loop < n.depgraph.effort n.loop) : n'.rank < n.rank :=
  Prod.Lex.toLex_lt_toLex.mpr (.inr ⟨congrArg List.length hinbox,
    Prod.Lex.toLex_lt_toLex.mpr (.inr ⟨hawait, h⟩)⟩)

theorem orderly_fresh (db : Database β) (self : Nat) : (fresh db self).Orderly :=
  ⟨Depgraph.registered_new db self [], trivial⟩

/-- One of the blocks that have waited is done. -/
theorem rank_lt_of_revdeps {d : Depgraph β} {first : Bool} {next revdep : BlockID}
    {revdeps processed processed' : List BlockID} {seen seen' : FiniteMap BlockID Bool}
    (hloop : n.loop = .cascading first next (revdep :: revdeps) processed seen)
    (hawait : (n.depgraph.await[next]?).isSome) (hd : d.await = n.depgraph.await)
    (hinbox : d.inbox = n.depgraph.inbox) :
    ({ n with depgraph := d, loop := .cascading first next revdeps processed' seen' } : Node β).rank <
      n.rank := by
  refine rank_lt_of_effort hinbox (congrArg _ hd) ?_
  rw [hloop, Depgraph.effort, Depgraph.effort, hd, if_pos hawait, if_pos hawait]
  exact Prod.Lex.toLex_lt_toLex.mpr (.inr ⟨rfl, Nat.lt_succ_self _⟩)

/-- A block is done. -/
theorem rank_lt_of_finish {first : Bool} {next : BlockID} {processed : List BlockID}
    {seen : FiniteMap BlockID Bool} (hloop : n.loop = .cascading first next [] processed seen) :
    ({ n with
      depgraph := n.depgraph.finish first next
      loop := resume (n.depgraph.finish first next) seen processed } : Node β).rank < n.rank := by
  have hsize : (n.depgraph.finish first next).await.size =
      if next ∈ n.depgraph.await then n.depgraph.await.size - 1 else n.depgraph.await.size :=
    Std.ExtTreeMap.size_erase
  by_cases hmem : next ∈ n.depgraph.await
  · have hpos : 0 < n.depgraph.await.size := by
      rw [size_eq_card_domain, Finset.card_pos]
      exact ⟨next, mem_domain.mpr (Std.ExtTreeMap.isSome_getElem?_iff_mem.mpr hmem)⟩
    refine rank_lt_of_await rfl ?_
    rw [if_pos hmem] at hsize
    change (n.depgraph.finish first next).await.size < _
    omega
  · rw [if_neg hmem] at hsize
    refine rank_lt_of_effort rfl hsize ?_
    have hnone : ¬ (n.depgraph.await[next]?).isSome := fun hsome =>
      hmem (Std.ExtTreeMap.isSome_getElem?_iff_mem.mp hsome)
    rw [hloop, Depgraph.effort, if_neg hnone]
    cases processed with
    | nil => exact Prod.Lex.toLex_lt_toLex.mpr (.inl (Nat.succ_pos _))
    | cons later processed =>
      change Depgraph.effort _ (.cascading false later _ processed seen) < _
      rw [Depgraph.effort]
      split
      · exact Prod.Lex.toLex_lt_toLex.mpr (.inl (Nat.succ_pos _))
      · exact Prod.Lex.toLex_lt_toLex.mpr (.inl (Nat.lt_succ_self _))

/-- Each piece of work brings the node closer to a drained queue. -/
theorem Orderly.advance (h : n.Orderly) (hloop : n.loop ≠ .waiting) :
    Ensures (n.step wire .advance) (fun n' => n'.Orderly ∧ n'.rank < n.rank) (fun _ => True) := by
  have hqueued := h.queued
  rw [step]
  split
  · exact absurd ‹_› hloop
  · rename_i first next revdep revdeps processed seen hloop
    rw [hloop] at hqueued
    have hawait := hqueued.2 (cons_ne_nil _ _)
    split
    · exact ⟨⟨h.registered, hqueued.1, fun _ => hawait⟩, rank_lt_of_revdeps hloop hawait rfl rfl⟩
    split
    · exact trivial
    rename_i block hblock
    cases hrun : Depgraph.processBlock n.db n.depgraph block with
    | error fault => exact trivial
    | ok r =>
      obtain ⟨d, inc⟩ := r
      change _ ∧ _
      obtain ⟨icache, hcached, hcases⟩ := h.registered.retry hblock hrun
      have hasked := h.registered.asked hcached
      have hlater : ∀ id ∈ next :: (processed ++ [revdep]),
          n.depgraph.marked n.db id = true ∨ id = revdep := by
        intro id hid
        rw [← cons_append, mem_append, mem_singleton] at hid
        exact hid.imp_left (hqueued.1 id)
      rcases hcases with ⟨rfl, hmarked, rfl⟩ | ⟨rfl, -, -, rfl⟩ | ⟨rfl, -, -, rfl⟩
      · refine ⟨⟨hasked, fun id hid => ?_, fun _ => hawait⟩, rank_lt_of_revdeps hloop hawait rfl rfl⟩
        exact (hlater id hid).elim (fun hid => hid) fun heq => heq ▸ hmarked
      · exact ⟨⟨hasked, hqueued.1, fun _ => hawait⟩, rank_lt_of_revdeps hloop hawait rfl rfl⟩
      · refine ⟨⟨hasked.markIncluded block, fun id hid => ?_, fun _ => hawait⟩,
          rank_lt_of_revdeps hloop hawait rfl rfl⟩
        rw [Depgraph.marked_markIncluded, Bool.or_eq_true, decide_eq_true_eq,
          h.registered.ids revdep block hblock]
        exact (hlater id hid).imp_right Eq.symm
  · rename_i first next processed seen hloop
    rw [hloop] at hqueued
    have hnext := hqueued.1 next mem_cons_self
    refine ⟨⟨h.registered.finish hnext first, ?_⟩, rank_lt_of_finish hloop⟩
    cases processed with
    | nil => exact trivial
    | cons later processed =>
      exact Depgraph.queued_awaiting seen fun id hid => hqueued.1 id (mem_cons_of_mem _ hid)

theorem Orderly.take (h : n.Orderly) (hloop : n.loop = .waiting) (hinbox : n.depgraph.inbox ≠ []) :
    Ensures (n.step wire .take) (fun n' => n'.Orderly ∧ n'.rank < n.rank) (fun _ => True) := by
  rw [step]
  split
  · rename_i info inbox hloop hinbox
    cases hrun : Depgraph.processBlock n.db { n.depgraph with inbox } info with
    | error fault => exact trivial
    | ok r =>
      obtain ⟨d, inc⟩ := r
      change _ ∧ _
      have hregistered := h.registered.inbox inbox
      have hfewer : inbox.length < n.depgraph.inbox.length := by
        rw [hinbox]
        exact Nat.lt_succ_self _
      obtain ⟨icache, hcached, hcases⟩ := hregistered.toCached.processBlock_cases hrun
      have hasked := hregistered.asked hcached
      rcases hcases with ⟨rfl, hmarked, rfl⟩ | ⟨rfl, -, deps, -, hdeps, rfl⟩ | ⟨rfl, -, -, rfl⟩
      · refine ⟨⟨hasked, Depgraph.queued_awaiting _ fun id hid => ?_⟩, rank_lt_of_inbox hfewer⟩
        rw [mem_singleton.mp hid]
        exact hmarked
      · exact ⟨⟨hasked.addPending hdeps, trivial⟩, rank_lt_of_inbox hfewer⟩
      · refine ⟨⟨hasked.markIncluded info, Depgraph.queued_awaiting _ fun id hid => ?_⟩,
          rank_lt_of_inbox hfewer⟩
        rw [Depgraph.marked_markIncluded, Bool.or_eq_true, decide_eq_true_eq]
        exact .inr (mem_singleton.mp hid).symm
  · rename_i hnone
    cases hinfos : n.depgraph.inbox with
    | nil => exact absurd hinfos hinbox
    | cons info inbox => exact absurd hinfos (hnone info inbox hloop)

theorem Orderly.proceed (h : n.Orderly) (hdrained : ¬ n.Drained) :
    Ensures (n.feed wire .proceed) (fun n' => n'.Orderly ∧ n'.rank < n.rank) (fun _ => True) := by
  rw [feed]
  split
  · rename_i hloop
    exact h.take hloop fun hinbox => hdrained ⟨hloop, hinbox⟩
  · rename_i hloop
    exact h.advance (by rw [hloop]; simp)

theorem feed_of_drained (h : n.Drained) : n.feed wire .proceed = .ok n := by
  rw [feed, h.1]
  dsimp only
  rw [step, h.1, h.2]

theorem Orderly.feed (h : n.Orderly) (f : Feed β) :
    Ensures (n.feed wire f) Orderly (fun _ => True) := by
  cases f with
  | add info => exact ⟨h.registered.inbox _, h.queued⟩
  | proceed =>
    by_cases hdrained : n.Drained
    · rw [feed_of_drained hdrained]
      exact h
    · exact (h.proceed hdrained).mono fun n' hn' => hn'.1
  | prune keep =>
    rw [Node.feed, step]
    split
    · exact ⟨h.registered.asked (h.registered.toCached.restrict keep), h.queued⟩
    · exact h

/-- The rule for feeding. -/
theorem ensures_feedAll (wire : Wire β) (inv : List (BlockData β) → Node β → Prop) {world : List (BlockData β)}
    {fail : Fault → Prop}
    (hfeed : ∀ added n f, added ++ f.adds ⊆ world → inv added n →
      Ensures (n.feed wire f) (inv (added ++ f.adds)) fail)
    (feeds : List (Feed β)) : ∀ added n, added ++ Feed.added feeds ⊆ world → inv added n →
      Ensures (n.feedAll wire feeds) (inv (added ++ Feed.added feeds)) fail := by
  induction feeds with
  | nil =>
    intro added n _ hinv
    rw [Feed.added, flatMap_nil, append_nil]
    exact hinv
  | cons f feeds ih =>
    intro added n hsub hinv
    rw [Feed.added, flatMap_cons, ← append_assoc] at hsub ⊢
    have hnow := append_subset.mp hsub
    exact (hfeed added n f hnow.1 hinv).bind fun n' hn' => ih _ n' hsub hn'

/-- The queue can be drained. -/
theorem Orderly.exists_drained (h : n.Orderly) :
    ∃ k, Ensures (n.feedAll wire (replicate k .proceed)) Drained (fun _ => True) := by
  induction hrank : n.rank using WellFoundedLT.induction generalizing n with
  | ind rank ih =>
    subst hrank
    by_cases hdrained : n.Drained
    · exact ⟨0, hdrained⟩
    cases hrun : n.feed wire .proceed with
    | error fault =>
      refine ⟨1, ?_⟩
      rw [replicate_one, feedAll, hrun]
      exact trivial
    | ok n' =>
      obtain ⟨horderly, hless⟩ := (h.proceed hdrained).of_ok hrun
      obtain ⟨k, hk⟩ := ih n'.rank hless horderly rfl
      refine ⟨k + 1, ?_⟩
      rw [replicate_succ, feedAll, hrun]
      exact hk

end Node

/-! ## Nothing is forgotten -/

/-- Blocks with one id build on the same blocks. -/
def Consistent (self : Nat) (blocks : List (BlockData β)) : Prop :=
  ∀ a ∈ blocks, ∀ b ∈ blocks, a.id = b.id → a.links self = b.links self

instance (self : Nat) (blocks : List (BlockData β)) : Decidable (Consistent self blocks) :=
  inferInstanceAs (Decidable (∀ a ∈ blocks, ∀ b ∈ blocks, a.id = b.id → a.links self = b.links self))

namespace Depgraph

/-- Every block that was added is in one place. -/
structure Sorted (db : Database β) (added : List (BlockData β)) (d : Depgraph β) : Prop
    extends Registered db d where
  inbox : ∀ info ∈ d.inbox, info ∈ added
  pending : ∀ (id : BlockID) (block : BlockData β), d.pending[id]? = some block → block ∈ added
  blocks : ∀ block ∈ d.blocks, block ∈ added ∧ db.isIncluded block.id = false ∧
    marked db d block.id = true ∧ ∀ dep ∈ block.links d.self, marked db d dep = true
  marked : ∀ id, marked db d id = true → db.isIncluded id = true ∨ ∃ block ∈ d.blocks, block.id = id
  nodup : (d.blocks.map BlockData.id).Nodup
  handled : ∀ block ∈ added, block ∈ d.inbox ∨ Depgraph.marked db d block.id = true ∨
    (d.pending[block.id]?).isSome
  /-- A block that waits is pending, and waits for a block it builds on. -/
  await : ∀ dep id, id ∈ d.awaiting dep →
    ∃ block, d.pending[id]? = some block ∧ dep ∈ block.links d.self
  /-- An included block does not wait for one that is not. -/
  closed : ∀ dep id, id ∈ d.awaiting dep → Depgraph.marked db d id = true →
    Depgraph.marked db d dep = true

variable {info : BlockData β}

section Sorted

variable {db : Database β} {added : List (BlockData β)} {d : Depgraph β}

theorem sorted_new (db : Database β) (self : Nat) : Sorted db [] (.new self [] : Depgraph β) :=
  { registered_new db self [] with
    inbox := by simp [new]
    pending := by simp [new]
    blocks := by simp [new]
    marked := by simp [new, Depgraph.marked]
    nodup := by simp [new]
    handled := by simp
    await := by simp [new, awaiting]
    closed := by simp [new, awaiting] }

theorem Sorted.add (h : Sorted db added d) (info : BlockData β) :
    Sorted db (added ++ [info]) (d.add info) :=
  { h.toRegistered.inbox (d.inbox ++ [info]), h with
    inbox := fun other hother => by
      change other ∈ d.inbox ++ [info] at hother
      rw [mem_append] at hother ⊢
      exact hother.imp_left (h.inbox other)
    pending := fun id block hblock => mem_append_left _ (h.pending id block hblock)
    blocks := fun block hblock =>
      ⟨mem_append_left _ (h.blocks block hblock).1, (h.blocks block hblock).2⟩
    handled := fun block hblock => by
      change block ∈ d.inbox ++ [info] ∨ _
      rw [mem_append] at hblock ⊢
      rcases hblock with hblock | hblock
      · exact (h.handled block hblock).imp_left .inl
      · exact .inl (.inr hblock) }

theorem Sorted.asked (h : Sorted db added d) {icache : FiniteMap BlockID Bool}
    (hcached : Cached db { d with icache }) : Sorted db added { d with icache } :=
  { h.toRegistered.asked hcached, h with }

variable {block : BlockData β}

variable (h : Sorted db added d)
include h

/-- A block is put off. -/
theorem Sorted.addPending (hconsistent : Consistent d.self added)
    (hblock : block ∈ added) (hinc : Depgraph.marked db d block.id = false) {deps : List BlockID}
    (hdeps : deps = (block.links d.self).filter fun dep => !Depgraph.marked db d dep) :
    Sorted db added (d.addPending block deps) :=
  { h.toRegistered.addPending hdeps, h with
    pending := fun id other hother => by
      rw [lookup_addPending] at hother
      split at hother
      · cases hother
        exact hblock
      · exact h.pending id other hother
    handled := fun other hother => by
      rw [lookup_addPending]
      refine (h.handled other hother).imp_right (Or.imp_right fun hpending => ?_)
      split
      · rfl
      · exact hpending
    await := fun dep id hid => by
      rw [lookup_addPending]
      rcases mem_awaiting_addPending.mp hid with hid | ⟨rfl, hdep⟩
      · obtain ⟨other, hother, hlink⟩ := h.await dep id hid
        split
        · rename_i heq
          -- the block waited before, and it builds on the same blocks
          refine ⟨block, rfl, ?_⟩
          change dep ∈ block.links d.self
          rw [hconsistent block hblock other (h.pending id other hother)
            (heq.trans (h.ids id other hother).symm)]
          exact hlink
        · exact ⟨other, hother, hlink⟩
      · rw [hdeps] at hdep
        rw [if_pos rfl]
        exact ⟨block, rfl, (mem_filter.mp hdep).1⟩
    closed := fun dep id hid hmarked => by
      rcases mem_awaiting_addPending.mp hid with hid | ⟨rfl, -⟩
      · exact h.closed dep id hid hmarked
      · cases hinc.symm.trans hmarked }

/-- A block waits for nothing but what it builds on. -/
theorem Sorted.marked_of_awaiting (hconsistent : Consistent d.self added)
    (hblock : block ∈ added) (hall : ∀ dep ∈ block.links d.self, Depgraph.marked db d dep = true)
    (dep : BlockID) (hdep : block.id ∈ d.awaiting dep) : Depgraph.marked db d dep = true := by
  obtain ⟨other, hother, hlink⟩ := h.await dep block.id hdep
  rw [hconsistent block hblock other (h.pending _ other hother) (h.ids _ other hother).symm] at hall
  exact hall dep hlink

/-- A block is included. -/
theorem Sorted.markIncluded (hconsistent : Consistent d.self added)
    (hblock : block ∈ added) (hinc : Depgraph.marked db d block.id = false)
    (hall : ∀ dep ∈ block.links d.self, Depgraph.marked db d dep = true) :
    Sorted db added { d.markIncluded block.id with blocks := d.blocks ++ [block] } := by
  have hmarked := marked_markIncluded db d d.icache block
  have hkeeps : ∀ id, Depgraph.marked db d id = true → Depgraph.marked db
      { d.markIncluded block.id with blocks := d.blocks ++ [block] } id = true := by
    intro id hid
    rw [hmarked, hid]
    rfl
  have hnew : db.isIncluded block.id = false := (Bool.or_eq_false_iff.mp hinc).2
  exact { h.toRegistered.markIncluded block, h with
    blocks := fun other hother => by
      rcases mem_append.mp hother with hother | hother
      · obtain ⟨hadded, hbefore, hself, hlinks⟩ := h.blocks other hother
        exact ⟨hadded, hbefore, hkeeps _ hself, fun dep hdep => hkeeps dep (hlinks dep hdep)⟩
      · rw [mem_singleton.mp hother]
        exact ⟨hblock, hnew, by rw [hmarked]; simp, fun dep hdep => hkeeps dep (hall dep hdep)⟩
    marked := fun id hid => by
      rw [hmarked, Bool.or_eq_true, decide_eq_true_eq] at hid
      rcases hid with hid | rfl
      · refine (h.marked id hid).imp_right ?_
        rintro ⟨other, hother, rfl⟩
        exact ⟨other, mem_append_left _ hother, rfl⟩
      · exact .inr ⟨block, mem_append_right _ (mem_singleton_self _), rfl⟩
    nodup := by
      rw [map_append, map_singleton]
      refine h.nodup.append (nodup_singleton _) fun id hid hid' => ?_
      obtain ⟨other, hother, rfl⟩ := mem_map.mp hid
      rw [mem_singleton] at hid'
      have hbefore := (h.blocks other hother).2.2.1
      rw [hid', hinc] at hbefore
      cases hbefore
    handled := fun other hother =>
      (h.handled other hother).imp_right (Or.imp_left (hkeeps _))
    closed := fun dep id hid hid' => by
      rw [hmarked, Bool.or_eq_true, decide_eq_true_eq] at hid'
      rcases hid' with hid' | rfl
      · exact hkeeps dep (h.closed dep id hid hid')
      · exact hkeeps dep (h.marked_of_awaiting hconsistent hblock hall dep hid) }

/-- A block is taken from the queue and handled. -/
theorem Sorted.drop {inbox : List (BlockData β)} (hinbox : d.inbox = info :: inbox)
    (hinfo : Depgraph.marked db d info.id = true ∨ (d.pending[info.id]?).isSome) :
    Sorted db added { d with inbox } :=
  { h.toRegistered.inbox inbox, h with
    inbox := fun other hother => h.inbox other (hinbox ▸ mem_cons_of_mem _ hother)
    handled := fun other hother => by
      rcases h.handled other hother with hother | hdone
      · rw [hinbox, mem_cons] at hother
        rcases hother with rfl | hother
        · exact .inr hinfo
        · exact .inl hother
      · exact .inr hdone }

theorem Sorted.finish {next : BlockID} (hmarked : Depgraph.marked db d next = true)
    (hnext : ∀ dep, next ∉ d.awaiting dep) (first : Bool) : Sorted db added (d.finish first next) :=
  { h.toRegistered.finish hmarked first, h with
    pending := fun id block hblock => h.pending id block (lookup_of_finish hblock)
    handled := fun block hblock => by
      refine (h.handled block hblock).imp_right fun hdone => ?_
      by_cases heq : block.id = next
      · exact .inl (heq ▸ hmarked)
      · rw [lookup_finish_of_ne heq]
        exact hdone
    await := fun dep id hid => by
      obtain ⟨-, hid⟩ := mem_awaiting_finish.mp hid
      obtain ⟨block, hblock, hlink⟩ := h.await dep id hid
      have hne : id ≠ next := fun heq => hnext dep (heq ▸ hid)
      exact ⟨block, by rw [lookup_finish_of_ne hne, hblock], hlink⟩
    closed := fun dep id hid => h.closed dep id (mem_awaiting_finish.mp hid).2 }

end Sorted

/-- Whoever waits lacks a block, or the cascade will come to it. -/
def Live (db : Database β) (d : Depgraph β) : Loop → Prop
  | .waiting => ∀ (id : BlockID) (block : BlockData β), d.pending[id]? = some block →
    marked db d id = false ∧ Lacking db d block
  | .cascading first next revdeps processed seen =>
    (first = true → d.pending[next]? = none) ∧
    (∀ (id : BlockID) (block : BlockData β), d.pending[id]? = some block →
      marked db d id = true ∧ id ∈ next :: processed ∨
      marked db d id = false ∧ (Lacking db d block ∨ id ∈ revdeps ∨
        ∃ dep ∈ processed, dep ≠ next ∧ id ∈ d.awaiting dep)) ∧
    ∀ id : BlockID, seen[id]?.getD false = true → marked db d id = true ∨
      ∃ block, d.pending[id]? = some block ∧ Lacking db d block

variable {db : Database β} {added : List (BlockData β)} {d : Depgraph β} {block : BlockData β}
  {id : BlockID} {d' : Depgraph β} {inbox : List (BlockData β)} {inc : Bool}

/-- Whoever lacked a block lacks it still, or it is the one that is included now. -/
theorem Registered.lacking_markIncluded (h : Registered db d) {other : BlockData β}
    (hother : d.pending[id]? = some other) (hlacking : Lacking db d other) :
    Lacking db { d.markIncluded block.id with blocks := d.blocks ++ [block] } other ∨
      id ∈ d.awaiting block.id := by
  obtain ⟨dep, hdep, hmarked⟩ := hlacking
  by_cases heq : block.id = dep
  · exact .inr (heq ▸ h.awaiting id other hother dep hdep hmarked)
  · refine .inl ⟨dep, hdep, ?_⟩
    rw [marked_markIncluded db d d.icache, hmarked, decide_eq_false heq]
    rfl

/-- A block from the queue is included, or was so before. -/
theorem live_take (hlive : Live db d .waiting) {next : BlockID} (hnext : d.pending[next]? = none)
    (hpending : d'.pending = d.pending)
    (hmarked : ∀ id, marked db d' id = (marked db d id || decide (next = id)))
    (hlacking : ∀ (id : BlockID) (block : BlockData β), d.pending[id]? = some block →
      Lacking db d' block ∨ id ∈ d'.awaiting next) :
    Live db d' (.cascading true next (d'.awaiting next) []
      ((∅ : FiniteMap BlockID Bool).insert next true)) := by
  refine ⟨fun _ => by rw [hpending, hnext], fun id block hblock => ?_, fun id hid => ?_⟩
  · rw [hpending] at hblock
    have hne : next ≠ id := by
      rintro rfl
      rw [hnext] at hblock
      cases hblock
    rw [hmarked, (hlive id block hblock).1, decide_eq_false hne]
    exact .inr ⟨rfl, (hlacking id block hblock).imp_right .inl⟩
  · rw [lookup_insert] at hid
    split at hid
    · rename_i heq
      rw [hmarked, heq]
      simp
    · simp at hid

/-- A block from the queue is put off. -/
theorem live_putOff (hlive : Live db d .waiting) (hinc : marked db d block.id = false)
    (hlacking : Lacking db d block) (deps : List BlockID) :
    Live db (d.addPending block deps) .waiting := by
  intro id other hother
  rw [lookup_addPending] at hother
  split at hother
  · rename_i heq
    cases hother
    exact ⟨heq ▸ hinc, hlacking⟩
  · exact hlive id other hother

variable {first : Bool} {next revdep : BlockID} {revdeps processed : List BlockID}
  {seen : FiniteMap BlockID Bool}

section

variable (hlive : Live db d (.cascading first next (revdep :: revdeps) processed seen))
include hlive

/-- A block that was tried since the last success still lacks a block. -/
theorem live_skip (hseen : seen[revdep]?.getD false = true) :
    Live db d (.cascading first next revdeps processed seen) := by
  obtain ⟨hfirst, hwaits, htried⟩ := hlive
  refine ⟨hfirst, fun id block hblock => (hwaits id block hblock).imp_right ?_, htried⟩
  rintro ⟨hmarked, hlacking | hrevdep | hlater⟩
  · exact ⟨hmarked, .inl hlacking⟩
  · refine ⟨hmarked, ?_⟩
    rcases mem_cons.mp hrevdep with rfl | hrevdep
    · rcases htried id hseen with hdone | ⟨other, hother, hlacking⟩
      · cases hmarked.symm.trans hdone
      · cases hblock.symm.trans hother
        exact .inl hlacking
    · exact .inr (.inl hrevdep)
  · exact ⟨hmarked, .inr (.inr hlater)⟩

/-- A block is tried again and still lacks a block. -/
theorem live_retry (hblock : d.pending[revdep]? = some block) (hlacking : Lacking db d block) :
    Live db d (.cascading first next revdeps processed (seen.insert revdep true)) := by
  have htried : ∀ id : BlockID, (seen.insert revdep true)[id]?.getD false = true →
      marked db d id = true ∨ ∃ block, d.pending[id]? = some block ∧ Lacking db d block := by
    intro id hid
    rw [lookup_insert] at hid
    split at hid
    · rename_i heq
      exact .inr ⟨block, heq ▸ hblock, hlacking⟩
    · exact hlive.2.2 id hid
  have hlive' : Live db d (.cascading first next (revdep :: revdeps) processed (seen.insert revdep true)) :=
    ⟨hlive.1, hlive.2.1, htried⟩
  exact live_skip hlive' (by rw [lookup_insert_self]; rfl)

/-- A block that has waited is included, or was so before. -/
theorem live_include (hpending : d'.pending = d.pending)
    (hmarked : ∀ id, marked db d' id = (marked db d id || decide (revdep = id)))
    (hawaiting : ∀ dep, d'.awaiting dep = d.awaiting dep)
    (hlacking : ∀ (id : BlockID) (block : BlockData β), d.pending[id]? = some block →
      Lacking db d block → Lacking db d' block ∨ revdep ≠ next ∧ id ∈ d.awaiting revdep) :
    Live db d' (.cascading first next revdeps (processed ++ [revdep]) ∅) := by
  obtain ⟨hfirst, hwaits, -⟩ := hlive
  refine ⟨fun hfirst' => by rw [hpending, hfirst hfirst'], fun id block hblock => ?_, by simp⟩
  rw [hpending] at hblock
  rw [hmarked]
  by_cases heq : revdep = id
  · exact .inl ⟨by simp [heq], by simp [heq]⟩
  rw [decide_eq_false heq, Bool.or_false]
  refine (hwaits id block hblock).imp (fun hdone => ⟨hdone.1, ?_⟩) fun hwait => ⟨hwait.1, ?_⟩
  · rw [← cons_append]
    exact mem_append_left _ hdone.2
  · rcases hwait.2 with hbefore | hrevdep | ⟨dep, hdep, hne, hid⟩
    · refine (hlacking id block hblock hbefore).imp_right fun hnow => .inr ⟨revdep, by simp, hnow.1, ?_⟩
      rw [hawaiting]
      exact hnow.2
    · exact .inr (.inl ((mem_cons.mp hrevdep).resolve_left (Ne.symm heq)))
    · refine .inr (.inr ⟨dep, mem_append_left _ hdep, hne, ?_⟩)
      rw [hawaiting]
      exact hid

end

theorem live_finish (hlive : Live db d (.cascading first next [] processed seen))
    (hnext : marked db d next = true) :
    Live db (d.finish first next) (Node.resume (d.finish first next) seen processed) := by
  obtain ⟨hfirst, hwaits, htried⟩ := hlive
  have hgone : (d.finish first next).pending[next]? = none := by
    cases first with
    | true => exact hfirst rfl
    | false =>
      change (d.pending.erase next)[next]? = none
      rw [lookup_erase, if_pos rfl]
  have hother : ∀ (id : BlockID) (block : BlockData β), (d.finish first next).pending[id]? = some block →
      id ≠ next := by
    rintro id block hblock rfl
    rw [hgone] at hblock
    cases hblock
  cases processed with
  | nil =>
    intro id block hblock
    rcases hwaits id block (lookup_of_finish hblock) with ⟨-, hqueue⟩ | ⟨hmarked, hrest⟩
    · exact absurd (mem_singleton.mp hqueue) (hother id block hblock)
    · exact ⟨hmarked, hrest.resolve_right (by simp)⟩
  | cons later processed =>
    refine ⟨fun hfalse => (nomatch hfalse), fun id block hblock => ?_, fun id hid => ?_⟩
    · refine (hwaits id block (lookup_of_finish hblock)).imp (fun hdone => ⟨hdone.1, ?_⟩)
        fun hwait => ⟨hwait.1, ?_⟩
      · exact (mem_cons.mp hdone.2).resolve_left (hother id block hblock)
      · rcases hwait.2 with hlacking | hrevdep | ⟨dep, hdep, hne, hid⟩
        · exact .inl hlacking
        · cases hrevdep
        · have hid' : id ∈ (d.finish first next).awaiting dep := mem_awaiting_finish.mpr ⟨hne, hid⟩
          by_cases heq : dep = later
          · exact .inr (.inl (heq ▸ hid'))
          · exact .inr (.inr ⟨dep, (mem_cons.mp hdep).resolve_left heq, heq, hid'⟩)
    · by_cases heq : id = next
      · exact .inl (heq ▸ hnext)
      · refine (htried id hid).imp_right ?_
        rintro ⟨block, hblock, hlacking⟩
        exact ⟨block, by rw [lookup_finish_of_ne heq, hblock], hlacking⟩

theorem marked_or_decide {block : BlockID} (h : marked db d block = true) (id : BlockID) :
    marked db d id = (marked db d id || decide (block = id)) := by
  by_cases heq : block = id
  · rw [← heq, h]
    rfl
  · rw [decide_eq_false heq, Bool.or_false]

theorem lacking_of_missing {deps : List BlockID} (hne : deps ≠ [])
    (hdeps : deps = (block.links d.self).filter fun dep => !marked db d dep) :
    Lacking db d block := by
  obtain ⟨dep, hdep⟩ := exists_mem_of_ne_nil deps hne
  rw [hdeps, mem_filter, Bool.not_eq_true'] at hdep
  exact ⟨dep, hdep⟩

theorem progress_failed {block : BlockID} (hinc : marked db d block = false)
    (icache : FiniteMap BlockID Bool) : Progress db d { d with icache } block false where
  self := rfl
  marked id := ⟨.inl, fun hid => hid.elim (fun hid => hid) fun hfalse => absurd hfalse.1 (by decide)⟩
  included hfalse := by cases hfalse
  putOff _ := ⟨hinc, fun _ _ => ⟨fun hid => hid, .inl⟩⟩

theorem Progress.of_inbox (h : Progress db { d with inbox } d' id inc) : Progress db d d' id inc :=
  { h with }

/-- A block is taken from the queue. -/
theorem Sorted.take (h : Sorted db added d) (hconsistent : Consistent d.self added)
    (htracks : Tracks db d .waiting) (hlive : Live db d .waiting) (hinbox : d.inbox = info :: inbox)
    (hrun : processBlock db { d with inbox } info = .ok (d', inc)) :
    let loop : Loop := if inc then
        .cascading true info.id (d'.awaiting info.id) [] ((∅ : FiniteMap BlockID Bool).insert info.id true)
      else .waiting
    d'.self = d.self ∧ Sorted db added d' ∧ Tracks db d' loop ∧ Live db d' loop := by
  have hcached : Cached db { d with inbox } := ⟨h.tcache, h.icache⟩
  have hinfo : info ∈ added := h.inbox info (hinbox ▸ mem_cons_self)
  obtain ⟨icache, hcached', hcases⟩ := hcached.processBlock_cases hrun
  have hasked := h.asked ⟨hcached'.tcache, hcached'.icache⟩
  rcases hcases with ⟨rfl, hinc, rfl⟩ | ⟨rfl, hinc, deps, hne, hdeps, rfl⟩ | ⟨rfl, hinc, hall, rfl⟩
  · have hnext : d.pending[info.id]? = none := by
      cases hpending : d.pending[info.id]? with
      | none => rfl
      | some block => cases (hlive _ block hpending).1.symm.trans hinc
    have hprogress := progress_asked hinc (fun dep hdep => h.closed dep _ hdep hinc) icache
    exact ⟨rfl, hasked.drop hinbox (.inl hinc), tracks_take htracks hprogress.of_inbox ∅,
      live_take hlive hnext rfl (marked_or_decide hinc) fun id block hblock =>
        .inl (hlive id block hblock).2⟩
  · have hlacking : Lacking db d info := lacking_of_missing hne hdeps
    have hprogress := progress_addPending hinc hdeps icache
    have hput := hasked.addPending hconsistent hinfo hinc hdeps
    refine ⟨rfl, hput.drop hinbox (.inr ?_), tracks_take htracks hprogress.of_inbox ∅,
      live_putOff hlive hinc hlacking deps⟩
    rw [lookup_addPending, if_pos rfl]
    rfl
  · have hnext : d.pending[info.id]? = none := by
      cases hpending : d.pending[info.id]? with
      | none => rfl
      | some block =>
        -- the block would have waited for what it has
        obtain ⟨dep, hdep, hmissing⟩ := (hlive _ block hpending).2
        rw [hconsistent block (h.pending _ block hpending) info hinfo (h.ids _ block hpending)] at hdep
        cases hmissing.symm.trans (hall dep hdep)
    have hprogress := progress_markIncluded (h.marked_of_awaiting hconsistent hinfo hall) icache
    have hmark := hasked.markIncluded hconsistent hinfo hinc hall
    refine ⟨rfl, hmark.drop hinbox (.inl ?_), tracks_take htracks hprogress.of_inbox ∅,
      live_take hlive hnext rfl (marked_markIncluded db d icache info) fun id block hblock =>
        hasked.lacking_markIncluded hblock (hlive id block hblock).2⟩
    rw [marked_markIncluded]
    simp

/-- A block that has waited is tried again. -/
theorem Sorted.retry (h : Sorted db added d) (hconsistent : Consistent d.self added)
    (htracks : Tracks db d (.cascading first next (revdep :: revdeps) processed seen))
    (hlive : Live db d (.cascading first next (revdep :: revdeps) processed seen))
    (hblock : d.pending[revdep]? = some block) (hrun : processBlock db d block = .ok (d', inc)) :
    let loop : Loop := if inc then .cascading first next revdeps (processed ++ [revdep]) ∅
      else .cascading first next revdeps processed (seen.insert revdep true)
    d'.self = d.self ∧ Sorted db added d' ∧ Tracks db d' loop ∧ Live db d' loop := by
  have hadded := h.pending revdep block hblock
  obtain ⟨icache, hcached, hcases⟩ := h.toRegistered.retry hblock hrun
  have hasked := h.asked hcached
  obtain rfl := h.ids revdep block hblock
  rcases hcases with ⟨rfl, hinc, rfl⟩ | ⟨rfl, hinc, hlacking, rfl⟩ | ⟨rfl, hinc, hall, rfl⟩
  · have hprogress := progress_asked hinc (fun dep hdep => h.closed dep _ hdep hinc) icache
    exact ⟨rfl, hasked, tracks_advance htracks hprogress seen,
      live_include hlive rfl (marked_or_decide hinc) (fun _ => rfl) fun id other hother => .inl⟩
  · exact ⟨rfl, hasked, tracks_advance htracks (progress_failed hinc icache) _,
      live_retry hlive hblock hlacking⟩
  · have hprogress := progress_markIncluded (h.marked_of_awaiting hconsistent hadded hall) icache
    have hne : block.id ≠ next := by
      rintro heq
      cases (heq ▸ hinc).symm.trans (htracks.1 next mem_cons_self)
    refine ⟨rfl, hasked.markIncluded hconsistent hadded hinc hall, tracks_advance htracks hprogress seen,
      live_include hlive rfl (marked_markIncluded db d icache block) (fun _ => rfl) ?_⟩
    intro id other hother hlacking
    exact (hasked.lacking_markIncluded hother hlacking).imp_right fun hid => ⟨hne, hid⟩

end Depgraph

namespace Node

variable {wire : Wire β} {n : Node β}

/-- What holds if blocks with one id build on the same blocks. -/
structure Complete (db : Database β) (owner : Nat) (added : List (BlockData β)) (n : Node β) : Prop where
  db : n.db = db
  self : n.depgraph.self = owner
  sorted : n.depgraph.Sorted n.db added
  tracks : n.depgraph.Tracks n.db n.loop
  live : n.depgraph.Live n.db n.loop

theorem complete_fresh (db : Database β) (owner : Nat) :
    Complete db owner [] (fresh db owner : Node β) where
  db := rfl
  self := rfl
  sorted := Depgraph.sorted_new db owner
  tracks := by simp [fresh, Depgraph.Tracks, Depgraph.new, Depgraph.awaiting]
  live := by simp [fresh, Depgraph.Live, Depgraph.new]

/-- The ids that may be written down on behalf of some blocks. -/
def writes (owner : Nat) (blocks : List (BlockData β)) : List BlockID :=
  blocks.flatMap fun block => block.id :: block.links owner

variable {db : Database β} {owner : Nat} {added world : List (BlockData β)}

section

variable (h : Complete db owner added n)
include h

theorem Complete.consistent (hconsistent : Consistent owner world)
    (hsub : added ⊆ world) : Consistent n.depgraph.self added := by
  rw [h.self]
  exact fun a ha b hb => hconsistent a (hsub ha) b (hsub hb)

theorem Complete.unwritable (hsub : added ⊆ world)
    {block : BlockData β} (hblock : block ∈ added) (inbox : List (BlockData β)) :
    Ensures (Depgraph.processBlock n.db { n.depgraph with inbox } block) (fun _ => True)
      (Depgraph.Unwritable (writes owner world)) := by
  refine (Depgraph.processBlock_unwritable n.db _ block).weaken fun fault hfault => ?_
  refine hfault.mono fun id hid => mem_flatMap.mpr ⟨block, hsub hblock, ?_⟩
  change id ∈ block.id :: block.links n.depgraph.self at hid
  rwa [h.self] at hid

theorem Complete.take (hconsistent : Consistent owner world)
    (hsub : added ⊆ world) : Ensures (n.step wire .take) (Complete db owner added)
      (Depgraph.Unwritable (writes owner world)) := by
  have htracks := h.tracks
  have hlive := h.live
  rw [step]
  split
  · rename_i info inbox hloop hinbox
    rw [hloop] at htracks hlive
    have hinfo : info ∈ added := h.sorted.inbox info (hinbox ▸ mem_cons_self)
    refine ((h.unwritable hsub hinfo inbox).and_of_ok fun r hr => hr).bind fun r hr => ?_
    obtain ⟨d, inc⟩ := r
    obtain ⟨hself, hsorted, htracks', hlive'⟩ :=
      h.sorted.take (h.consistent hconsistent hsub) htracks hlive hinbox hr.2
    exact ⟨h.db, hself.trans h.self, hsorted, htracks', hlive'⟩
  · exact h

theorem Complete.advance (hconsistent : Consistent owner world)
    (hsub : added ⊆ world) : Ensures (n.step wire .advance) (Complete db owner added)
      (Depgraph.Unwritable (writes owner world)) := by
  have htracks := h.tracks
  have hlive := h.live
  rw [step]
  split
  · exact h
  · rename_i first next revdep revdeps processed seen hloop
    rw [hloop] at htracks hlive
    obtain ⟨hqueue, hwaiting, hnext, hbefore, hrevdeps⟩ := htracks
    split
    · rename_i hseen
      exact ⟨h.db, h.self, h.sorted, ⟨hqueue, hwaiting, hnext, hbefore, fun id hid =>
        hrevdeps id (mem_cons_of_mem _ hid)⟩, Depgraph.live_skip hlive hseen⟩
    · -- who waits is pending
      obtain ⟨block, hblock, -⟩ := h.sorted.await next revdep (hrevdeps revdep mem_cons_self)
      rw [hblock]
      have hadded := h.sorted.pending revdep block hblock
      refine ((h.unwritable hsub hadded n.depgraph.inbox).and_of_ok fun r hr => hr).bind fun r hr => ?_
      obtain ⟨d, inc⟩ := r
      obtain ⟨hself, hsorted, htracks', hlive'⟩ := h.sorted.retry (h.consistent hconsistent hsub)
        ⟨hqueue, hwaiting, hnext, hbefore, hrevdeps⟩ hlive hblock hr.2
      exact ⟨h.db, hself.trans h.self, hsorted, htracks', hlive'⟩
  · rename_i first next processed seen hloop
    rw [hloop] at htracks hlive
    have hmarked := htracks.1 next mem_cons_self
    exact ⟨h.db, h.self, h.sorted.finish hmarked htracks.2.2.1 first, Depgraph.tracks_finish htracks,
      Depgraph.live_finish hlive hmarked⟩

end

theorem Complete.feed (hconsistent : Consistent owner world) (added : List (BlockData β)) (n : Node β)
    (f : Feed β) (hsub : added ++ f.adds ⊆ world) (h : Complete db owner added n) :
    Ensures (n.feed wire f) (Complete db owner (added ++ f.adds))
      (Depgraph.Unwritable (writes owner world)) := by
  cases f with
  | add info => exact { h with sorted := h.sorted.add info }
  | proceed =>
    rw [Feed.adds, append_nil] at hsub ⊢
    rw [Node.feed]
    split
    · exact h.take hconsistent hsub
    · exact h.advance hconsistent hsub
  | prune keep =>
    rw [Feed.adds, append_nil]
    rw [Node.feed, step]
    split
    · exact { h with sorted := h.sorted.asked (h.sorted.toCached.restrict keep) }
    · exact h

/-! ## The largest set -/

/-- Some added block with the one id builds on the other. -/
def Needs (self : Nat) (added : List (BlockData β)) (id dep : BlockID) : Prop :=
  ∃ block ∈ added, block.id = id ∧ dep ∈ block.links self

/-- What waits when the queue is drained lacks a block and is registered with it. -/
theorem Complete.lacking (h : Complete db owner added n) (hdrained : n.Drained) {id : BlockID}
    {block : BlockData β} (hblock : n.depgraph.pending[id]? = some block) :
    ∃ dep ∈ block.links owner, n.depgraph.marked db dep = false ∧ id ∈ n.depgraph.awaiting dep := by
  have hlive := h.live
  rw [hdrained.1] at hlive
  obtain ⟨dep, hdep, hmissing⟩ := (hlive id block hblock).2
  have hregistered := h.sorted.awaiting id block hblock dep hdep hmissing
  rw [h.self] at hdep
  rw [h.db] at hmissing
  exact ⟨dep, hdep, hmissing, hregistered⟩

theorem Complete.isGreatest (h : Complete db owner added n) (hdrained : n.Drained)
    (hconsistent : Consistent owner added)
    (hacyclic : ∀ id, ¬ Relation.TransGen (Needs owner added) id id) :
    IsGreatest {s | Supported {id | db.isIncluded id = true} {id | ∃ block ∈ added, block.id = id}
      (Needs owner added) s} {id | ∃ block ∈ n.depgraph.blocks, block.id = id} := by
  have hsorted := h.sorted
  rw [h.db] at hsorted
  have hfinite : {id | ∃ block ∈ added, block.id = id}.Finite :=
    (finite_toSet (added.map BlockData.id)).subset fun id hid => mem_map.mpr hid
  refine isGreatest_of_lacking hfinite hacyclic ?_ ?_
  · rintro id ⟨block, hblock, rfl⟩
    obtain ⟨hadded, hnew, -, hlinks⟩ := hsorted.blocks block hblock
    refine ⟨⟨block, hadded, rfl⟩, by simp [hnew], ?_⟩
    rintro dep ⟨other, hother, heq, hdep⟩
    rw [hconsistent other hother block hadded heq, ← h.self] at hdep
    exact hsorted.marked dep (hlinks dep hdep)
  · rintro id ⟨block, hblock, rfl⟩ hgiven hnew
    have hmarked : n.depgraph.marked db block.id ≠ true := fun hmarked =>
      (hsorted.marked _ hmarked).elim hgiven hnew
    have hpending : (n.depgraph.pending[block.id]?).isSome := by
      rcases hsorted.handled block hblock with hinbox | hdone
      · rw [hdrained.2] at hinbox
        cases hinbox
      · exact hdone.resolve_left hmarked
    obtain ⟨other, hother⟩ := Option.isSome_iff_exists.mp hpending
    obtain ⟨dep, hdep, hmissing, -⟩ := h.lacking hdrained hother
    refine ⟨dep, ⟨other, hsorted.pending _ other hother, hsorted.ids _ other hother, hdep⟩, ?_, ?_⟩
    · intro hincluded
      rw [Depgraph.marked, hincluded, Bool.or_true] at hmissing
      cases hmissing
    · rintro ⟨included, hincluded, rfl⟩
      cases hmissing.symm.trans (hsorted.blocks included hincluded).2.2.1

/-- Inclusion is complete. From any state enough work drains the queue. Then the
blocks to reference are the largest set of added blocks that the database does not
include and whose links it includes or the set has, each of them once, and every other
block waits for a link that is not included. Only an id that cannot be written down
stops the work. -/
theorem inclusion_complete (wire : Wire β) (db : Database β) (self : Nat) :
    (∀ feeds n, (fresh db self).feedAll wire feeds = .ok n →
      ∃ k, Ensures (n.feedAll wire (replicate k .proceed)) Drained (fun _ => True)) ∧
    ∀ feeds : List (Feed β), Consistent self (Feed.added feeds) →
      (∀ id, ¬ Relation.TransGen (Needs self (Feed.added feeds)) id id) →
      Ensures ((fresh db self).feedAll wire feeds)
        (fun n => n.Drained →
          IsGreatest {s | Supported {id | db.isIncluded id = true}
            {id | ∃ block ∈ Feed.added feeds, block.id = id} (Needs self (Feed.added feeds)) s}
            {id | ∃ block ∈ n.depgraph.blocks, block.id = id} ∧
          n.depgraph.blocks ⊆ Feed.added feeds ∧ (n.depgraph.blocks.map BlockData.id).Nodup ∧
          ∀ (id : BlockID) (block : BlockData β), n.depgraph.pending[id]? = some block →
            block.id = id ∧ ∃ dep ∈ block.links self,
              (n.depgraph.isIncluded db dep).1 = false ∧ id ∈ n.depgraph.awaiting dep)
        (Depgraph.Unwritable (writes self (Feed.added feeds))) := by
  refine ⟨fun feeds n hrun => ?_, fun feeds hconsistent hacyclic => ?_⟩
  · have horderly := ensures_feedAll wire (fun _ => Orderly) (fun _ n f _ h => h.feed f) feeds []
      (fresh db self) (List.Subset.refl _) (orderly_fresh db self)
    exact (horderly.of_ok hrun).exists_drained
  · have hcomplete := ensures_feedAll wire (Complete db self) (Complete.feed hconsistent) feeds []
      (fresh db self) (List.Subset.refl _) (complete_fresh db self)
    rw [nil_append] at hcomplete
    refine hcomplete.mono fun n hn hdrained => ?_
    have hsorted := hn.sorted
    rw [hn.db] at hsorted
    refine ⟨hn.isGreatest hdrained hconsistent hacyclic, fun block hblock => (hsorted.blocks block hblock).1,
      hsorted.nodup, fun id block hblock => ⟨hsorted.ids id block hblock, ?_⟩⟩
    obtain ⟨dep, hdep, hmissing, hregistered⟩ := hn.lacking hdrained hblock
    refine ⟨dep, hdep, ?_, hregistered⟩
    obtain ⟨icache, hanswer, -⟩ := Depgraph.isIncluded_spec db n.depgraph dep
    rw [hanswer]
    exact (hsorted.toCached.included_eq dep).trans hmissing

/-- The block of a node and a round, with the one before it and the references given
by node and round. -/
def plainBlock (node round : Nat) (deps : List (Nat × Nat)) : BlockData (List Nat) :=
  let id := fun (node round : Nat) => (⟨replicate 32 (UInt8.ofNat (16 * node + round)), node, round⟩ : BlockID)
  ⟨deps.map fun dep => id dep.1 dep.2, id node round,
    if round = 1 then BlockID.zero else id node (round - 1), ⟨[], []⟩⟩

/-- Blocks arrive in reverse order, one of them twice, and one builds on a block that
never arrives. -/
def reversed : List (Feed (List Nat)) :=
  [.add (plainBlock 3 1 [(2, 2), (1, 7)]), .add (plainBlock 2 2 []), .proceed, .proceed,
    .add (plainBlock 4 2 [(2, 1)]), .add (plainBlock 2 2 []), .add (plainBlock 2 1 [])] ++
    replicate 12 .proceed

theorem inclusion_reversed :
    ∃ n, (fresh Database.empty 1).feedAll (plainWire [1, 2, 3, 4]) reversed = .ok n ∧ n.Drained ∧
      (n.depgraph.blocks.map fun block => (block.id.node, block.id.round)) = [(2, 1), (2, 2), (3, 1)] ∧
      IsGreatest {s | Supported {id | (Database.empty : Database (List Nat)).isIncluded id = true}
        {id | ∃ block ∈ Feed.added reversed, block.id = id} (Needs 1 (Feed.added reversed)) s}
        {id | ∃ block ∈ n.depgraph.blocks, block.id = id} := by
  have hcheck : succeeds ((fresh Database.empty 1).feedAll (plainWire [1, 2, 3, 4]) reversed) (fun n =>
      (match n.loop with | .waiting => true | .cascading .. => false) && n.depgraph.inbox.isEmpty &&
      (n.depgraph.blocks.map fun block => (block.id.node, block.id.round)) = [(2, 1), (2, 2), (3, 1)]) =
      true := by decide +kernel
  obtain ⟨n, hrun, htest⟩ := exists_of_succeeds hcheck
  simp only [Bool.and_eq_true, List.isEmpty_iff, decide_eq_true_eq] at htest
  have hdrained : n.Drained := by
    refine ⟨?_, htest.1.2⟩
    have hloop := htest.1.1
    split at hloop
    · assumption
    · cases hloop
  have hlinks : ∀ block ∈ Feed.added reversed, ∀ dep ∈ block.links 1,
      10 * dep.node + dep.round < 10 * block.id.node + block.id.round := by decide +kernel
  have hacyclic : ∀ id dep, Relation.TransGen (Needs 1 (Feed.added reversed)) id dep →
      10 * dep.node + dep.round < 10 * id.node + id.round := by
    intro id dep hpath
    induction hpath with
    | single hneeds =>
      obtain ⟨block, hblock, rfl, hdep⟩ := hneeds
      exact hlinks block hblock _ hdep
    | tail _ hneeds ih =>
      obtain ⟨block, hblock, rfl, hdep⟩ := hneeds
      exact (hlinks block hblock _ hdep).trans ih
  have hcomplete := (inclusion_complete (plainWire [1, 2, 3, 4]) Database.empty 1).2 reversed
    (by decide +kernel) (fun id hpath => absurd (hacyclic id id hpath) (lt_irrefl _))
  exact ⟨n, hrun, hdrained, htest.2, (hcomplete.of_ok hrun hdrained).1⟩

end Node

end Blockmania.Broadcast
