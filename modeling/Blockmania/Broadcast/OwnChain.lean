/-
# What the own chain references

The blocks that a node references in its own blocks form one line: those that were
written to the database, those that `genBlocks` has at hand, and those that wait for it.
Whether a block stands in that line is known to the temporary cache, to the cache of
included blocks and to the database, and each of them may have forgotten it. Taken
together they have not, so no block is queued twice, and none before those it builds on.
-/

import Blockmania.Broadcast.Inclusion

namespace Blockmania

/-- The blocks a referenced block has to wait for. -/
def Dep.needs (self : Nat) (dep : Dep) : List BlockID :=
  (if dep.prev.valid then [dep.prev] else []) ++ dep.deps.filter fun id => id.node ≠ self

namespace Broadcast

open Math List FiniteMap

variable {β : Type}

def BlockData.dep (block : BlockData β) : Dep := ⟨block.id, block.deps, block.prev⟩

namespace Node

variable (wire : Wire β)

/-- The hash of the last own block, as its reference has it. -/
def prevhash (n : Node β) : Hash :=
  match n.db.lastRef.bind fun ref => wire.unmarshalReference ref.data with
  | some ref => ref.hash
  | none => []

/-- The graph of the next own block. -/
def ownGraph (n : Node β) (refs : List (BlockData β)) (transactions : Transactions) : BlockGraph :=
  let block := n.ownBlock refs transactions
  { block := (wire.reference (wire.marshalBlock block) block).id
    deps := refs.map BlockData.dep
    prev := if block.round ≠ 1 then
        ⟨n.prevhash wire, n.depgraph.self, u64 (block.round + (2 ^ 64 - 1))⟩
      else BlockID.zero }

/-- The graph that a piece of work writes to the database. -/
def graphOf (n : Node β) : Step β → List BlockGraph
  | .commit transactions =>
    match n.gen with
    | .collected refs => [n.ownGraph wire refs transactions]
    | _ => []
  | _ => []

/-- The graphs of the own blocks that a run writes to the database. -/
def graphs (n : Node β) : List (Step β) → List BlockGraph
  | [] => []
  | s :: steps => n.graphOf wire s ++
    match n.step wire s with
    | .ok n' => graphs n' steps
    | .error _ => []

end Node

/-- Every block comes after those it builds on. -/
def Causal (self : Nat) (line : List Dep) : Prop :=
  ∀ before dep after, line = before ++ dep :: after →
    ∀ id ∈ dep.needs self, id ∈ before.map Dep.block

namespace Causal

variable {self : Nat} {line : List Dep}

theorem nil : Causal self [] := fun before dep after h => by simp at h

theorem of_append {rest : List Dep} (h : Causal self (line ++ rest)) : Causal self line :=
  fun before dep after hsplit => h before dep (after ++ rest) (by simp [hsplit])

theorem concat (h : Causal self line) {dep : Dep}
    (hdep : ∀ id ∈ dep.needs self, id ∈ line.map Dep.block) : Causal self (line ++ [dep]) := by
  intro before dep' after hsplit
  rcases eq_nil_or_concat after with rfl | ⟨after, last, rfl⟩
  · obtain ⟨rfl, hlast⟩ := append_inj' hsplit rfl
    cases hlast
    exact hdep
  · rw [concat_eq_append, ← cons_append, ← append_assoc] at hsplit
    obtain ⟨rfl, -⟩ := append_inj' hsplit rfl
    exact h before dep' after rfl

end Causal

namespace Node

/-- The blocks that are queued but not yet written to the database. -/
def coming (n : Node β) : List (BlockData β) :=
  match n.gen with
  | .collected refs => refs ++ n.depgraph.blocks
  | _ => n.depgraph.blocks

/-- The blocks that were referenced, and those that will be. -/
def line (n : Node β) (past : List Dep) : List Dep := past ++ n.coming.map BlockData.dep

/-- The invariant of a node whose own blocks have referenced `past`. What the caches
and the database say about a block says whether it stands in the line. -/
structure Chained (owner : Nat) (n : Node β) (past : List Dep) : Prop where
  self : n.depgraph.self = owner
  nodup : ((n.line past).map Dep.block).Nodup
  causal : Causal owner (n.line past)
  tcache : ∀ (id : BlockID) (inc : Bool), n.depgraph.tcache[id]? = some inc →
    inc = true ∧ id ∈ (n.line past).map Dep.block
  icache : ∀ (id : BlockID) (inc : Bool), n.depgraph.icache[id]? = some inc →
    (inc = true ↔ id ∈ (n.line past).map Dep.block)
  persisted : ∀ id, n.db.isIncluded id = true ↔ id ∈ past.map Dep.block
  coming : ∀ block ∈ n.coming, n.depgraph.tcache[block.id]? = some true
  stored : ∀ refs, n.gen = .stored refs → ∀ ref ∈ refs, ref.id ∈ past.map Dep.block

theorem chained_start (self : Nat) : (start self : Node β).Chained self [] where
  self := rfl
  nodup := nodup_nil
  causal := .nil
  tcache := fun id inc h => by simp [start, Depgraph.new] at h
  icache := fun id inc h => by simp [start, Depgraph.new] at h
  persisted := fun id => by simp [start, Database.empty, Database.isIncluded]
  coming := fun block h => by simp [start, Depgraph.new, Node.coming] at h
  stored := fun refs h => by simp [start] at h

section Step

variable {wire : Wire β} {self : Nat} {n n' : Node β} {past : List Dep}

/-- A block stands in the line if it was referenced or is in the temporary cache. -/
theorem Chained.mem_line (h : n.Chained self past) {id : BlockID}
    (hid : n.depgraph.tcache[id]? = none) :
    id ∈ (n.line past).map Dep.block ↔ n.db.isIncluded id = true := by
  rw [h.persisted, line, map_append, mem_append]
  refine or_iff_left fun hcoming => ?_
  simp only [map_map, mem_map] at hcoming
  obtain ⟨block, hblock, rfl⟩ := hcoming
  have htemporary := h.coming block hblock
  exact nomatch hid.symm.trans htemporary

/-- What counts as included stands in the line. -/
theorem Chained.included_iff (h : n.Chained self past) (id : BlockID) :
    n.depgraph.included n.db id = true ↔ id ∈ (n.line past).map Dep.block := by
  unfold Depgraph.included
  cases htemporary : n.depgraph.tcache[id]? with
  | some inc =>
    obtain ⟨rfl, hmem⟩ := h.tcache id inc htemporary
    simp [hmem]
  | none =>
    cases hcached : n.depgraph.icache[id]? with
    | some inc => exact h.icache id inc hcached
    | none => exact (h.mem_line htemporary).symm

variable {icache : FiniteMap BlockID Bool} {inbox refs : List (BlockData β)} {loop : Loop}
  {block : BlockData β}

variable (h : n.Chained self past)
include h

/-- Asking does not spoil the cache. -/
theorem Chained.icache_of_asked
    (hasked : Depgraph.Asked n.db n.depgraph icache) (id : BlockID) (inc : Bool)
    (hinc : icache[id]? = some inc) : inc = true ↔ id ∈ (n.line past).map Dep.block := by
  rcases hasked.entries id inc hinc with hbefore | ⟨htemporary, rfl⟩
  · exact h.icache id inc hbefore
  · exact (h.mem_line htemporary).symm

/-- The line stays as it is. -/
theorem Chained.of_line_eq {past' : List Dep}
    (hself : n'.depgraph.self = n.depgraph.self) (hline : n'.line past' = n.line past)
    (htcache : ∀ (id : BlockID) (inc : Bool), n'.depgraph.tcache[id]? = some inc →
      n.depgraph.tcache[id]? = some inc)
    (hicache : ∀ (id : BlockID) (inc : Bool), n'.depgraph.icache[id]? = some inc →
      (inc = true ↔ id ∈ (n.line past).map Dep.block))
    (hpersisted : ∀ id, n'.db.isIncluded id = true ↔ id ∈ past'.map Dep.block)
    (hcoming : ∀ block ∈ n'.coming, n'.depgraph.tcache[block.id]? = some true)
    (hstored : ∀ refs, n'.gen = .stored refs → ∀ ref ∈ refs, ref.id ∈ past'.map Dep.block) :
    n'.Chained self past' where
  self := hself.trans h.self
  nodup := by
    rw [hline]
    exact h.nodup
  causal := by
    rw [hline]
    exact h.causal
  tcache := fun id inc hid => by
    rw [hline]
    exact h.tcache id inc (htcache id inc hid)
  icache := by
    rw [hline]
    exact hicache
  persisted := hpersisted
  coming := hcoming
  stored := hstored

/-- The graph may change in what it keeps of waiting blocks. -/
theorem Chained.congr {await : FiniteMap BlockID (List BlockID)}
    {pending : FiniteMap BlockID (BlockData β)}
    (hicache : ∀ (id : BlockID) (inc : Bool), icache[id]? = some inc →
      (inc = true ↔ id ∈ (n.line past).map Dep.block)) :
    Chained self { n with
      depgraph := { n.depgraph with await, icache, inbox, pending }
      loop } past :=
  h.of_line_eq rfl rfl (fun _ _ h => h) hicache h.persisted h.coming h.stored

/-- A block joins the line that is not in it yet, but all blocks it builds on are. -/
theorem Chained.markIncluded (hicache : ∀ (id : BlockID) (inc : Bool), icache[id]? = some inc →
      (inc = true ↔ id ∈ (n.line past).map Dep.block))
    (hnew : block.id ∉ (n.line past).map Dep.block)
    (hlinks : ∀ dep ∈ block.links self, dep ∈ (n.line past).map Dep.block) :
    Chained self { n with
      depgraph := { { n.depgraph with icache, inbox }.markIncluded block.id with
        blocks := n.depgraph.blocks ++ [block] }
      loop } past := by
  set n' : Node β := { n with
    depgraph := { { n.depgraph with icache, inbox }.markIncluded block.id with
      blocks := n.depgraph.blocks ++ [block] }
    loop }
  have hcoming : n'.coming = n.coming ++ [block] := by
    unfold Node.coming
    cases n.gen <;> simp [n']
  have hline : n'.line past = n.line past ++ [block.dep] := by
    simp [line, hcoming]
  have hmem : ∀ id, id ∈ (n'.line past).map Dep.block ↔
      id ∈ (n.line past).map Dep.block ∨ id = block.id := by
    intro id
    rw [hline, map_append, mem_append, map_singleton, mem_singleton]
    rfl
  refine ⟨h.self, ?_, ?_, fun id inc hid => ?_, fun id inc hid => ?_, h.persisted,
    fun other hother => ?_, h.stored⟩
  · rw [hline, map_append, nodup_append]
    refine ⟨h.nodup, nodup_singleton _, fun a ha b hb heq => hnew ?_⟩
    rw [heq, mem_singleton.mp hb] at ha
    exact ha
  · rw [hline]
    exact h.causal.concat hlinks
  · rw [hmem]
    change (n.depgraph.tcache.insert block.id true)[id]? = some inc at hid
    rw [lookup_insert] at hid
    split at hid
    · rename_i heq
      exact ⟨(Option.some.inj hid).symm, .inr heq.symm⟩
    · exact (h.tcache id inc hid).imp_right .inl
  · rw [hmem]
    change (icache.insert block.id true)[id]? = some inc at hid
    rw [lookup_insert] at hid
    split at hid
    · rename_i heq
      cases hid
      exact ⟨fun _ => .inr heq.symm, fun _ => rfl⟩
    · rename_i hne
      rw [hicache id inc hid]
      exact ⟨.inl, fun hmem => hmem.resolve_right (Ne.symm hne)⟩
  · rw [hcoming] at hother
    change (n.depgraph.tcache.insert block.id true)[other.id]? = some true
    rw [lookup_insert]
    split
    · rfl
    · rename_i hne
      rcases mem_append.mp hother with hother | hother
      · exact h.coming other hother
      · rw [mem_singleton.mp hother] at hne
        exact absurd rfl hne

/-- Processing a block leaves the line as it is, or makes it longer. -/
theorem Chained.processBlock {d : Depgraph β} {inc : Bool}
    (hrun : Depgraph.processBlock n.db { n.depgraph with inbox } block = .ok (d, inc)) (loop : Loop) :
    Chained self { n with depgraph := d, loop } past := by
  obtain ⟨icache, hasked, hcases⟩ := Depgraph.processBlock_cases hrun
  have hicache : ∀ (id : BlockID) (inc : Bool), icache[id]? = some inc →
      (inc = true ↔ id ∈ (n.line past).map Dep.block) :=
    h.icache_of_asked ⟨hasked.answers, hasked.entries⟩
  rcases hcases with ⟨-, -, rfl⟩ | ⟨-, -, deps, -, -, rfl⟩ | ⟨-, hnew, hall, rfl⟩
  · exact h.congr hicache
  · exact h.congr hicache
  · refine h.markIncluded hicache ?_ fun dep hdep => ?_
    · rw [← h.included_iff]
      exact ne_true_of_eq_false hnew
    · rw [← h.included_iff]
      rw [← h.self] at hdep
      exact hall dep hdep

/-- The references of an own block are written to the database. -/
theorem Chained.setOwnBlock (hgen : n.gen = .collected refs)
    (id : BlockID) (signed ref : SignedData β) (produced : List (Block β)) :
    Chained self { n with
      db := n.db.setOwnBlock id signed ref (refs.map BlockData.id)
      gen := .stored refs
      produced } (past ++ refs.map BlockData.dep) := by
  have hids : (refs.map BlockData.dep).map Dep.block = refs.map BlockData.id := by
    rw [map_map]
    rfl
  refine h.of_line_eq rfl ?_ (fun _ _ h => h) h.icache (fun id' => ?_) (fun block hblock => ?_)
    (fun refs' hrefs => ?_)
  · simp [line, Node.coming, hgen]
  · rw [Database.isIncluded_setOwnBlock, Bool.or_eq_true, decide_eq_true_eq, h.persisted,
      map_append, mem_append, hids, or_comm]
  · refine h.coming block ?_
    rw [Node.coming, hgen]
    exact mem_append_right _ hblock
  · cases hrefs
    intro ref href
    rw [map_append, hids]
    exact mem_append_right _ (mem_map_of_mem href)

/-- The temporary cache forgets a block that was written to the database. -/
theorem Chained.actuallyIncluded {ref : BlockData β} (hgen : n.gen = .stored (ref :: refs)) :
    Chained self { n with
      depgraph := n.depgraph.actuallyIncluded ref.id
      gen := .stored refs } past := by
  have hcoming : n.coming = n.depgraph.blocks := by rw [Node.coming, hgen]
  refine h.of_line_eq rfl ?_ (fun id inc hid => ?_) h.icache h.persisted (fun block hblock => ?_)
    (fun refs' hrefs ref' href' => ?_)
  · rw [line, line, hcoming]
    rfl
  · change (n.depgraph.tcache.erase ref.id)[id]? = some inc at hid
    rw [lookup_erase] at hid
    split at hid
    · cases hid
    · exact hid
  · change block ∈ n.depgraph.blocks at hblock
    change (n.depgraph.tcache.erase ref.id)[block.id]? = some true
    rw [← hcoming] at hblock
    rw [lookup_erase, if_neg]
    · exact h.coming block hblock
    · -- no block stands in the line twice
      intro heq
      have hnodup := h.nodup
      rw [line, map_append, nodup_append] at hnodup
      have hpast := h.stored _ hgen ref mem_cons_self
      exact hnodup.2.2 ref.id hpast block.id (mem_map_of_mem (mem_map_of_mem hblock)) heq
  · cases hrefs
    exact h.stored _ hgen ref' (mem_cons_of_mem _ href')

/-- Only what was written to the database stays in the line after a restart. -/
theorem Chained.restart (infos : List (BlockData β)) :
    Chained self { n with
      depgraph := .new n.depgraph.self infos
      loop := .waiting
      gen := .waiting } past := by
  have hnodup := h.nodup
  rw [line, map_append] at hnodup
  have hcausal := h.causal
  rw [line] at hcausal
  have hline : ∀ d : Depgraph β, d.blocks = [] →
      line { n with depgraph := d, loop := .waiting, gen := .waiting } past = past := by
    intro d hd
    simp [line, Node.coming, hd]
  refine ⟨h.self, ?_, ?_, fun id inc hid => ?_, fun id inc hid => ?_, h.persisted,
    fun block hblock => ?_, fun refs hrefs => (nomatch hrefs)⟩
  · rw [hline _ rfl]
    exact (nodup_append.mp hnodup).1
  · rw [hline _ rfl]
    exact hcausal.of_append
  · simp [Depgraph.new] at hid
  · simp [Depgraph.new] at hid
  · simp [Depgraph.new, Node.coming] at hblock

/-- Every piece of work keeps the invariant. -/
theorem Chained.changes {s : Step β} (hchanges : Changes wire n s n') :
    n'.Chained self (past ++ ((n.commits s).getD []).map BlockData.dep) := by
  have hnone : n.commits s = none → past ++ ((n.commits s).getD []).map BlockData.dep = past := by
    intro hcommits
    rw [hcommits]
    exact append_nil past
  cases hchanges with
  | received haccept =>
    rw [hnone rfl]
    refine { h with persisted := fun id => ?_ }
    rw [Database.isIncluded_setBlock]
    exact h.persisted id
  | processed hcommits hnext hinbox hblock hrun =>
    rw [hnone hcommits]
    exact h.processBlock hrun _
  | dropped hcommits hpending hicache =>
    rw [hnone hcommits]
    exact h.congr fun id inc hinc => h.icache id inc (hicache id inc hinc)
  | @collected _ idx hidx hgen =>
    rw [hnone rfl]
    have hcoming : n.coming = n.depgraph.blocks.take idx ++ n.depgraph.blocks.drop idx := by
      rw [Node.coming, hgen, take_append_drop]
    refine h.of_line_eq rfl ?_ (fun _ _ h => h) h.icache h.persisted (fun block hblock => ?_)
      (fun refs hrefs => by cases hrefs)
    · rw [line, line, hcoming]
      rfl
    · exact h.coming block (hcoming ▸ hblock)
  | committed hgen hblock hsigned href =>
    rw [commits, hgen]
    exact h.setOwnBlock hgen _ _ _ _
  | settled hgen =>
    rw [hnone rfl]
    exact h.actuallyIncluded hgen
  | finished hgen =>
    rw [hnone rfl]
    have hcoming : n.coming = n.depgraph.blocks := by rw [Node.coming, hgen]
    refine h.of_line_eq rfl ?_ (fun _ _ h => h) h.icache h.persisted (fun block hblock => ?_)
      (fun refs hrefs => by cases hrefs)
    · rw [line, line, hcoming]
      rfl
    · exact h.coming block (hcoming ▸ hblock)
  | restarted hinfos =>
    rw [hnone rfl]
    exact h.restart _

end Step

/-! ## Runs -/

theorem deps_graphOf (wire : Wire β) (n : Node β) (s : Step β) :
    (n.graphOf wire s).flatMap BlockGraph.deps = ((n.commits s).getD []).map BlockData.dep := by
  cases s with
  | commit transactions =>
    unfold graphOf commits
    cases n.gen <;> simp [ownGraph]
  | _ => rfl

variable {s : Step β}

/-- Writing an own block does not fail. -/
theorem commits_of_error {wire : Wire β} {n : Node β} {fault : Fault}
    (h : n.step wire s = .error fault) : n.commits s = none ∧ n.graphOf wire s = [] := by
  cases s with
  | commit transactions =>
    rw [step] at h
    split at h <;> cases h
  | _ => exact ⟨rfl, rfl⟩

/-- A run makes the line longer, and what was referenced stays at its beginning. -/
theorem Chained.run (wire : Wire β) {self : Nat} (steps : List (Step β)) :
    ∀ {n : Node β} {past : List Dep}, n.Chained self past → ∃ n' : Node β,
      n'.Chained self (past ++ (n.graphs wire steps).flatMap BlockGraph.deps) := by
  induction steps with
  | nil => exact fun {n past} h => ⟨n, by simpa [graphs] using h⟩
  | cons s steps ih =>
    intro n past h
    rw [graphs, flatMap_append, deps_graphOf, ← append_assoc]
    cases hstep : n.step wire s with
    | ok n' => exact ih (h.changes (changes_of_step hstep))
    | error fault =>
      rw [(commits_of_error hstep).1]
      exact ⟨n, by simpa using h⟩

theorem lastRound_of_changes {wire : Wire β} {n n' : Node β} (h : Changes wire n s n')
    (hcommits : n.commits s = none) : n'.db.lastRound = n.db.lastRound := by
  cases h with
  | committed hgen hblock hsigned href =>
    rw [commits, hgen] at hcommits
    cases hcommits
  | received haccept =>
    dsimp only [Database.setBlock]
    split <;> rfl
  | _ => rfl

/-- The last round is that of the own block that was written last. -/
theorem lastRound_of_step {wire : Wire β} {n n' : Node β} (h : n.step wire s = .ok n') :
    n.graphOf wire s = [] ∧ n'.db.lastRound = n.db.lastRound ∨
      ∃ graph, n.graphOf wire s = [graph] ∧ graph.block.round = u64 (n.db.lastRound + 1) ∧
        n'.db.lastRound = u64 (n.db.lastRound + 1) := by
  cases s with
  | commit transactions =>
    unfold step at h
    unfold graphOf
    cases hgen : n.gen with
    | collected refs =>
      simp only [hgen] at h
      cases h
      exact .inr ⟨n.ownGraph wire refs transactions, rfl, rfl, rfl⟩
    | _ =>
      simp only [hgen] at h
      cases h
      exact .inl ⟨rfl, rfl⟩
  | _ => exact .inl ⟨rfl, lastRound_of_changes (changes_of_step h) rfl⟩

/-- The rounds of the own blocks are consecutive, from the last one on. -/
theorem rounds_graphs (wire : Wire β) (steps : List (Step β)) : ∀ n : Node β,
    (n.graphs wire steps).map (fun graph => graph.block.round) =
      (range (n.graphs wire steps).length).map fun i => u64 (n.db.lastRound + i + 1) := by
  induction steps with
  | nil => exact fun n => rfl
  | cons s steps ih =>
    intro n
    rw [graphs]
    cases hstep : n.step wire s with
    | error fault =>
      rw [(commits_of_error hstep).2]
      rfl
    | ok n' =>
      rcases lastRound_of_step hstep with ⟨hgraph, hround⟩ | ⟨graph, hgraph, hblock, hround⟩
      · rw [hgraph, nil_append, ← hround]
        exact ih n'
      · rw [hgraph, singleton_append, map_cons, length_cons, range_succ_eq_map,
          map_cons, map_map, hblock, ih n', hround]
        refine congrArg _ (map_congr_left fun i _ => ?_)
        simp only [u64, Function.comp]
        omega

/-- The own chain references each block once, after those it builds on. However
received blocks, the dependency graph, own blocks and crashes are interleaved, the graphs
that were written to the database have consecutive rounds, no block is referenced twice
in them, and every block comes after the one before it and after those it references,
except the node's own. -/
theorem graphs_causal (wire : Wire β) (self : Nat) (steps : List (Step β)) :
    let graphs := (start self).graphs wire steps
    let deps := graphs.flatMap BlockGraph.deps
    graphs.map (fun graph => graph.block.round) =
        (range graphs.length).map (fun i => u64 (i + 1)) ∧
      (deps.map Dep.block).Nodup ∧
      ∀ before dep after, deps = before ++ dep :: after →
        ∀ id ∈ dep.needs self, id ∈ before.map Dep.block := by
  intro graphs deps
  obtain ⟨n, h⟩ := Chained.run wire steps (chained_start self)
  have hnodup := h.nodup
  have hcausal := h.causal
  rw [line, nil_append] at hnodup hcausal
  rw [map_append, nodup_append] at hnodup
  refine ⟨?_, hnodup.1, hcausal.of_append⟩
  have hrounds := rounds_graphs wire steps (start self)
  simp only [start, Database.empty, Nat.zero_add] at hrounds
  exact hrounds

end Node

end Broadcast

end Blockmania
