/-
# Replaying own blocks

After a restart the own blocks that were not consumed yet are read from the database
and interpreted again. They are read page by page. A page ends after so many blocks,
and the next one begins that many rounds later. The two agree as long as a page begins
at a stored round. Rounds begin at 1, so a replay from 0 shows the last block of the
first page a second time.
-/

import Blockmania.Storage.GraphCodec

namespace Blockmania.Storage

open Math List

/-- The loop of `getBlockGraphs`. -/
def takeGraphs (limit : Nat) : List (Bytes × Bytes) → List BlockGraph → Except ReadError (List BlockGraph)
  | [], blocks => .ok blocks
  | (key, val) :: entries, blocks => do
    let block ← decodeBlockGraph key val
    let blocks := blocks ++ [block]
    if blocks.length = limit then return blocks else takeGraphs limit entries blocks

def getBlockGraphs (db : Badger) (nodeID start limit : Nat) : Except ReadError (List BlockGraph) :=
  takeGraphs limit (db.scan (nodePrefix blockGraphPrefix nodeID ++ encodeNumber start)
    (nodePrefix blockGraphPrefix nodeID)) []

/-- The loop over pages, with what it passes to the graph. There is no result as long as
the loop goes on for more than `fuel` pages. -/
def replayPages (db : Badger) (nodeID batch : Nat) :
    Nat → Nat → Option (Except ReadError (List BlockGraph))
  | 0, _ => none
  | fuel + 1, start =>
    match getBlockGraphs db nodeID start batch with
    | .error e => some (.error e)
    | .ok blocks =>
      if blocks.length < batch then some (.ok blocks)
      else
        match replayPages db nodeID batch fuel (u64 (start + batch)) with
        | some (.ok later) => some (.ok (blocks ++ later))
        | other => other

/-- The second part of `replayGraphChanges`. -/
def replayGraphChanges (db : Badger) (nodeID start fuel : Nat) :
    Option (Except ReadError (List BlockGraph)) :=
  replayPages db nodeID 100 fuel start

/-- `Replay`. -/
def replay (db : Badger) (nodeID batch fuel : Nat) : Option (Except ReadError (List BlockGraph)) :=
  replayPages db nodeID batch fuel 0

/-- The block graphs of a node in the database are those of the rounds 1, 2, … -/
structure HoldsChain (db : Badger) (nodeID : Nat) (graphs : List BlockGraph) : Prop where
  node : ∀ graph ∈ graphs, graph.block.node = nodeID
  round : ∀ (i : Nat) graph, graphs[i]? = some graph → graph.block.round = i + 1
  writable : ∀ graph ∈ graphs, WritableGraph graph
  stored : ∀ key val, db[key]? = some val ∧ nodePrefix blockGraphPrefix nodeID <+: key ↔
    ∃ graph ∈ graphs, key = blockGraphKey graph.block ∧ val = encodeBlockGraph graph

/-- The entry of a block graph. -/
def entry (graph : BlockGraph) : Bytes × Bytes := (blockGraphKey graph.block, encodeBlockGraph graph)

/-- A page begins with the first round that is not smaller. -/
theorem blockGraphKey_lt_iff {id : BlockID} (hid : id.Fits) {start : Nat} (hstart : start < 2 ^ 64) :
    blockGraphKey id < nodePrefix blockGraphPrefix id.node ++ encodeNumber start ↔ id.round < start :=
  key_lt_iff hid hstart

namespace HoldsChain

variable {db : Badger} {nodeID : Nat} {graphs : List BlockGraph}

theorem ordered (h : HoldsChain db nodeID graphs) : Badger.Ordered (graphs.map entry) := by
  rw [Badger.Ordered, pairwise_map, pairwise_iff_getElem]
  intro i j hi hj hij
  have hround := h.round i _ (List.getElem?_eq_getElem hi)
  have hround' := h.round j _ (List.getElem?_eq_getElem hj)
  have hnode := h.node _ (getElem_mem hi)
  have hnode' := h.node _ (getElem_mem hj)
  refine cons_lt_cons_iff.mpr (.inr ⟨rfl, ?_⟩)
  rw [encodeBlockID_lt_iff (h.writable _ (getElem_mem hi)).block
    (h.writable _ (getElem_mem hj)).block]
  exact .inr ⟨hnode.trans hnode'.symm, .inl (by omega)⟩

variable {start : Nat}

/-- The rounds from `start` on. -/
theorem mem_drop_iff (h : HoldsChain db nodeID graphs) {graph : BlockGraph} :
    graph ∈ graphs.drop (start - 1) ↔ graph ∈ graphs ∧ ¬ graph.block.round < start := by
  rw [mem_drop_iff_getElem]
  constructor
  · rintro ⟨i, hi, rfl⟩
    have hround := h.round (start - 1 + i) _ (List.getElem?_eq_getElem (by omega))
    exact ⟨getElem_mem _, by omega⟩
  · rintro ⟨hmem, hround⟩
    obtain ⟨i, hi, rfl⟩ := getElem_of_mem hmem
    have hindex := h.round i _ (List.getElem?_eq_getElem hi)
    exact ⟨i - (start - 1), by omega, by congr 1; omega⟩

/-- The scan of a page visits the rounds from `start` on. -/
theorem scan (h : HoldsChain db nodeID graphs) (hstart : start < 2 ^ 64) :
    db.scan (nodePrefix blockGraphPrefix nodeID ++ encodeNumber start)
        (nodePrefix blockGraphPrefix nodeID) =
      (graphs.drop (start - 1)).map entry := by
  apply Badger.scan_eq (prefix_append _ _)
  · rw [map_drop]
    exact h.ordered.sublist (drop_sublist _ _)
  · intro key val
    rw [← and_assoc, h.stored, mem_map]
    have hfrom : ∀ graph ∈ graphs, blockGraphKey graph.block <
        nodePrefix blockGraphPrefix nodeID ++ encodeNumber start ↔ graph.block.round < start := by
      intro graph hgraph
      rw [← h.node graph hgraph]
      exact blockGraphKey_lt_iff (h.writable graph hgraph).block hstart
    constructor
    · rintro ⟨graph, hgraph, heq⟩
      cases heq
      obtain ⟨hmem, hround⟩ := h.mem_drop_iff.mp hgraph
      exact ⟨⟨graph, hmem, rfl, rfl⟩, (hfrom graph hmem).not.mpr hround⟩
    · rintro ⟨⟨graph, hmem, rfl, rfl⟩, hkey⟩
      exact ⟨graph, h.mem_drop_iff.mpr ⟨hmem, (hfrom graph hmem).not.mp hkey⟩, rfl⟩

variable {limit : Nat}

/-- The loop of a page ends when it is full. -/
theorem takeGraphs_map (hwritable : ∀ graph ∈ graphs, WritableGraph graph)
    (blocks : List BlockGraph) (hblocks : blocks.length < limit) :
    takeGraphs limit (graphs.map entry) blocks =
      .ok (blocks ++ (graphs.take (limit - blocks.length)).map normalGraph) := by
  induction graphs generalizing blocks with
  | nil => rw [map_nil, takeGraphs, take_nil, map_nil, append_nil]
  | cons graph graphs ih =>
    have hdecode := decodeBlockGraph_encode (hwritable graph mem_cons_self)
    obtain ⟨rest, hrest⟩ : ∃ rest, limit - blocks.length = rest + 1 := ⟨limit - blocks.length - 1, by omega⟩
    rw [map_cons, entry, takeGraphs, hdecode, hrest, take_succ_cons, map_cons]
    change (if (blocks ++ [normalGraph graph]).length = limit then _ else _) = _
    rw [length_append, length_singleton]
    split
    · rw [show rest = 0 by omega, take_zero, map_nil]
      rfl
    · rw [ih (fun g hg => hwritable g (mem_cons_of_mem _ hg))
        _ (by rw [length_append, length_singleton]; omega), length_append,
        length_singleton, show limit - (blocks.length + 1) = rest by omega, append_assoc]
      rfl

variable (h : HoldsChain db nodeID graphs)
include h

/-- A page holds the next rounds from `start` on. -/
theorem getBlockGraphs (hstart : start < 2 ^ 64) (hlimit : 1 ≤ limit) :
    getBlockGraphs db nodeID start limit =
      .ok (((graphs.drop (start - 1)).take limit).map normalGraph) := by
  rw [Storage.getBlockGraphs, h.scan hstart,
    takeGraphs_map (fun graph hgraph => h.writable graph (mem_of_mem_drop hgraph)) [] hlimit]
  rfl

/-- Rounds are words. -/
theorem length_lt : graphs.length < 2 ^ 64 := by
  rcases Nat.eq_zero_or_pos graphs.length with hzero | hpos
  · omega
  · have hlast : graphs.length - 1 < graphs.length := by omega
    have hround := h.round _ _ (List.getElem?_eq_getElem hlast)
    have hfits := (h.writable _ (getElem_mem hlast)).block.2
    omega

variable {batch : Nat}

/-- What a step of the loop does. -/
theorem replayPages_succ (hstart : start < 2 ^ 64) (hbatch : 1 ≤ batch) (fuel : Nat) :
    replayPages db nodeID batch (fuel + 1) start =
      if graphs.length - (start - 1) < batch then
        some (.ok ((graphs.drop (start - 1)).map normalGraph))
      else
        match replayPages db nodeID batch fuel (u64 (start + batch)) with
        | some (.ok later) =>
          some (.ok (((graphs.drop (start - 1)).take batch).map normalGraph ++ later))
        | other => other := by
  rw [replayPages, h.getBlockGraphs hstart hbatch]
  dsimp only
  rw [length_map, length_take, length_drop]
  by_cases hshort : graphs.length - (start - 1) < batch
  · rw [if_pos hshort, if_pos (by omega), take_of_length_le (by rw [length_drop]; omega)]
  · rw [if_neg hshort, if_neg (by omega)]

/-- From a stored round on, the pages follow each other, unless the last one ends
with the last word. -/
theorem replayPages_of_pos (hbatch : 1 ≤ batch) :
    ∀ n start : Nat, graphs.length + 1 - start ≤ n → 1 ≤ start → start < 2 ^ 64 →
      ¬ (graphs.length + 1 = 2 ^ 64 ∧ batch ∣ 2 ^ 64 - start) →
      ∃ fuel, replayPages db nodeID batch fuel start =
        some (.ok ((graphs.drop (start - 1)).map normalGraph)) := by
  have hlength := h.length_lt
  intro n
  induction n with
  | zero =>
    intro start hn hpos hstart hwrap
    refine ⟨1, ?_⟩
    rw [h.replayPages_succ hstart hbatch, if_pos (by omega)]
  | succ n ih =>
    intro start hn hpos hstart hwrap
    by_cases hshort : graphs.length - (start - 1) < batch
    · refine ⟨1, ?_⟩
      rw [h.replayPages_succ hstart hbatch, if_pos hshort]
    have hne : start + batch ≠ 2 ^ 64 := by
      intro heq
      exact hwrap ⟨by omega, ⟨1, by omega⟩⟩
    have hnext : u64 (start + batch) = start + batch := Nat.mod_eq_of_lt (by omega)
    obtain ⟨fuel, hfuel⟩ := ih (start + batch) (by omega) (by omega) (by omega) (by
      rintro ⟨hlast, c, hc⟩
      exact hwrap ⟨hlast, c + 1, by rw [Nat.mul_add, Nat.mul_one]; omega⟩)
    refine ⟨fuel + 1, ?_⟩
    rw [h.replayPages_succ hstart hbatch, if_neg hshort, hnext, hfuel]
    dsimp only
    rw [← map_append, show start + batch - 1 = start - 1 + batch by omega, ← drop_drop,
      take_append_drop]

/-- A replay shows at least the blocks from `start` on, and more if its last page ends
with the last word. -/
theorem length_of_replayPages (hbatch : 1 ≤ batch) (hmany : batch ≤ graphs.length) :
    ∀ {fuel start : Nat} {out : List BlockGraph}, start < 2 ^ 64 →
      replayPages db nodeID batch fuel start = some (.ok out) →
      graphs.length - (start - 1) ≤ out.length ∧
        (start = 0 ∨ graphs.length + 1 = 2 ^ 64 ∧ batch ∣ 2 ^ 64 - start →
          graphs.length - (start - 1) < out.length) := by
  have hlength := h.length_lt
  intro fuel
  induction fuel with
  | zero =>
    intro start out hstart hout
    cases hout
  | succ fuel ih =>
    intro start out hstart hout
    rw [h.replayPages_succ hstart hbatch] at hout
    split at hout
    · rename_i hshort
      cases hout
      rw [length_map, length_drop]
      refine ⟨le_rfl, ?_⟩
      rintro (rfl | ⟨hlast, c, hc⟩)
      · omega
      · -- the rounds that are left are a positive multiple of the page size
        have hpos : c ≠ 0 := by
          rintro rfl
          omega
        have hle : batch * 1 ≤ batch * c := Nat.mul_le_mul_left batch (Nat.one_le_iff_ne_zero.mpr hpos)
        omega
    · rename_i hfull
      split at hout
      · rename_i later hlater
        cases hout
        rw [length_append, length_map, length_take, length_drop]
        have hnext : u64 (start + batch) < 2 ^ 64 := Nat.mod_lt _ (by decide)
        obtain ⟨hle, hmore⟩ := ih hnext hlater
        by_cases hwrap : start + batch = 2 ^ 64
        · rw [hwrap, show u64 (2 ^ 64) = 0 from Nat.mod_self _] at hle
          omega
        · rw [show u64 (start + batch) = start + batch from Nat.mod_eq_of_lt (by omega)] at hle hmore
          refine ⟨by omega, ?_⟩
          rintro (rfl | ⟨hlast, hdvd⟩)
          · omega
          · have hdvd' : batch ∣ 2 ^ 64 - (start + batch) := by
              rw [Nat.sub_add_eq]
              exact Nat.dvd_sub hdvd (dvd_refl batch)
            have hmore := hmore (.inr ⟨hlast, hdvd'⟩)
            omega
      · rename_i hnot
        exact absurd hout (hnot _)

theorem filter_eq_drop (start : Nat) :
    graphs.filter (fun graph => start ≤ graph.block.round) = graphs.drop (start - 1) := by
  have hbefore : (graphs.take (start - 1)).filter (fun graph => start ≤ graph.block.round) = [] := by
    rw [filter_eq_nil_iff]
    intro graph hgraph
    obtain ⟨i, hi, rfl⟩ := mem_take_iff_getElem.mp hgraph
    have hround := h.round i _ (List.getElem?_eq_getElem (by omega))
    rw [decide_eq_true_eq]
    omega
  have hfrom : (graphs.drop (start - 1)).filter (fun graph => start ≤ graph.block.round) =
      graphs.drop (start - 1) := by
    rw [filter_eq_self]
    intro graph hgraph
    rw [decide_eq_true_eq]
    exact not_lt.mp (h.mem_drop_iff.mp hgraph).2
  conv_lhs => rw [← take_append_drop (start - 1) graphs]
  rw [filter_append, hbefore, hfrom, nil_append]

/-- When the pages cover the chain. -/
theorem replayPages_iff (start batch : Nat) (hstart : start < 2 ^ 64) (hbatch : 1 ≤ batch) :
    (∃ fuel, replayPages db nodeID batch fuel start =
      some (.ok ((graphs.filter fun graph => start ≤ graph.block.round).map normalGraph))) ↔
    graphs.length < batch ∨ 0 < start ∧ ¬ (graphs.length + 1 = 2 ^ 64 ∧ batch ∣ 2 ^ 64 - start) := by
  rw [h.filter_eq_drop]
  constructor
  · rintro ⟨fuel, hfuel⟩
    by_contra hnot
    rw [not_or, not_and_or, not_not, Nat.not_lt, Nat.not_lt, Nat.le_zero] at hnot
    obtain ⟨-, hmore⟩ := h.length_of_replayPages hbatch hnot.1 hstart hfuel
    have hlt := hmore hnot.2
    rw [length_map, length_drop] at hlt
    exact absurd hlt (lt_irrefl _)
  · rintro (hfew | ⟨hpos, hwrap⟩)
    · refine ⟨1, ?_⟩
      rw [h.replayPages_succ hstart hbatch, if_pos (by omega)]
    · exact h.replayPages_of_pos hbatch _ _ le_rfl hpos hstart hwrap

end HoldsChain

/-- A replay passes every stored block from `start` on once and in order exactly if its
first page is short or begins at a stored round. `Replay` always begins at 0. -/
theorem replay_covers_iff {db : Badger} {nodeID : Nat} {graphs : List BlockGraph}
    (h : HoldsChain db nodeID graphs) (start batch : Nat) (hstart : start < 2 ^ 64)
    (hbatch : 1 ≤ batch) :
    ((∃ fuel, replayGraphChanges db nodeID start fuel =
        some (.ok ((graphs.filter fun graph => start ≤ graph.block.round).map normalGraph))) ↔
      graphs.length < 100 ∨ 0 < start ∧ ¬ (graphs.length + 1 = 2 ^ 64 ∧ 100 ∣ 2 ^ 64 - start)) ∧
    ((∃ fuel, replay db nodeID batch fuel = some (.ok (graphs.map normalGraph))) ↔
      graphs.length < batch) := by
  refine ⟨h.replayPages_iff start 100 hstart (by decide), ?_⟩
  have hall := h.replayPages_iff 0 batch (by decide) hbatch
  simp only [Nat.zero_le, decide_true, filter_true, lt_irrefl, false_and, or_false] at hall
  exact hall

theorem holdsChain_empty (nodeID : Nat) : HoldsChain ∅ nodeID [] where
  node graph hgraph := absurd hgraph not_mem_nil
  round i graph hgraph := by cases hgraph
  writable graph hgraph := absurd hgraph not_mem_nil
  stored key val := by simp

/-- The next own block extends the chain. -/
theorem HoldsChain.insert {db : Badger} {nodeID : Nat} {graphs : List BlockGraph}
    (h : HoldsChain db nodeID graphs) {graph : BlockGraph} (hnode : graph.block.node = nodeID)
    (hround : graph.block.round = graphs.length + 1) (hwritable : WritableGraph graph) :
    HoldsChain (db.insert (blockGraphKey graph.block) (encodeBlockGraph graph)) nodeID
      (graphs ++ [graph]) where
  node graph' hgraph' := by
    rcases mem_append.mp hgraph' with hold | hnew
    · exact h.node _ hold
    · rw [mem_singleton.mp hnew, hnode]
  round i graph' hgraph' := by
    rcases lt_or_ge i graphs.length with hlt | hge
    · exact h.round i _ (List.getElem?_append_left hlt ▸ hgraph')
    · rw [List.getElem?_append_right hge, List.getElem?_singleton] at hgraph'
      split at hgraph'
      · cases hgraph'
        omega
      · cases hgraph'
  writable graph' hgraph' := by
    rcases mem_append.mp hgraph' with hold | hnew
    · exact h.writable _ hold
    · rw [mem_singleton.mp hnew]
      exact hwritable
  stored key val := by
    have hkey : nodePrefix blockGraphPrefix nodeID <+: blockGraphKey graph.block := by
      rw [blockGraphKey, key_eq, hnode]
      exact prefix_append _ _
    -- no earlier block has the round of the new one
    have hnew : ∀ graph' ∈ graphs, blockGraphKey graph.block ≠ blockGraphKey graph'.block := by
      intro graph' hgraph' heq
      obtain ⟨i, hi, rfl⟩ := getElem_of_mem hgraph'
      have hindex := h.round i _ (List.getElem?_eq_getElem hi)
      rw [(encodeBlockID_inj hwritable.block (h.writable _ hgraph').block).mp
        (cons_injective heq)] at hround
      omega
    rw [FiniteMap.lookup_insert]
    constructor
    · rintro ⟨hfound, hpre⟩
      split at hfound
      · rename_i heq
        cases hfound
        exact ⟨graph, mem_concat_self, heq.symm, rfl⟩
      · obtain ⟨graph', hgraph', hentry⟩ := (h.stored key val).mp ⟨hfound, hpre⟩
        exact ⟨graph', mem_append_left _ hgraph', hentry⟩
    · rintro ⟨graph', hgraph', rfl, rfl⟩
      rcases mem_append.mp hgraph' with hold | hlast
      · rw [if_neg (hnew graph' hold)]
        exact (h.stored _ _).mpr ⟨graph', hold, rfl, rfl⟩
      · rw [mem_singleton.mp hlast, if_pos rfl]
        exact ⟨rfl, hkey⟩

/-- A first block of the first node. -/
def firstGraph : BlockGraph := ⟨⟨[5], 1, 1⟩, [], .zero⟩

/-- The database after the first own block. -/
def oneBlock : Badger :=
  (∅ : Badger).insert (blockGraphKey firstGraph.block) (encodeBlockGraph firstGraph)

theorem holdsChain_oneBlock : HoldsChain oneBlock 1 [firstGraph] := by
  refine (holdsChain_empty 1).insert rfl rfl ⟨by decide, fun hvalid => ?_, fun dep hdep => ?_, by decide⟩
  · exact absurd hvalid (by decide)
  · exact absurd hdep not_mem_nil

/-- A second block references a block of the second node. -/
theorem covers_twoBlocks :
    let db := oneBlock.insert (blockGraphKey zeroHashes.block) (encodeBlockGraph zeroHashes)
    (∃ fuel, replayGraphChanges db 1 2 fuel = some (.ok [normalGraph zeroHashes])) ∧
      ∃ fuel, replay db 1 3 fuel = some (.ok [firstGraph, normalGraph zeroHashes]) := by
  obtain ⟨hchanges, hreplay⟩ := replay_covers_iff
    (holdsChain_oneBlock.insert rfl rfl writable_zeroHashes) 2 3 (by decide) (by decide)
  exact ⟨hchanges.mpr (Or.inl (by decide)), hreplay.mpr (by decide)⟩

/-- With pages of one block, the only block is passed twice. -/
theorem replay_twice :
    HoldsChain oneBlock 1 [firstGraph] ∧
      replay oneBlock 1 1 3 = some (.ok [firstGraph, firstGraph]) ∧
      ∀ fuel, replay oneBlock 1 1 fuel ≠ some (.ok [firstGraph]) := by
  have hpages : ∀ start ∈ [0, 1, 2], getBlockGraphs oneBlock 1 start 1 =
      .ok (if start = 2 then [] else [firstGraph]) := by decide +kernel
  have hthird : ∀ fuel, replayPages oneBlock 1 1 (fuel + 1) (u64 (1 + 1)) = some (.ok []) := by
    intro fuel
    rw [replayPages, show u64 (1 + 1) = 2 from rfl, hpages 2 (by decide)]
    rfl
  have hsecond : ∀ fuel, replayPages oneBlock 1 1 (fuel + 2) (u64 (0 + 1)) =
      some (.ok [firstGraph]) := by
    intro fuel
    rw [replayPages, show u64 (0 + 1) = 1 from rfl, hpages 1 (by decide)]
    dsimp only
    rw [if_neg (by decide), hthird]
    rfl
  have hrun : ∀ fuel, replay oneBlock 1 1 (fuel + 3) = some (.ok [firstGraph, firstGraph]) := by
    intro fuel
    rw [replay, replayPages, hpages 0 (by decide)]
    dsimp only
    rw [if_neg (by decide), hsecond]
    rfl
  refine ⟨holdsChain_oneBlock, hrun 0, fun fuel => ?_⟩
  match fuel with
  | 0 => exact fun h => by cases h
  | 1 => exact fun h => absurd h (by decide +kernel)
  | 2 => exact fun h => absurd h (by decide +kernel)
  | fuel + 3 =>
    rw [hrun]
    exact fun h => absurd h (by decide)

end Blockmania.Storage
