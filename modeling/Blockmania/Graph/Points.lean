/-
# Points of a run

A node may be stopped at any point of a run. What the callback was told last says which own
blocks are consumed: whatever came with them builds on nothing past the last report, so a
graph that starts after them has the same to show for later rounds as one that has met them
all, which is nothing. From there on both graphs take the same actions. The older one has
some own blocks left to consume, and then the two have the same round to come.
-/

import Blockmania.Graph.Capacity
import Blockmania.Graph.Prepared
import Blockmania.Graph.Twins

namespace Blockmania

open Math List FiniteMap
open BlockGraph (actions entries)

namespace OwnChain

variable {node first : Nat} {bgs : List BlockGraph} (h : OwnChain node first bgs)

include h

/-- A block comes with one own block only. -/
theorem eq_of_mem_entries {bg bg' : BlockGraph} (hbg : bg ∈ bgs) (hbg' : bg' ∈ bgs) {e e' : Entry}
    (he : e ∈ bg.entries) (he' : e' ∈ bg'.entries) (hblock : e.block = e'.block) : bg = bg' := by
  have hnodup := h.nodup
  rw [map_flatMap, nodup_flatMap] at hnodup
  by_contra hne
  have : Std.Symm (Function.onFun List.Disjoint fun bg : BlockGraph =>
      bg.entries.map Entry.block) :=
    ⟨fun _ _ hapart => hapart.symm⟩
  refine hnodup.2.forall hbg hbg' hne (mem_map_of_mem he) ?_
  rw [hblock]
  exact mem_map_of_mem he'

variable {k : Nat}

theorem round_of_mem_take {bg : BlockGraph} (hbg : bg ∈ bgs.take k) :
    first ≤ bg.block.round ∧ bg.block.round < first + k := by
  obtain ⟨j, hj⟩ := mem_iff_getElem?.mp hbg
  rw [List.getElem?_take] at hj
  split at hj
  · have hround := h.round_eq hj
    omega
  · cases hj

theorem le_round_of_mem_drop {bg : BlockGraph} (hbg : bg ∈ bgs.drop k) :
    first + k ≤ bg.block.round := by
  obtain ⟨j, hj⟩ := mem_iff_getElem?.mp hbg
  rw [List.getElem?_drop] at hj
  have hround := h.round_eq hj
  omega

/-- The own blocks from some round on are the last ones. -/
theorem filter_round (round : Nat) :
    (bgs.filter fun bg => decide (round ≤ bg.block.round)) = bgs.drop (round - first) := by
  conv_lhs => rw [← take_append_drop (round - first) bgs, filter_append]
  rw [filter_eq_nil_iff.mpr fun bg hbg => ?_, filter_eq_self.mpr fun bg hbg => ?_, nil_append]
  · have hround := h.le_round_of_mem_drop hbg
    exact decide_eq_true (by omega)
  · obtain ⟨hstart, hround⟩ := h.round_of_mem_take hbg
    rw [decide_eq_true_eq]
    omega

/-- The own blocks before some round are the first ones. -/
theorem filter_before (round : Nat) :
    (bgs.filter fun bg => decide (bg.block.round < round)) = bgs.take (round - first) := by
  conv_lhs => rw [← take_append_drop (round - first) bgs, filter_append]
  rw [filter_eq_self.mpr fun bg hbg => ?_, filter_eq_nil_iff.mpr fun bg hbg => ?_, append_nil]
  · have hround := h.le_round_of_mem_drop hbg
    rw [decide_eq_true_eq]
    omega
  · obtain ⟨hstart, hround⟩ := h.round_of_mem_take hbg
    exact decide_eq_true (by omega)

/-- The next own block is of the next round. -/
theorem round_of_concat {own : List BlockGraph} {bg : BlockGraph}
    (hbegins : own ++ [bg] <+: bgs) : bg.block.round = first + own.length := by
  obtain ⟨tail, rfl⟩ := hbegins
  exact h.round_eq (by simp)

theorem round_lt_of_concat {own : List BlockGraph} {bg bg' : BlockGraph}
    (hbegins : own ++ [bg] <+: bgs) (hbg' : bg' ∈ own) : bg'.block.round < bg.block.round := by
  have hround := h.round_of_concat hbegins
  obtain ⟨j, hj⟩ := mem_iff_getElem?.mp hbg'
  have hlt := (List.getElem?_eq_some_iff.mp hj).1
  obtain ⟨tail, rfl⟩ := hbegins
  have hself : bg'.block.round = first + j := by
    refine h.round_eq ?_
    rw [append_assoc, List.getElem?_append_left hlt]
    exact hj
  omega

/-- The own blocks that are left after some of them make a chain. -/
theorem drop (hk : k ≤ bgs.length) :
    OwnChain node (first + k) (bgs.drop k) := by
  have hentries : (bgs.drop k).flatMap entries ⊆ bgs.flatMap entries := by
    intro e he
    obtain ⟨bg, hbg, he⟩ := mem_flatMap.mp he
    exact mem_flatMap.mpr ⟨bg, mem_of_mem_drop hbg, he⟩
  have hstart := h.start
  have hfits := h.fits
  have hlength : (bgs.drop k).length = bgs.length - k := length_drop
  refine ⟨by omega, ?_, by omega, h.linked.drop k,
    fun bg hbg => h.own bg (mem_of_mem_drop hbg),
    fun bg hbg => h.foreign bg (mem_of_mem_drop hbg), ?_, fun e he => h.valid e (hentries he),
    fun e he => h.zero e (hentries he)⟩
  · rw [map_drop, h.rounds, hlength, drop_range']
    simp
  · have honce := h.once
    rw [← take_append_drop k bgs, flatMap_append, map_append] at honce
    exact honce.of_append_right

end OwnChain

namespace Graph

section Steps

variable {N first limit : Nat} {base : List (Nat × List BlockID)} {late : BlockGraph → Prop}
  {quiet : BlockID → Prop} {g g' : Graph} {bg : BlockGraph}

/-- Both graphs store a state of the same block. -/
theorem Paired.store (h : Paired N late quiet g g') (b : BlockID) (mem mem' : Memory) :
    Paired N late quiet (g.store b mem) (g'.store b mem') := { h with
  shelved := { h.shelved with }
  shelved' := { h.shelved' with }
  states b' hb' := by
    rw [Graph.store, Graph.store, lookup_insert, lookup_insert]
    split
    · simp
    · exact h.states b' hb' }

theorem Awaits.store (h : Awaits N first limit late quiet g g') (b : BlockID) (mem mem' : Memory) :
    Awaits N first limit late quiet (g.store b mem) (g'.store b mem') :=
  { h with paired := h.paired.store b mem mem' }

theorem Abreast.store (h : Abreast N first base late quiet g g') (b : BlockID) (mem mem' : Memory) :
    Abreast N first base late quiet (g.store b mem) (g'.store b mem') :=
  { h with paired := h.paired.store b mem mem' }

/-- An own block is registered while one of the graphs waits. An early one comes before all
late ones, and with quiet blocks. -/
theorem Awaits.register (h : Awaits N first limit late quiet g g')
    (hentries : ∀ e ∈ bg.entries, quiet e.block → e.block.round ≤ N ∧ ∀ b ∈ e.deps, quiet b)
    (hnodup : (bg.block :: bg.deps.map Dep.block).Nodup)
    (hfresh : ∀ b ∈ bg.block :: bg.deps.map Dep.block, b ∉ g.blocks.flatMap BlockInfo.gone)
    (hfresh' : ∀ b ∈ bg.block :: bg.deps.map Dep.block, b ∉ g'.blocks.flatMap BlockInfo.gone)
    (hearly : ¬ late bg → (∀ b ∈ bg.block :: bg.deps.map Dep.block, quiet b) ∧
      ∀ info ∈ g.blocks, ¬ late info.data) :
    Awaits N first limit late quiet (g.register bg) (g'.register bg) := by
  have hlow' : ∀ b, quiet b → weight N g'.round g'.max[b]? = N := fun b hb =>
    (h.paired.bounds b).symm.trans (h.low b hb)
  refine ⟨h.paired.register hnodup hfresh hfresh' fun hnot => ?_, ?_, ?_, ?_, ?_, h.reach, ?_⟩
  · obtain ⟨hquiet, hbefore⟩ := hearly hnot
    exact ⟨hquiet, hbefore, (register_low hentries hlow').2 (hquiet _ mem_cons_self)⟩
  · rw [register_eq g']
    exact h.waiting
  · rw [register_eq g']
    exact h.idle
  · rw [register_eq g]
    exact h.round
  · rw [register_eq g]
    exact h.count
  · have hround : (g.register bg).round = g.round := by rw [register_eq g]
    rw [hround]
    exact (register_low hentries h.low).1

/-- A late own block is registered in both graphs. -/
theorem Abreast.register (h : Abreast N first base late quiet g g') (hlate : late bg)
    (hnodup : (bg.block :: bg.deps.map Dep.block).Nodup)
    (hfresh : ∀ b ∈ bg.block :: bg.deps.map Dep.block, b ∉ g.blocks.flatMap BlockInfo.gone)
    (hfresh' : ∀ b ∈ bg.block :: bg.deps.map Dep.block, b ∉ g'.blocks.flatMap BlockInfo.gone) :
    Abreast N first base late quiet (g.register bg) (g'.register bg) := by
  obtain ⟨bound, hblocks, -⟩ := register_spec g bg
  refine ⟨h.paired.register hnodup hfresh hfresh' fun hnot => absurd hlate hnot, ?_, ?_, ?_, ?_, ?_⟩
  · rw [register_eq g, register_eq g']
    exact h.level
  · rw [register_eq g]
    exact h.past
  · rw [register_eq g]
    exact h.round
  · intro info hinfo
    rw [hblocks] at hinfo
    rcases mem_append.mp hinfo with hinfo | hinfo
    · exact h.late info hinfo
    · rw [mem_singleton.mp hinfo]
      exact hlate
  · rw [register_eq g, register_eq g']
    exact h.callbacks

end Steps

section Blocks

variable {R first limit : Nat} {base : List (Nat × List BlockID)} {late : BlockGraph → Prop}
  {quiet : BlockID → Prop} {es seen done done' : List Entry} {g g' t : Graph} {e : Entry}

variable (htwins : Twins R quiet es seen g g') (howned : Owned done g) (howned' : Owned done' g')
  (hnext : Next R quiet es seen e)
  (htime : ¬ quiet e.block → g.patience e = g'.patience e ∧ Spares R es g g' e)
include htwins howned howned' hnext htime

/-- A block is interpreted while one of the graphs waits. -/
theorem Awaits.process (h : Awaits (R + 1) first limit late quiet g g')
    (hnow : ¬ Overshoots (R + 1) first limit (g.blocks.map BlockInfo.data) late g)
    (hprocess : g.process e = .ok t)
    (hkept : ¬ Overshoots (R + 1) first limit (g.blocks.map BlockInfo.data) late t) :
    Ensures (g'.process e) (fun t' => Twins R quiet es (seen ++ [e]) t t' ∧
      Awaits (R + 1) first limit late quiet t t') Stumbles := by
  have hrel : AwaitsFrom (R + 1) first limit late quiet g g' g g' := fun _ =>
    ⟨h, List.Subset.refl _, ⟨[], Advances.refl g⟩, ⟨[], Advances.refl g'⟩⟩
  have hround : g'.round = g.round ∨ g.round ≤ g'.round ∧ g'.round = R + 1 :=
    .inr ⟨h.waiting.symm ▸ h.round_le, h.waiting⟩
  refine (twins_process (guides_awaits h.reach g g') (fun hs hlost => ?_)
    (fun _ _ hlost => hlost) htwins
    howned howned' hnext h.paired.params hround htime hrel hnow hprocess hkept).mono ?_
  · obtain ⟨hawaits, -, hfollows, hfollows'⟩ := hs hlost
    exact ⟨hfollows, hfollows', hawaits.paired.states⟩
  · rintro t' ⟨htwins', last, mem, last', mem', rfl, rfl, hlast, hlost⟩
    exact ⟨htwins', (hlast hlost).1.store e.block mem mem'⟩

/-- A block is interpreted in graphs that are abreast. -/
theorem Abreast.process (h : Abreast (R + 1) first base late quiet g g')
    (hprocess : g.process e = .ok t) (hfits : first + t.callbacks.length < 2 ^ 64) :
    Ensures (g'.process e) (fun t' => Twins R quiet es (seen ++ [e]) t t' ∧
      Abreast (R + 1) first base late quiet t t') Stumbles := by
  have hcount := callbacks_process hprocess
  have hrel : AbreastFrom (R + 1) first base late quiet g g' g g' := fun _ =>
    ⟨h, ⟨[], Advances.refl g⟩, ⟨[], Advances.refl g'⟩⟩
  refine (twins_process (guides_abreast g g') (fun hs hlost => ?_) (fun _ _ hlost => hlost) htwins
    howned howned' hnext h.paired.params (.inl h.level) htime hrel (by omega) hprocess
      (by omega)).mono ?_
  · obtain ⟨habreast, hfollows, hfollows'⟩ := hs hlost
    exact ⟨hfollows, hfollows', habreast.paired.states⟩
  · rintro t' ⟨htwins', last, mem, last', mem', rfl, rfl, hlast, hlost⟩
    exact ⟨htwins', (hlast hlost).1.store e.block mem mem'⟩

end Blocks

/-- Rounds are reported one after another from `first` on. -/
structure Counted (first : Nat) (g : Graph) : Prop where
  round : g.round = u64 (first + g.callbacks.length)
  rounds : g.callbacks.map Interpreted.round =
    (range g.callbacks.length).map fun i => u64 (first + i)

theorem Counted.delivers {first : Nat} {g g' : Graph} (h : Counted first g)
    (hdelivers : Delivers g g') :
    Counted first g' := by
  induction hdelivers with
  | refl => exact h
  | observe _ ev ih => exact ⟨ih.round, ih.rounds⟩
  | note _ d ih => exact ⟨ih.round, ih.rounds⟩
  | report _ hashes _ _ hreport ih =>
    have hreports := reports_of_report hreport
    obtain ⟨info, rest, -, k, -, -, hcallbacks, -⟩ := hreports.blocks
    have hlength := congrArg List.length hcallbacks
    rw [length_append, length_singleton] at hlength
    constructor
    · rw [hreports.round, ih.round, hlength, u64_succ, Nat.add_assoc]
    · rw [hlength, hcallbacks, map_append, ih.rounds, range_succ, map_append,
        map_singleton, map_singleton, ih.round]

theorem counted_actAll (p : Params) (lastInterpreted : Nat) (acts : List Action) :
    Ensures (actAll (new p lastInterpreted) acts) (Counted (lastInterpreted + 1))
      (fun _ => True) := by
  refine lasts_actAll (fun _ _ _ h => ⟨h.round, h.rounds⟩) (fun g e h => ?_) ⟨rfl, rfl⟩
  cases hprocess : g.process e with
  | error halt => trivial
  | ok t =>
    obtain ⟨last, mem, hdelivers, rfl⟩ := delivers_of_process hprocess
    exact ⟨(h.delivers hdelivers).round, (h.delivers hdelivers).rounds⟩

/-- The rounds reported are up to the one that comes next, as long as their count has not
wrapped around. -/
theorem Counted.bounds {first : Nat} {g : Graph} (h : Counted first g)
    (hfits : first + g.callbacks.length < 2 ^ 64) :
    ∀ i ∈ g.callbacks, first ≤ i.round ∧ i.round < g.round := by
  intro i hi
  have hround : i.round ∈ g.callbacks.map Interpreted.round := mem_map_of_mem hi
  rw [h.rounds] at hround
  obtain ⟨k, hk, hround⟩ := mem_map.mp hround
  rw [mem_range] at hk
  have hself : u64 (first + k) = first + k := Nat.mod_eq_of_lt (by omega)
  have hnext : u64 (first + g.callbacks.length) = first + g.callbacks.length :=
    Nat.mod_eq_of_lt hfits
  rw [h.round, hnext, ← hround, hself]
  omega

/-- The round reported last is the one before the round that comes next. -/
theorem Counted.last {first : Nat} {g : Graph} (h : Counted first g)
    (hfits : first + g.callbacks.length < 2 ^ 64) {i : Interpreted}
    (hlast : g.callbacks.getLast? = some i) : i.round + 1 = g.round := by
  have hrounds := congrArg List.getLast? h.rounds
  rw [List.getLast?_map, hlast, List.getLast?_map, List.getLast?_range] at hrounds
  have hne : g.callbacks.length ≠ 0 := by
    intro hzero
    rw [length_eq_zero_iff.mp hzero] at hlast
    cases hlast
  rw [if_neg hne] at hrounds
  have hround : i.round = u64 (first + (g.callbacks.length - 1)) := Option.some.inj hrounds
  have hself : u64 (first + (g.callbacks.length - 1)) = first + (g.callbacks.length - 1) :=
    Nat.mod_eq_of_lt (by omega)
  have hnext : u64 (first + g.callbacks.length) = first + g.callbacks.length :=
    Nat.mod_eq_of_lt hfits
  rw [h.round, hnext, hround, hself]
  omega

variable {p : Params} {lastInterpreted node first : Nat} {bgs : List BlockGraph}
  {acts done rest : List Action}

/-- No complete round is left behind by an action. -/
theorem unfinished_actAll : Ensures (actAll (new p lastInterpreted) acts) Unfinished (fun _ => True) := by
  refine lasts_actAll (fun _ _ _ h => h) (fun g e h => ensures_process ?_) ?_
  · exact (host_interpret Unfinished (fun _ _ hg => hg) (fun g d g' hg => unfinished_of_deliver hg)
      g.params g.round g.heap g.statess[e.prev]? e h).weaken fun _ _ => trivial
  · intro hashes hresolved
    simp [new] at hresolved

section Own

variable {node first : Nat} {bgs own : List BlockGraph} {g : Graph} {bg : BlockGraph}

/-- What comes with the next own block is new to the graph. -/
theorem Queued.fresh (h : Queued first own g) (hown : OwnChain node first bgs)
    (hbegins : own ++ [bg] <+: bgs) : (bg.block :: bg.deps.map Dep.block).Nodup ∧
      ∀ b ∈ bg.block :: bg.deps.map Dep.block, b ∉ g.blocks.flatMap BlockInfo.gone := by
  have hnodup : (((own ++ [bg]).flatMap entries).map Entry.block).Nodup := by
    obtain ⟨rest, hrest⟩ := hbegins
    have hall := hown.nodup
    rw [← hrest, flatMap_append, map_append] at hall
    exact hall.of_append_left
  rw [flatMap_append, map_append, nodup_append'] at hnodup
  obtain ⟨-, hnew, hapart⟩ := hnodup
  have hentries : (List.flatMap entries [bg]).map Entry.block =
      bg.deps.map Dep.block ++ [bg.block] := by
    simp [entries, Function.comp_def, Dep.entry, BlockGraph.entry]
  rw [hentries] at hnew hapart
  refine ⟨?_, fun b hb hgone => ?_⟩
  · exact (perm_append_singleton _ _).nodup_iff.mp hnew
  · obtain ⟨info, hinfo, hb'⟩ := mem_flatMap.mp hgone
    obtain ⟨e, he, rfl⟩ := mem_map.mp (mem_entries_of_gone hb')
    refine hapart (mem_map_of_mem (mem_flatMap.mpr ⟨_, h.mem_own hinfo, he⟩)) ?_
    exact (perm_append_singleton _ _).mem_iff.mpr hb

end Own

theorem shelved_new (p : Params) (lastInterpreted : Nat) : (new p lastInterpreted).Shelved :=
  ⟨nodup_nil, by simp [new]⟩

theorem Shelved.delivers {g g' : Graph} (h : g.Shelved) (hdelivers : Delivers g g') :
    g'.Shelved := by
  induction hdelivers with
  | refl => exact h
  | observe _ ev ih => exact ⟨ih.nodup, ih.domain⟩
  | note _ d ih => exact ⟨ih.nodup, ih.domain⟩
  | report _ hashes _ _ hreport ih => exact ih.report hreport

/-- The blocks with a bound are those that came with own blocks in the list, in every run. -/
theorem shelved_actAll (hown : OwnChain node first bgs)
    (hsplit : bgs.flatMap actions = done ++ rest) :
    Ensures (actAll (new p lastInterpreted) done) Shelved (fun _ => True) := by
  apply holds_actAll fun _ => Shelved
  · intro before bg after g hbefore hrun h
    have hacts := split_of_begins hsplit hbefore
    have hqueued := (queued_actAll hown hacts).of_ok hrun
    obtain ⟨hnodup, hfresh⟩ := hqueued.fresh hown (added_concat_begins hacts)
    exact h.register hnodup hfresh
  · intro before e after g t _ _ h hprocess
    obtain ⟨last, mem, hdelivers, rfl⟩ := delivers_of_process hprocess
    exact ⟨(h.delivers hdelivers).nodup, (h.delivers hdelivers).domain⟩
  · exact shelved_new p lastInterpreted

/-- Nothing is kept for a consumed block. After each own block, whoever forks, the blocks
with a bound are the own blocks that are left and those they reference, each of them once. -/
theorem bounds_of_left (hown : OwnChain node first bgs) (done rest : List BlockGraph) (g : Graph)
    (hbgs : bgs = done ++ rest) (hrun : addAll (new p lastInterpreted) done = .ok g) :
    (∀ b : BlockID, (g.max[b]?).isSome ↔
      ∃ info ∈ g.blocks, b = info.data.block ∨ ∃ dep ∈ info.data.deps, b = dep.block) ∧
      g.max.size = (g.blocks.map fun info => info.data.deps.length + 1).sum := by
  rw [addAll_eq_actAll] at hrun
  have hsplit : bgs.flatMap actions =
      done.flatMap actions ++ rest.flatMap actions := by
    rw [hbgs, flatMap_append]
  have h := (shelved_actAll hown hsplit).of_ok hrun
  constructor
  · intro b
    rw [h.domain, mem_flatMap]
    simp only [BlockInfo.gone, mem_cons, mem_map, eq_comm]
  · have hdomain : g.max.domain = (g.blocks.flatMap BlockInfo.gone).toFinset := by
      ext b
      rw [mem_domain, mem_toFinset, h.domain]
    rw [size_eq_card_domain, hdomain, toFinset_card_of_nodup h.nodup, length_flatMap]
    simp [BlockInfo.gone]

/-- Four nodes in lockstep: the first own block is consumed, and three times four blocks are
left. -/
theorem bounds_of_left_lockstep : ∃ g, addAll (new .four 0) lockstep = .ok g ∧ g.max.size = 12 := by
  have hcheck : succeeds (addAll (new .four 0) lockstep) (fun g =>
      decide ((g.blocks.map fun info => info.data.deps.length + 1).sum = 12)) = true := by
    decide +kernel
  obtain ⟨g, hrun, hsum⟩ := exists_of_succeeds hcheck
  have hown : OwnChain 1 1 lockstep := by constructor <;> decide +kernel
  obtain ⟨-, hsize⟩ := bounds_of_left hown lockstep [] g (append_nil _).symm hrun
  exact ⟨g, hrun, hsize.trans (of_decide_eq_true hsum)⟩

theorem registered_eq_added (acts : List Action) :
    registered acts = (added acts).flatMap entries := by
  induction acts with
  | nil => rfl
  | cons a acts ih =>
    cases a with
    | register bg =>
      change bg.entries ++ registered acts = bg.entries ++ (added acts).flatMap entries
      rw [ih]
    | process e => exact ih

/-- A block builds on nothing of a round past `R`. -/
def Quiet (R : Nat) (es : List Entry) (b : BlockID) : Prop := ¬ Reaches es (R + 1) b

/-- A quiet block builds on quiet blocks. -/
theorem Quiet.deps {R : Nat} {es : List Entry} {e : Entry} (he : e ∈ es) (h : Quiet R es e.block) :
    e.block.round ≤ R ∧ ∀ b ∈ e.deps, Quiet R es b := by
  refine ⟨?_, fun b hb hreaches => h (Reaches.dep he hb hreaches)⟩
  by_contra hlarge
  exact h (Reaches.here he (not_le.mp hlarge))

/-- An own block of a round past those consumed. -/
def Late (i : Interpreted) (bg : BlockGraph) : Prop := i.consumed < bg.block.round

/-- A point of a run over own blocks in a causal order: some actions are taken, and `i` is
what the callback was told last. -/
structure Point (p : Params) (lastInterpreted node first : Nat) (bgs : List BlockGraph)
    (done rest : List Action) (mid : Graph) (i : Interpreted) : Prop where
  own : OwnChain node first bgs
  causal : Causal p.peers (bgs.flatMap entries)
  split : bgs.flatMap actions = done ++ rest
  run : actAll (new p lastInterpreted) done = .ok mid
  last : mid.callbacks.getLast? = some i
  fits : lastInterpreted + 1 + mid.callbacks.length < 2 ^ 64

namespace Point

variable {mid : Graph} {i : Interpreted}
  (h : Point p lastInterpreted node first bgs done rest mid i)

include h

/-- The round that comes next is the one after the last report. -/
theorem round :
    mid.round = i.round + 1 ∧ lastInterpreted + 1 + mid.callbacks.length = i.round + 1 := by
  have hcounted := (counted_actAll p lastInterpreted done).of_ok h.run
  have hnext := hcounted.last h.fits h.last
  refine ⟨hnext.symm, ?_⟩
  rw [hnext, hcounted.round]
  exact (Nat.mod_eq_of_lt h.fits).symm

/-- As many own blocks are consumed as the last report says, all of them registered. -/
theorem consumed :
    ∃ n ≤ (added done).length, i.consumed + 1 = first + n ∧
      mid.blocks.map BlockInfo.data = (added done).drop n := by
  obtain ⟨n, hn, hdata, hcount⟩ := ((queued_actAll h.own h.split).of_ok h.run).suffix
  exact ⟨n, hn, hcount i h.last, hdata⟩

/-- What came with a consumed own block is quiet: a graph keeps the bounds of the blocks
that reach the round to be delivered next. -/
theorem quiet_of_consumed {bg : BlockGraph} (hbg : bg ∈ bgs)
    (hle : bg.block.round ≤ i.consumed) {e : Entry} (he : e ∈ bg.entries) :
    Quiet i.round (bgs.flatMap entries) e.block := by
  intro hreaches
  obtain ⟨n, hn, hcount, -⟩ := h.consumed
  have hbegins := added_prefix h.split
  have hadded : bg ∈ added done := by
    obtain ⟨j, hj⟩ := mem_iff_getElem?.mp hbg
    have hround := h.own.round_eq hj
    obtain ⟨tail, htail⟩ := hbegins
    rw [← htail, List.getElem?_append_left (by omega)] at hj
    exact mem_of_getElem? hj
  have hregistered : e ∈ registered done := by
    rw [registered_eq_added]
    exact mem_flatMap.mpr ⟨bg, hadded, he⟩
  have hremembers := (remembers_actAll h.causal h.round.2.le h.split).of_ok h.run le_rfl
  obtain ⟨m, hm, -⟩ := hremembers.bounds e hregistered hreaches
  have hshelved := (shelved_actAll h.own h.split).of_ok h.run
  have hqueued := (queued_actAll h.own h.split).of_ok h.run
  obtain ⟨info, hinfo, hgone⟩ :=
    mem_flatMap.mp ((hshelved.domain e.block).mp (by rw [hm]; rfl))
  obtain ⟨e', he', hblock⟩ := mem_map.mp (mem_entries_of_gone hgone)
  have hdata := hbegins.subset (hqueued.mem_own hinfo)
  obtain rfl := h.own.eq_of_mem_entries hdata hbg he' he hblock
  have hleft := (hqueued.mem_data_iff h.own hbegins h.last hadded).mp (mem_map_of_mem hinfo)
  omega

/-- The own blocks before the last consumed one have been interpreted. -/
theorem earlier_begins {old again : List BlockGraph} (hbgs : bgs = old ++ again)
    (hold : old.length = i.consumed - first) : old.flatMap actions <+: done := by
  have hacts : old.flatMap actions <+: bgs.flatMap actions := by
    rw [hbgs, flatMap_append]
    exact prefix_append _ _
  rw [h.split] at hacts
  rcases prefix_or_prefix_of_prefix hacts (prefix_append done rest) with hfirst | hfirst
  · exact hfirst
  · obtain ⟨n, hn, hcount, -⟩ := h.consumed
    have hlength : (added done).length ≤ old.length := by
      obtain ⟨tail, htail⟩ := hfirst
      have hadded := congrArg (fun acts => (added acts).length) htail
      simp only [added_append, length_append, added_actions] at hadded
      omega
    have hnone : old = [] := length_eq_zero_iff.mp (by omega)
    rw [hnone]
    exact nil_prefix

end Point

/-! ## Up to the own blocks that are replayed -/

/-- A block of a causal order, where no node forks. -/
theorem next_of_causal {peers : List Nat} {es seen later : List Entry} {e : Entry} (R : Nat)
    (hcausal : Causal peers es) (hone : ∀ x, OneChain es x) (hsplit : es = seen ++ e :: later) :
    Next R (Quiet R es) es seen e := by
  have he : e ∈ es := by simp [hsplit]
  have hwf := hcausal.wellFormed e he
  have htip := tip_eq_prev hcausal (hone e.block.node) hsplit rfl
  refine ⟨he, fun hvalid => ?_, fun hquiet => ?_⟩
  · obtain ⟨-, hnode, hround, -⟩ := hwf.of_prev hvalid
    rw [if_pos hvalid] at htip
    exact ⟨hnode ▸ htip, hnode, hround⟩
  · obtain ⟨hround, hdeps⟩ := hquiet.deps he
    exact ⟨hround, hdeps, fun hvalid => hdeps _ (hwf.of_prev hvalid).2.2.2⟩

/-- A graph has met nothing of a round past `R`. -/
structure Unaware (R : Nat) (es seen : List Entry) (g : Graph) : Prop where
  modest : Modest R (Quiet R es) seen g
  known : ∀ key : NodeRound, R < key.round → g.known key = none
  bounds : ∀ b : BlockID, weight (R + 1) g.round g.max[b]? = R + 1
  states : ∀ (b : BlockID) (s : State), g.statess[b]? = some s → Quiet R es b

/-- Deliveries forget bounds and give none. -/
theorem max_of_delivers {g g' : Graph} (h : Delivers g g') (b : BlockID) :
    g'.max[b]? = g.max[b]? ∨ g'.max[b]? = none := by
  induction h with
  | refl => exact .inl rfl
  | observe _ ev ih => exact ih
  | note _ d ih => exact ih
  | report _ hashes _ _ hreport ih =>
    rcases (reports_of_report hreport).lookup b with ⟨hsame, -⟩ | ⟨hgone, -⟩
    · rw [hsame]
      exact ih
    · exact .inr hgone

section Unaware

variable {R : Nat} {es seen done : List Entry} {g t : Graph} {e : Entry} {bg : BlockGraph}

/-- Registering an own block with quiet blocks. -/
theorem Unaware.register (h : Unaware R es seen g)
    (hentries : ∀ e ∈ bg.entries, e.block.round ≤ R) : Unaware R es seen (g.register bg) := by
  have hlow := (@register_low (R + 1) (fun _ => True) g bg
    (fun e he _ => ⟨(hentries e he).trans (Nat.le_succ R), fun _ _ => trivial⟩)
      fun b _ => h.bounds b).1
  rw [register_eq] at hlow ⊢
  exact ⟨⟨h.modest.out, h.modest.within⟩, h.known, fun b => hlow b trivial, h.states⟩

/-- Interpreting a quiet block. -/
theorem Unaware.process (h : Unaware R es seen g) (hnext : Next R (Quiet R es) es seen e)
    (hquiet : Quiet R es e.block) (howned : Owned done g) (hprocess : g.process e = .ok t)
    (hround : t.round ≤ R + 1) : Unaware R es (seen ++ [e]) t := by
  obtain ⟨hle, hdeps, hprev⟩ := hnext.quiet hquiet
  obtain ⟨last, mem, hrun, rfl⟩ := process_eq_ok hprocess
  have hdelivers := (delivers_interpret _ _ _ _ _ _).of_ok hrun
  have hmet : Ensures (interpret host g.params g.round g.heap g.statess[e.prev]? g e)
      (fun r => (∀ key : NodeRound, R < key.round → r.1.known key = none) ∧ r.2.Within R ∧
        r.2.state.Says R) (fun _ => True) := by
    apply ensures_within (fun s => ∀ key : NodeRound, R < key.round → s.known key = none) hle
      (h.modest.opened fun hvalid => ⟨hprev hvalid, (hnext.prev hvalid).1⟩)
      (fun dep hdep s => h.modest.out dep s (hdeps dep hdep)) h.known (fun _ _ hs => hs)
    · intro s d hs hd
      cases hdeliver : deliver s d with
      | error crash => trivial
      | ok s' =>
        intro key hkey
        rw [← Option.not_isSome_iff_eq_none]
        intro hsome
        obtain ⟨hash, hash'⟩ := Option.isSome_iff_exists.mp hsome
        rcases known_of_deliver hdeliver hash' with hknown | rfl
        · rw [hs key hkey] at hknown
          cases hknown
        · exact absurd hkey (not_lt.mpr hd)
    · exact fun _ _ _ _ _ _ => trivial
  obtain ⟨hknown, hmem⟩ := hmet.of_ok hrun
  refine ⟨h.modest.store howned (fun hvalid => (hnext.prev hvalid).2.1) hdelivers.follows hprocess
    fun _ => hmem, hknown, fun b => ?_, fun b s hs => ?_⟩
  · have hbefore := h.bounds b
    change weight (R + 1) last.round last.max[b]? = R + 1
    replace hround : last.round ≤ R + 1 := hround
    unfold weight at hbefore ⊢
    rcases max_of_delivers hdelivers b with hsame | hgone
    · rw [hsame]
      cases hmax : g.max[b]? with
      | none => simpa using hround
      | some m =>
        rw [hmax] at hbefore
        exact hbefore
    · rw [hgone]
      simpa using hround
  · rcases store_cases hdelivers.follows hs with ⟨rfl, -⟩ | ⟨-, hbefore⟩
    · exact hquiet
    · exact h.states b s hbefore

end Unaware

/-- A run reports rounds and takes none back. -/
theorem callbacks_le_of_actAll {g g' : Graph} (hrun : actAll g acts = .ok g') :
    g.callbacks.length ≤ g'.callbacks.length := by
  have hcount : Ensures (actAll g acts) (fun t => g.callbacks.length ≤ t.callbacks.length)
      (fun _ => True) := by
    refine lasts_actAll (fun _ _ _ h => h) (fun t e h => ?_) le_rfl
    cases hprocess : t.process e with
    | error halt => trivial
    | ok next => exact h.trans (callbacks_process hprocess)
  exact hcount.of_ok hrun

/-- Once a graph has gone too far it stays so. -/
theorem Overshoots.actAll {N limit : Nat} {late : BlockGraph → Prop} (hreach : first + limit = N)
    {g g' : Graph} (h : Overshoots N first limit [] late g) (hrun : Graph.actAll g acts = .ok g') :
    Overshoots N first limit [] late g' := by
  have hlasts : host.Lasts (Overshoots N first limit [] late) := overshoots_lasts hreach
  have hover : Ensures (Graph.actAll g acts) (Overshoots N first limit [] late)
    (fun _ => True) := by
    refine lasts_actAll (fun _ _ _ h => h.imp_right fun h => h.imp_right nofun)
      (fun t e h => ensures_process ?_) h
    exact (host_interpret (Overshoots N first limit [] late)
      (fun _ ev hg => hlasts.observe ev hg) (fun _ _ _ hg hdeliver => hlasts.deliver hg hdeliver)
      t.params t.round t.heap t.statess[e.prev]? e h).weaken fun _ _ => trivial
  exact hover.of_ok hrun

theorem blocks_of_delivers {g g' : Graph} (h : Delivers g g') : g'.blocks ⊆ g.blocks := by
  induction h with
  | refl => exact List.Subset.refl _
  | observe _ ev ih => exact ih
  | note _ d ih => exact ih
  | report _ hashes _ _ hreport ih =>
    obtain ⟨_, _, -, k, -, hdrop, -⟩ := (reports_of_report hreport).blocks
    rw [hdrop]
    exact List.Subset.trans (drop_subset k _) ih

/-- The own blocks in the list were there before or are added. -/
theorem blocks_of_actAll {g g' : Graph} (hrun : actAll g acts = .ok g') :
    ∀ bg ∈ g'.blocks.map BlockInfo.data, bg ∈ g.blocks.map BlockInfo.data ∨ bg ∈ added acts := by
  have hblocks : Ensures (actAll g acts) (fun t => ∀ bg ∈ t.blocks.map BlockInfo.data,
      bg ∈ g.blocks.map BlockInfo.data ∨ bg ∈ added acts) (fun _ => True) := by
    apply holds_actAll fun done t => ∀ bg ∈ t.blocks.map BlockInfo.data,
      bg ∈ g.blocks.map BlockInfo.data ∨ bg ∈ added done
    · intro done own rest t _ _ h bg hbg
      rw [added_append]
      obtain ⟨bound, hregister, -⟩ := register_spec t own
      rw [hregister, map_append, mem_append] at hbg
      rcases hbg with hold | hnew
      · exact (h bg hold).imp_right (mem_append_left _)
      · exact .inr (mem_append_right _ hnew)
    · intro done e rest t t' _ _ h hprocess bg hbg
      rw [added_append]
      obtain ⟨last, mem, hdelivers, rfl⟩ := delivers_of_process hprocess
      have hheld := map_subset BlockInfo.data (blocks_of_delivers hdelivers) hbg
      exact (h bg hheld).imp_right (mem_append_left _)
    · exact fun bg hbg => .inl hbg
  exact hblocks.of_ok hrun

namespace Point

variable {mid : Graph} {i : Interpreted}
  (h : Point p lastInterpreted node first bgs done rest mid i)

include h

/-- Before the point, no more rounds were reported. -/
theorem before {g : Graph} (hacts : acts <+: done)
    (hrun : actAll (new p lastInterpreted) acts = .ok g) :
    (∃ later, done = acts ++ later ∧ actAll g later = .ok mid) ∧
      g.callbacks.length ≤ mid.callbacks.length ∧ g.round ≤ i.round + 1 ∧
      g.round = u64 (lastInterpreted + 1 + g.callbacks.length) := by
  obtain ⟨later, rfl⟩ := hacts
  have hdone := h.run
  rw [actAll_append, hrun] at hdone
  have hcount := callbacks_le_of_actAll hdone
  have hround := (round_actAll p lastInterpreted acts).of_ok hrun
  refine ⟨⟨later, rfl, hdone⟩, hcount, ?_, hround⟩
  have hmod : u64 (lastInterpreted + 1 + g.callbacks.length) ≤
    lastInterpreted + 1 + g.callbacks.length := Nat.mod_le _ _
  have hreach := h.round.2
  omega

/-- There are peers, since a round was reported. -/
theorem peers_ne_nil :
    p.peers ≠ [] := by
  intro hpeers
  have hnone : bgs = [] := by
    rw [eq_nil_iff_forall_not_mem]
    intro bg hbg
    have he : bg.entry ∈ bgs.flatMap entries :=
      mem_flatMap.mpr ⟨bg, hbg, by simp [entries]⟩
    have hnode := (h.causal.wellFormed _ he).node
    rw [hpeers] at hnode
    cases hnode
  have hdone : done = [] := by
    have hsplit := h.split
    rw [hnone, flatMap_nil] at hsplit
    exact (append_eq_nil_iff.mp hsplit.symm).1
  have hrun := h.run
  rw [hdone] at hrun
  have hlast := h.last
  rw [← Except.ok.inj hrun] at hlast
  cases hlast

section Old

variable {old again : List BlockGraph} (hbgs : bgs = old ++ again)
  (hold : old.length = i.consumed - first)

include hbgs hold

/-- An own block before the last consumed one. -/
theorem consumed_of_mem {bg : BlockGraph} (hbg : bg ∈ old) :
    bg ∈ bgs ∧ bg.block.round ≤ i.consumed := by
  obtain ⟨j, hj⟩ := mem_iff_getElem?.mp hbg
  obtain ⟨hlt, -⟩ := List.getElem?_eq_some_iff.mp hj
  have hround := h.own.round_eq (show bgs[j]? = some bg by
    rw [hbgs, List.getElem?_append_left hlt]
    exact hj)
  exact ⟨hbgs ▸ mem_append_left _ hbg, by omega⟩

/-- The graph has met nothing past the last report before the own blocks that are
replayed. -/
theorem unaware (hone : ∀ x, OneChain (bgs.flatMap entries) x) :
    Ensures (actAll (new p lastInterpreted) (old.flatMap actions))
      (Unaware i.round (bgs.flatMap entries) (old.flatMap entries))
      (fun _ => True) := by
  have hquiet : ∀ e ∈ old.flatMap entries,
      Quiet i.round (bgs.flatMap entries) e.block := by
    intro e he
    obtain ⟨bg, hbg, he⟩ := mem_flatMap.mp he
    obtain ⟨hmem, hle⟩ := h.consumed_of_mem hbgs hold hbg
    exact h.quiet_of_consumed hmem hle he
  have hbegins : old.flatMap entries <+: bgs.flatMap entries := by
    rw [hbgs, flatMap_append]
    exact prefix_append _ _
  have hearlier := h.earlier_begins hbgs hold
  generalize hacts : old.flatMap actions = acts at hearlier ⊢
  have hinterpreted : interpreted acts = old.flatMap entries := by
    rw [← hacts, interpreted_actions]
  rw [← hinterpreted] at hquiet hbegins ⊢
  have hwf : ∀ e ∈ interpreted acts, e.WellFormed p.peers := fun e he =>
    h.causal.wellFormed e (hbegins.subset he)
  apply holds_actAll fun done g => Unaware i.round (bgs.flatMap entries)
    (interpreted done) g
  · intro before bg after g hsplit _ hg
    rw [interpreted_register]
    refine hg.register fun e he => ?_
    have hmem : e ∈ interpreted acts := by
      rw [hinterpreted, ← added_actions old, hacts]
      refine mem_flatMap.mpr ⟨bg, ?_, he⟩
      simp [hsplit, added]
    exact ((hquiet e hmem).deps (hbegins.subset hmem)).1
  · intro before e after g t hsplit hrun hg hprocess
    rw [interpreted_process]
    have hentries := interpreted_split hsplit
    obtain ⟨later, hlater⟩ := hbegins
    have hsplit' : bgs.flatMap entries =
        interpreted before ++ e :: (interpreted after ++ later) := by
      rw [← hlater, hentries, append_assoc, cons_append]
    have howned := (owned_actAll fun e' he' => hwf e' (by simp [hentries, he'])).of_ok hrun
    have hnow : before ++ [.process e] <+: done :=
      List.IsPrefix.trans ⟨after, by rw [hsplit, append_assoc]; rfl⟩ hearlier
    exact hg.process (next_of_causal _ h.causal hone hsplit') (hquiet e (by simp [hentries])) howned
      hprocess (h.before hnow (actAll_process hrun hprocess)).2.2.1
  · refine ⟨⟨?_, ?_⟩, ?_, ?_, ?_⟩
    · intro b s _ hs
      simp [new] at hs
    · intro b s _ _ hs
      simp [new] at hs
    · intro key _
      simp [new, known]
    · intro b
      have hstart := (h.before nil_prefix rfl).2.2.1
      simpa [new, weight] using hstart
    · intro b s hs
      simp [new] at hs

/-- The new graph and the one before the own blocks that are replayed have the same to
show for the rounds past the last report: nothing. -/
theorem awaits_new (hone : ∀ x, OneChain (bgs.flatMap entries) x) {g : Graph}
    (hrun : actAll (new p lastInterpreted) (old.flatMap actions) = .ok g) :
    Awaits (i.round + 1) (lastInterpreted + 1) mid.callbacks.length (Late i)
        (Quiet i.round (bgs.flatMap entries)) g (new p i.round) ∧
      Twins i.round (Quiet i.round (bgs.flatMap entries))
        (bgs.flatMap entries) (old.flatMap entries) g (new p i.round) := by
  have hunaware := (h.unaware hbgs hold hone).of_ok hrun
  have hparams := (params_actAll p lastInterpreted _).of_ok hrun
  obtain ⟨-, hcount, -, hround⟩ := h.before (h.earlier_begins hbgs hold) hrun
  have hsplit : bgs.flatMap actions =
      old.flatMap actions ++ again.flatMap actions := by
    rw [hbgs, flatMap_append]
  have hqueued := (queued_actAll h.own hsplit).of_ok hrun
  have hshelved := (shelved_actAll h.own hsplit).of_ok hrun
  have hreach := h.round.2
  have hfits := h.fits
  have hwaiting : (new p i.round).round = i.round + 1 := Nat.mod_eq_of_lt (by omega)
  have hnew : ∀ b : BlockID, (new p i.round).statess[b]? = none := fun b => by simp [new]
  have hheld : ∀ info ∈ g.blocks, info.data ∈ bgs ∧ info.data.block.round ≤ i.consumed := by
    intro info hinfo
    have hmem := hqueued.mem_own hinfo
    rw [added_actions] at hmem
    exact h.consumed_of_mem hbgs hold hmem
  refine ⟨⟨⟨?_, ?_, ?_, ?_, hshelved, shelved_new p i.round, ?_, ?_⟩, hwaiting, rfl, hround, hcount,
    hreach, fun b _ => hunaware.bounds b⟩, ?_⟩
  · exact hparams.symm
  · rw [hparams]
    exact h.peers_ne_nil
  · intro key hkey
    rw [hunaware.known key hkey]
    simp [new, known]
  · refine ⟨g.blocks, [], [], [], (append_nil _).symm, rfl, fun info hinfo => ?_, forall_mem_nil _,
      forall_mem_nil _, .nil⟩
    rw [append_nil] at hinfo
    obtain ⟨hmem, hle⟩ := hheld info hinfo
    refine ⟨not_lt.mpr hle, fun b hb => ?_⟩
    obtain ⟨e, he, rfl⟩ := mem_map.mp (mem_entries_of_gone hb)
    exact h.quiet_of_consumed hmem hle he
  · intro b
    rw [hunaware.bounds b, hwaiting]
    simp [new, weight]
  · intro b hb
    rw [hnew b]
    refine iff_of_false (fun hsome => ?_) (by simp)
    obtain ⟨s, hs⟩ := Option.isSome_iff_exists.mp hsome
    exact hb (hunaware.states b s hs)
  · refine ⟨hunaware.modest, ⟨fun b s _ hs => ?_, fun b s _ _ hs => ?_⟩, fun b s s' _ _ hs' => ?_,
      fun b s s' _ _ _ hs' => ?_, fun b s s' _ _ _ hs' => ?_⟩
    · cases (hnew b).symm.trans hs
    · cases (hnew b).symm.trans hs
    · cases (hnew b).symm.trans hs'
    · cases (hnew b).symm.trans hs'
    · cases (hnew b).symm.trans hs'

end Old

/-- There are at most as many values for a round as there are peers. -/
theorem size_le {round : Nat}
    {hashes : FiniteMap Nat Hash} (hresolved : mid.resolved[round]? = some hashes) :
    hashes.size ≤ p.peerCount := by
  have hwf : ∀ e ∈ interpreted done, e.WellFormed p.peers := by
    intro e he
    apply h.causal.wellFormed
    rw [← interpreted_actions, h.split, interpreted_append]
    exact mem_append_left _ he
  have hrunning := (running_actAll h.own h.causal h.split).of_ok h.run
  have htraced := (traced_actAll hwf).of_ok h.run
  rw [size_eq_card_domain]
  refine le_trans (Finset.card_le_card fun x hx => ?_) (toFinset_card_le p.peers)
  obtain ⟨hash, hhash⟩ := Option.isSome_iff_exists.mp (mem_domain.mp hx)
  have hknown : mid.known ⟨x, round⟩ = some hash := by
    rw [known, hresolved]
    exact hhash
  rw [mem_toFinset]
  exact (htraced.key_of_certified hwf (hrunning.orderly.decided _ hash hknown)).1

/-- The graph does not go too far before the point. -/
theorem not_overshoots {g : Graph} (hacts : acts <+: done)
    (hrun : actAll (new p lastInterpreted) acts = .ok g) {own : List BlockGraph}
    (hown : own ⊆ added acts) :
    ¬ Overshoots (i.round + 1) (lastInterpreted + 1) mid.callbacks.length own (Late i) g := by
  obtain ⟨⟨later, hlater, hrest⟩, -⟩ := h.before hacts hrun
  -- going too far would show at the point itself
  have hpoint : ¬ Overshoots (i.round + 1) (lastInterpreted + 1) mid.callbacks.length []
    (Late i) mid := by
    rintro (hmore | ⟨-, hfull⟩ | ⟨bg, hbg, -⟩)
    · exact lt_irrefl _ hmore
    · have hparams := (params_actAll p lastInterpreted done).of_ok h.run
      have hopen := unfinished_actAll.of_ok h.run
      have hpeers : 0 < p.peerCount := length_pos_of_ne_nil h.peers_ne_nil
      rw [← h.round.1, hparams] at hfull
      cases hresolved : mid.resolved[mid.round]? with
      | none =>
        rw [hresolved, Option.getD_none, Std.ExtTreeMap.size_empty] at hfull
        omega
      | some hashes =>
        rw [hresolved, Option.getD_some] at hfull
        refine hopen hashes hresolved ?_
        rw [hparams]
        exact le_antisymm (h.size_le hresolved) hfull
    · cases hbg
  rintro (hmore | hfull | ⟨bg, hbg, hlate, hgone⟩)
  · exact hpoint (Overshoots.actAll h.round.2 (.inl hmore) hrest)
  · exact hpoint (Overshoots.actAll h.round.2 (.inr (.inl hfull)) hrest)
  · have hbegins := added_prefix h.split
    have hadded : added done = added acts ++ added later := by rw [hlater, added_append]
    have hmem : bg ∈ added done := hadded ▸ mem_append_left _ (hown hbg)
    have hqueued := (queued_actAll h.own h.split).of_ok h.run
    have hleft := (hqueued.mem_data_iff h.own hbegins h.last hmem).mpr hlate
    rcases blocks_of_actAll hrest bg hleft with hheld | hagain
    · exact hgone hheld
    · have hnodup : (added done).Nodup :=
        hbegins.sublist.nodup (List.Nodup.of_map BlockGraph.block h.own.nodup_own)
      rw [hadded, nodup_append'] at hnodup
      exact hnodup.2.2 (hown hbg) hagain

/-- At the point both graphs have the same round to come, and what the one that was
never stopped holds is late. -/
theorem abreast {quiet : BlockID → Prop} {g' : Graph}
    (hawaits : Awaits (i.round + 1) (lastInterpreted + 1) mid.callbacks.length
      (Late i) quiet mid g') :
    Abreast (i.round + 1) (lastInterpreted + 1) (mid.callbacks.map digest)
      (Late i) quiet mid g' := by
  have hround := h.round.1
  have hqueued := (queued_actAll h.own h.split).of_ok h.run
  refine ⟨hawaits.paired, hawaits.waiting.trans hround.symm, hround.ge, hawaits.round,
    fun info hinfo => ?_, ?_⟩
  · exact (hqueued.mem_data_iff h.own ( added_prefix h.split) h.last (hqueued.mem_own hinfo)).mp
      (mem_map_of_mem hinfo)
  · rw [hawaits.idle, map_nil, append_nil]

end Point

end Graph

end Blockmania
