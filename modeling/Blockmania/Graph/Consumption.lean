/-
# Consuming own blocks

A graph keeps a list of its own blocks, each with a bound on the rounds that its
state and the states of the blocks it references mention. When a round is delivered,
the leading own blocks with a bound up to that round are consumed: their states and
bounds are forgotten, and the callback is told the round of the last own block that
is gone.

The bounds are computed when an own block is registered, from bounds of which some
have been forgotten. A forgotten bound is below the round that is delivered next,
which then stands in for it. So the bound a block was given, forgotten or not, is
never below the one of a block it builds on.
-/

import Blockmania.Graph.Bounds
import Blockmania.Graph.Mentions

namespace Blockmania

open Math List FiniteMap
open BlockGraph (actions entries)

/-- What a node passes to `Add`: its own blocks of consecutive rounds, each the
predecessor of the next, with blocks of other nodes that come once each. A block of
round 1 has no predecessor. -/
structure OwnChain (node first : Nat) (bgs : List BlockGraph) : Prop where
  start : 1 ≤ first
  rounds : bgs.map (fun bg => bg.block.round) = range' first bgs.length
  fits : first + bgs.length ≤ 2 ^ 64
  linked : bgs.IsChain fun bg next => next.prev = bg.block
  own : ∀ bg ∈ bgs, bg.block.node = node
  foreign : ∀ bg ∈ bgs, ∀ dep ∈ bg.deps, dep.block.node ≠ node
  once : ((bgs.flatMap BlockGraph.deps).map Dep.block).Nodup
  valid : ∀ e ∈ bgs.flatMap entries, e.block.valid = true
  zero : ∀ e ∈ bgs.flatMap entries, e.block.round = 1 → e.prev.valid = false

namespace OwnChain

variable {node first : Nat} {bgs : List BlockGraph}

variable (h : OwnChain node first bgs)
include h

theorem round_eq {i : Nat} {bg : BlockGraph} (hi : bgs[i]? = some bg) :
    bg.block.round = first + i := by
  have hrounds := congrArg (fun l => l[i]?) h.rounds
  have hlt := (List.getElem?_eq_some_iff.mp hi).1
  simp only [List.getElem?_map, hi, Option.map_some, List.getElem?_range' hlt] at hrounds
  simpa using hrounds

/-- Own blocks are told apart by their rounds. -/
theorem nodup_own : (bgs.map BlockGraph.block).Nodup := by
  have hrounds : ((bgs.map BlockGraph.block).map BlockID.round).Nodup := by
    rw [map_map]
    exact h.rounds ▸ nodup_range'
  exact hrounds.of_map

/-- No block is added twice. -/
theorem nodup :
    ((bgs.flatMap entries).map Entry.block).Nodup := by
  have hperm : ∀ bgs : List BlockGraph, ((bgs.flatMap entries).map Entry.block).Perm
      ((bgs.flatMap BlockGraph.deps).map Dep.block ++ bgs.map BlockGraph.block) := by
    intro bgs
    induction bgs with
    | nil => exact Perm.refl _
    | cons bg bgs ih =>
      have hentries : bg.entries.map Entry.block = bg.deps.map Dep.block ++ [bg.block] := by
        simp [entries, Dep.entry, BlockGraph.entry, Function.comp_def]
      simp only [flatMap_cons, map_append, map_cons, hentries, append_assoc, singleton_append]
      refine Perm.append_left _ ?_
      exact (Perm.cons _ ih).trans perm_middle.symm
  rw [(hperm bgs).nodup_iff, nodup_append']
  refine ⟨h.once, h.nodup_own, fun b hmem hown => ?_⟩
  obtain ⟨dep, hdeps, rfl⟩ := mem_map.mp hmem
  obtain ⟨bg, hbg, hdep⟩ := mem_flatMap.mp hdeps
  obtain ⟨bg', hbg', heq⟩ := mem_map.mp hown
  exact h.foreign bg hbg dep hdep (heq ▸ h.own bg' hbg')

/-- The block of an own block goes with that own block only. -/
theorem eq_of_mem_gone {info info' : BlockInfo}
    (hinfo : info.data ∈ bgs) (hinfo' : info'.data ∈ bgs) (hgone : info'.data.block ∈ info.gone) :
    info'.data.block = info.data.block := by
  rcases mem_cons.mp hgone with heq | hdep
  · exact heq
  · obtain ⟨dep, hdep, heq⟩ := mem_map.mp hdep
    exact absurd (heq ▸ h.own _ hinfo') (h.foreign _ hinfo dep hdep)

end OwnChain

/-- The own blocks that actions have registered, in order. -/
def added (acts : List Action) : List BlockGraph :=
  acts.filterMap fun
    | .register bg => some bg
    | .process _ => none

theorem added_append (acts acts' : List Action) : added (acts ++ acts') = added acts ++ added acts' :=
  filterMap_append

theorem added_concat_register (acts : List Action) (bg : BlockGraph) :
    added (acts ++ [.register bg]) = added acts ++ [bg] :=
  added_append _ _

theorem added_concat_process (acts : List Action) (e : Entry) :
    added (acts ++ [.process e]) = added acts :=
  (added_append _ _).trans (append_nil _)

theorem added_actions (bgs : List BlockGraph) : added (bgs.flatMap actions) = bgs := by
  have hentries (es : List Entry) : added (es.map .process) = [] := by
    induction es with
    | nil => rfl
    | cons e es ih => exact ih
  induction bgs with
  | nil => rfl
  | cons bg bgs ih =>
    rw [flatMap_cons, added_append, ih]
    change (bg :: added (bg.entries.map .process)) ++ bgs = _
    rw [hentries]
    rfl

namespace Graph

/-- What happens to a graph while a block is interpreted: steps are recorded, decided
values are noted, and rounds whose values are all known are reported. -/
inductive Delivers (g : Graph) : Graph → Prop
  | refl : Delivers g g
  | observe {g' : Graph} (h : Delivers g g') (ev : Event) : Delivers g (host.observe g' ev)
  | note {g' : Graph} (h : Delivers g g') (d : Delivery) : Delivers g (g'.note d)
  | report {g' g'' : Graph} (h : Delivers g g') (hashes : FiniteMap Nat Hash)
      (hresolved : g'.resolved[g'.round]? = some hashes) (hfull : hashes.size = g'.params.peerCount)
      (hreport : g'.report hashes = some g'') : Delivers g g''

/-- Nothing else happens to the graph while a block is interpreted. -/
theorem delivers_interpret (p : Params) (minround : Nat) (heap : Heap) (prev : Option State) (g : Graph)
    (e : Entry) : Ensures (interpret host p minround heap prev g e) (fun r => Delivers g r.1)
      (fun halt => Delivers g halt.host) := by
  refine host_interpret (Delivers g) (fun _ ev hg => hg.observe ev) (fun g' d g'' hg hdeliver => ?_)
    p minround heap prev e .refl
  have hrule : Ensures (deliver g' d) (Delivers g) (fun _ => True) := ensures_deliver (fun h => h.note d)
    (fun _ hashes _ h hresolved hfull hreport => h.report hashes hresolved hfull hreport)
    (fun _ _ _ _ _ _ => trivial) (fun _ _ _ => trivial) hg
  exact hrule.of_ok hdeliver

/-- Own blocks are consumed from the front, up to the first whose bound is past the
round, and are counted. -/
theorem consume_count (round : Nat) (infos : List BlockInfo) : ∀ {consumed : Nat} (g : Graph),
    consumed < 2 ^ 64 → ∃ k ≤ infos.length, (consume round infos consumed g).2.blocks = infos.drop k ∧
      (consume round infos consumed g).1 = u64 (consumed + k) ∧
      ∀ info, (infos.drop k).head? = some info → round < info.max := by
  induction infos with
  | nil =>
    intro consumed g hsmall
    exact ⟨0, le_rfl, rfl, (Nat.mod_eq_of_lt hsmall).symm, by simp⟩
  | cons info infos ih =>
    intro consumed g hsmall
    unfold consume
    split
    · rename_i hmax
      refine ⟨0, Nat.zero_le _, rfl, (Nat.mod_eq_of_lt hsmall).symm, fun info' hinfo' => ?_⟩
      cases hinfo'
      exact hmax
    · have hnext : u64 (consumed + 1) < 2 ^ 64 := Nat.mod_lt _ (by decide)
      obtain ⟨k, hk, hblocks, hcount, hstop⟩ := ih { g with
        max := info.gone.foldl (fun max b => max.erase b) g.max
        statess := info.gone.foldl (fun statess b => statess.erase b) g.statess } hnext
      refine ⟨k + 1, Nat.succ_le_succ hk, hblocks, hcount.trans ?_, hstop⟩
      unfold u64
      omega

/-- What a report does. -/
structure Reports (g : Graph) (hashes : FiniteMap Nat Hash) (g' : Graph) : Prop where
  params : g'.params = g.params
  heap : g'.heap = g.heap
  trace : g'.trace = g.trace
  round : g'.round = u64 (g.round + 1)
  blocks : ∃ first rest, g.blocks = first :: rest ∧ ∃ k ≤ g.blocks.length, g'.blocks = g.blocks.drop k ∧
    g'.callbacks = g.callbacks ++ [⟨roundBlocks g.round hashes,
      u64 (first.data.block.round + (2 ^ 64 - 1) + k), g.round⟩] ∧
    ∀ info, (g.blocks.drop k).head? = some info → g.round < info.max
  kept : ∀ info ∈ g.blocks, g.round < info.max → info ∈ g'.blocks
  lookup : ∀ b : BlockID, g'.max[b]? = g.max[b]? ∧ g'.statess[b]? = g.statess[b]? ∨
    (g'.max[b]? = none ∧ g'.statess[b]? = none ∧
      ∃ info ∈ g.blocks, info.max ≤ g.round ∧ b ∈ info.gone)

theorem reports_of_report {g g' : Graph} {hashes : FiniteMap Nat Hash}
    (h : g.report hashes = some g') : Reports g hashes g' := by
  obtain ⟨first, rest, consumed, mid, hblocks, hconsume, rfl⟩ := report_eq_some h
  have hsmall : u64 (first.data.block.round + (2 ^ 64 - 1)) < 2 ^ 64 := Nat.mod_lt _ (by decide)
  have hconsumes := consume_spec g.round g.blocks
    (u64 (first.data.block.round + (2 ^ 64 - 1))) { g with resolved := g.resolved.erase g.round }
  obtain ⟨k, hk, hdrop, hcount, hstop⟩ := consume_count g.round g.blocks
    { g with resolved := g.resolved.erase g.round } hsmall
  rw [hconsume] at hconsumes hdrop hcount
  refine ⟨hconsumes.params, hconsumes.heap, hconsumes.trace, ?_, ⟨first, rest, hblocks, k, hk, hdrop, ?_,
    hstop⟩, hconsumes.kept, hconsumes.lookup⟩
  · exact congrArg (fun round => u64 (round + 1)) hconsumes.round
  · change mid.callbacks ++ _ = _
    have hsum : u64 (u64 (first.data.block.round + (2 ^ 64 - 1)) + k) =
        u64 (first.data.block.round + (2 ^ 64 - 1) + k) := by
      unfold u64
      omega
    rw [hconsumes.callbacks, hsum.symm.trans hcount.symm]

/-- A report delivers a round. -/
theorem Reports.advances {g g' : Graph} {hashes : FiniteMap Nat Hash} (h : Reports g hashes g') :
    Advances [] g g' := by
  obtain ⟨first, rest, -, k, -, -, hcallbacks, -⟩ := h.blocks
  refine ⟨h.params, h.heap, h.trace, fun b s hs => ?_, ?_, fun hidle => ?_, fun start hstart => ?_⟩
  · rcases h.lookup b with ⟨-, hsame⟩ | ⟨-, hnone, -⟩
    · exact hsame ▸ hs
    · cases hnone.symm.trans hs
  · simp [hcallbacks]
  · simp [hcallbacks] at hidle
  · rw [h.round, hcallbacks, length_append, hstart, u64_succ, Nat.add_assoc]
    rfl

theorem Delivers.follows {g g' : Graph} (h : Delivers g g') : Follows g g' := by
  induction h with
  | refl => exact ⟨[], Advances.refl g⟩
  | observe _ ev ih => exact ⟨_, ih.choose_spec.trans (Advances.observe _ ev)⟩
  | @note g' _ d ih =>
    obtain ⟨evs, hadvances⟩ := ih
    exact ⟨evs, hadvances.params, hadvances.heap, hadvances.trace, hadvances.statess,
      hadvances.callbacks, hadvances.idle, hadvances.round⟩
  | report _ _ _ _ hreport ih => exact ⟨_, ih.choose_spec.trans (reports_of_report hreport).advances⟩

/-- The list of own blocks holds those that were added and not consumed, in the order
of their bounds. -/
structure Queued (first : Nat) (own : List BlockGraph) (g : Graph) : Prop where
  suffix : ∃ n ≤ own.length, g.blocks.map BlockInfo.data = own.drop n ∧
    ∀ i, g.callbacks.getLast? = some i → i.consumed + 1 = first + n
  sorted : g.blocks.Pairwise fun info later => info.max ≤ later.max
  max : ∀ info ∈ g.blocks, g.max[info.data.block]? = some info.max

namespace Queued

variable {node first : Nat} {bgs own : List BlockGraph} {g g' : Graph} {hashes : FiniteMap Nat Hash}

/-- The own blocks in the list were added. -/
theorem mem_own (h : Queued first own g) {info : BlockInfo} (hinfo : info ∈ g.blocks) :
    info.data ∈ own := by
  obtain ⟨n, -, hdata, -⟩ := h.suffix
  have hmem : info.data ∈ g.blocks.map BlockInfo.data := mem_map_of_mem hinfo
  rw [hdata] at hmem
  exact mem_of_mem_drop hmem

/-- The own blocks left are those of the rounds past the last one consumed. -/
theorem mem_data_iff (h : Queued first own g) (hown : OwnChain node first bgs) (hbegins : own <+: bgs)
    {i : Interpreted} (hlast : g.callbacks.getLast? = some i) {bg : BlockGraph} (hbg : bg ∈ own) :
    bg ∈ g.blocks.map BlockInfo.data ↔ i.consumed < bg.block.round := by
  obtain ⟨n, hn, hdata, hcount⟩ := h.suffix
  have hconsumed := hcount i hlast
  have hround : ∀ (j : Nat) (bg : BlockGraph), own[j]? = some bg → bg.block.round = first + j := by
    intro j bg hj
    obtain ⟨tail, rfl⟩ := hbegins
    refine hown.round_eq ?_
    rw [List.getElem?_append_left (List.getElem?_eq_some_iff.mp hj).1]
    exact hj
  rw [hdata]
  constructor
  · intro hmem
    obtain ⟨k, hk⟩ := List.getElem?_of_mem hmem
    rw [List.getElem?_drop] at hk
    have hself := hround (n + k) bg hk
    omega
  · intro hlater
    obtain ⟨j, hj⟩ := List.getElem?_of_mem hbg
    have hself := hround j bg hj
    refine mem_of_getElem? (i := j - n) ?_
    rw [List.getElem?_drop, Nat.add_sub_cancel' (by omega)]
    exact hj

/-- After a report every own block left has a bound past the round. -/
theorem later_of_report (h : Queued first own g) (hreports : Reports g hashes g') :
    ∀ info ∈ g'.blocks, g.round < info.max := by
  obtain ⟨_, _, -, k, -, hdrop, -, hstop⟩ := hreports.blocks
  intro info hinfo
  rw [hdrop] at hinfo
  have hsorted : (g.blocks.drop k).Pairwise fun info later => info.max ≤ later.max :=
    h.sorted.sublist (drop_sublist k _)
  cases hrest : g.blocks.drop k with
  | nil =>
    rw [hrest] at hinfo
    cases hinfo
  | cons head rest =>
    rw [hrest] at hinfo hstop hsorted
    have hhead := hstop head rfl
    rcases mem_cons.mp hinfo with rfl | hinfo
    · exact hhead
    · exact lt_of_lt_of_le hhead ((pairwise_cons.mp hsorted).1 info hinfo)

/-- A report counts the own blocks it consumes. -/
theorem report (h : Queued first own g) (hown : OwnChain node first bgs) (hbegins : own <+: bgs)
    (hreports : Reports g hashes g') : Queued first own g' := by
  have hlater := h.later_of_report hreports
  obtain ⟨head, rest, hblocks, k, hk, hdrop, hcallbacks, -⟩ := hreports.blocks
  obtain ⟨n, hn, hdata, -⟩ := h.suffix
  have hlength : g.blocks.length = own.length - n := by
    rw [← length_map BlockInfo.data, hdata, length_drop]
  have hmem : ∀ info ∈ g.blocks, info.data ∈ bgs := by
    intro info hinfo
    have hinfo' : info.data ∈ own.drop n := hdata ▸ mem_map_of_mem hinfo
    exact hbegins.subset (mem_of_mem_drop hinfo')
  refine ⟨⟨n + k, by omega, ?_, fun i hi => ?_⟩, ?_, fun info hinfo => ?_⟩
  · rw [hdrop, map_drop, hdata, drop_drop]
  · rw [hcallbacks, getLast?_concat] at hi
    cases hi
    -- the first own block left before was the one of round `first + n`
    have hhead : bgs[n]? = some head.data := by
      have hith := congrArg (fun l => l[0]?) hdata
      rw [hblocks] at hith
      simp only [map_cons, List.getElem?_cons_zero, List.getElem?_drop, Nat.add_zero] at hith
      obtain ⟨tail, htail⟩ := hbegins
      rw [← htail, List.getElem?_append_left (List.getElem?_eq_some_iff.mp hith.symm).1]
      exact hith.symm
    have hround := hown.round_eq hhead
    have hfits := hown.fits
    have hall := hbegins.length_le
    have hstart := hown.start
    dsimp only
    unfold u64
    omega
  · rw [hdrop]
    exact h.sorted.sublist (drop_sublist k _)
  · have hold : info ∈ g.blocks := by
      rw [hdrop] at hinfo
      exact mem_of_mem_drop hinfo
    rcases hreports.lookup info.data.block with ⟨hsame, -⟩ | ⟨-, -, other, hother, hmax, hgone⟩
    · exact hsame.trans (h.max info hold)
    · have heq := hown.eq_of_mem_gone (hmem other hother) (hmem info hold) hgone
      have hbound := h.max info hold
      rw [heq, h.max other hother] at hbound
      have := hlater info hinfo
      have := Option.some.inj hbound
      omega

theorem delivers (h : Queued first own g) (hown : OwnChain node first bgs) (hbegins : own <+: bgs)
    (hdelivers : Delivers g g') : Queued first own g' := by
  induction hdelivers with
  | refl => exact h
  | observe _ ev ih => exact ⟨ih.suffix, ih.sorted, ih.max⟩
  | note _ d ih => exact ⟨ih.suffix, ih.sorted, ih.max⟩
  | report _ _ _ _ hreport ih => exact ih.report hown hbegins (reports_of_report hreport)

end Queued

/-- Bounding referenced blocks leaves the bounds of other blocks alone. -/
theorem boundDeps_frame (round : Nat) (deps : List Dep) {b : BlockID} (hb : b ∉ deps.map Dep.block) :
    ∀ (start : Nat) (g : Graph), (boundDeps g round deps start).1.max[b]? = g.max[b]? := by
  induction deps with
  | nil => exact fun _ _ => rfl
  | cons dep deps ih =>
    intro start g
    rw [map_cons, mem_cons, not_or] at hb
    exact (ih hb.2 _ _).trans (lookup_insert_of_ne _ (Ne.symm hb.1) _)

/-- What registering an own block does to the bounds and the list of own blocks. -/
theorem register_spec (g : Graph) (bg : BlockGraph) : ∃ bound,
    (g.register bg).blocks = g.blocks ++ [⟨bg, bound⟩] ∧
    (g.register bg).max[bg.block]? = some bound ∧
    (∀ b, b ∉ bg.deps.map Dep.block → b ≠ bg.block → (g.register bg).max[b]? = g.max[b]?) ∧
    ∀ m, bg.block.round ≠ 1 → bg.prev ∉ bg.deps.map Dep.block → g.max[bg.prev]? = some m → m ≤ bound := by
  obtain ⟨max, hmax⟩ := boundDeps_eq bg.deps g g.round bg.block.round
  have hframe := fun b hb => @boundDeps_frame g.round bg.deps b hb bg.block.round g
  unfold register
  dsimp only
  generalize boundDeps g g.round bg.deps bg.block.round = result at hmax hframe ⊢
  obtain ⟨g₁, start⟩ := result
  dsimp only at hmax hframe ⊢
  subst hmax
  refine ⟨_, rfl, lookup_insert_self _ _ _, fun b hb hne => ?_, fun m hround hprev hm => ?_⟩
  · exact (lookup_insert_of_ne _ hne.symm _).trans (hframe b hb)
  · refine (boundOf_spec _ g.round _ start).2 bg.prev (by simp [hround]) m ?_
    exact (hframe bg.prev hprev).trans hm

/-- Registering an own block keeps the list of own blocks in order. -/
theorem Queued.register {node first : Nat} {bgs own : List BlockGraph} {g : Graph} {bg : BlockGraph}
    (h : Queued first own g) (hown : OwnChain node first bgs) (hbegins : own ++ [bg] <+: bgs) :
    Queued first (own ++ [bg]) (g.register bg) := by
  obtain ⟨bound, hblocks, hself, hframe, hprev⟩ := register_spec g bg
  have hcallbacks : (g.register bg).callbacks = g.callbacks := by rw [register_eq]
  obtain ⟨n, hn, hdata, hcount⟩ := h.suffix
  have hbg : bg ∈ bgs := hbegins.subset (by simp)
  have hmem : ∀ info ∈ g.blocks, info.data ∈ own := by
    intro info hinfo
    have hinfo' : info.data ∈ own.drop n := hdata ▸ mem_map_of_mem hinfo
    exact mem_of_mem_drop hinfo'
  have hbgs : ∀ info ∈ g.blocks, info.data ∈ bgs := fun info hinfo =>
    hbegins.subset (mem_append_left _ (hmem info hinfo))
  have hforeign : ∀ bg' ∈ bgs, bg'.block ∉ bg.deps.map Dep.block := by
    intro bg' hbg' hdep
    obtain ⟨dep, hdep, heq⟩ := mem_map.mp hdep
    exact hown.foreign bg hbg dep hdep (heq ▸ hown.own bg' hbg')
  have hfresh : ∀ info ∈ g.blocks, info.data.block ≠ bg.block := by
    intro info hinfo heq
    have hnodup := hown.nodup_own.sublist (hbegins.sublist.map BlockGraph.block)
    rw [map_append, nodup_append'] at hnodup
    refine hnodup.2.2 (mem_map_of_mem (hmem info hinfo)) ?_
    rw [heq]
    exact mem_singleton_self _
  refine ⟨⟨n, ?_, ?_, ?_⟩, ?_, fun info hinfo => ?_⟩
  · exact hn.trans (length_append ▸ Nat.le_add_right _ _)
  · rw [hblocks, map_append, hdata, drop_append_of_le_length hn]
    rfl
  · rw [hcallbacks]
    exact hcount
  · rw [hblocks, pairwise_append]
    refine ⟨h.sorted, pairwise_singleton _ _, fun info hinfo later hlater => ?_⟩
    obtain rfl := mem_singleton.mp hlater
    -- the last own block before is the predecessor
    obtain ⟨front, last, hlast⟩ :=
      (eq_nil_or_concat g.blocks).resolve_left (ne_nil_of_mem hinfo)
    rw [concat_eq_append] at hlast
    have hle : info.max ≤ last.max := by
      have hsorted := h.sorted
      rw [hlast] at hinfo hsorted
      rcases mem_append.mp hinfo with hinfo | hinfo
      · exact (pairwise_append.mp hsorted).2.2 info hinfo last (mem_singleton_self _)
      · rw [mem_singleton.mp hinfo]
    have hlastmem : last ∈ g.blocks := by simp [hlast]
    obtain ⟨before, hbefore⟩ : ∃ before, own = before ++ [last.data] := by
      refine ⟨own.take n ++ front.map BlockInfo.data, ?_⟩
      have htail : own.drop n = front.map BlockInfo.data ++ [last.data] := by
        rw [← hdata, hlast, map_append]
        rfl
      rw [append_assoc, ← htail, take_append_drop]
    obtain ⟨tail, htail⟩ := hbegins
    have hsplit : bgs = before ++ (last.data :: bg :: tail) := by
      rw [← htail, hbefore]
      simp
    have hlink : bg.prev = last.data.block := by
      have hlinked := hown.linked
      rw [hsplit] at hlinked
      exact (isChain_cons_cons.mp hlinked.right_of_append).1
    refine hle.trans (hprev last.max ?_ ?_ ?_)
    · have hith : bgs[before.length + 1]? = some bg := by
        rw [hsplit, List.getElem?_append_right (Nat.le_succ _)]
        simp
      have hround := hown.round_eq hith
      have hstart := hown.start
      omega
    · rw [hlink]
      exact hforeign _ (hbgs last hlastmem)
    · rw [hlink]
      exact h.max last hlastmem
  · rw [hblocks, mem_append, mem_singleton] at hinfo
    rcases hinfo with hinfo | rfl
    · rw [hframe _ (hforeign _ (hbgs info hinfo)) (hfresh info hinfo)]
      exact h.max info hinfo
    · exact hself

/-! ## Bounds, forgotten or not -/

/-- Every block has a bound of at least its own round and the bounds of the blocks
before it that it builds on. -/
def Graded (bound : BlockID → Nat) (es : List Entry) : Prop :=
  ∀ before e after, es = before ++ e :: after → e.block.round ≤ bound e.block ∧
    ∀ b ∈ e.prev :: e.deps, b.valid = true → b ∈ before.map Entry.block → bound b ≤ bound e.block

/-- The bounds a graph holds are those that were given, and those it has forgotten are
below the round it delivers next. -/
structure Ledger (bound : BlockID → Nat) (known : List Entry) (g : Graph) : Prop where
  bounds : ∀ (b : BlockID) (m : Nat), g.max[b]? = some m → m = bound b
  gone : ∀ e ∈ known, g.max[e.block]? = none → bound e.block < g.round
  graded : Graded bound known

/-- A link without a bound makes the next round the bound. -/
theorem le_boundOf_of_missing {g : Graph} (round : Nat) {links : List BlockID} {b : BlockID}
    (hb : b ∈ links) (hmissing : g.max[b]? = none) (start : Nat) :
    round ≤ g.boundOf round links start := by
  have hfold : ∀ (ids : List BlockID) (acc : Nat × Bool), (acc.2 = true ∨ b ∈ ids) →
      (ids.foldl (noteMax g.max) acc).2 = true := by
    intro ids
    induction ids with
    | nil => exact fun acc hacc => hacc.resolve_right (by simp)
    | cons id ids ih =>
      intro acc hacc
      apply ih
      rw [noteMax]
      rcases hacc with hacc | hb
      · left
        split
        · exact hacc
        · rfl
      · rcases mem_cons.mp hb with rfl | hb
        · left
          rw [hmissing]
        · exact .inr hb
  have hcheck : (knownMax g.max links start).2 = true := hfold links (start, false) (.inr hb)
  unfold boundOf
  dsimp only
  split
  · exact le_rfl
  · rename_i hsmall
    exact not_lt.mp fun hlt => hsmall ⟨hcheck, hlt⟩

namespace Ledger

variable {bound : BlockID → Nat} {known : List Entry} {g : Graph}

/-- A new bound is not below those of the links. -/
theorem le_boundOf (h : Ledger bound known g) {links : List BlockID} {b : BlockID} (hb : b ∈ links)
    (hknown : b ∈ known.map Entry.block) (start : Nat) : bound b ≤ g.boundOf g.round links start := by
  cases hmax : g.max[b]? with
  | some m =>
    rw [← h.bounds b m hmax]
    exact (boundOf_spec g g.round links start).2 b hb m hmax
  | none =>
    obtain ⟨e, he, rfl⟩ := mem_map.mp hknown
    exact (h.gone e he hmax).le.trans (le_boundOf_of_missing g.round hb hmax start)

/-- One more block is given a bound. -/
theorem enter (h : Ledger bound known g) {e : Entry} {m : Nat}
    (hfresh : e.block ∉ known.map Entry.block) (hround : e.block.round ≤ m)
    (hlinks : ∀ b ∈ e.prev :: e.deps, b.valid = true → b ∈ known.map Entry.block → bound b ≤ m) :
    Ledger (Function.update bound e.block m) (known ++ [e]) { g with max := g.max.insert e.block m } := by
  have hold : ∀ b ∈ known.map Entry.block, Function.update bound e.block m b = bound b := by
    intro b hb
    refine Function.update_of_ne ?_ _ _
    rintro rfl
    exact hfresh hb
  refine ⟨fun b k hk => ?_, fun e' he' hnone => ?_, fun before e' after hsplit => ?_⟩
  · rw [lookup_insert] at hk
    split at hk
    · rename_i heq
      cases hk
      rw [← heq, Function.update_self]
    · rename_i hne
      rw [Function.update_of_ne (Ne.symm hne)]
      exact h.bounds b k hk
  · rw [lookup_insert] at hnone
    split at hnone
    · cases hnone
    · rename_i hne
      rcases mem_append.mp he' with he' | he'
      · rw [hold _ (mem_map_of_mem he')]
        exact h.gone e' he' hnone
      · exact absurd (congrArg Entry.block (mem_singleton.mp he')).symm hne
  · rcases eq_nil_or_concat after with rfl | ⟨after, last, rfl⟩
    · -- the new block
      obtain ⟨rfl, heq⟩ := append_inj' hsplit rfl
      obtain rfl : e = e' := (List.cons.inj heq).1
      rw [Function.update_self]
      refine ⟨hround, fun b hb hvalid hmem => ?_⟩
      rw [hold b hmem]
      exact hlinks b hb hvalid hmem
    · rw [concat_eq_append, ← cons_append, ← append_assoc] at hsplit
      obtain ⟨rfl, -⟩ := append_inj' hsplit rfl
      obtain ⟨hle, hdeps⟩ := h.graded before e' after rfl
      rw [hold e'.block (by simp)]
      refine ⟨hle, fun b hb hvalid hmem => ?_⟩
      rw [hold b (by simp at hmem ⊢; exact .inl hmem)]
      exact hdeps b hb hvalid hmem

/-- The first loop of `run` gives the referenced blocks their bounds. -/
theorem boundDeps (deps : List Dep) (start : Nat) (h : Ledger bound known g)
    (hnodup : ((known ++ deps.map Dep.entry).map Entry.block).Nodup)
    (hzero : ∀ dep ∈ deps, dep.block.round = 1 → dep.prev.valid = false) :
    ∃ bound', Ledger bound' (known ++ deps.map Dep.entry) (boundDeps g g.round deps start).1 ∧
      (∀ b ∈ known.map Entry.block, bound' b = bound b) ∧
      start ≤ (Graph.boundDeps g g.round deps start).2 ∧
      ∀ dep ∈ deps, bound' dep.block ≤ (Graph.boundDeps g g.round deps start).2 := by
  induction deps generalizing bound known g start with
  | nil =>
    rw [map_nil, append_nil]
    exact ⟨bound, h, fun _ _ => rfl, le_rfl, by simp⟩
  | cons dep deps ih =>
    have hstep : known ++ (dep :: deps).map Dep.entry = (known ++ [dep.entry]) ++ deps.map Dep.entry := by
      simp
    obtain ⟨hfloor, -⟩ := boundOf_spec g g.round dep.links dep.block.round
    have hfresh : dep.entry.block ∉ known.map Entry.block := by
      intro hmem
      rw [map_append, nodup_append'] at hnodup
      exact hnodup.2.2 hmem mem_cons_self
    have hnext := h.enter hfresh hfloor fun b hb hvalid hmem => by
      rcases mem_cons.mp hb with rfl | hb
      · -- the predecessor is a link, unless there is none
        have hlater : dep.block.round ≠ 1 := by
          intro hfirst
          have hinvalid := hzero dep mem_cons_self hfirst
          cases hinvalid.symm.trans hvalid
        refine h.le_boundOf ?_ hmem _
        simp [Dep.links, hlater, Dep.entry]
      · exact h.le_boundOf hb hmem _
    generalize hm : g.boundOf g.round dep.links dep.block.round = m at hnext hfloor
    rw [hstep] at hnodup ⊢
    obtain ⟨bound', hledger, hold, hstart, hdeps⟩ := ih (if m > start then m else start) hnext hnodup
      fun dep' hdep' => hzero dep' (mem_cons_of_mem _ hdep')
    have hunfold : Graph.boundDeps g g.round (dep :: deps) start =
        Graph.boundDeps { g with max := g.max.insert dep.block m } g.round deps
          (if m > start then m else start) := by
      rw [← hm]
      rfl
    have hfold : start ≤ (if m > start then m else start) ∧ m ≤ (if m > start then m else start) := by
      split <;> omega
    rw [hunfold]
    refine ⟨bound', hledger, fun b hb => ?_, hfold.1.trans hstart, fun dep' hdep' => ?_⟩
    · rw [hold b (by rw [map_append]; exact mem_append_left _ hb)]
      refine Function.update_of_ne ?_ _ _
      rintro rfl
      exact hfresh hb
    · rcases mem_cons.mp hdep' with rfl | hdep'
      · have hself : bound' dep'.block = m := by
          rw [hold dep'.block (by simp [Dep.entry])]
          exact Function.update_self _ _ _
        rw [hself]
        exact hfold.2.trans hstart
      · exact hdeps dep' hdep'

/-- Registering an own block gives bounds to it and to the blocks it references. -/
theorem register (h : Ledger bound known g) {bg : BlockGraph}
    (hnodup : ((known ++ bg.entries).map Entry.block).Nodup)
    (hzero : ∀ e ∈ bg.entries, e.block.round = 1 → e.prev.valid = false) :
    ∃ bound', Ledger bound' (known ++ bg.entries) (g.register bg) ∧
      (∀ b ∈ known.map Entry.block, bound' b = bound b) ∧
      ∃ info, (g.register bg).blocks = g.blocks ++ [info] ∧ info.data = bg ∧
        ∀ b ∈ info.gone, bound' b ≤ info.max := by
  have hentries : known ++ bg.entries = (known ++ bg.deps.map Dep.entry) ++ [bg.entry] := by
    rw [entries, append_assoc]
  rw [hentries] at hnodup ⊢
  have hsplit := hnodup
  rw [map_append, nodup_append'] at hsplit
  obtain ⟨bound₁, h₁, hold, hstart, hdeps⟩ := h.boundDeps bg.deps bg.block.round hsplit.1
    fun dep hdep => hzero dep.entry (mem_append_left _ (mem_map_of_mem hdep))
  obtain ⟨max, hmax⟩ := boundDeps_eq bg.deps g g.round bg.block.round
  unfold Graph.register
  dsimp only
  generalize Graph.boundDeps g g.round bg.deps bg.block.round = result at hmax h₁ hstart hdeps ⊢
  obtain ⟨g₁, start⟩ := result
  dsimp only at hmax h₁ hstart hdeps ⊢
  subst hmax
  have hfloor := (boundOf_spec { g with max } g.round (if bg.block.round ≠ 1 then [bg.prev] else []) start).1
  have hfresh : bg.entry.block ∉ (known ++ bg.deps.map Dep.entry).map Entry.block := fun hmem =>
    hsplit.2.2 hmem (mem_singleton_self _)
  have hprev : ∀ b, b = bg.prev → b.valid = true →
      b ∈ (known ++ bg.deps.map Dep.entry).map Entry.block → bound₁ b ≤
        boundOf { g with max } g.round (if bg.block.round ≠ 1 then [bg.prev] else []) start := by
    intro b hb hvalid hmem
    have hlater : bg.block.round ≠ 1 := by
      intro hfirst
      have hinvalid := hzero bg.entry (mem_append_right _ (mem_singleton_self _)) hfirst
      rw [hb] at hvalid
      cases hinvalid.symm.trans hvalid
    refine h₁.le_boundOf ?_ hmem start
    simp [hlater, hb]
  have hnext := h₁.enter hfresh (hstart.trans hfloor) fun b hb hvalid hmem => by
    rcases mem_cons.mp hb with hb | hb
    · exact hprev b hb hvalid hmem
    rcases mem_cons.mp hb with hb | hb
    · exact hprev b hb hvalid hmem
    · obtain ⟨dep, hdep, rfl⟩ := mem_map.mp hb
      exact (hdeps dep hdep).trans hfloor
  refine ⟨_, ⟨hnext.bounds, hnext.gone, hnext.graded⟩, fun b hb => ?_, _, rfl, rfl, fun b hb => ?_⟩
  · rw [← hold b hb]
    refine Function.update_of_ne ?_ _ _
    rintro rfl
    apply hfresh
    rw [map_append]
    exact mem_append_left _ hb
  · rcases mem_cons.mp hb with rfl | hb
    · exact (Function.update_self bg.block _ _).le
    · obtain ⟨dep, hdep, rfl⟩ := mem_map.mp hb
      rw [Function.update_of_ne]
      · exact (hdeps dep hdep).trans hfloor
      · intro heq
        apply hfresh
        rw [← heq, map_append]
        exact mem_append_right _ (mem_map.mpr ⟨dep.entry, mem_map_of_mem hdep, rfl⟩)

end Ledger

/-! ## Bounded states -/

/-- The blocks that go with an own block were interpreted with it. -/
theorem mem_entries_of_gone {info : BlockInfo} {b : BlockID} (h : b ∈ info.gone) :
    b ∈ info.data.entries.map Entry.block := by
  rw [entries, map_append, map_map]
  rcases mem_cons.mp h with rfl | hdep
  · exact mem_append_right _ (mem_singleton_self _)
  · exact mem_append_left _ hdep

/-- The bounds of an own block and of the blocks it references are up to the bound it is
consumed by. -/
structure Booked (bound : BlockID → Nat) (known : List Entry) (g : Graph) : Prop where
  ledger : Ledger bound known g
  infos : ∀ info ∈ g.blocks, ∀ b ∈ info.gone, b ∈ known.map Entry.block ∧ bound b ≤ info.max

namespace Booked

variable {bound : BlockID → Nat} {known : List Entry} {g g' : Graph}

theorem congr (h : Booked bound known g) (hmax : g'.max = g.max) (hround : g'.round = g.round)
    (hblocks : g'.blocks = g.blocks) : Booked bound known g' := by
  refine ⟨⟨?_, ?_, h.ledger.graded⟩, ?_⟩
  · rw [hmax]
    exact h.ledger.bounds
  · rw [hmax, hround]
    exact h.ledger.gone
  · rw [hblocks]
    exact h.infos

/-- A report forgets bounds up to the round it delivers. -/
theorem report {hashes : FiniteMap Nat Hash} (h : Booked bound known g)
    (hreports : Reports g hashes g') (hsmall : g.round + 1 < 2 ^ 64) : Booked bound known g' := by
  have hround : g'.round = g.round + 1 := hreports.round.trans (Nat.mod_eq_of_lt hsmall)
  obtain ⟨_, _, -, k, -, hdrop, -, -⟩ := hreports.blocks
  refine ⟨⟨fun b m hm => ?_, fun e he hnone => ?_, h.ledger.graded⟩, fun info hinfo => ?_⟩
  · rcases hreports.lookup b with ⟨hsame, -⟩ | ⟨hnone, -⟩
    · exact h.ledger.bounds b m (hsame ▸ hm)
    · cases hnone.symm.trans hm
  · rw [hround]
    rcases hreports.lookup e.block with ⟨hsame, -⟩ | ⟨-, -, info, hinfo, hmax, hgone⟩
    · have := h.ledger.gone e he (hsame ▸ hnone)
      omega
    · have := (h.infos info hinfo _ hgone).2
      omega
  · rw [hdrop] at hinfo
    exact h.infos info (mem_of_mem_drop hinfo)

/-- Registering an own block books the blocks that come with it. -/
theorem register (h : Booked bound known g) {bg : BlockGraph}
    (hnodup : ((known ++ bg.entries).map Entry.block).Nodup)
    (hzero : ∀ e ∈ bg.entries, e.block.round = 1 → e.prev.valid = false) :
    ∃ bound', Booked bound' (known ++ bg.entries) (g.register bg) ∧
      ∀ b ∈ known.map Entry.block, bound' b = bound b := by
  obtain ⟨bound', hledger, hold, info, hblocks, hdata, hgone⟩ := h.ledger.register hnodup hzero
  refine ⟨bound', ⟨hledger, fun other hother b hb => ?_⟩, hold⟩
  rw [hblocks, mem_append, mem_singleton] at hother
  rw [map_append]
  rcases hother with hother | rfl
  · obtain ⟨hknown, hle⟩ := h.infos other hother b hb
    rw [hold b hknown]
    exact ⟨mem_append_left _ hknown, hle⟩
  · refine ⟨mem_append_right _ ?_, hgone b hb⟩
    rw [← hdata]
    exact mem_entries_of_gone hb

end Booked

/-- The bounds that blocks were given bound the rounds their states mention, and those
of an own block and the blocks it references are up to the bound it is consumed by. -/
structure Bookkept (bound : BlockID → Nat) (known done : List Entry) (g : Graph) : Prop where
  ledger : Ledger bound known g
  infos : ∀ info ∈ g.blocks, ∀ b ∈ info.gone, b ∈ known.map Entry.block ∧ bound b ≤ info.max
  states : ∀ (b : BlockID) (s : State), g.statess[b]? = some s → b ∈ done.map Entry.block ∧
    Memory.Within (bound b) ⟨g.heap, s⟩ ∧ s.Says (bound b)

namespace Bookkept

variable {bound : BlockID → Nat} {known done : List Entry} {g g' : Graph}

theorem booked (h : Bookkept bound known done g) : Booked bound known g := ⟨h.ledger, h.infos⟩

/-- A report forgets bounds up to the round it delivers. -/
theorem report {hashes : FiniteMap Nat Hash} (h : Bookkept bound known done g)
    (hreports : Reports g hashes g') (hsmall : g.round + 1 < 2 ^ 64) : Bookkept bound known done g' := by
  obtain ⟨hledger, hinfos⟩ := h.booked.report hreports hsmall
  refine ⟨hledger, hinfos, fun b s hs => ?_⟩
  rw [hreports.heap]
  exact h.states b s (hreports.advances.statess b s hs)

theorem delivers {start : Nat} (h : Bookkept bound known done g)
    (hround : g.round = u64 (start + g.callbacks.length)) (hdelivers : Delivers g g')
    (hlimit : start + g'.callbacks.length < 2 ^ 64) : Bookkept bound known done g' := by
  induction hdelivers with
  | refl => exact h
  | @observe g' _ ev ih =>
    have hbooked : Booked bound known (host.observe g' ev) := (ih hlimit).booked.congr rfl rfl rfl
    exact { hbooked with states := (ih hlimit).states }
  | @note g' _ d ih =>
    have hbooked : Booked bound known (g'.note d) := (ih hlimit).booked.congr rfl rfl rfl
    exact { hbooked with states := (ih hlimit).states }
  | @report g' g'' hdelivers hashes hresolved hfull hreport ih =>
    have hreports := reports_of_report hreport
    obtain ⟨evs, hadvances⟩ := hdelivers.follows
    have hnext := hadvances.round start hround
    obtain ⟨_, _, -, k, -, -, hcallbacks, -⟩ := hreports.blocks
    rw [hcallbacks, length_append, length_singleton] at hlimit
    refine (ih (by omega)).report hreports ?_
    rw [hnext, u64, Nat.mod_eq_of_lt (by omega)]
    omega

/-- Interpreting a block keeps every state within its bound, if it leaves the
timeouts of the others alone. -/
theorem process {start : Nat} {later : List Entry} {e : Entry} (h : Bookkept bound known done g)
    (hsplit : known = done ++ e :: later) (hvalid : ∀ e ∈ known, e.block.valid = true)
    (hsettled : g.Allocated) (hspares : g.spares e = true)
    (hround : g.round = u64 (start + g.callbacks.length)) (hprocess : g.process e = .ok g')
    (hlimit : start + g'.callbacks.length < 2 ^ 64) : Bookkept bound known (done ++ [e]) g' := by
  obtain ⟨hfloor, hlinks⟩ := h.ledger.graded done e later hsplit
  have hdone : ∀ b ∈ e.prev :: e.deps, ∀ s, g.statess[b]? = some s → bound b ≤ bound e.block := by
    intro b hb s hs
    obtain ⟨e', he', rfl⟩ := mem_map.mp (h.states b s hs).1
    refine hlinks e'.block hb (hvalid e' ?_) (mem_map_of_mem he')
    rw [hsplit]
    exact mem_append_left _ he'
  have hopened : (g.opened e).Within (bound e.block) := by
    unfold opened findOrCreateState
    split
    · cases hprev : g.statess[e.prev]? with
      | none => exact Memory.Within.fresh _
      | some s =>
        have hwithin := (h.states e.prev s hprev).2.1
        exact (hwithin.clone g.round).mono (hdone e.prev mem_cons_self s hprev)
    · exact Memory.Within.fresh _
  have hdeps : ∀ dep ∈ e.deps, ∀ s, g.statess[dep]? = some s → s.Says (bound e.block) := by
    intro dep hdep s hs msg hmsg
    exact ((h.states dep s hs).2.2 msg hmsg).trans (hdone dep (mem_cons_of_mem _ hdep) s hs)
  obtain ⟨last, mem, hinterpret, rfl⟩ := process_eq_ok hprocess
  obtain ⟨hwithin, hsaid⟩ := (within_interpret hfloor hopened hdeps).of_ok hinterpret
  have hdelivers := (delivers_interpret _ _ _ _ _ _).of_ok hinterpret
  have hlast := h.delivers hround hdelivers hlimit
  obtain ⟨evs, hadvances⟩ := hdelivers.follows
  refine ⟨⟨hlast.ledger.bounds, hlast.ledger.gone, hlast.ledger.graded⟩, hlast.infos, fun b s hs => ?_⟩
  rw [map_append, mem_append]
  simp only [store, lookup_insert] at hs
  split at hs
  · rename_i heq
    cases hs
    subst heq
    exact ⟨.inr (mem_singleton_self _), hwithin, hsaid⟩
  · have hold := hadvances.statess b s hs
    obtain ⟨hmem, hbefore, hsaid⟩ := h.states b s hold
    refine ⟨.inl hmem, ⟨fun key hkey => ?_, fun d t ht => ?_⟩, hsaid⟩
    · exact inst_eq_empty_of_heap _ (hbefore.inst key hkey)
    · rw [timeoutsAt_of_spares hsettled hprocess hspares hold] at ht
      exact hbefore.timeouts d t ht

end Bookkept

section Runs

variable {p : Params} {lastInterpreted node first : Nat} {bgs : List BlockGraph}
  {done rest : List Action}

/-- What was registered comes from the block graphs. -/
theorem registered_split (hsplit : bgs.flatMap actions = done ++ rest) :
    bgs.flatMap entries = registered done ++ registered rest := by
  rw [← registered_actions, hsplit, registered_append]

theorem added_prefix (hsplit : bgs.flatMap actions = done ++ rest) : added done <+: bgs := by
  rw [← added_actions bgs, hsplit, added_append]
  exact prefix_append _ _

/-- The own block that is registered next is the next one. -/
theorem added_concat_begins {bg : BlockGraph}
    (hsplit : bgs.flatMap actions = done ++ .register bg :: rest) :
    added done ++ [bg] <+: bgs := by
  rw [← added_concat_register]
  exact added_prefix (hsplit.trans (append_cons _ _ _))

/-- The entry a run interprets next comes next among those registered. -/
theorem registered_eq_of_process {e : Entry}
    (hsplit : bgs.flatMap actions = done ++ .process e :: rest) :
    ∃ later, registered done = interpreted done ++ e :: later := by
  obtain ⟨later, hlater⟩ := interpreted_prefix_registered bgs _ _ (hsplit.trans (append_cons _ _ _))
  rw [interpreted_process, registered_concat_process, append_assoc] at hlater
  exact ⟨later, hlater.symm⟩

/-- What the interpretation of a block does to a graph, with the state stored. -/
theorem delivers_of_process {g t : Graph} {e : Entry} (h : g.process e = .ok t) :
    ∃ last mem, Delivers g last ∧ t = last.store e.block mem := by
  obtain ⟨last, mem, hrun, hstore⟩ := process_eq_ok h
  exact ⟨last, mem, (delivers_interpret _ _ _ _ _ _).of_ok hrun, hstore⟩

/-- The list of own blocks is in order in every run. -/
theorem queued_actAll (hown : OwnChain node first bgs)
    (hsplit : bgs.flatMap actions = done ++ rest) :
    Ensures (actAll (new p lastInterpreted) done) (Queued first (added done)) (fun _ => True) := by
  apply holds_actAll fun done => Queued first (added done)
  · intro before bg after mid hbefore _ hmid
    rw [added_concat_register]
    exact hmid.register hown (added_concat_begins (split_of_begins hsplit hbefore))
  · intro before e after mid g' hbefore _ hmid hprocess
    rw [added_concat_process]
    obtain ⟨last, mem, hdelivers, rfl⟩ := delivers_of_process hprocess
    have hfront := added_prefix (split_of_begins hsplit hbefore)
    exact { hmid.delivers hown hfront hdelivers with }
  · exact ⟨⟨0, Nat.zero_le _, rfl, by simp [new]⟩, Pairwise.nil, by simp [new]⟩

/-- Every state is within the bound of its block in a run that disturbs no shared
array and does not exhaust the rounds. -/
theorem bookkept_actAll {g : Graph} (hown : OwnChain node first bgs)
    (hsplit : bgs.flatMap actions = done ++ rest)
    (hundisturbed : (new p lastInterpreted).undisturbed done = true)
    (hrun : actAll (new p lastInterpreted) done = .ok g)
    (hlimit : lastInterpreted + 1 + g.callbacks.length < 2 ^ 64) :
    ∃ bound, Bookkept bound (registered done) (interpreted done) g := by
  have hinv : Ensures (actAll (new p lastInterpreted) done)
      (fun g => lastInterpreted + 1 + g.callbacks.length < 2 ^ 64 →
        ∃ bound, Bookkept bound (registered done) (interpreted done) g) (fun _ => True) := by
    apply holds_actAll fun done g => lastInterpreted + 1 + g.callbacks.length < 2 ^ 64 →
      ∃ bound, Bookkept bound (registered done) (interpreted done) g
    · intro before bg after mid hbefore _ hmid hlimit
      have hacts := split_of_begins hsplit hbefore
      have hcallbacks : (mid.register bg).callbacks = mid.callbacks := by rw [register_eq]
      have hheap : (mid.register bg).heap = mid.heap := by rw [register_eq]
      have hstatess : (mid.register bg).statess = mid.statess := by rw [register_eq]
      rw [hcallbacks] at hlimit
      obtain ⟨bound, hmid⟩ := hmid hlimit
      have hall : bgs.flatMap entries =
          (registered before ++ bg.entries) ++ registered (after ++ rest) := by
        rw [append_assoc]
        exact registered_split hacts
      have hnodup := hown.nodup
      rw [hall, map_append, nodup_append'] at hnodup
      obtain ⟨bound', ⟨hledger, hinfos⟩, hold⟩ := hmid.booked.register hnodup.1
        fun e he => hown.zero e (by rw [hall]; simp [he])
      rw [interpreted_register, registered_concat_register]
      have hinterpreted := interpreted_prefix_registered bgs before _ hacts
      refine ⟨bound', hledger, hinfos, fun b s hs => ?_⟩
      rw [hheap]
      rw [hstatess] at hs
      obtain ⟨hmem, hbounded⟩ := hmid.states b s hs
      obtain ⟨e, he, rfl⟩ := mem_map.mp hmem
      rw [hold e.block (mem_map_of_mem (hinterpreted.subset he))]
      exact ⟨hmem, hbounded⟩
    · intro before e after mid g' hbefore hrun hmid hprocess hlimit
      have hacts := split_of_begins hsplit hbefore
      have hsettled : mid.Allocated := allocated_actAll.of_ok hrun
      have hspares := spares_of_undisturbed (hbefore ▸ hundisturbed) hrun
      obtain ⟨later, hlater⟩ := registered_eq_of_process hacts
      have hround := (round_actAll p lastInterpreted before).of_ok hrun
      rw [interpreted_process, registered_concat_process]
      have hcallbacks := callbacks_process hprocess
      obtain ⟨bound, hbookkept⟩ := hmid (by omega)
      refine ⟨bound, hbookkept.process hlater (fun e' he' => hown.valid e' ?_) hsettled hspares hround
        hprocess hlimit⟩
      rw [registered_split hacts]
      exact mem_append_left _ he'
    · exact fun _ => ⟨fun _ => 0, ⟨by simp [new], by simp [registered], fun before e after hnil => by
        simp [registered] at hnil⟩, by simp [new], by simp [new]⟩
  exact hinv.of_ok hrun hlimit

end Runs

/-- Four nodes in lockstep, seen by the first. -/
def lockstep : List BlockGraph :=
  let links (node round : Nat) : List BlockID :=
    (Params.four.peers.filter fun other => other ≠ node).map fun other => blockAt other round
  [ownAt 1 1 [], ownAt 1 2 [depAt 2 1 [], depAt 3 1 [], depAt 4 1 []],
    ownAt 1 3 [depAt 2 2 (links 2 1), depAt 3 2 (links 3 1), depAt 4 2 (links 4 1)],
    ownAt 1 4 [depAt 2 3 (links 2 2), depAt 3 3 (links 3 2), depAt 4 3 (links 4 2)]]

end Graph

end Blockmania
