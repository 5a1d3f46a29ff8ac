/-
# Two graphs side by side

A graph that is restarted forgets all bounds and gets the own blocks from some round on
once more. Compared with one that was never stopped, it starts with other bounds, holds
other own blocks, and counts its rounds from where the other one was.

From the round `N` on that both have yet to deliver, the differences do not matter. A
bound below `N` is as good as any other, and so is one that is not there. The own blocks
that only the other graph knows have such bounds, and go with the first report.
-/

import Blockmania.Graph.Delivery
import Blockmania.Graph.Retention
import Blockmania.Interpreter.Guidance
import Blockmania.Interpreter.Pruning

namespace Blockmania

open Math List FiniteMap

namespace Graph

/-- The own blocks that stay when the next round is reported. -/
def left (g : Graph) : List BlockInfo := g.blocks.dropWhile fun info => decide (info.max ≤ g.round)

/-- The blocks that go then. -/
def spent (g : Graph) : List BlockID :=
  (g.blocks.takeWhile fun info => decide (info.max ≤ g.round)).flatMap BlockInfo.gone

theorem spent_append_left (g : Graph) :
    g.spent ++ g.left.flatMap BlockInfo.gone = g.blocks.flatMap BlockInfo.gone := by
  rw [spent, left, ← flatMap_append, takeWhile_append_dropWhile]

/-- Consumption erases what comes with the leading own blocks. -/
theorem consume_eq (round : Nat) (infos : List BlockInfo) : ∀ (consumed : Nat) (g : Graph),
    (consume round infos consumed g).2 =
      let gone := (infos.takeWhile fun info => decide (info.max ≤ round)).flatMap BlockInfo.gone
      { g with
        blocks := infos.dropWhile fun info => decide (info.max ≤ round)
        max := gone.foldl (fun max b => max.erase b) g.max
        statess := gone.foldl (fun statess b => statess.erase b) g.statess } := by
  induction infos with
  | nil => exact fun _ _ => rfl
  | cons info rest ih =>
    intro consumed g
    unfold consume
    by_cases hmax : info.max > round
    · have hstays : decide (info.max ≤ round) = false := decide_eq_false (not_le.mpr hmax)
      rw [if_pos hmax, takeWhile_cons, dropWhile_cons, hstays]
      rfl
    · have hgoes : decide (info.max ≤ round) = true := decide_eq_true (not_lt.mp hmax)
      rw [if_neg hmax, takeWhile_cons, dropWhile_cons, hgoes]
      dsimp only
      rw [ih, if_pos rfl, if_pos rfl, flatMap_cons, foldl_append, foldl_append]
      rfl

/-- What a report leaves. -/
structure Leaves (g : Graph) (hashes : FiniteMap Nat Hash) (g' : Graph) : Prop where
  params : g'.params = g.params
  round : g'.round = u64 (g.round + 1)
  resolved : g'.resolved = g.resolved.erase g.round
  blocks : g'.blocks = g.left
  max : ∀ b : BlockID, g'.max[b]? = if b ∈ g.spent then none else g.max[b]?
  statess : ∀ b : BlockID, g'.statess[b]? = if b ∈ g.spent then none else g.statess[b]?
  callbacks : ∃ consumed,
    g'.callbacks = g.callbacks ++ [⟨roundBlocks g.round hashes, consumed, g.round⟩]

theorem leaves_of_report {g g' : Graph} {hashes : FiniteMap Nat Hash}
    (h : g.report hashes = some g') : Leaves g hashes g' := by
  obtain ⟨first, rest, consumed, mid, -, hconsume, rfl⟩ := report_eq_some h
  have hmid := consume_eq g.round g.blocks (u64 (first.data.block.round + (2 ^ 64 - 1)))
    { g with resolved := g.resolved.erase g.round }
  rw [hconsume] at hmid
  dsimp only at hmid
  subst hmid
  refine ⟨rfl, rfl, rfl, rfl, fun b => ?_, fun b => ?_, consumed, rfl⟩
  · exact lookup_eraseAll _ _ _
  · exact lookup_eraseAll _ _ _

/-- The blocks that have a bound are those that go with the own blocks in the list, each
with one of them. -/
structure Shelved (g : Graph) : Prop where
  nodup : (g.blocks.flatMap BlockInfo.gone).Nodup
  domain : ∀ b : BlockID, (g.max[b]?).isSome ↔ b ∈ g.blocks.flatMap BlockInfo.gone

theorem Shelved.report {g g' : Graph} {hashes : FiniteMap Nat Hash} (h : g.Shelved)
    (hreport : g.report hashes = some g') : g'.Shelved := by
  have hleaves := leaves_of_report hreport
  have hnodup := h.nodup
  rw [← spent_append_left, nodup_append'] at hnodup
  obtain ⟨-, hleft, hdisjoint⟩ := hnodup
  refine ⟨by rw [hleaves.blocks]; exact hleft, fun b => ?_⟩
  rw [hleaves.max, hleaves.blocks]
  by_cases hspent : b ∈ g.spent
  · rw [if_pos hspent]
    exact ⟨fun hb => (by cases hb), fun hb => absurd hb (hdisjoint hspent)⟩
  · rw [if_neg hspent, h.domain, ← spent_append_left, mem_append]
    exact ⟨fun hb => hb.resolve_left hspent, .inr⟩

theorem isSome_boundDeps (round : Nat) (deps : List Dep) (b : BlockID) :
    ∀ (start : Nat) (g : Graph), ((boundDeps g round deps start).1.max[b]?).isSome ↔
      b ∈ deps.map Dep.block ∨ (g.max[b]?).isSome := by
  induction deps with
  | nil => simp [boundDeps]
  | cons dep deps ih =>
    intro start g
    unfold boundDeps
    dsimp only
    rw [ih, lookup_insert, map_cons, mem_cons]
    by_cases hdep : dep.block = b
    · simp [hdep]
    · simp [hdep, Ne.symm hdep]

variable {bg : BlockGraph}

theorem Shelved.register {g : Graph} (h : g.Shelved)
    (hnodup : (bg.block :: bg.deps.map Dep.block).Nodup)
    (hfresh : ∀ b ∈ bg.block :: bg.deps.map Dep.block, b ∉ g.blocks.flatMap BlockInfo.gone) :
    (g.register bg).Shelved := by
  obtain ⟨max, hmax⟩ := boundDeps_eq bg.deps g g.round bg.block.round
  have hdomain := fun b => isSome_boundDeps g.round bg.deps b bg.block.round g
  unfold Graph.register
  dsimp only
  generalize boundDeps g g.round bg.deps bg.block.round = result at hmax hdomain
  obtain ⟨g₁, start⟩ := result
  dsimp only at hmax hdomain ⊢
  subst hmax
  constructor
  · rw [flatMap_append, nodup_append']
    refine ⟨h.nodup, by simpa [BlockInfo.gone] using hnodup, fun b hb hb' => hfresh b ?_ hb⟩
    simpa [BlockInfo.gone] using hb'
  · intro b
    rw [lookup_insert, flatMap_append, mem_append, ← h.domain]
    by_cases hown : bg.block = b
    · simp [hown, BlockInfo.gone]
    · rw [if_neg hown, hdomain]
      simp [BlockInfo.gone, Ne.symm hown, or_comm]

/-- What a bound comes to from the round `N` on. One that is not there is taken for the
round that comes next. -/
def weight (N round : Nat) (bound : Option Nat) : Nat := bound.getD round ⊔ N

/-- From the round `N` on, a new bound is the highest of its links and of where it starts. -/
theorem max_boundOf (N : Nat) (g : Graph) (round : Nat) (links : List BlockID) (start : Nat) :
    g.boundOf round links start ⊔ N =
      links.foldl (fun acc b => acc ⊔ weight N round g.max[b]?) (start ⊔ N) := by
  let value : Nat × Bool → Nat := fun acc =>
    (if acc.2 = true ∧ round > acc.1 then round else acc.1) ⊔ N
  have hfold : ∀ acc : Nat × Bool, value (links.foldl (noteMax g.max) acc) =
      links.foldl (fun acc b => acc ⊔ weight N round g.max[b]?) (value acc) := by
    induction links with
    | nil => exact fun _ => rfl
    | cons b links ih =>
      intro acc
      rw [foldl_cons, ih, foldl_cons]
      congr 1
      obtain ⟨bound, missing⟩ := acc
      rw [noteMax]
      cases g.max[b]? with
      | none =>
        simp only [value, weight, Option.getD_none, true_and]
        split_ifs <;> omega
      | some m =>
        simp only [value, weight, Option.getD_some]
        cases missing
        · simp only [Bool.false_eq_true, false_and, if_false]
          split <;> omega
        · simp only [true_and]
          by_cases hm : m > bound
          · rw [if_pos hm]
            split_ifs <;> omega
          · rw [if_neg hm]
            split_ifs <;> omega
  have hstart : value (start, false) = start ⊔ N := by simp [value]
  rw [← hstart]
  exact hfold (start, false)

section Weights

variable {N round round' : Nat} {g g' : Graph}

/-- Bounds that come to the same lead to bounds that come to the same. -/
theorem max_boundOf_congr (hbounds : ∀ b : BlockID, weight N round g.max[b]? = weight N round' g'.max[b]?)
    (links : List BlockID) {start start' : Nat} (hstart : start ⊔ N = start' ⊔ N) :
    g.boundOf round links start ⊔ N = g'.boundOf round' links start' ⊔ N := by
  rw [max_boundOf, max_boundOf, hstart, funext₂ fun acc b => congrArg (acc ⊔ ·) (hbounds b)]

/-- Bounds up to `N` lead to such a bound. -/
theorem boundOf_le {links : List BlockID} (hlinks : ∀ b ∈ links, weight N round g.max[b]? = N)
    {start : Nat} (hstart : start ≤ N) : g.boundOf round links start ≤ N := by
  have hfold : ∀ ids : List BlockID, (∀ b ∈ ids, weight N round g.max[b]? = N) →
      ids.foldl (fun acc b => acc ⊔ weight N round g.max[b]?) N = N := by
    intro ids
    induction ids with
    | nil => exact fun _ => rfl
    | cons b ids ih =>
      intro hids
      rw [foldl_cons, hids b mem_cons_self, max_self]
      exact ih fun b' hb' => hids b' (mem_cons_of_mem _ hb')
  have hmax := max_boundOf N g round links start
  rw [max_eq_right hstart, hfold links hlinks] at hmax
  exact max_eq_right_iff.mp hmax

theorem weight_insert (max : FiniteMap BlockID Nat) (b : BlockID) (m : Nat) (b' : BlockID) :
    weight N round (max.insert b m)[b']? =
      if b = b' then m ⊔ N else weight N round max[b']? := by
  rw [lookup_insert]
  split <;> rfl

/-- The first loop of `run`, in two graphs whose bounds come to the same. -/
theorem boundDeps_congr (deps : List Dep) : ∀ {g g' : Graph} {start start' : Nat},
    (∀ b : BlockID, weight N round g.max[b]? = weight N round' g'.max[b]?) →
    start ⊔ N = start' ⊔ N →
    (∀ b : BlockID, weight N round (boundDeps g round deps start).1.max[b]? =
      weight N round' (boundDeps g' round' deps start').1.max[b]?) ∧
    (boundDeps g round deps start).2 ⊔ N = (boundDeps g' round' deps start').2 ⊔ N := by
  induction deps with
  | nil => exact fun hbounds hstart => ⟨hbounds, hstart⟩
  | cons dep deps ih =>
    intro g g' start start' hbounds hstart
    have hbound := max_boundOf_congr hbounds dep.links (rfl : dep.block.round ⊔ N = _)
    unfold boundDeps
    dsimp only
    generalize g.boundOf round dep.links dep.block.round = bound at hbound ⊢
    generalize g'.boundOf round' dep.links dep.block.round = bound' at hbound ⊢
    refine ih (fun b => ?_) (by split <;> split <;> omega)
    rw [weight_insert, weight_insert]
    split
    · exact hbound
    · exact hbounds b

/-- The first loop of `run`, over blocks of which some are to be bounded by `N`. -/
theorem boundDeps_low {low : BlockID → Prop} (deps : List Dep)
    (hdeps : ∀ dep ∈ deps, low dep.block → dep.block.round ≤ N ∧ ∀ b ∈ dep.links, low b) :
    ∀ {g : Graph} {start : Nat}, (∀ b, low b → weight N round g.max[b]? = N) →
      (∀ b, low b → weight N round (boundDeps g round deps start).1.max[b]? = N) ∧
      ((∀ dep ∈ deps, low dep.block) → start ≤ N → (boundDeps g round deps start).2 ≤ N) := by
  induction deps with
  | nil => exact fun hbounds => ⟨hbounds, fun _ hstart => hstart⟩
  | cons dep deps ih =>
    intro g start hbounds
    have hbound : low dep.block → g.boundOf round dep.links dep.block.round ≤ N := by
      intro hlow
      obtain ⟨hround, hlinks⟩ := hdeps dep mem_cons_self hlow
      exact boundOf_le (fun b hb => hbounds b (hlinks b hb)) hround
    unfold boundDeps
    dsimp only
    generalize g.boundOf round dep.links dep.block.round = bound at hbound ⊢
    obtain ⟨hafter, hmax⟩ := @ih (fun dep' hdep' => hdeps dep' (mem_cons_of_mem _ hdep'))
      { g with max := g.max.insert dep.block bound } (if bound > start then bound else start) (by
        intro b hlow
        rw [weight_insert]
        split
        · rename_i hb
          exact max_eq_right (hbound (hb ▸ hlow))
        · exact hbounds b hlow)
    refine ⟨hafter, fun hall hstart => hmax (fun dep' hdep' => hall dep' (mem_cons_of_mem _ hdep')) ?_⟩
    have := hbound (hall dep mem_cons_self)
    split <;> omega

end Weights

/-- Registering an own block in two graphs whose bounds come to the same. -/
theorem register_congr {N : Nat} {g g' : Graph} (bg : BlockGraph)
    (hbounds : ∀ b : BlockID, weight N g.round g.max[b]? = weight N g'.round g'.max[b]?) :
    ∃ bound bound', (g.register bg).blocks = g.blocks ++ [⟨bg, bound⟩] ∧
      (g'.register bg).blocks = g'.blocks ++ [⟨bg, bound'⟩] ∧ bound ⊔ N = bound' ⊔ N ∧
      ∀ b : BlockID, weight N g.round (g.register bg).max[b]? =
        weight N g'.round (g'.register bg).max[b]? := by
  obtain ⟨max, hmax⟩ := boundDeps_eq bg.deps g g.round bg.block.round
  obtain ⟨max', hmax'⟩ := boundDeps_eq bg.deps g' g'.round bg.block.round
  obtain ⟨hdeps, hstart⟩ := boundDeps_congr bg.deps hbounds (rfl : bg.block.round ⊔ N = _)
  unfold register
  dsimp only
  generalize boundDeps g g.round bg.deps bg.block.round = result at hmax hdeps hstart
  generalize boundDeps g' g'.round bg.deps bg.block.round = result' at hmax' hdeps hstart
  obtain ⟨g₁, start⟩ := result
  obtain ⟨g₁', start'⟩ := result'
  dsimp only at hmax hmax' hdeps hstart ⊢
  subst hmax hmax'
  have hbound := max_boundOf_congr hdeps (if bg.block.round ≠ 1 then [bg.prev] else []) hstart
  refine ⟨_, _, rfl, rfl, hbound, fun b => ?_⟩
  rw [weight_insert, weight_insert]
  split
  · exact hbound
  · exact hdeps b

/-- Registering an own block, if some of the blocks are to be bounded by `N`. -/
theorem register_low {N : Nat} {low : BlockID → Prop} {g : Graph} {bg : BlockGraph}
    (hentries : ∀ e ∈ bg.entries, low e.block → e.block.round ≤ N ∧ ∀ b ∈ e.deps, low b)
    (hbounds : ∀ b, low b → weight N g.round g.max[b]? = N) :
    (∀ b, low b → weight N g.round (g.register bg).max[b]? = N) ∧
      (low bg.block → ∀ info ∈ (g.register bg).blocks, info ∈ g.blocks ∨ info.max ≤ N) := by
  obtain ⟨max, hmax⟩ := boundDeps_eq bg.deps g g.round bg.block.round
  obtain ⟨hdeps, hstart⟩ := @boundDeps_low N g.round low bg.deps
    (fun dep hdep => hentries dep.entry (by simp [BlockGraph.entries]; exact .inl ⟨dep, hdep, rfl⟩))
    g bg.block.round hbounds
  have hown := hentries bg.entry (by simp [BlockGraph.entries])
  unfold register
  dsimp only
  generalize boundDeps g g.round bg.deps bg.block.round = result at hmax hdeps hstart
  obtain ⟨g₁, start⟩ := result
  dsimp only at hmax hdeps hstart ⊢
  subst hmax
  have hbound : low bg.block →
      boundOf { g with max } g.round (if bg.block.round ≠ 1 then [bg.prev] else []) start ≤ N := by
    intro hlow
    obtain ⟨hround, hlinks⟩ := hown hlow
    refine boundOf_le (fun b hb => hdeps b (hlinks b ?_)) (hstart (fun dep hdep => hlinks _ ?_) hround)
    · split at hb
      · exact mem_cons.mpr (.inl (mem_singleton.mp hb))
      · cases hb
    · exact mem_cons_of_mem _ (mem_map_of_mem hdep)
  refine ⟨fun b hlow => ?_, fun hlow info hinfo => ?_⟩
  · rw [weight_insert]
    split
    · rename_i hb
      exact max_eq_right (hbound (hb ▸ hlow))
    · exact hdeps b hlow
  · refine (mem_append.mp hinfo).imp_right fun hinfo => ?_
    rw [mem_singleton.mp hinfo]
    exact hbound hlow

/-- The same own block, with bounds that come to the same. -/
def Kin (N : Nat) (info info' : BlockInfo) : Prop :=
  info'.data = info.data ∧ info.max ⊔ N = info'.max ⊔ N

/-- Two graphs that agree from the round `N` on. They hold the same late own blocks, and
the early ones in front of them, as the blocks that come with those, are quiet. -/
structure Paired (N : Nat) (late : BlockGraph → Prop) (quiet : BlockID → Prop) (g g' : Graph) :
    Prop where
  params : g'.params = g.params
  peers : g.params.peers ≠ []
  known : ∀ key : NodeRound, N ≤ key.round → g.known key = g'.known key
  infos : ∃ front back front' back', g.blocks = front ++ back ∧ g'.blocks = front' ++ back' ∧
    (∀ info ∈ front ++ front', ¬ late info.data ∧ ∀ b ∈ info.gone, quiet b) ∧
    (∀ info ∈ front', info.max ≤ N) ∧ (∀ info ∈ back, late info.data) ∧
    Forall₂ (Kin N) back back'
  shelved : g.Shelved
  shelved' : g'.Shelved
  bounds : ∀ b : BlockID, weight N g.round g.max[b]? = weight N g'.round g'.max[b]?
  states : ∀ b, ¬ quiet b → ((g.statess[b]?).isSome ↔ (g'.statess[b]?).isSome)

/-- Own blocks that are kin come with the same blocks. -/
theorem gone_of_kin {N : Nat} {infos infos' : List BlockInfo} (h : Forall₂ (Kin N) infos infos') :
    infos'.flatMap BlockInfo.gone = infos.flatMap BlockInfo.gone := by
  induction h with
  | nil => rfl
  | cons hkin _ ih => rw [flatMap_cons, flatMap_cons, ih, BlockInfo.gone, hkin.1, BlockInfo.gone]

/-- A round from `N` on takes the same of own blocks that are kin. -/
theorem kin_left {N round : Nat} (hround : N ≤ round) {infos infos' : List BlockInfo}
    (h : Forall₂ (Kin N) infos infos') :
    Forall₂ (Kin N) (infos.takeWhile fun info => decide (info.max ≤ round))
        (infos'.takeWhile fun info => decide (info.max ≤ round)) ∧
      Forall₂ (Kin N) (infos.dropWhile fun info => decide (info.max ≤ round))
        (infos'.dropWhile fun info => decide (info.max ≤ round)) := by
  induction h with
  | nil => exact ⟨.nil, .nil⟩
  | @cons info info' infos infos' hkin hrest ih =>
    have hsame : decide (info.max ≤ round) = decide (info'.max ≤ round) := by
      have := hkin.2
      rw [decide_eq_decide]
      omega
    simp only [takeWhile_cons, dropWhile_cons, ← hsame]
    split
    · exact ⟨.cons hkin ih.1, ih.2⟩
    · exact ⟨.nil, .cons hkin hrest⟩

/-! ## Deliveries, in two parts -/

/-- Noting a value changes what is known of one instance. -/
theorem known_note (g : Graph) (d : Delivery) (key : NodeRound) :
    (g.note d).known key = if d.key = key then some d.hash else g.known key := by
  by_cases hkey : d.key = key
  · rw [if_pos hkey, ← hkey, known_note_self]
  rw [if_neg hkey]
  simp only [known, note, lookup_insert]
  by_cases hround : d.key.round = key.round
  · have hnode : d.key.node ≠ key.node := fun hnode =>
      hkey (by cases hd : d.key; cases key; simp_all)
    rw [if_pos hround, Option.getD_some, lookup_insert_of_ne _ hnode, hround]
  · rw [if_neg hround]

/-- Nothing happens while the round that comes next lacks a value. -/
theorem release_of_unfinished {g : Graph} {round : Nat} (h : round = g.round → Unfinished g) :
    g.release round = .ok g := by
  unfold release
  split
  · rfl
  rename_i hround
  have hopen := h (not_not.mp hround)
  rw [not_not.mp hround]
  split
  · rename_i hashes hresolved
    exact if_neg (hopen hashes hresolved)
  · rfl

theorem noted_frame (g : Graph) (d : Delivery) : (g.noted d).round = g.round ∧
    (g.noted d).callbacks = g.callbacks ∧ (g.noted d).blocks = g.blocks ∧
    (g.noted d).params = g.params ∧ (g.noted d).max = g.max ∧ (g.noted d).statess = g.statess := by
  unfold noted
  split <;> exact ⟨rfl, rfl, rfl, rfl, rfl, rfl⟩

variable {d : Delivery} {N first limit : Nat} {base : List (Nat × List BlockID)}
  {late : BlockGraph → Prop} {quiet : BlockID → Prop} {own : List BlockGraph} {g g' t g₀ g₀' : Graph}
  {hashes : FiniteMap Nat Hash}

section Paired

variable (h : Paired N late quiet g g')
include h

theorem Paired.observe_left (ev : Event) :
    Paired N late quiet (host.observe g ev) g' := { h with
  shelved := { h.shelved with } }

theorem Paired.observe_right (ev : Event) :
    Paired N late quiet g (host.observe g' ev) := { h with
  shelved' := { h.shelved' with } }

/-- A value of an earlier round goes unnoticed. -/
theorem Paired.note_left (hd : d.key.round < N) :
    Paired N late quiet (g.note d) g' := { h with
  known key hkey := by
    rw [known_note, if_neg (by rintro rfl; omega)]
    exact h.known key hkey
  shelved := { h.shelved with } }

/-- A value of a later round is noted in both graphs, or in neither. -/
theorem Paired.noted (hd : N ≤ d.key.round) :
    Paired N late quiet (g.noted d) (g'.noted d) := by
  unfold Graph.noted
  rw [h.known d.key hd]
  split
  · exact h
  · refine { h with
      known := fun key hkey => ?_, shelved := { h.shelved with }, shelved' := { h.shelved' with } }
    rw [known_note, known_note, h.known key hkey]

/-- Both graphs register an own block. An early one comes before all late ones. -/
theorem Paired.register (hnodup : (bg.block :: bg.deps.map Dep.block).Nodup)
    (hfresh : ∀ b ∈ bg.block :: bg.deps.map Dep.block, b ∉ g.blocks.flatMap BlockInfo.gone)
    (hfresh' : ∀ b ∈ bg.block :: bg.deps.map Dep.block, b ∉ g'.blocks.flatMap BlockInfo.gone)
    (hearly : ¬ late bg → (∀ b ∈ bg.block :: bg.deps.map Dep.block, quiet b) ∧
      (∀ info ∈ g.blocks, ¬ late info.data) ∧
      ∀ info ∈ (g'.register bg).blocks, info ∈ g'.blocks ∨ info.max ≤ N) :
    Paired N late quiet (g.register bg) (g'.register bg) := by
  obtain ⟨bound, bound', hblocks, hblocks', hsame, hbounds⟩ := register_congr bg h.bounds
  have hround : (g.register bg).round = g.round := by rw [register_eq g]
  have hround' : (g'.register bg).round = g'.round := by rw [register_eq g']
  refine ⟨by rw [register_eq g, register_eq g']; exact h.params, by rw [register_eq g]; exact h.peers, ?_, ?_,
    h.shelved.register hnodup hfresh, h.shelved'.register hnodup hfresh', ?_, ?_⟩
  · rw [register_eq g, register_eq g']
    exact h.known
  · obtain ⟨front, back, front', back', hg, hg', hfront, hlow, hback, hkin⟩ := h.infos
    rw [hblocks, hblocks', hg, hg']
    by_cases hlate : late bg
    · refine ⟨front, back ++ [⟨bg, bound⟩], front', back' ++ [⟨bg, bound'⟩], append_assoc _ _ _,
        append_assoc _ _ _, hfront, hlow, fun info hinfo => ?_, ?_⟩
      · rcases mem_append.mp hinfo with hinfo | hinfo
        · exact hback info hinfo
        · exact (mem_singleton.mp hinfo) ▸ hlate
      · exact rel_append hkin (.cons ⟨rfl, hsame⟩ .nil)
    · obtain ⟨hquiet, hbefore, hmax⟩ := hearly hlate
      obtain rfl : back = [] := by
        rw [eq_nil_iff_forall_not_mem]
        intro info hinfo
        exact hbefore info (by simp [hg, hinfo]) (hback info hinfo)
      obtain rfl : back' = [] := List.forall₂_nil_left_iff.mp hkin
      refine ⟨front ++ [⟨bg, bound⟩], [], front' ++ [⟨bg, bound'⟩], [], by simp, by simp,
        fun info hinfo => ?_, fun info hinfo => ?_, by simp, .nil⟩
      · simp only [mem_append, mem_singleton] at hinfo
        rcases hinfo with (hinfo | rfl) | hinfo | rfl
        · exact hfront info (mem_append_left _ hinfo)
        · exact ⟨hlate, hquiet⟩
        · exact hfront info (mem_append_right _ hinfo)
        · exact ⟨hlate, hquiet⟩
      · rcases mem_append.mp hinfo with hinfo | hinfo
        · exact hlow info hinfo
        · obtain rfl := mem_singleton.mp hinfo
          refine (hmax ⟨bg, bound'⟩ (by simp [hblocks'])).resolve_left fun hmem => ?_
          exact hfresh' bg.block mem_cons_self (mem_flatMap.mpr ⟨_, hmem, mem_cons_self⟩)
  · rw [hround, hround']
    exact hbounds
  · rw [register_eq g, register_eq g']
    exact h.states

/-- What is known of a round. -/
theorem Paired.resolved {round : Nat} (hround : N ≤ round) :
    g.resolved[round]?.getD ∅ = g'.resolved[round]?.getD ∅ :=
  ext_lookup fun x => h.known ⟨x, round⟩ hround

/-- A complete round is complete in both graphs, with the same values. -/
theorem Paired.complete_iff {round : Nat} (hround : N ≤ round)
    (hfull : hashes.size = g.params.peerCount) :
    g.resolved[round]? = some hashes ↔ g'.resolved[round]? = some hashes := by
  have hne : hashes ≠ ∅ := by
    rintro rfl
    exact h.peers (length_eq_zero_iff.mp hfull.symm)
  have hvalues : ∀ values : Option (FiniteMap Nat Hash),
      values = some hashes ↔ values.getD ∅ = hashes := by
    rintro (_ | values)
    · simp [hne.symm]
    · simp
  rw [hvalues, hvalues, h.resolved hround]

end Paired

/-- A graph that was restarted at the round `N` waits for the other one, which counts its
rounds from `first` on, to get there with `limit` reports. -/
structure Awaits (N first limit : Nat) (late : BlockGraph → Prop) (quiet : BlockID → Prop)
    (g g' : Graph) : Prop where
  paired : Paired N late quiet g g'
  waiting : g'.round = N
  idle : g'.callbacks = []
  round : g.round = u64 (first + g.callbacks.length)
  count : g.callbacks.length ≤ limit
  reach : first + limit = N
  low : ∀ b, quiet b → weight N g.round g.max[b]? = N

/-- The other graph has gone too far: it has reported more rounds, or is about to, or it has
consumed a late own block. -/
def Overshoots (N first limit : Nat) (own : List BlockGraph) (late : BlockGraph → Prop) (g : Graph) :
    Prop :=
  limit < g.callbacks.length ∨
    (g.round = u64 (first + g.callbacks.length) ∧
      g.params.peerCount ≤ (g.resolved[N]?.getD ∅).size) ∨
    ∃ bg ∈ own, late bg ∧ bg ∉ g.blocks.map BlockInfo.data

section Awaits

theorem Overshoots.note (h : Overshoots N first limit own late g) (d : Delivery) :
    Overshoots N first limit own late (g.note d) := by
  refine h.imp_right fun h => h.imp_left fun ⟨hround, hfull⟩ => ⟨hround, hfull.trans ?_⟩
  simp only [Graph.note, lookup_insert]
  split
  · rename_i hN
    rw [hN, Option.getD_some, size_eq_card_domain, size_eq_card_domain, domain_insert]
    exact Finset.card_le_card (Finset.subset_insert _ _)
  · exact le_rfl

theorem Overshoots.report (hreach : first + limit = N) (h : Overshoots N first limit own late g)
    (hreport : g.report hashes = some t) : Overshoots N first limit own late t := by
  have hleaves := leaves_of_report hreport
  have hadvances := (reports_of_report hreport).advances
  obtain ⟨consumed, hcallbacks⟩ := hleaves.callbacks
  have hlength : t.callbacks.length = g.callbacks.length + 1 := by rw [hcallbacks]; simp
  rcases h with hcount | ⟨hround, hfull⟩ | ⟨bg, hbg, hlate, hgone⟩
  · exact .inl (by omega)
  · by_cases hlimit : limit ≤ g.callbacks.length
    · exact .inl (by omega)
    · -- it is an earlier round that is reported
      refine .inr (.inl ⟨hadvances.round first hround, ?_⟩)
      have hmod : u64 (first + g.callbacks.length) ≤ first + g.callbacks.length := Nat.mod_le _ _
      rw [hleaves.params, hleaves.resolved, lookup_erase, if_neg (by omega)]
      exact hfull
  · refine .inr (.inr ⟨bg, hbg, hlate, fun hmem => hgone ?_⟩)
    rw [hleaves.blocks] at hmem
    exact map_subset _ (dropWhile_suffix _).subset hmem

theorem overshoots_lasts (hreach : first + limit = N) :
    host.Lasts (Overshoots N first limit own late) where
  observe _ h := h
  deliver {g d t} h hdeliver := by
    have hrule : Ensures (deliver g d) (Overshoots N first limit own late) (fun _ => True) :=
      ensures_deliver (fun h => h.note d) (fun _ _ _ h _ _ hreport => h.report hreach hreport)
        (fun _ _ _ _ _ _ => trivial) (fun _ _ _ => trivial) h
    exact hrule.of_ok hdeliver

theorem Overshoots.release (hreach : first + limit = N) (h : Overshoots N first limit own late g)
    {round : Nat} (hrelease : g.release round = .ok t) : Overshoots N first limit own late t := by
  have hrule : Ensures (g.release round) (Overshoots N first limit own late) (fun _ => True) :=
    ensures_release (fun _ _ _ h _ _ hreport => h.report hreach hreport)
      (fun _ _ _ _ _ _ => trivial) h
  exact hrule.of_ok hrelease

/-- No own block is in the list twice. -/
theorem Shelved.nodup_data (h : g.Shelved) : (g.blocks.map BlockInfo.data).Nodup := by
  rw [List.Nodup, pairwise_map]
  refine (nodup_flatMap.mp h.nodup).2.imp ?_
  intro info other hdisjoint heq
  refine hdisjoint (mem_cons_self : info.data.block ∈ info.gone) ?_
  rw [heq]
  exact mem_cons_self

/-- An own block that is not consumed keeps those behind it. -/
theorem left_of_kept {front back : List BlockInfo} (hshelved : g.Shelved)
    (hblocks : g.blocks = front ++ back) (hkept : ∀ info ∈ back, info ∈ g.left) :
    ∃ front', front' <:+ front ∧ g.left = front' ++ back ∧
      ∀ b ∈ g.spent, ∃ info ∈ front, b ∈ info.gone := by
  have hleft : g.left = (front.dropWhile fun info => decide (info.max ≤ g.round)) ++ back := by
    rw [left, hblocks, dropWhile_append]
    split
    · rename_i hempty
      rw [List.isEmpty_iff.mp hempty, nil_append]
      cases back with
      | nil => rfl
      | cons info rest =>
        rw [dropWhile_cons]
        split
        · -- it would be gone, and it is in the list only once
          rename_i hgoes
          have hmem := hkept info mem_cons_self
          rw [left, hblocks, dropWhile_append, if_pos hempty, dropWhile_cons, if_pos hgoes] at hmem
          have hnodup := hshelved.nodup_data.of_map
          rw [hblocks, nodup_append'] at hnodup
          exact absurd ((dropWhile_suffix _).subset hmem) (nodup_cons.mp hnodup.2.1).1
        · rfl
    · rfl
  refine ⟨_, dropWhile_suffix _, hleft, fun b hb => ?_⟩
  have htaken : (g.blocks.takeWhile fun info => decide (info.max ≤ g.round)) =
      front.takeWhile fun info => decide (info.max ≤ g.round) := by
    have hsplit : (g.blocks.takeWhile fun info => decide (info.max ≤ g.round)) ++ g.left =
        (front.takeWhile fun info => decide (info.max ≤ g.round)) ++ g.left :=
      calc _ = g.blocks := takeWhile_append_dropWhile
        _ = front ++ back := hblocks
        _ = _ := by rw [hleft, ← append_assoc, takeWhile_append_dropWhile]
    exact append_cancel_right hsplit
  rw [spent, htaken] at hb
  obtain ⟨info, hinfo, hb⟩ := mem_flatMap.mp hb
  exact ⟨info, (takeWhile_sublist _).subset hinfo, hb⟩

theorem Awaits.round_le (h : Awaits N first limit late quiet g g') : g.round ≤ N := by
  have hmod : u64 (first + g.callbacks.length) ≤ first + g.callbacks.length := Nat.mod_le _ _
  have hround := h.round
  have hcount := h.count
  have hreach := h.reach
  omega

/-- A report of an earlier round goes unnoticed, unless it goes too far. -/
theorem Awaits.report (h : Awaits N first limit late quiet g g')
    (hheld : g.blocks.map BlockInfo.data ⊆ own) (hreport : g.report hashes = some t) :
    Overshoots N first limit own late t ∨ Awaits N first limit late quiet t g' := by
  have hleaves := leaves_of_report hreport
  have hround := (reports_of_report hreport).advances.round first h.round
  obtain ⟨consumed, hcallbacks⟩ := hleaves.callbacks
  have hlength : t.callbacks.length = g.callbacks.length + 1 := by rw [hcallbacks]; simp
  by_cases hlimit : limit < t.callbacks.length
  · exact .inl (.inl hlimit)
  by_cases hgone : ∃ bg ∈ own, late bg ∧ bg ∉ t.blocks.map BlockInfo.data
  · exact .inl (.inr (.inr hgone))
  right
  have hreach := h.reach
  have hbefore : g.round < N := by
    have hmod : u64 (first + g.callbacks.length) ≤ first + g.callbacks.length := Nat.mod_le _ _
    have := h.round
    omega
  have hafter : t.round ≤ N := by
    have hmod : u64 (first + t.callbacks.length) ≤ first + t.callbacks.length := Nat.mod_le _ _
    omega
  obtain ⟨front, back, front', back', hblocks, hblocks', hearly, hlow, hlate, hkin⟩ := h.paired.infos
  obtain ⟨rest, hrest, hleft, hspent⟩ := left_of_kept h.paired.shelved hblocks (by
    intro info hinfo
    have hmem : info ∈ g.blocks := by simp [hblocks, hinfo]
    have hkept : info.data ∈ t.blocks.map BlockInfo.data := by
      by_contra hmissing
      exact hgone ⟨info.data, hheld (mem_map_of_mem hmem), hlate info hinfo, hmissing⟩
    obtain ⟨other, hother, heq⟩ := mem_map.mp (hleaves.blocks ▸ hkept)
    exact inj_on_of_nodup_map h.paired.shelved.nodup_data ((dropWhile_suffix _).subset hother)
      hmem heq ▸ hother)
  have hquiet : ∀ b ∈ g.spent, quiet b := by
    intro b hb
    obtain ⟨info, hinfo, hb⟩ := hspent b hb
    exact (hearly info (mem_append_left _ hinfo)).2 b hb
  have hweight : ∀ b : BlockID, weight N t.round t.max[b]? = weight N g.round g.max[b]? := by
    intro b
    rw [hleaves.max]
    split
    · rename_i hb
      rw [h.low b (hquiet b hb)]
      exact max_eq_right hafter
    · cases g.max[b]? with
      | none => exact (max_eq_right hafter).trans (max_eq_right hbefore.le).symm
      | some m => rfl
  refine ⟨⟨h.paired.params.trans hleaves.params.symm, hleaves.params ▸ h.paired.peers, fun key hkey => ?_,
    ⟨rest, back, front', back', hleaves.blocks.trans hleft, hblocks', fun info hinfo => ?_, hlow, hlate, hkin⟩,
    h.paired.shelved.report hreport, h.paired.shelved', fun b => ?_, fun b hb => ?_⟩,
    h.waiting, h.idle, hround, not_lt.mp hlimit, hreach, fun b hb => ?_⟩
  · rw [← h.paired.known key hkey, known, known, hleaves.resolved, lookup_erase, if_neg (by omega)]
  · refine hearly info (mem_append.mpr ((mem_append.mp hinfo).imp_left fun hinfo => ?_))
    exact hrest.subset hinfo
  · rw [hweight, h.paired.bounds]
  · rw [← h.paired.states b hb, hleaves.statess, if_neg fun hspent => hb (hquiet b hspent)]
  · rw [hweight, h.low b hb]

variable (h : Awaits N first limit late quiet g g')
include h

/-- A delivery of an earlier round goes unnoticed, unless it goes too far. -/
theorem Awaits.deliver_left (hheld : g.blocks.map BlockInfo.data ⊆ own) (hd : d.key.round < N)
    (hdeliver : deliver g d = .ok t) :
    Overshoots N first limit own late t ∨
      Awaits N first limit late quiet t g' ∧ t.blocks.map BlockInfo.data ⊆ own := by
  have hreach := h.reach
  have hrule : Ensures (deliver g d) (fun t => Overshoots N first limit own late t ∨
      Awaits N first limit late quiet t g' ∧ t.blocks.map BlockInfo.data ⊆ own) (fun _ => True) := by
    refine ensures_deliver ?_ ?_ (fun _ _ _ _ _ _ => trivial) (fun _ _ _ => trivial) (.inr ⟨h, hheld⟩)
    · rintro (hover | ⟨h, hheld⟩)
      · exact .inl (hover.note d)
      · exact .inr ⟨{ h with paired := h.paired.note_left hd }, hheld⟩
    · rintro g hashes t (hover | ⟨h, hheld⟩) _ _ hreport
      · exact .inl (hover.report hreach hreport)
      · refine (h.report hheld hreport).imp_right fun ht => ⟨ht, ?_⟩
        rw [(leaves_of_report hreport).blocks]
        exact List.Subset.trans (map_subset _ (dropWhile_suffix _).subset) hheld
  exact hrule.of_ok hdeliver

/-- A delivery of a later round is noted in both graphs. -/
theorem Awaits.deliver_both (hd : N ≤ d.key.round) (hdeliver : deliver g d = .ok t)
    (hkept : ¬ Overshoots N first limit own late t) :
    t = g.noted d ∧ deliver g' d = .ok (g'.noted d) := by
  have hround := h.round_le
  have hwaiting := h.waiting
  have hpaired := h.paired.noted hd
  obtain ⟨hnext, hcallbacks, -⟩ := g.noted_frame d
  obtain ⟨hnext', -⟩ := g'.noted_frame d
  rw [deliver_eq, if_neg (by omega)] at hdeliver
  split at hdeliver
  swap
  · cases hdeliver
  rename_i hsame
  rw [deliver_eq, if_neg (by omega), ← h.paired.known d.key hd, if_pos hsame]
  -- a complete round `N` would be reported at once
  have hopen : ∀ hashes, (g.noted d).resolved[N]? = some hashes →
      hashes.size ≠ (g.noted d).params.peerCount := by
    intro hashes hresolved hfull
    have hover : Overshoots N first limit own late (g.noted d) := by
      refine .inr (.inl ⟨?_, ?_⟩)
      · rw [hnext, hcallbacks, h.round]
      · rw [hresolved, Option.getD_some, hfull]
    exact hkept (hover.release h.reach hdeliver)
  constructor
  · rw [release_of_unfinished] at hdeliver
    · cases hdeliver
      rfl
    · intro hN hashes hresolved
      rw [show (g.noted d).round = N by omega] at hresolved
      exact hopen hashes hresolved
  · apply release_of_unfinished
    intro _ hashes hresolved hfull
    rw [hnext', hwaiting] at hresolved
    rw [hpaired.params] at hfull
    exact hopen hashes ((hpaired.complete_iff le_rfl hfull).mpr hresolved) hfull

theorem Awaits.noted (hd : N ≤ d.key.round) :
    Awaits N first limit late quiet (g.noted d) (g'.noted d) := by
  obtain ⟨hround, hcallbacks, -, -, hmax, -⟩ := g.noted_frame d
  obtain ⟨hround', hcallbacks', -⟩ := g'.noted_frame d
  refine ⟨h.paired.noted hd, hround'.trans h.waiting, hcallbacks'.trans h.idle, ?_, ?_, h.reach, ?_⟩
  · rw [hround, hcallbacks, h.round]
  · rw [hcallbacks]
    exact h.count
  · rw [hround, hmax]
    exact h.low

end Awaits

/-! ## Going on together -/

/-- What a report tells besides the count of own blocks. -/
def digest (i : Interpreted) : Nat × List BlockID := (i.round, i.blocks)

/-- Two graphs that report the same rounds. The restarted one may still hold early own
blocks. The reports of the other one before they met are `base`. -/
structure Abreast (N first : Nat) (base : List (Nat × List BlockID)) (late : BlockGraph → Prop)
    (quiet : BlockID → Prop) (g g' : Graph) : Prop where
  paired : Paired N late quiet g g'
  level : g'.round = g.round
  past : N ≤ g.round
  round : g.round = u64 (first + g.callbacks.length)
  late : ∀ info ∈ g.blocks, late info.data
  callbacks : g.callbacks.map digest = base ++ g'.callbacks.map digest

/-- The early own blocks are all in the restarted graph. -/
theorem Abreast.infos (h : Abreast N first base late quiet g g') :
    ∃ front' back', g'.blocks = front' ++ back' ∧ (∀ info ∈ front', ∀ b ∈ info.gone, quiet b) ∧
      (∀ info ∈ front', info.max ≤ N) ∧ Forall₂ (Kin N) g.blocks back' := by
  obtain ⟨front, back, front', back', hblocks, hblocks', hearly, hlow, hlate, hkin⟩ := h.paired.infos
  cases front with
  | nil =>
    rw [hblocks]
    exact ⟨front', back', hblocks', fun info hinfo => (hearly info hinfo).2, hlow, hkin⟩
  | cons info front =>
    exact absurd (h.late info (by simp [hblocks])) (hearly info mem_cons_self).1

/-- Both graphs report a round, and the restarted one drops its early own blocks. -/
theorem Abreast.report (h : Abreast N first base late quiet g g') (hreport : g.report hashes = some t)
    (hfits : first + t.callbacks.length < 2 ^ 64) :
    ∃ t', g'.report hashes = some t' ∧ Abreast N first base late quiet t t' := by
  obtain ⟨front', back', hblocks', hearly, hlow, hkin⟩ := h.infos
  have hpast := h.past
  have hlevel := h.level
  have hround := (reports_of_report hreport).advances.round first h.round
  have hleaves := leaves_of_report hreport
  obtain ⟨consumed, hcallbacks⟩ := hleaves.callbacks
  have hlength : t.callbacks.length = g.callbacks.length + 1 := by rw [hcallbacks]; simp
  obtain ⟨t', hreport'⟩ : ∃ t', g'.report hashes = some t' := by
    apply Option.ne_none_iff_exists'.mp
    refine exists_report (fun hempty => ?_) hashes
    obtain ⟨_, _, _, _, hsome, -⟩ := report_eq_some hreport
    rw [hblocks', append_eq_nil_iff] at hempty
    rw [hempty.2, List.forall₂_nil_right_iff, hsome] at hkin
    cases hkin
  have hleaves' := leaves_of_report hreport'
  obtain ⟨consumed', hcallbacks'⟩ := hleaves'.callbacks
  have hgoes : ∀ info ∈ front', decide (info.max ≤ g'.round) = true := fun info hinfo =>
    decide_eq_true ((hlow info hinfo).trans (hlevel ▸ hpast))
  obtain ⟨htaken, hkept⟩ := kin_left hpast hkin
  have hblocks : t'.blocks = back'.dropWhile fun info => decide (info.max ≤ g.round) := by
    rw [hleaves'.blocks, left, hblocks', dropWhile_append_of_pos hgoes, hlevel]
  have hspent : ∀ b, ¬ quiet b → (b ∈ g.spent ↔ b ∈ g'.spent) := by
    intro b hb
    rw [spent, spent, hblocks', takeWhile_append_of_pos hgoes, hlevel, flatMap_append,
      mem_append, gone_of_kin htaken]
    refine ⟨.inr, fun hspent => hspent.resolve_left fun hfront => hb ?_⟩
    obtain ⟨info, hinfo, hgone⟩ := mem_flatMap.mp hfront
    exact hearly info hinfo b hgone
  have hnext : t'.round = t.round := by rw [hleaves'.round, hleaves.round, hlevel]
  have hshelved := h.paired.shelved.report hreport
  have hshelved' := h.paired.shelved'.report hreport'
  refine ⟨t', hreport', ⟨?_, ?_, fun key hkey => ?_, ⟨[], t.blocks, [], t'.blocks, rfl, rfl, by simp,
    by simp, fun info hinfo => ?_, ?_⟩, hshelved, hshelved', fun b => ?_, fun b hb => ?_⟩, hnext, ?_,
    hround, fun info hinfo => ?_, ?_⟩
  · rw [hleaves'.params, hleaves.params, h.paired.params]
  · exact hleaves.params ▸ h.paired.peers
  · have hknown := h.paired.known key hkey
    rw [known, known] at hknown ⊢
    rw [hleaves.resolved, hleaves'.resolved, hlevel, lookup_erase, lookup_erase]
    split
    · rfl
    · exact hknown
  · rw [hleaves.blocks] at hinfo
    exact h.late info ((dropWhile_suffix _).subset hinfo)
  · rw [hblocks, hleaves.blocks]
    exact hkept
  · -- the bounds that are left are those of the own blocks that are left
    have hdomain : (t.max[b]?).isSome ↔ (t'.max[b]?).isSome := by
      rw [hshelved.domain, hshelved'.domain, hblocks, hleaves.blocks, gone_of_kin hkept]
      rfl
    have hbound := h.paired.bounds b
    have hmax := hleaves.max b
    have hmax' := hleaves'.max b
    cases hsome : t.max[b]? with
    | none =>
      have hnone : t'.max[b]? = none := by
        rw [← Option.not_isSome_iff_eq_none, ← hdomain, hsome]
        exact Bool.false_ne_true
      rw [hnone, hnext]
    | some m =>
      obtain ⟨m', hsome'⟩ := Option.isSome_iff_exists.mp (hdomain.mp (by simp [hsome]))
      rw [hsome] at hmax
      rw [hsome'] at hmax' ⊢
      split at hmax
      · cases hmax
      split at hmax'
      · cases hmax'
      rw [← hmax, ← hmax'] at hbound
      exact hbound
  · rw [hleaves.statess, hleaves'.statess]
    simp only [← hspent b hb]
    split
    · rfl
    · exact h.paired.states b hb
  · have hbefore := h.round
    unfold u64 at hround hbefore
    rw [Nat.mod_eq_of_lt (by omega)] at hround hbefore
    omega
  · rw [hleaves.blocks] at hinfo
    exact h.late info ((dropWhile_suffix _).subset hinfo)
  · rw [hcallbacks, hcallbacks', map_append, map_append, h.callbacks, hlevel, append_assoc]
    rfl

/-- After a report, rounds are delivered up to one that is not complete. -/
theorem deliverRound_of_unfinished (hreport : g.report hashes = some t) (hopen : Unfinished t)
    (fuel : Nat) : Graph.deliverRound (fuel + 1) g g.round hashes = .ok t := by
  rw [deliverRound_succ, hreport]
  dsimp only
  cases hnext : t.resolved[t.round]? with
  | none => rfl
  | some hashes' => exact if_neg (hopen hashes' hnext)

theorem deliverRound_of_complete (hreport : g.report hashes = some t) {hashes' : FiniteMap Nat Hash}
    (hnext : t.resolved[t.round]? = some hashes') (hfull : hashes'.size = t.params.peerCount)
    (fuel : Nat) :
    Graph.deliverRound (fuel + 1) g g.round hashes = Graph.deliverRound fuel t t.round hashes' := by
  rw [deliverRound_succ, hreport]
  dsimp only
  rw [hnext]
  exact if_pos hfull

/-- Both graphs deliver the same rounds, with as much fuel as either needs. -/
theorem Abreast.deliverRound {fuel : Nat} :
    ∀ {fuel' : Nat} {g g' t : Graph} {hashes : FiniteMap Nat Hash}, Abreast N first base late quiet g g' →
      g.resolved[g.round]? = some hashes → hashes.size = g.params.peerCount →
      g.resolved.size ≤ fuel → g'.resolved.size ≤ fuel' →
      Graph.deliverRound fuel g g.round hashes = .ok t → first + t.callbacks.length < 2 ^ 64 →
      ∃ t', Graph.deliverRound fuel' g' g'.round hashes = .ok t' ∧ Abreast N first base late quiet t t' := by
  have hnonempty : ∀ {g : Graph} {round : Nat} {hashes : FiniteMap Nat Hash},
      g.resolved[round]? = some hashes → g.resolved.size ≠ 0 := by
    intro g round hashes hresolved hsize
    rw [Std.ExtTreeMap.eq_empty_iff_size_eq_zero.mpr hsize] at hresolved
    simp at hresolved
  induction fuel with
  | zero =>
    intro fuel' g g' t hashes _ hresolved _ hsize
    exact absurd (Nat.le_zero.mp hsize) (hnonempty hresolved)
  | succ fuel ih =>
    intro fuel' g g' t hashes h hresolved hfull hsize hsize' hrun hfits
    have hresolved' : g'.resolved[g'.round]? = some hashes := by
      rw [h.level]
      exact (h.paired.complete_iff h.past hfull).mp hresolved
    obtain ⟨fuel', rfl⟩ : ∃ n, fuel' = n + 1 :=
      Nat.exists_eq_succ_of_ne_zero fun hzero => hnonempty hresolved' (by omega)
    cases hreport : g.report hashes with
    | none =>
      rw [deliverRound_succ, hreport] at hrun
      cases hrun
    | some mid =>
      by_cases hopen : Unfinished mid
      · rw [deliverRound_of_unfinished hreport hopen] at hrun
        cases hrun
        obtain ⟨mid', hreport', hmid⟩ := h.report hreport hfits
        refine ⟨mid', deliverRound_of_unfinished hreport' (fun hashes' hnext hfull' => ?_) fuel', hmid⟩
        rw [hmid.level] at hnext
        rw [hmid.paired.params] at hfull'
        exact hopen hashes' ((hmid.paired.complete_iff hmid.past hfull').mpr hnext) hfull'
      · obtain ⟨hashes', hnext, hfull'⟩ : ∃ hashes', mid.resolved[mid.round]? = some hashes' ∧
            hashes'.size = mid.params.peerCount := by
          unfold Unfinished at hopen
          push Not at hopen
          exact hopen
        rw [deliverRound_of_complete hreport hnext hfull'] at hrun
        -- no round is reported that the count has no room for
        have hcount := (rounds_of_deliverRound rfl hnext hfull' hrun).advances.callbacks
        obtain ⟨mid', hreport', hmid⟩ := h.report hreport (by omega)
        have hnext' : mid'.resolved[mid'.round]? = some hashes' := by
          rw [hmid.level]
          exact (hmid.paired.complete_iff hmid.past hfull').mp hnext
        rw [deliverRound_of_complete hreport' hnext' (by rw [hmid.paired.params, hfull'])]
        have hless := size_of_report hresolved hreport
        have hless' := size_of_report hresolved' hreport'
        exact ih hmid hnext hfull' (by omega) (by omega) hrun hfits

/-- A delivery of a later round has the same effect on both graphs. -/
theorem Abreast.deliver_both (h : Abreast N first base late quiet g g') (hd : N ≤ d.key.round)
    (hdeliver : deliver g d = .ok t) (hfits : first + t.callbacks.length < 2 ^ 64) :
    ∃ t', deliver g' d = .ok t' ∧ Abreast N first base late quiet t t' := by
  rw [deliver_eq] at hdeliver
  rw [deliver_eq, h.level, ← h.paired.known d.key hd]
  split at hdeliver
  · rename_i hpassed
    cases hdeliver
    exact ⟨g', if_pos hpassed, h⟩
  split at hdeliver
  swap
  · cases hdeliver
  obtain ⟨hround, hcallbacks, hblocks, -⟩ := g.noted_frame d
  obtain ⟨hround', hcallbacks', -⟩ := g'.noted_frame d
  have hnoted : Abreast N first base late quiet (g.noted d) (g'.noted d) := by
    refine ⟨h.paired.noted hd, ?_, ?_, ?_, ?_, ?_⟩
    · rw [hround', hround, h.level]
    · rw [hround]
      exact h.past
    · rw [hround, hcallbacks, h.round]
    · rw [hblocks]
      exact h.late
    · rw [hcallbacks, hcallbacks', h.callbacks]
  clear hround hround' hcallbacks hcallbacks' hblocks
  rw [if_neg ‹_›, if_pos ‹_›]
  generalize g.noted d = mid at hdeliver hnoted
  generalize g'.noted d = mid' at hnoted ⊢
  by_cases hcomplete : d.key.round = mid.round ∧ ∃ hashes, mid.resolved[mid.round]? = some hashes ∧
      hashes.size = mid.params.peerCount
  · obtain ⟨hround, hashes, hresolved, hfull⟩ := hcomplete
    have hresolved' := (hnoted.paired.complete_iff hnoted.past hfull).mp hresolved
    unfold release at hdeliver ⊢
    rw [hround, if_neg (not_not.mpr rfl), hresolved] at hdeliver
    rw [hround, hnoted.level, if_neg (not_not.mpr rfl), hresolved', hnoted.paired.params]
    dsimp only at hdeliver ⊢
    rw [if_pos hfull] at hdeliver ⊢
    have hrun := hnoted.deliverRound hresolved hfull le_rfl le_rfl hdeliver hfits
    rwa [hnoted.level] at hrun
  · rw [release_of_unfinished fun hround hashes hresolved hfull =>
      hcomplete ⟨hround, hashes, hresolved, hfull⟩] at hdeliver
    cases hdeliver
    refine ⟨mid', release_of_unfinished fun hround hashes hresolved hfull => ?_, hnoted⟩
    rw [hnoted.level] at hround hresolved
    rw [hnoted.paired.params] at hfull
    exact hcomplete ⟨hround, hashes, (hnoted.paired.complete_iff hnoted.past hfull).mpr hresolved, hfull⟩

variable {key : NodeRound}

theorem lt_of_fromRound (h : fromRound N key = false) : key.round < N :=
  not_le.mp (of_decide_eq_false h)

theorem le_of_fromRound (h : fromRound N key = true) : N ≤ key.round :=
  of_decide_eq_true h

/-- Two graphs have moved on from where a block began, and one of them waits for the other. -/
def AwaitsFrom (N first limit : Nat) (late : BlockGraph → Prop) (quiet : BlockID → Prop)
    (g₀ g₀' g g' : Graph) : Prop :=
  ¬ Overshoots N first limit (g₀.blocks.map BlockInfo.data) late g →
    Awaits N first limit late quiet g g' ∧
      g.blocks.map BlockInfo.data ⊆ g₀.blocks.map BlockInfo.data ∧ Follows g₀ g ∧ Follows g₀' g'

theorem Follows.deliver (h : Follows g₀ g) (hdeliver : deliver g d = .ok t) :
    Follows g₀ t := h.elim fun _ hadvances => ⟨_, hadvances.trans (advances_of_deliver hdeliver)⟩

theorem Follows.observe (h : Follows g₀ g) (ev : Event) : Follows g₀ (host.observe g ev) :=
  h.elim fun _ hadvances => ⟨_, hadvances.trans (Advances.observe g ev)⟩

/-- A graph that waits keeps up with the other one until that goes too far. -/
theorem guides_awaits (hreach : first + limit = N) (g₀ g₀' : Graph) :
    Guides host host (fromRound N) (AwaitsFrom N first limit late quiet g₀ g₀')
      (Overshoots N first limit (g₀.blocks.map BlockInfo.data) late) := by
  have hlasts : host.Lasts (Overshoots N first limit (g₀.blocks.map BlockInfo.data) late) :=
    overshoots_lasts hreach
  refine ⟨⟨?_, ?_, ?_, ?_, ?_⟩, hlasts, ?_, ?_⟩
  · intro g g' ev h hkept
    obtain ⟨hawaits, hheld, hfollows, hfollows'⟩ := h hkept
    refine ⟨{ hawaits with paired := hawaits.paired.observe_left ev }, hheld, hfollows.observe ev, hfollows'⟩
  · intro g g' ev h hkept
    obtain ⟨hawaits, hheld, hfollows, hfollows'⟩ := h hkept
    refine ⟨{ hawaits with paired := hawaits.paired.observe_right ev }, hheld, hfollows, hfollows'.observe ev⟩
  · intro g g' d t h hdrop hdeliver hkept
    obtain ⟨hawaits, hheld, hfollows, hfollows'⟩ := h fun hover => hkept (hlasts.deliver hover hdeliver)
    obtain ⟨hawaits', hheld'⟩ :=
      (hawaits.deliver_left hheld (lt_of_fromRound hdrop) hdeliver).resolve_left hkept
    exact ⟨hawaits', hheld', hfollows.deliver hdeliver, hfollows'⟩
  · intro g g' d t' h hdrop hdeliver hkept
    obtain ⟨hawaits, hheld, hfollows, hfollows'⟩ := h hkept
    cases (deliver_of_lt (hawaits.waiting ▸ lt_of_fromRound hdrop)).symm.trans hdeliver
    exact ⟨hawaits, hheld, hfollows, hfollows'⟩
  · intro g g' d t t' h hkeep hdeliver hdeliver' hkept
    obtain ⟨hawaits, hheld, hfollows, hfollows'⟩ := h fun hover => hkept (hlasts.deliver hover hdeliver)
    obtain ⟨rfl, hnoted⟩ := hawaits.deliver_both (le_of_fromRound hkeep) hdeliver hkept
    cases hnoted.symm.trans hdeliver'
    refine ⟨hawaits.noted (le_of_fromRound hkeep), ?_, hfollows.deliver hdeliver, hfollows'.deliver hdeliver'⟩
    rw [(g.noted_frame d).2.2.1]
    exact hheld
  · intro g g' d h hkept hdrop
    exact ⟨g', deliver_of_lt ((h hkept).1.waiting ▸ lt_of_fromRound hdrop)⟩
  · intro g g' d t h hkeep hdeliver hkept
    have hawaits := (h fun hover => hkept (hlasts.deliver hover hdeliver)).1
    exact ⟨_, (hawaits.deliver_both (le_of_fromRound hkeep) hdeliver hkept).2⟩

/-- Two graphs have moved on side by side from where a block began. -/
def AbreastFrom (N first : Nat) (base : List (Nat × List BlockID)) (late : BlockGraph → Prop)
    (quiet : BlockID → Prop) (g₀ g₀' g g' : Graph) : Prop :=
  ¬ 2 ^ 64 ≤ first + g.callbacks.length →
    Abreast N first base late quiet g g' ∧ Follows g₀ g ∧ Follows g₀' g'

/-- A graph keeps up with the one beside it until the count of rounds has no room. -/
theorem guides_abreast (g₀ g₀' : Graph) :
    Guides host host (fromRound N) (AbreastFrom N first base late quiet g₀ g₀')
      (fun g => 2 ^ 64 ≤ first + g.callbacks.length) := by
  have hlasts : host.Lasts (fun g => 2 ^ 64 ≤ first + g.callbacks.length) := by
    refine ⟨fun _ h => h, fun {g d t} h hdeliver => ?_⟩
    have := (advances_of_deliver hdeliver).callbacks
    omega
  refine ⟨⟨?_, ?_, ?_, ?_, ?_⟩, hlasts, ?_, ?_⟩
  · intro g g' ev h hkept
    obtain ⟨habreast, hfollows, hfollows'⟩ := h hkept
    exact ⟨{ habreast with paired := habreast.paired.observe_left ev }, hfollows.observe ev, hfollows'⟩
  · intro g g' ev h hkept
    obtain ⟨habreast, hfollows, hfollows'⟩ := h hkept
    exact ⟨{ habreast with paired := habreast.paired.observe_right ev }, hfollows, hfollows'.observe ev⟩
  · intro g g' d t h hdrop hdeliver hkept
    have h := h fun hover => hkept (hlasts.deliver hover hdeliver)
    cases (deliver_of_lt ((lt_of_fromRound hdrop).trans_le h.1.past)).symm.trans hdeliver
    exact h
  · intro g g' d t' h hdrop hdeliver hkept
    have h := h hkept
    cases (deliver_of_lt ((lt_of_fromRound hdrop).trans_le (h.1.level.symm ▸ h.1.past))).symm.trans hdeliver
    exact h
  · intro g g' d t t' h hkeep hdeliver hdeliver' hkept
    obtain ⟨habreast, hfollows, hfollows'⟩ := h fun hover => hkept (hlasts.deliver hover hdeliver)
    obtain ⟨t'', hboth, hnext⟩ := habreast.deliver_both (le_of_fromRound hkeep) hdeliver (not_le.mp hkept)
    cases hboth.symm.trans hdeliver'
    exact ⟨hnext, hfollows.deliver hdeliver, hfollows'.deliver hdeliver'⟩
  · intro g g' d h hkept hdrop
    have habreast := (h hkept).1
    exact ⟨g', deliver_of_lt ((lt_of_fromRound hdrop).trans_le (habreast.level.symm ▸ habreast.past))⟩
  · intro g g' d t h hkeep hdeliver hkept
    have habreast := (h fun hover => hkept (hlasts.deliver hover hdeliver)).1
    obtain ⟨t', hboth, -⟩ := habreast.deliver_both (le_of_fromRound hkeep) hdeliver (not_le.mp hkept)
    exact ⟨t', hboth⟩

end Graph

end Blockmania
