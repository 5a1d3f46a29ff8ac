/-
# What a graph remembers

For every block a graph records a bound: the highest round that the block or a
block it builds on is known to mention. A state is forgotten with the own block
that brought it in, once that block's bound is delivered. A block that reaches
back to a block of some round, through predecessors and references, therefore
keeps its state until the round is delivered.
-/

import Blockmania.Graph.Chains

namespace Blockmania

open Math List FiniteMap
open BlockGraph (actions entries)

/-- A block is of `round` or a later one, or builds on one that is. -/
inductive Reaches (es : List Entry) (round : Nat) : BlockID → Prop
  | here {e : Entry} (he : e ∈ es) (hround : round ≤ e.block.round) : Reaches es round e.block
  | dep {e : Entry} {b : BlockID} (he : e ∈ es) (hb : b ∈ e.deps) (h : Reaches es round b) :
      Reaches es round e.block

variable {peers : List Nat} {es : List Entry} {round : Nat}

theorem Reaches.valid (hcausal : Causal peers es) {b : BlockID} (h : Reaches es round b) :
    b.valid = true := by
  cases h with
  | here he => exact (hcausal.wellFormed _ he).valid
  | dep he => exact (hcausal.wellFormed _ he).valid

/-- A block that reaches a round is of such a round itself, or references a block
that does and comes before it. -/
theorem Reaches.cases_of_split (hcausal : Causal peers es) {done rest : List Entry} {e : Entry}
    (hsplit : es = done ++ e :: rest) (h : Reaches es round e.block) :
    round ≤ e.block.round ∨ ∃ e' ∈ done, e'.block ∈ e.deps ∧ Reaches es round e'.block := by
  have hmem : e ∈ es := by simp [hsplit]
  generalize hblock : e.block = block at h
  cases h with
  | here he hround => exact .inl hround
  | @dep e' b he hb hreach =>
    obtain rfl : e = e' := inj_on_of_nodup_map hcausal.nodup hmem he hblock
    obtain ⟨e'', he'', rfl⟩ :=
      mem_map.mp (hcausal.closed done e rest hsplit b hb (hreach.valid hcausal))
    exact .inr ⟨e'', he'', hb, hreach⟩

/-- The entries that actions have registered, in order. -/
def registered (acts : List Action) : List Entry :=
  acts.flatMap fun
    | .register bg => bg.entries
    | .process _ => []

theorem registered_append (acts acts' : List Action) :
    registered (acts ++ acts') = registered acts ++ registered acts' := flatMap_append

theorem registered_concat_register (acts : List Action) (bg : BlockGraph) :
    registered (acts ++ [.register bg]) = registered acts ++ bg.entries :=
  (registered_append _ _).trans (congrArg (registered acts ++ ·) (append_nil _))

theorem registered_concat_process (acts : List Action) (e : Entry) :
    registered (acts ++ [.process e]) = registered acts :=
  (registered_append _ _).trans (append_nil _)

/-- Interpreting entries registers none. -/
theorem registered_process (es : List Entry) : registered (es.map .process) = [] := by
  induction es with
  | nil => rfl
  | cons e es ih => exact ih

theorem registered_actions (bgs : List BlockGraph) :
    registered (bgs.flatMap actions) = bgs.flatMap entries := by
  induction bgs with
  | nil => rfl
  | cons bg bgs ih =>
    rw [flatMap_cons, flatMap_cons, registered_append, ih]
    change (bg.entries ++ registered (bg.entries.map .process)) ++ _ = _
    rw [registered_process, append_nil]

/-- The run loop interprets what it has registered, in the same order. -/
theorem interpreted_prefix_registered (bgs : List BlockGraph) :
    ∀ done rest, bgs.flatMap actions = done ++ rest →
      interpreted done <+: registered done := by
  have hentries (es : List Entry) :
      interpreted (es.map .process) = es ∧ registered (es.map .process) = [] := by
    induction es with
    | nil => exact ⟨rfl, rfl⟩
    | cons e es ih => exact ⟨congrArg (e :: ·) ih.1, ih.2⟩
  induction bgs with
  | nil =>
    intro done rest h
    obtain ⟨rfl, -⟩ := append_eq_nil_iff.mp h.symm
    exact prefix_rfl
  | cons bg bgs ih =>
    intro done rest h
    rw [flatMap_cons] at h
    rcases append_eq_append_iff.mp h with ⟨more, rfl, hrest⟩ | ⟨more, hbg, -⟩
    · -- the iteration is complete
      obtain ⟨hinterpreted, hregistered⟩ := hentries bg.entries
      have hfirst : interpreted bg.actions = bg.entries := hinterpreted
      have hsecond : registered bg.actions = bg.entries := by
        change bg.entries ++ registered (bg.entries.map .process) = _
        rw [hregistered, append_nil]
      rw [interpreted_append, registered_append, hfirst, hsecond]
      exact (prefix_append_right_inj _).mpr (ih more rest hrest)
    · -- the iteration is under way
      cases done with
      | nil => exact prefix_rfl
      | cons a done =>
        obtain ⟨rfl, htail⟩ := List.cons.inj hbg
        obtain ⟨front, back, hsplit, rfl, -⟩ := map_eq_append_iff.mp htail
        obtain ⟨hinterpreted, hregistered⟩ := hentries front
        change interpreted (front.map .process) <+: bg.entries ++ registered (front.map .process)
        rw [hinterpreted, hregistered, append_nil, hsplit]
        exact prefix_append front back

namespace Graph

/-- One turn of the loop of `knownMax`. -/
def noteMax (max : FiniteMap BlockID Nat) (acc : Nat × Bool) (id : BlockID) : Nat × Bool :=
  match max[id]? with
  | some m => (if m > acc.1 then m else acc.1, acc.2)
  | none => (acc.1, true)

theorem knownMax_spec (max : FiniteMap BlockID Nat) (ids : List BlockID) (start : Nat) :
    start ≤ (knownMax max ids start).1 ∧
      ∀ b ∈ ids, ∀ m, max[b]? = some m → m ≤ (knownMax max ids start).1 := by
  have hfold : ∀ acc : Nat × Bool, acc.1 ≤ (ids.foldl (noteMax max) acc).1 ∧
      ∀ b ∈ ids, ∀ m, max[b]? = some m → m ≤ (ids.foldl (noteMax max) acc).1 := by
    induction ids with
    | nil => exact fun acc => ⟨le_rfl, by simp⟩
    | cons id ids ih =>
      intro acc
      rw [foldl_cons, noteMax]
      cases hid : max[id]? with
      | none =>
        obtain ⟨hacc, hids⟩ := ih (acc.1, true)
        refine ⟨hacc, fun b hb m hm => ?_⟩
        rcases mem_cons.mp hb with rfl | hb
        · rw [hid] at hm
          cases hm
        · exact hids b hb m hm
      | some k =>
        obtain ⟨hacc, hids⟩ := ih (if k > acc.1 then k else acc.1, acc.2)
        have hk : acc.1 ≤ (if k > acc.1 then k else acc.1) ∧
            k ≤ (if k > acc.1 then k else acc.1) := by split <;> omega
        refine ⟨hk.1.trans hacc, fun b hb m hm => ?_⟩
        rcases mem_cons.mp hb with rfl | hb
        · rw [hid] at hm
          cases hm
          exact hk.2.trans hacc
        · exact hids b hb m hm
  exact hfold (start, false)

/-- A bound is at least where it starts and at least the bounds of the links. -/
theorem boundOf_spec (g : Graph) (round : Nat) (links : List BlockID) (start : Nat) :
    start ≤ g.boundOf round links start ∧
      ∀ b ∈ links, ∀ m, g.max[b]? = some m → m ≤ g.boundOf round links start := by
  obtain ⟨hstart, hlinks⟩ := knownMax_spec g.max links start
  have hbound : (knownMax g.max links start).1 ≤ g.boundOf round links start := by
    unfold boundOf
    dsimp only
    split
    · rename_i hcheck
      exact hcheck.2.le
    · exact le_rfl
  exact ⟨hstart.trans hbound, fun b hb m hm => (hlinks b hb m hm).trans hbound⟩

section Bounds

/-- The registered blocks that reach a round have a bound of that round. -/
def HasBounds (es : List Entry) (round : Nat) (done : List Entry) (g : Graph) : Prop :=
  ∀ e ∈ done, Reaches es round e.block → ∃ m, g.max[e.block]? = some m ∧ round ≤ m

/-- The first loop of `run` bounds the referenced blocks. -/
theorem boundDeps_spec (hcausal : Causal peers es) (minround : Nat) (deps : List Dep) :
    ∀ (start : Nat) {done rest : List Entry} {g : Graph},
      es = done ++ (deps.map Dep.entry ++ rest) → HasBounds es round done g →
      start ≤ (boundDeps g minround deps start).2 ∧
      HasBounds es round (done ++ deps.map Dep.entry) (boundDeps g minround deps start).1 ∧
      (∀ dep ∈ deps, ∀ m, (boundDeps g minround deps start).1.max[dep.block]? = some m →
        m ≤ (boundDeps g minround deps start).2) ∧
      ∀ b, b ∉ deps.map Dep.block →
        (boundDeps g minround deps start).1.max[b]? = g.max[b]? := by
  induction deps with
  | nil =>
    intro start done rest g _ hbounds
    rw [map_nil, append_nil]
    exact ⟨le_rfl, hbounds, by simp, fun _ _ => rfl⟩
  | cons dep deps ih =>
    intro start done rest g hsplit hbounds
    obtain ⟨hfloor, hlinks⟩ := boundOf_spec g minround dep.links dep.block.round
    generalize hbound : g.boundOf minround dep.links dep.block.round = bound at hfloor hlinks
    have hstep : boundDeps g minround (dep :: deps) start =
        boundDeps { g with max := g.max.insert dep.block bound } minround deps
          (if bound > start then bound else start) := by
      rw [← hbound]
      rfl
    obtain ⟨hbefore, hafter⟩ := hcausal.block_ne hsplit
    have hnext : HasBounds es round (done ++ [dep.entry])
        { g with max := g.max.insert dep.block bound } := by
      intro e he hreach
      rcases mem_append.mp he with he | he
      · obtain ⟨m, hm, hle⟩ := hbounds e he hreach
        exact ⟨m, (lookup_insert_of_ne _ (hbefore e he).symm _).trans hm, hle⟩
      · obtain rfl := mem_singleton.mp he
        refine ⟨bound, lookup_insert_self _ _ _, ?_⟩
        rcases hreach.cases_of_split hcausal hsplit with hround | ⟨e', he', hdep, hreach'⟩
        · exact hround.trans hfloor
        · obtain ⟨m, hm, hle⟩ := hbounds e' he' hreach'
          exact hle.trans (hlinks e'.block hdep m hm)
    have hstart : start ≤ (if bound > start then bound else start) ∧
        bound ≤ (if bound > start then bound else start) := by split <;> omega
    have hsplit' : es = (done ++ [dep.entry]) ++ (deps.map Dep.entry ++ rest) :=
      hsplit.trans (append_cons _ _ _)
    have hrest := ih (if bound > start then bound else start) hsplit' hnext
    rw [← hstep, append_assoc] at hrest
    obtain ⟨hle, hbounds', hdeps, hframe⟩ := hrest
    refine ⟨hstart.1.trans hle, hbounds', fun dep' hdep' m hm => ?_, fun b hb => ?_⟩
    · rcases mem_cons.mp hdep' with rfl | hdep'
      · have hfresh : dep'.block ∉ deps.map Dep.block := by
          intro hmem
          obtain ⟨other, hother, heq⟩ := mem_map.mp hmem
          exact hafter other.entry (mem_append_left _ (mem_map_of_mem hother)) heq
        rw [hframe _ hfresh, lookup_insert_self] at hm
        cases hm
        exact hstart.2.trans hle
      · exact hdeps dep' hdep' m hm
    · rw [map_cons, mem_cons, not_or] at hb
      rw [hframe b hb.2, lookup_insert_of_ne _ (Ne.symm hb.1)]

/-- What is remembered of the blocks that reach a round: their bounds, if they
were registered, and their states, if they were interpreted. -/
structure Remembers (es : List Entry) (round : Nat) (known done : List Entry) (g : Graph) : Prop where
  bounds : HasBounds es round known g
  gone : ∀ info ∈ g.blocks, ∀ b ∈ info.gone, b ∈ known.map Entry.block ∧
    ∀ m, g.max[b]? = some m → m ≤ info.max
  states : ∀ e ∈ done, Reaches es round e.block → (g.statess[e.block]?).isSome

variable {done known : List Entry} {g : Graph} {first limit : Nat}

/-- The bookkeeping for an own block forgets nothing. -/
theorem remembers_register (hcausal : Causal peers es) {rest : List Entry} {bg : BlockGraph}
    (hsplit : es = known ++ (bg.entries ++ rest)) (h : Remembers es round known done g) :
    Remembers es round (known ++ bg.entries) done (g.register bg) := by
  have hdeps : es = known ++ (bg.deps.map Dep.entry ++ (bg.entry :: rest)) := by
    rw [hsplit, entries, append_assoc]
    rfl
  have hown : es = (known ++ bg.deps.map Dep.entry) ++ bg.entry :: rest := by
    rw [hdeps, append_assoc]
  obtain ⟨hle, hbounds, hmax, hframe⟩ :=
    boundDeps_spec hcausal g.round bg.deps bg.block.round hdeps h.bounds
  obtain ⟨hbefore, -⟩ := hcausal.block_ne hown
  have hwf := hcausal.wellFormed bg.entry (by simp [hown])
  have hknown : ∀ e ∈ known, e.block ∉ bg.deps.map Dep.block := by
    intro e he hmem
    obtain ⟨dep, hdep, heq⟩ := mem_map.mp hmem
    have hnodup := hcausal.nodup
    rw [hdeps, map_append, map_append, nodup_append'] at hnodup
    refine hnodup.2.2 (mem_map_of_mem he) (mem_append_left _ ?_)
    exact heq ▸ mem_map_of_mem (mem_map_of_mem hdep)
  obtain ⟨max, hmax'⟩ := boundDeps_eq bg.deps g g.round bg.block.round
  unfold register
  dsimp only
  generalize boundDeps g g.round bg.deps bg.block.round = result at *
  obtain ⟨g₁, start⟩ := result
  dsimp only at hle hbounds hmax hframe hmax' ⊢
  subst hmax'
  obtain ⟨hfloor, hlinks⟩ := boundOf_spec { g with max } g.round
    (if bg.block.round ≠ 1 then [bg.prev] else []) start
  generalize boundOf { g with max } g.round (if bg.block.round ≠ 1 then [bg.prev] else []) start =
    bound at *
  refine ⟨fun e he hreach => ?_, fun info hinfo b hb => ?_, h.states⟩
  · rcases mem_append.mp (append_assoc known _ _ ▸ he) with he | he
    · obtain ⟨m, hm, hround⟩ := hbounds e he hreach
      exact ⟨m, (lookup_insert_of_ne _ (hbefore e he).symm _).trans hm, hround⟩
    · obtain rfl := mem_singleton.mp he
      refine ⟨bound, lookup_insert_self _ _ _, ?_⟩
      rcases hreach.cases_of_split hcausal hown with hround | ⟨e', he', hdep, hreach'⟩
      · exact (hround.trans hle).trans hfloor
      obtain ⟨m, hm, hround⟩ := hbounds e' he' hreach'
      rcases mem_cons.mp hdep with hprev | hdep
      · have hlater : bg.block.round ≠ 1 := by
          intro hfirst
          have hinvalid := hwf.first hfirst
          rw [← show e'.block = bg.entry.prev from hprev, hreach'.valid hcausal] at hinvalid
          cases hinvalid
        refine hround.trans (hlinks bg.prev (by simp [hlater]) m ?_)
        rw [← hprev]
        exact hm
      · obtain ⟨dep, hdep, heq⟩ := mem_map.mp hdep
        exact (hround.trans (hmax dep hdep m (heq ▸ hm))).trans hfloor
  · rcases mem_append.mp hinfo with hinfo | hinfo
    · obtain ⟨hmem, hgone⟩ := h.gone info hinfo b hb
      obtain ⟨e, he, rfl⟩ := mem_map.mp hmem
      refine ⟨mem_map_of_mem (mem_append_left _ he), fun m hm => hgone m ?_⟩
      rw [← hframe e.block (hknown e he), ← hm]
      exact (lookup_insert_of_ne _ (hbefore e (mem_append_left _ he)).symm _).symm
    · obtain rfl := mem_singleton.mp hinfo
      rcases mem_cons.mp hb with rfl | hb
      · refine ⟨mem_map.mpr ⟨bg.entry, by simp [entries], rfl⟩, fun m hm => ?_⟩
        rw [lookup_insert_self] at hm
        exact (Option.some.inj hm).ge
      · obtain ⟨dep, hdep, rfl⟩ := mem_map.mp hb
        have hmem : dep.entry ∈ known ++ bg.deps.map Dep.entry :=
          mem_append_right _ (mem_map_of_mem hdep)
        refine ⟨mem_map.mpr ⟨dep.entry, ?_, rfl⟩, fun m hm => ?_⟩
        · rw [entries, ← append_assoc]
          exact mem_append_left _ hmem
        · have hne : bg.block ≠ dep.block := (hbefore dep.entry hmem).symm
          exact (hmax dep hdep m ((lookup_insert_of_ne _ hne _).symm.trans hm)).trans hfloor

/-- Delivered rounds forget nothing that reaches a later round. -/
theorem remembers_rounds (hlimit : first + limit ≤ round) (hdone : ∀ e ∈ done, e ∈ known)
    {g' : Graph} (h : Rounds g g') (hround : g.round = u64 (first + g.callbacks.length))
    (hcount : g'.callbacks.length ≤ limit) (hremembers : Remembers es round known done g) :
    Remembers es round known done g' := by
  induction h with
  | none => exact hremembers
  | @next g mid g' hashes consumed hresolved hfull consumes rest ih =>
    have hcallbacks := rest.advances.callbacks
    simp only [length_append, length_singleton, consumes.callbacks] at hcallbacks
    have hbelow : g.round < round := by
      have hmod : u64 (first + g.callbacks.length) ≤ first + g.callbacks.length := Nat.mod_le _ _
      omega
    have hkept : ∀ e ∈ known, Reaches es round e.block →
        mid.max[e.block]? = g.max[e.block]? ∧ mid.statess[e.block]? = g.statess[e.block]? := by
      intro e he hreach
      rcases consumes.lookup e.block with hsame | ⟨-, -, info, hinfo, hmax, hgone⟩
      · exact hsame
      · obtain ⟨m, hm, hle⟩ := hremembers.bounds e he hreach
        have := (hremembers.gone info hinfo _ hgone).2 m hm
        omega
    apply ih
    · simp only [length_append, length_singleton, consumes.callbacks, consumes.round]
      rw [hround, u64_succ, Nat.add_assoc]
    · exact hcount
    refine ⟨fun e he hreach => ?_, fun info hinfo b hb => ?_, fun e he hreach => ?_⟩
    · obtain ⟨m, hm, hle⟩ := hremembers.bounds e he hreach
      exact ⟨m, (hkept e he hreach).1.trans hm, hle⟩
    · obtain ⟨hmem, hgone⟩ := hremembers.gone info (consumes.blocks.subset hinfo) b hb
      refine ⟨hmem, fun m hm => ?_⟩
      rcases consumes.lookup b with ⟨hsame, -⟩ | ⟨hnone, -⟩
      · exact hgone m (hsame.symm.trans hm)
      · cases hnone.symm.trans hm
    · change (mid.statess[e.block]?).isSome
      rw [(hkept e (hdone e he) hreach).2]
      exact hremembers.states e he hreach

/-- Interpreting a block forgets nothing that reaches a later round than those
delivered meanwhile. -/
theorem remembers_process (hlimit : first + limit ≤ round) (hdone : ∀ e ∈ done, e ∈ known)
    (e : Entry) (hround : g.round = u64 (first + g.callbacks.length))
    (h : g.callbacks.length ≤ limit → Remembers es round known done g) :
    Ensures (process g e)
      (fun g' => g'.callbacks.length ≤ limit → Remembers es round known (done ++ [e]) g')
      (fun _ => True) := by
  have hinterpret := host_interpret (fun g => g.round = u64 (first + g.callbacks.length) ∧
    (g.callbacks.length ≤ limit → Remembers es round known done g)) (fun g ev hg => ?_)
    (fun g d g' hg hdeliver => ?_) g.params g.round g.heap g.statess[e.prev]? e ⟨hround, h⟩
  · apply ensures_process
    refine (hinterpret.mono fun r hr hcount => ?_).weaken fun _ _ => trivial
    obtain ⟨hbounds, hgone, hstates⟩ := hr.2 hcount
    refine ⟨hbounds, hgone, fun e' he' hreach => ?_⟩
    rw [store, lookup_insert]
    split
    · rfl
    · rename_i hne
      rcases mem_append.mp he' with he' | he'
      · exact hstates e' he' hreach
      · exact absurd (congrArg Entry.block (mem_singleton.mp he')).symm hne
  · exact ⟨hg.1, fun hcount => ⟨(hg.2 hcount).bounds, (hg.2 hcount).gone, (hg.2 hcount).states⟩⟩
  · have hadvances := advances_of_deliver hdeliver
    refine ⟨hadvances.round first hg.1, fun hcount => ?_⟩
    have hbefore := hg.2 (hadvances.callbacks.trans hcount)
    rcases rounds_of_deliver hdeliver with hrounds | ⟨-, hrounds⟩
    · exact remembers_rounds hlimit hdone hrounds hg.1 hcount hbefore
    · exact remembers_rounds hlimit hdone hrounds hg.1 hcount
        ⟨hbefore.bounds, hbefore.gone, hbefore.states⟩

end Bounds

variable {bgs : List BlockGraph} {lastInterpreted : Nat} {p : Params}

/-- A run remembers the blocks that reach a round until it is delivered. -/
theorem remembers_actAll {limit : Nat} {done rest : List Action}
    (hcausal : Causal p.peers (bgs.flatMap entries))
    (hlimit : lastInterpreted + 1 + limit ≤ round)
    (hsplit : bgs.flatMap actions = done ++ rest) :
    Ensures (actAll (new p lastInterpreted) done) (fun g => g.callbacks.length ≤ limit →
      Remembers (bgs.flatMap entries) round (registered done) (interpreted done) g)
      (fun _ => True) := by
  apply ensures_actAll fun done g => g.callbacks.length ≤ limit →
    Remembers (bgs.flatMap entries) round (registered done) (interpreted done) g
  · intro before a after mid hbefore hrun hmid
    have hacts := split_of_begins hsplit hbefore
    have hbegins := interpreted_prefix_registered bgs before _ hacts
    cases a with
    | register bg =>
      have hcallbacks : (mid.register bg).callbacks = mid.callbacks := by rw [register_eq]
      intro hcount
      rw [hcallbacks] at hcount
      rw [interpreted_register, registered_concat_register]
      have hentries : bgs.flatMap entries =
          registered before ++ (bg.entries ++ registered (after ++ rest)) := by
        rw [← registered_actions, hacts, registered_append]
        rfl
      exact remembers_register hcausal hentries (hmid hcount)
    | process e =>
      rw [interpreted_process, registered_concat_process]
      exact remembers_process hlimit (fun e he => hbegins.subset he) e
        ((round_actAll p lastInterpreted before).of_ok hrun) hmid
  · exact fun _ => ⟨by simp [HasBounds, registered], by simp [new], by simp [interpreted]⟩

/-- A run keeps the states of blocks that reach a round until it is delivered,
and prunes nothing of it. -/
theorem preserves_reaches (hcausal : Causal p.peers (bgs.flatMap entries))
    (hround : lastInterpreted + 1 ≤ round) :
    Preserves (new p lastInterpreted) (bgs.flatMap actions) round
      (round - (lastInterpreted + 1)) (Reaches (bgs.flatMap entries) round) := by
  intro done rest g hsplit hrun hcount
  have hlimit : lastInterpreted + 1 + (round - (lastInterpreted + 1)) ≤ round := by omega
  refine ⟨?_, ((remembers_actAll hcausal hlimit hsplit).of_ok hrun hcount).states⟩
  rw [(round_actAll p lastInterpreted done).of_ok hrun]
  have hmod : u64 (lastInterpreted + 1 + g.callbacks.length) ≤
    lastInterpreted + 1 + g.callbacks.length := Nat.mod_le _ _
  omega

end Graph

end Blockmania
