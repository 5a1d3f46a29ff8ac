/-
# Runs of a graph

The run loop registers an own block and then interprets the blocks it references
and the block itself. Cut into these actions, a run has a prefix for every block
that was interpreted, and facts about runs are proved one action at a time.

While a block is interpreted, decided values are delivered and rounds may be
handed to the callback. Delivering forgets states and never changes the ones it
keeps, and it forgets nothing unless the callback is called.
-/

import Blockmania.Graph.Run
import Blockmania.Interpreter.Loops

namespace Blockmania

open Math List FiniteMap

/-- What the run loop does to a graph. -/
inductive Action
  /-- The bookkeeping for an own block. -/
  | register (bg : BlockGraph)
  /-- The interpretation of a block. -/
  | process (e : Entry)

/-- The entry an action interprets. -/
def Action.entry? : Action → Option Entry
  | .register _ => none
  | .process e => some e

/-- The entries that actions interpret, in order. -/
def interpreted (acts : List Action) : List Entry := acts.filterMap Action.entry?

theorem interpreted_append (acts acts' : List Action) :
    interpreted (acts ++ acts') = interpreted acts ++ interpreted acts' := filterMap_append

theorem interpreted_split {acts done rest : List Action} {e : Entry}
    (hsplit : acts = done ++ .process e :: rest) :
    interpreted acts = interpreted done ++ e :: interpreted rest := by
  rw [hsplit, interpreted_append]
  rfl

theorem interpreted_register (done : List Action) (bg : BlockGraph) :
    interpreted (done ++ [.register bg]) = interpreted done := by
  simp [interpreted, Action.entry?]

theorem interpreted_process (done : List Action) (e : Entry) :
    interpreted (done ++ [.process e]) = interpreted done ++ [e] := by
  simp [interpreted, Action.entry?]

/-- What one iteration of the run loop interprets. -/
def BlockGraph.entries (bg : BlockGraph) : List Entry := bg.deps.map Dep.entry ++ [bg.entry]

/-- One iteration of the run loop. -/
def BlockGraph.actions (bg : BlockGraph) : List Action :=
  .register bg :: bg.entries.map .process

theorem interpreted_actions (bgs : List BlockGraph) :
    interpreted (bgs.flatMap BlockGraph.actions) = bgs.flatMap BlockGraph.entries := by
  have hentries (es : List Entry) : interpreted (es.map .process) = es := by
    induction es with
    | nil => rfl
    | cons e es ih => exact congrArg (e :: ·) ih
  induction bgs with
  | nil => rfl
  | cons bg bgs ih =>
    rw [flatMap_cons, flatMap_cons, interpreted_append, ih]
    exact congrArg (· ++ _) (hentries bg.entries)

namespace Graph

def act (g : Graph) : Action → Except (Halt Graph) Graph
  | .register bg => .ok (g.register bg)
  | .process e => g.process e

def actAll (g : Graph) : List Action → Except (Halt Graph) Graph
  | [] => .ok g
  | a :: acts => do
    let g ← act g a
    actAll g acts

theorem actAll_append (acts acts' : List Action) :
    ∀ g : Graph, actAll g (acts ++ acts') = actAll g acts >>= fun g => actAll g acts' := by
  induction acts with
  | nil => exact fun g => rfl
  | cons a acts ih =>
    intro g
    change (act g a >>= fun g => actAll g (acts ++ acts')) = _
    rw [funext ih]
    exact (bind_assoc _ _ _).symm

/-- The run loop is its actions one after another. -/
theorem addAll_eq_actAll (bgs : List BlockGraph) :
    ∀ g : Graph, addAll g bgs = actAll g (bgs.flatMap BlockGraph.actions) := by
  have hentries (es : List Entry) : ∀ g : Graph, processAll g es = actAll g (es.map .process) := by
    induction es with
    | nil => exact fun g => rfl
    | cons e es ih => exact fun g => bind_congr ih
  induction bgs with
  | nil => exact fun g => rfl
  | cons bg bgs ih =>
    intro g
    rw [flatMap_cons, actAll_append]
    change (processAll (register g bg) bg.entries >>= fun g => addAll g bgs) = _
    rw [hentries, funext ih]
    rfl

variable {acts : List Action}

/-- The rule for runs. The invariant may depend on the actions taken. -/
theorem ensures_actAll {g : Graph} (inv : List Action → Graph → Prop) {fail : Halt Graph → Prop}
    (hstep : ∀ done a rest mid, acts = done ++ a :: rest → actAll g done = .ok mid → inv done mid →
      Ensures (act mid a) (inv (done ++ [a])) fail) (hstart : inv [] g) :
    Ensures (actAll g acts) (inv acts) fail := by
  have hrest : ∀ rest done mid, acts = done ++ rest → actAll g done = .ok mid → inv done mid →
      Ensures (actAll mid rest) (inv acts) fail := by
    intro rest
    induction rest with
    | nil =>
      intro done mid hsplit _ hinv
      rw [hsplit, append_nil]
      exact hinv
    | cons a rest ih =>
      intro done mid hsplit hdone hinv
      have hact := (hstep done a rest mid hsplit hdone hinv).and_of_ok fun next hnext => hnext
      refine hact.bind fun next hnext => ?_
      refine ih (done ++ [a]) next (by simp [hsplit]) ?_ hnext.1
      rw [actAll_append, hdone]
      change (act mid a >>= fun g => actAll g []) = _
      rw [hnext.2]
      rfl
  exact hrest acts [] g rfl rfl hstart

/-- The rule for runs, where nothing is said of those that stop. -/
theorem holds_actAll {g : Graph} (inv : List Action → Graph → Prop)
    (hregister : ∀ done bg rest mid, acts = done ++ .register bg :: rest → actAll g done = .ok mid →
      inv done mid → inv (done ++ [.register bg]) (mid.register bg))
    (hprocess : ∀ done e rest mid next, acts = done ++ .process e :: rest → actAll g done = .ok mid →
      inv done mid → mid.process e = .ok next → inv (done ++ [.process e]) next) (hstart : inv [] g)
    : Ensures (actAll g acts) (inv acts) (fun _ => True) := by
  refine ensures_actAll inv (fun done a rest mid hsplit hdone h => ?_) hstart
  cases a with
  | register bg => exact hregister done bg rest mid hsplit hdone h
  | process e =>
    change Ensures (mid.process e) _ _
    cases hnext : mid.process e with
    | error halt => trivial
    | ok next => exact hprocess done e rest mid next hsplit hdone h hnext

/-- An action of a run that begins a longer one. -/
theorem split_of_begins {all rest done after : List Action} {a : Action} (hall : all = acts ++ rest)
    (hacts : acts = done ++ a :: after) :
    all = done ++ a :: (after ++ rest) := by
  simp [hall, hacts]

end Graph

/-- The blocks whose states go when an own block is consumed. -/
def BlockInfo.gone (info : BlockInfo) : List BlockID :=
  info.data.block :: info.data.deps.map Dep.block

namespace Graph

/-- Some of the given own blocks that mention no round past `bound` are
consumed. -/
structure Consumes (bound : Nat) (infos : List BlockInfo) (g g' : Graph) : Prop where
  params : g'.params = g.params
  heap : g'.heap = g.heap
  trace : g'.trace = g.trace
  round : g'.round = g.round
  resolved : g'.resolved = g.resolved
  callbacks : g'.callbacks = g.callbacks
  blocks : g'.blocks <:+ infos
  kept : ∀ info ∈ infos, bound < info.max → info ∈ g'.blocks
  lookup : ∀ b : BlockID, g'.max[b]? = g.max[b]? ∧ g'.statess[b]? = g.statess[b]? ∨
    (g'.max[b]? = none ∧ g'.statess[b]? = none ∧ ∃ info ∈ infos, info.max ≤ bound ∧ b ∈ info.gone)

theorem consume_spec (round : Nat) (infos : List BlockInfo) (consumed : Nat) (g : Graph) :
    Consumes round infos g (consume round infos consumed g).2 := by
  induction infos generalizing consumed g with
  | nil =>
    exact ⟨rfl, rfl, rfl, rfl, rfl, rfl, suffix_rfl, fun _ hinfo _ => hinfo,
      fun b => .inl ⟨rfl, rfl⟩⟩
  | cons info rest ih =>
    unfold consume
    split
    · exact ⟨rfl, rfl, rfl, rfl, rfl, rfl, suffix_rfl, fun _ hinfo _ => hinfo,
        fun b => .inl ⟨rfl, rfl⟩⟩
    rename_i hmax
    have hrest := ih (u64 (consumed + 1)) { g with
      max := info.gone.foldl (fun max b => max.erase b) g.max
      statess := info.gone.foldl (fun statess b => statess.erase b) g.statess }
    refine ⟨hrest.params, hrest.heap, hrest.trace, hrest.round, hrest.resolved, hrest.callbacks,
      hrest.blocks.trans (suffix_cons info rest), fun other hother hlarge => ?_, fun b => ?_⟩
    · rcases mem_cons.mp hother with rfl | hother
      · exact absurd hlarge hmax
      · exact hrest.kept other hother hlarge
    rcases hrest.lookup b with ⟨hmax', hstate⟩ | ⟨hmax', hstate, info', hinfo', hle, hgone⟩
    · simp only [lookup_eraseAll] at hmax' hstate
      by_cases hgone : b ∈ info.gone
      · rw [if_pos hgone] at hmax' hstate
        exact .inr ⟨hmax', hstate, info, mem_cons_self, not_lt.mp hmax, hgone⟩
      · rw [if_neg hgone] at hmax' hstate
        exact .inl ⟨hmax', hstate⟩
    · exact .inr ⟨hmax', hstate, info', mem_cons_of_mem _ hinfo', hle, hgone⟩

/-- One round is handed to the callback: the body of `deliverRound` without the
recursive call. -/
def report (g : Graph) (hashes : FiniteMap Nat Hash) : Option Graph :=
  match g.blocks with
  | [] => none
  | first :: rest =>
    let (consumed, g') := consume g.round (first :: rest) (u64 (first.data.block.round + (2 ^ 64 - 1)))
      { g with resolved := g.resolved.erase g.round }
    some { g' with
      round := u64 (g'.round + 1)
      callbacks := g'.callbacks ++ [⟨roundBlocks g.round hashes, consumed, g.round⟩] }

variable {hashes : FiniteMap Nat Hash}

/-- A report is a consumption with a call of the callback. -/
theorem report_eq_some {g g' : Graph} (h : g.report hashes = some g') :
    ∃ first rest consumed mid, g.blocks = first :: rest ∧
      consume g.round g.blocks (u64 (first.data.block.round + (2 ^ 64 - 1)))
        { g with resolved := g.resolved.erase g.round } = (consumed, mid) ∧
      g' = { mid with
        round := u64 (mid.round + 1)
        callbacks := mid.callbacks ++ [⟨roundBlocks g.round hashes, consumed, g.round⟩] } := by
  unfold report at h
  split at h
  · cases h
  rename_i first rest hblocks
  rw [← hblocks] at h
  exact ⟨first, rest, _, _, hblocks, rfl, (Option.some.inj h).symm⟩

/-- What a report consumes. -/
theorem consumes_of_report {g g' : Graph} (h : g.report hashes = some g') :
    ∃ consumed mid, Consumes g.round g.blocks { g with resolved := g.resolved.erase g.round } mid ∧
      g' = { mid with
        round := u64 (mid.round + 1)
        callbacks := mid.callbacks ++ [⟨roundBlocks g.round hashes, consumed, g.round⟩] } := by
  obtain ⟨first, rest, consumed, mid, -, hconsume, rfl⟩ := report_eq_some h
  have hconsumes := consume_spec g.round g.blocks (u64 (first.data.block.round + (2 ^ 64 - 1)))
    { g with resolved := g.resolved.erase g.round }
  rw [hconsume] at hconsumes
  exact ⟨consumed, mid, hconsumes, rfl⟩

/-- There is a report as long as there is an own block. -/
theorem exists_report {g : Graph} (hblocks : g.blocks ≠ []) (hashes : FiniteMap Nat Hash) :
    g.report hashes ≠ none := by
  unfold report
  cases hg : g.blocks with
  | nil => exact absurd hg hblocks
  | cons first rest => simp

/-- A round is reported, and then the next one, if all its values are known. -/
theorem deliverRound_succ (fuel : Nat) (g : Graph) (hashes : FiniteMap Nat Hash) :
    deliverRound (fuel + 1) g g.round hashes =
      match g.report hashes with
      | none => .error .noBlocks
      | some g' =>
        match g'.resolved[g'.round]? with
        | some hashes' =>
          if hashes'.size = g'.params.peerCount then deliverRound fuel g' g'.round hashes' else .ok g'
        | none => .ok g' := by
  obtain ⟨params, blocks, max, resolved, round, statess, heap, callbacks, trace⟩ := g
  simp only [deliverRound, report]
  cases blocks with
  | nil => rfl
  | cons first rest =>
    have hround := (consume_spec round (first :: rest) (u64 (first.data.block.round + (2 ^ 64 - 1)))
      ⟨params, first :: rest, max, resolved.erase round, round, statess, heap, callbacks, trace⟩).round
    dsimp only
    generalize consume round (first :: rest) _ _ = result at hround ⊢
    obtain ⟨consumed, mid⟩ := result
    dsimp only at hround ⊢
    rewrite [hround]
    cases mid.resolved[u64 (round + 1)]? with
    | none => rfl
    | some _ => rfl

/-- The decided value the graph holds for an instance of an undelivered round. -/
def known (g : Graph) (key : NodeRound) : Option Hash := (g.resolved[key.round]?.getD ∅)[key.node]?

/-- The graph with a decided value noted. -/
def note (g : Graph) (d : Delivery) : Graph :=
  let hashes := (g.resolved[d.key.round]?.getD ∅).insert d.key.node d.hash
  { g with resolved := g.resolved.insert d.key.round hashes }

/-- The graph with a decided value noted, unless the instance has one. -/
def noted (g : Graph) (d : Delivery) : Graph := if (g.known d.key).isSome then g else g.note d

/-- Deliver rounds, if `round` comes next and is complete. -/
def release (g : Graph) (round : Nat) : Except Crash Graph :=
  if round ≠ g.round then .ok g
  else match g.resolved[round]? with
    | some hashes =>
      if hashes.size = g.params.peerCount then deliverRound g.resolved.size g round hashes else .ok g
    | none => .ok g

/-- A delivery that does not come too late and contradicts nothing notes its value and then
delivers rounds. -/
theorem deliver_eq (g : Graph) (d : Delivery) :
    deliver g d = if d.key.round < g.round then .ok g
      else if g.known d.key = none ∨ g.known d.key = some d.hash then (g.noted d).release d.key.round
      else .error (.mismatchingHash d.key) := by
  unfold deliver
  dsimp only
  split
  · rfl
  cases hknown : g.known d.key with
  | none =>
    have hlookup : (g.resolved[d.key.round]?.getD ∅)[d.key.node]? = none := hknown
    have hnoted : g.noted d = g.note d := if_neg (by simp [hknown])
    rw [hlookup, if_pos (Or.inl rfl), hnoted]
    have hresolved : (g.note d).resolved[d.key.round]? =
        some ((g.resolved[d.key.round]?.getD ∅).insert d.key.node d.hash) :=
      lookup_insert_self _ _ _
    unfold release
    rw [hresolved]
    rfl
  | some hash =>
    have hlookup : (g.resolved[d.key.round]?.getD ∅)[d.key.node]? = some hash := hknown
    have hnoted : g.noted d = g := if_pos (by simp [hknown])
    rw [hlookup, hnoted]
    dsimp only
    by_cases hsame : hash = d.hash
    · rw [if_neg (not_not.mpr hsame), if_pos (Or.inr (by rw [hsame]))]
      cases hresolved : g.resolved[d.key.round]? with
      | none => simp [hresolved] at hlookup
      | some hashes =>
        unfold release
        rw [hresolved]
        rfl
    · rw [if_pos hsame, if_neg (by simp [hsame])]

/-- A delivery of a round that is over changes nothing. -/
theorem deliver_of_lt {g : Graph} {d : Delivery} (hd : d.key.round < g.round) : deliver g d = .ok g := by
  rw [deliver_eq, if_pos hd]

variable {round : Nat}

section Rules

variable {inv : Graph → Prop} {fail : Crash → Prop}

/-- Rounds are reported one after another. -/
theorem ensures_deliverRound (hreport : ∀ g hashes g', inv g → g.resolved[g.round]? = some hashes →
      hashes.size = g.params.peerCount → g.report hashes = some g' → inv g')
    (hempty : ∀ g hashes, inv g → g.resolved[g.round]? = some hashes →
      hashes.size = g.params.peerCount → g.report hashes = none → fail .noBlocks) (fuel : Nat) :
    ∀ {g : Graph} {round : Nat} {hashes : FiniteMap Nat Hash}, inv g → round = g.round →
      g.resolved[round]? = some hashes → hashes.size = g.params.peerCount →
      Ensures (deliverRound fuel g round hashes) inv fail := by
  induction fuel with
  | zero => exact fun hg _ _ _ => hg
  | succ fuel ih =>
    intro g round hashes hg hround hresolved hfull
    subst hround
    rw [deliverRound_succ]
    cases hnext : g.report hashes with
    | none => exact hempty g hashes hg hresolved hfull hnext
    | some g' =>
      have hg' := hreport g hashes g' hg hresolved hfull hnext
      dsimp only
      split
      · rename_i hashes' hresolved'
        split
        · rename_i hfull'
          exact ih hg' rfl hresolved' hfull'
        · exact hg'
      · exact hg'

/-- Rounds are reported if the given one comes next and is complete. -/
theorem ensures_release {g : Graph}
    (hreport : ∀ g hashes g', inv g → g.resolved[g.round]? = some hashes →
      hashes.size = g.params.peerCount → g.report hashes = some g' → inv g')
    (hempty : ∀ g hashes, inv g → g.resolved[g.round]? = some hashes →
      hashes.size = g.params.peerCount → g.report hashes = none → fail .noBlocks) (hg : inv g) :
    Ensures (g.release round) inv fail := by
  unfold release
  split
  · exact hg
  rename_i hround
  split
  · rename_i hashes hresolved
    split
    · rename_i hfull
      exact ensures_deliverRound hreport hempty _ hg (not_not.mp hround) hresolved hfull
    · exact hg
  · exact hg

/-- The rule for a delivery: it contradicts what is known, or it notes at most one value
and then reports rounds. -/
theorem ensures_deliver {g : Graph} {d : Delivery} (hnote : inv g → inv (g.note d))
    (hreport : ∀ g hashes g', inv g → g.resolved[g.round]? = some hashes →
      hashes.size = g.params.peerCount → g.report hashes = some g' → inv g')
    (hempty : ∀ g hashes, inv g → g.resolved[g.round]? = some hashes →
      hashes.size = g.params.peerCount → g.report hashes = none → fail .noBlocks)
    (hmismatch : ∀ hash, g.known d.key = some hash → hash ≠ d.hash → fail (.mismatchingHash d.key))
    (hg : inv g) : Ensures (deliver g d) inv fail := by
  rw [deliver_eq]
  split
  · exact hg
  split
  · refine ensures_release hreport hempty ?_
    unfold noted
    split
    · exact hg
    · exact hnote hg
  · rename_i hother
    obtain ⟨hash, hknown⟩ := Option.ne_none_iff_exists'.mp fun hnone => hother (.inl hnone)
    exact hmismatch hash hknown fun hsame => hother (.inr (hsame ▸ hknown))

end Rules

/-- Rounds are delivered one after another, each with the values of all peers. -/
inductive Rounds : Graph → Graph → Prop
  | none (g : Graph) : Rounds g g
  | next {g mid g' : Graph} (hashes : FiniteMap Nat Hash) (consumed : Nat)
      (hresolved : g.resolved[g.round]? = some hashes) (hfull : hashes.size = g.params.peerCount)
      (consumes : Consumes g.round g.blocks { g with resolved := g.resolved.erase g.round } mid)
      (rest : Rounds { mid with
        round := u64 (mid.round + 1)
        callbacks := mid.callbacks ++ [⟨roundBlocks g.round hashes, consumed, g.round⟩] } g') :
      Rounds g g'

variable {fuel : Nat} {hash : Hash} {key : NodeRound} {d : Delivery} {crash : Crash} {e : Entry}
  {fail : Halt Graph → Prop}

/-- Reports deliver rounds. -/
theorem Rounds.report {g g' g'' : Graph} (hresolved : g.resolved[g.round]? = some hashes)
    (hfull : hashes.size = g.params.peerCount) (hreport : g.report hashes = some g')
    (h : Rounds g' g'') : Rounds g g'' := by
  obtain ⟨consumed, mid, hconsumes, rfl⟩ := consumes_of_report hreport
  exact Rounds.next hashes consumed hresolved hfull hconsumes h

theorem rounds_of_deliverRound {g g' : Graph} (hround : round = g.round)
    (hresolved : g.resolved[round]? = some hashes) (hfull : hashes.size = g.params.peerCount)
    (h : deliverRound fuel g round hashes = .ok g') :
    Rounds g g' := by
  have hrule : Ensures (deliverRound fuel g round hashes)
      (fun g' => ∀ last, Rounds g' last → Rounds g last) (fun _ => True) :=
    ensures_deliverRound (fun _ _ _ hg hresolved hfull hreport last hlast =>
      hg last (hlast.report hresolved hfull hreport)) (fun _ _ _ _ _ _ => trivial) fuel
      (fun _ hlast => hlast) hround hresolved hfull
  exact hrule.of_ok h g' (Rounds.none g')

theorem rounds_of_release {g g' : Graph} (h : g.release round = .ok g') : Rounds g g' := by
  have hrule : Ensures (g.release round) (fun g' => ∀ last, Rounds g' last → Rounds g last)
      (fun _ => True) :=
    ensures_release (fun _ _ _ hg hresolved hfull hreport last hlast =>
      hg last (hlast.report hresolved hfull hreport)) (fun _ _ _ _ _ _ => trivial) fun _ hlast => hlast
  exact hrule.of_ok h g' (Rounds.none g')

/-- What a delivery does: it comes too late, it repeats a value, or it notes one;
then rounds are delivered. -/
theorem deliver_cases {g g' : Graph} (h : deliver g d = .ok g') :
    d.key.round < g.round ∧ g' = g ∨ g.known d.key = some d.hash ∧ Rounds g g' ∨
      g.round ≤ d.key.round ∧ g.known d.key = none ∧ Rounds (g.note d) g' := by
  rw [deliver_eq] at h
  split at h
  · rename_i hlate
    cases h
    exact .inl ⟨hlate, rfl⟩
  rename_i hround
  split at h
  swap
  · cases h
  rename_i hknown
  have hrounds := rounds_of_release h
  right
  rcases hknown with hfresh | hsame
  · rw [noted, if_neg (by simp [hfresh])] at hrounds
    exact .inr ⟨not_lt.mp hround, hfresh, hrounds⟩
  · rw [noted, if_pos (by simp [hsame])] at hrounds
    exact .inl ⟨hsame, hrounds⟩

/-- Rounds forget decided values and add none. -/
theorem Rounds.known_of_known {g g' : Graph} (h : Rounds g g') (hknown : g'.known key = some hash) :
    g.known key = some hash := by
  induction h with
  | none => exact hknown
  | @next g mid g' hashes consumed hresolved hfull consumes rest ih =>
    have hmid : (mid.resolved[key.round]?.getD ∅)[key.node]? = some hash := ih hknown
    rw [consumes.resolved, lookup_erase] at hmid
    split at hmid
    · simp at hmid
    · exact hmid

/-- A delivery notes a decided value and then delivers rounds. -/
theorem rounds_of_deliver {g g' : Graph} (h : deliver g d = .ok g') :
    Rounds g g' ∨ g.known d.key = none ∧ Rounds (g.note d) g' := by
  rcases deliver_cases h with ⟨-, rfl⟩ | ⟨-, hrounds⟩ | ⟨-, hfresh, hrounds⟩
  · exact .inl (Rounds.none g')
  · exact .inl hrounds
  · exact .inr ⟨hfresh, hrounds⟩

/-- Noting a value adds that value only. -/
theorem known_of_note {g : Graph} (hnoted : (g.note d).known key = some hash) :
    g.known key = some hash ∨ d = ⟨key, hash⟩ := by
  simp only [known, note, lookup_insert] at hnoted
  by_cases hround : d.key.round = key.round
  · rw [if_pos hround, Option.getD_some, lookup_insert] at hnoted
    by_cases hnode : d.key.node = key.node
    · rw [if_pos hnode] at hnoted
      obtain ⟨⟨node, round⟩, hash'⟩ := d
      obtain ⟨node', round'⟩ := key
      cases hround
      cases hnode
      cases hnoted
      exact .inr rfl
    · rw [if_neg hnode, hround] at hnoted
      exact .inl hnoted
  · rw [if_neg hround] at hnoted
    exact .inl hnoted

/-- A noted value is known. -/
theorem known_note_self (g : Graph) (d : Delivery) : (g.note d).known d.key = some d.hash := by
  simp only [known, note, lookup_insert_self, Option.getD_some]

/-- Noting a value of another instance hides nothing. -/
theorem known_note_of_known {g : Graph} (hfresh : g.known d.key = none)
    (hknown : g.known key = some hash) :
    (g.note d).known key = some hash := by
  simp only [known, note, lookup_insert]
  by_cases hround : d.key.round = key.round
  · rw [if_pos hround, Option.getD_some, lookup_insert, hround]
    split
    · rename_i hnode
      rw [known, hnode, hround] at hfresh
      cases hfresh.symm.trans hknown
    · exact hknown
  · rw [if_neg hround]
    exact hknown

/-- A delivery adds at most the value it delivers. -/
theorem known_of_deliver {g g' : Graph} (h : deliver g d = .ok g')
    (hknown : g'.known key = some hash) :
    g.known key = some hash ∨ d = ⟨key, hash⟩ := by
  rcases rounds_of_deliver h with hrounds | ⟨hfresh, hrounds⟩
  · exact .inl (hrounds.known_of_known hknown)
  · exact known_of_note (hrounds.known_of_known hknown)

/-- The blocks of a delivered round are the values that are not empty. -/
theorem mem_roundBlocks {b : BlockID} :
    b ∈ roundBlocks round hashes ↔ b.round = round ∧ b.hash ≠ [] ∧ hashes[b.node]? = some b.hash := by
  simp only [roundBlocks, mem_insertionSort, mem_map, mem_filter, decide_eq_true_eq]
  constructor
  · rintro ⟨⟨node, hash⟩, ⟨hfound, hfull⟩, rfl⟩
    exact ⟨rfl, hfull, Std.ExtTreeMap.mem_toList_iff_getElem?_eq_some.mp hfound⟩
  · rintro ⟨rfl, hfull, hfound⟩
    exact ⟨(b.node, b.hash), ⟨Std.ExtTreeMap.mem_toList_iff_getElem?_eq_some.mpr hfound, hfull⟩, rfl⟩

/-- What is handed to the callback was decided. -/
theorem Rounds.callbacks {g g' : Graph} (h : Rounds g g') :
    ∀ i ∈ g'.callbacks, i ∈ g.callbacks ∨
      ∀ b ∈ i.blocks, b.hash ≠ [] ∧ g.known ⟨b.node, b.round⟩ = some b.hash := by
  induction h with
  | none g => exact fun i hi => .inl hi
  | @next g mid g' hashes consumed hresolved hfull consumes rest ih =>
    intro i hi
    rcases ih i hi with hbefore | hblocks
    · rw [mem_append, mem_singleton, consumes.callbacks] at hbefore
      rcases hbefore with hbefore | rfl
      · exact .inl hbefore
      · refine .inr fun b hb => ?_
        obtain ⟨hround, hne, hfound⟩ := mem_roundBlocks.mp hb
        refine ⟨hne, ?_⟩
        rw [known, hround, hresolved]
        exact hfound
    · refine .inr fun b hb => ⟨(hblocks b hb).1, ?_⟩
      have hmid : (mid.resolved[b.round]?.getD ∅)[b.node]? = some b.hash := (hblocks b hb).2
      rw [consumes.resolved, lookup_erase] at hmid
      split at hmid
      · simp at hmid
      · exact hmid

/-- A delivery hands to the callback what was known or is delivered. -/
theorem callbacks_of_deliver {g g' : Graph} (h : deliver g d = .ok g') :
    ∀ i ∈ g'.callbacks, i ∈ g.callbacks ∨ ∀ b ∈ i.blocks, b.hash ≠ [] ∧
      (g.known ⟨b.node, b.round⟩ = some b.hash ∨ d = ⟨⟨b.node, b.round⟩, b.hash⟩) := by
  intro i hi
  rcases rounds_of_deliver h with hrounds | ⟨hfresh, hrounds⟩
  · refine (hrounds.callbacks i hi).imp_right fun hblocks b hb => ?_
    exact ⟨(hblocks b hb).1, .inl (hblocks b hb).2⟩
  · refine (hrounds.callbacks i hi).imp_right fun hblocks b hb => ⟨(hblocks b hb).1, ?_⟩
    exact known_of_note (hblocks b hb).2

/-- The two ways a delivery can stop the program: there is no own block, or the
graph holds another value. -/
theorem deliver_eq_error {g : Graph} (h : deliver g d = .error crash) :
    crash = .noBlocks ∨ crash = .mismatchingHash d.key ∧
      ∃ hash, g.known d.key = some hash ∧ hash ≠ d.hash := by
  have hrule : Ensures (deliver g d) (fun _ => True) (fun crash => crash = .noBlocks ∨
      crash = .mismatchingHash d.key ∧ ∃ hash, g.known d.key = some hash ∧ hash ≠ d.hash) :=
    ensures_deliver (fun _ => trivial) (fun _ _ _ _ _ _ _ => trivial) (fun _ _ _ _ _ _ => .inl rfl)
      (fun hash hknown hne => .inr ⟨rfl, hash, hknown, hne⟩) trivial
  exact hrule.of_error h

/-- Bounding referenced blocks touches the bounds only. -/
theorem boundDeps_eq (deps : List Dep) : ∀ (g : Graph) (round start : Nat),
    ∃ max, (boundDeps g round deps start).1 = { g with max } := by
  induction deps with
  | nil => exact fun g _ _ => ⟨g.max, rfl⟩
  | cons dep deps ih =>
    intro g round start
    obtain ⟨max, hmax⟩ := ih { g with
      max := g.max.insert dep.block (boundOf g round dep.links dep.block.round) } round
      (if boundOf g round dep.links dep.block.round > start
        then boundOf g round dep.links dep.block.round else start)
    exact ⟨max, hmax⟩

/-- Registering an own block touches the bounds and the list of own blocks only. -/
theorem register_eq (g : Graph) (bg : BlockGraph) :
    g.register bg = { g with max := (g.register bg).max, blocks := (g.register bg).blocks } := by
  obtain ⟨max, hmax⟩ := boundDeps_eq bg.deps g g.round bg.block.round
  unfold register
  dsimp only
  rw [hmax]

/-! ## Interpreting a block -/

/-- After some steps and deliveries a graph `g` is `g'`: the steps are recorded,
and states are only ever forgotten, none of them unless a round was delivered. -/
structure Advances (evs : List Event) (g g' : Graph) : Prop where
  params : g'.params = g.params
  heap : g'.heap = g.heap
  trace : g'.trace = evs ++ g.trace
  statess : ∀ (b : BlockID) (s : State), g'.statess[b]? = some s → g.statess[b]? = some s
  callbacks : g.callbacks.length ≤ g'.callbacks.length
  idle : g'.callbacks.length = g.callbacks.length → g'.statess = g.statess ∧ g'.round = g.round
  round : ∀ first, g.round = u64 (first + g.callbacks.length) →
    g'.round = u64 (first + g'.callbacks.length)

namespace Advances

variable {g g' g'' : Graph} {evs evs' : List Event}

theorem refl (g : Graph) : Advances [] g g :=
  ⟨rfl, rfl, rfl, fun _ _ h => h, le_rfl, fun _ => ⟨rfl, rfl⟩, fun _ h => h⟩

theorem trans (h : Advances evs g g') (h' : Advances evs' g' g'') :
    Advances (evs' ++ evs) g g'' where
  params := h'.params.trans h.params
  heap := h'.heap.trans h.heap
  trace := by rw [h'.trace, h.trace, append_assoc]
  statess b s hs := h.statess b s (h'.statess b s hs)
  callbacks := h.callbacks.trans h'.callbacks
  idle hlength := by
    have hfst := h.callbacks
    have hsnd := h'.callbacks
    obtain ⟨hstatess, hround⟩ := h.idle (by omega)
    obtain ⟨hstatess', hround'⟩ := h'.idle (by omega)
    exact ⟨hstatess'.trans hstatess, hround'.trans hround⟩
  round first hfirst := h'.round first (h.round first hfirst)

theorem observe (g : Graph) (ev : Event) : Advances [ev] g { g with trace := ev :: g.trace } :=
  ⟨rfl, rfl, rfl, fun _ _ h => h, le_rfl, fun _ => ⟨rfl, rfl⟩, fun _ h => h⟩

end Advances

/-- One more round. -/
theorem u64_succ (n : Nat) : u64 (u64 n + 1) = u64 (n + 1) := by
  unfold u64
  omega

theorem Rounds.advances {g g' : Graph} (h : Rounds g g') : Advances [] g g' := by
  induction h with
  | none g => exact Advances.refl g
  | @next g mid g' hashes consumed hresolved hfull consumes rest ih =>
    refine ⟨ih.params.trans consumes.params, ih.heap.trans consumes.heap,
      ih.trace.trans consumes.trace, fun b s hs => ?_, ?_, fun hlength => ?_, fun first hfirst => ?_⟩
    · rcases consumes.lookup b with ⟨-, hsame⟩ | ⟨-, hgone, -⟩
      · exact hsame.symm.trans (ih.statess b s hs)
      · cases hgone.symm.trans (ih.statess b s hs)
    all_goals
      have hcallbacks := ih.callbacks
      simp only [length_append, length_singleton, consumes.callbacks] at hcallbacks
    · omega
    · omega
    · apply ih.round first
      simp only [length_append, length_singleton, consumes.callbacks, consumes.round]
      rw [hfirst, u64_succ, Nat.add_assoc]

theorem advances_of_deliver {g g' : Graph} (h : deliver g d = .ok g') :
    Advances [] g g' := by
  rcases rounds_of_deliver h with hrounds | ⟨-, hrounds⟩
  · exact hrounds.advances
  · obtain ⟨hparams, hheap, htrace, hstatess, hcallbacks, hidle, hround⟩ := hrounds.advances
    exact ⟨hparams, hheap, htrace, hstatess, hcallbacks, hidle, hround⟩

/-- The output of a block is the one it had before, unless it was forgotten. -/
theorem Advances.output {g g' : Graph} {evs : List Event} (h : Advances evs g g') {dep : BlockID}
    {msg : Message} (hmsg : msg ∈ host.output g' dep) :
    ∃ s, g.statess[dep]? = some s ∧ msg ∈ s.out := by
  simp only [host] at hmsg
  cases hfound : g'.statess[dep]? with
  | none => simp [hfound] at hmsg
  | some s =>
    rw [hfound] at hmsg
    exact ⟨s, h.statess dep s hfound, hmsg⟩

/-- A graph moved on by steps of one block. -/
def MovesOn (block : BlockID) (g g' : Graph) : Prop :=
  ∃ evs, Advances evs g g' ∧ ∀ ev ∈ evs, ev.block = block

/-- A graph stopped at a step of a block. -/
def StopsAt (block : BlockID) (g g' : Graph) : Prop :=
  ∃ ev evs, Advances (ev :: evs) g g' ∧ ∀ ev' ∈ ev :: evs, ev'.block = block

variable {block : BlockID}

theorem MovesOn.observe {g g' : Graph} (h : MovesOn block g g') (mem : Memory) (cause : Cause) :
    StopsAt block g (host.observe g' ⟨block, mem, cause⟩) := by
  obtain ⟨evs, hadvances, hevs⟩ := h
  refine ⟨⟨block, mem, cause⟩, evs, hadvances.trans (Advances.observe g' _), fun ev hev => ?_⟩
  rcases mem_cons.mp hev with rfl | hev
  · rfl
  · exact hevs ev hev

theorem StopsAt.movesOn {g g' : Graph} (h : StopsAt block g g') :
    MovesOn block g g' := by
  obtain ⟨ev, evs, hadvances, hevs⟩ := h
  exact ⟨ev :: evs, hadvances, hevs⟩

/-- The interpretation of a block records steps of that block, and if it stops
the program it does so at one of them. -/
theorem movesOn_interpret (p : Params) (minround : Nat) (heap : Heap) (prev : Option State)
    (g : Graph) (e : Entry) :
    Ensures (interpret host p minround heap prev g e) (fun r => MovesOn e.block g r.1)
      (fun halt => StopsAt e.block g halt.host) := by
  refine (ensures_conduct_of_steps (fun host _ => MovesOn e.block g host)
    ⟨[], Advances.refl g, by simp⟩ (fun t _ _ mem hinv => (hinv.observe mem _).movesOn)
    (fun _ mem _ _ _ hinv _ => hinv.observe mem _) fun _ mem _ _ reply hinv _ => ?_).mono ?_
  · have hnoted := hinv.observe mem
    refine ensures_settle (fun _ => (hnoted _).movesOn) (fun d host' _ hdeliver => ?_)
      (fun _ _ _ _ => hnoted _)
    obtain ⟨evs, hadvances, hevs⟩ := (hnoted _).movesOn
    exact ⟨evs, hadvances.trans (advances_of_deliver hdeliver), hevs⟩
  · rintro ⟨host', mem'⟩ ⟨last, out, hinv, -⟩
    exact hinv

/-- A property of the graph that steps and deliveries keep. -/
theorem host_interpret (inv : Graph → Prop) (hobserve : ∀ g ev, inv g → inv (host.observe g ev))
    (hdeliver : ∀ g d g', inv g → deliver g d = .ok g' → inv g') (p : Params) (minround : Nat)
    (heap : Heap) (prev : Option State) {g : Graph} (e : Entry) (hstart : inv g) :
    Ensures (interpret host p minround heap prev g e) (fun r => inv r.1)
      (fun halt => inv halt.host) := by
  refine (ensures_conduct_of_steps (fun host _ => inv host) hstart
    (fun t _ _ mem hinv => hobserve _ _ hinv) (fun _ _ _ _ _ hinv _ => hobserve _ _ hinv)
    fun _ _ _ _ reply hinv _ => ?_).mono ?_
  · have hnoted := fun ev => hobserve _ ev hinv
    exact ensures_settle (fun _ => hnoted _) (fun d host' _ h => hdeliver _ d host' (hnoted _) h)
      (fun _ _ _ _ => hnoted _)
  · rintro ⟨host', mem'⟩ ⟨last, out, hinv, -⟩
    exact hinv

/-- Storing the state a block was interpreted to. -/
def store (g : Graph) (block : BlockID) (mem : Memory) : Graph :=
  { g with heap := mem.heap, statess := g.statess.insert block mem.state }

/-- The rule for processing an entry. -/
theorem ensures_process {g : Graph} {post : Graph → Prop}
    (h : Ensures (interpret host g.params g.round g.heap g.statess[e.prev]? g e)
      (fun r => post (r.1.store e.block r.2)) fail) : Ensures (process g e) post fail :=
  h.bind fun _ hpost => hpost

/-- What processing an entry did: it interpreted the entry and stored the state. -/
theorem process_eq_ok {g g' : Graph} (h : process g e = .ok g') :
    ∃ last mem, interpret host g.params g.round g.heap g.statess[e.prev]? g e = .ok (last, mem) ∧
      g' = last.store e.block mem := by
  obtain ⟨⟨last, mem⟩, hinterpret, h⟩ := bind_eq_ok.mp h
  cases h
  exact ⟨last, mem, hinterpret, rfl⟩

/-- Processing an entry moves on by steps of its block and stores its state. -/
theorem movesOn_process (g : Graph) (e : Entry) :
    Ensures (process g e) (fun g' => ∃ last mem, MovesOn e.block g last ∧ g' = last.store e.block mem)
      (fun halt => StopsAt e.block g halt.host) :=
  ensures_process ((movesOn_interpret _ _ _ _ g e).mono fun r hmoves => ⟨r.1, r.2, hmoves, rfl⟩)

/-- The rule for runs and what holds of the graph alone. An own block changes the bounds
and the list of own blocks. -/
theorem lasts_actAll {inv : Graph → Prop} {g : Graph} {acts : List Action}
    (hregister : ∀ g max blocks, inv g → inv { g with max, blocks })
    (hprocess : ∀ g e, inv g → Ensures (g.process e) inv fail) (hstart : inv g) :
    Ensures (actAll g acts) inv fail := by
  apply ensures_actAll fun _ => inv
  · intro done a rest mid _ _ h
    cases a with
    | register bg =>
      change inv (mid.register bg)
      rw [register_eq]
      exact hregister mid _ _ h
    | process e => exact hprocess mid e h
  · exact hstart

/-- The round that comes next is counted by the callback. -/
theorem round_actAll (p : Params) (lastInterpreted : Nat) (acts : List Action) :
    Ensures (actAll (new p lastInterpreted) acts)
      (fun g => g.round = u64 (lastInterpreted + 1 + g.callbacks.length))
      (fun halt => halt.host.round = u64 (lastInterpreted + 1 + halt.host.callbacks.length)) := by
  refine lasts_actAll (fun _ _ _ hround => hround) (fun g e hround => ?_) rfl
  refine ((movesOn_process g e).mono ?_).weaken ?_
  · rintro g' ⟨last, mem, ⟨evs, hadvances, -⟩, rfl⟩
    exact hadvances.round _ hround
  · rintro halt ⟨ev, evs, hadvances, -⟩
    exact hadvances.round _ hround

/-- A run does not change the parameters of the graph. -/
theorem params_actAll (p : Params) (lastInterpreted : Nat) (acts : List Action) :
    Ensures (actAll (new p lastInterpreted) acts) (fun g => g.params = p)
      (fun halt => halt.host.params = p) := by
  refine lasts_actAll (fun _ _ _ hparams => hparams) (fun g e hparams => ?_) rfl
  refine ((movesOn_process g e).mono ?_).weaken ?_
  · rintro g' ⟨last, mem, ⟨evs, hadvances, -⟩, rfl⟩
    exact hadvances.params.trans hparams
  · rintro halt ⟨ev, evs, hadvances, -⟩
    exact hadvances.params.trans hparams

theorem actAll_process {start g g' : Graph} {done : List Action} (hdone : actAll start done = .ok g)
    (h : process g e = .ok g') :
    actAll start (done ++ [.process e]) = .ok g' := by
  rw [actAll_append, hdone]
  change (process g e >>= fun g => actAll g []) = _
  rw [h]
  rfl

end Graph

end Blockmania
