/-
# Including the blocks of other nodes

A received block waits until all blocks it builds on are included, and is then
queued to be referenced by the next own block. The dependency graph keeps track of
what waits for what, and when a block is included it works through the blocks that
have waited for it. A node is what receiving, including and generating blocks share.
`Step` is one uninterrupted piece of work of one of these goroutines, and a restart
keeps the database only.
-/

import Blockmania.Broadcast.Wire

namespace Blockmania

open Math List FiniteMap

namespace Broadcast

/-- The two upper-case hexadecimal digits of a byte. -/
def hexDigits (c : UInt8) : List Char :=
  let digits := "0123456789ABCDEF".toList
  [digits.getD (c.toNat / 16) '0', digits.getD (c.toNat % 16) '0']

/-- `String` of a block id, which shows the bytes 6 to 11 of its hash. -/
def idString (b : BlockID) : Except Fault String :=
  let v := toString b.node ++ " | " ++ toString b.round
  if b.hash = [] then .ok v
  else if b.hash.length < 12 then .error .indexOutOfRange
  else .ok (v ++ " | " ++ String.ofList (((b.hash.drop 6).take 6).flatMap hexDigits))

variable {β : Type}

/-- What the database knows about blocks, and about the last own block. -/
structure Database (β : Type) where
  blocks : FiniteMap BlockID (SignedData β)
  included : FiniteMap BlockID Bool
  notIncluded : FiniteMap BlockID Unit
  lastRound : Nat
  lastRef : Option (SignedData β)

namespace Database

def empty : Database β := ⟨∅, ∅, ∅, 0, none⟩

def isIncluded (db : Database β) (id : BlockID) : Bool := db.included[id]?.getD false

/-- `setBlock`. A block that was set before is not set again. -/
def setBlock (db : Database β) (id : BlockID) (signed : SignedData β) : Database β :=
  if db.included[id]?.isSome then db
  else { db with
    blocks := db.blocks.insert id signed
    included := db.included.insert id false
    notIncluded := db.notIncluded.insert id () }

/-- `setOwnBlock`, of a block that references `deps`. -/
def setOwnBlock (db : Database β) (id : BlockID) (signed ref : SignedData β) (deps : List BlockID) :
    Database β where
  blocks := db.blocks.insert id signed
  included := deps.foldl (fun included dep => included.insert dep true) db.included
  notIncluded := deps.foldl (fun notIncluded dep => notIncluded.erase dep) db.notIncluded
  lastRound := id.round
  lastRef := some ref

end Database

/-- The ids of signed references. -/
def decodeAll (wire : Wire β) : List (SignedData β) → Except Fault (List BlockID)
  | [] => .ok []
  | sref :: srefs =>
    match wire.unmarshalReference sref.data with
    | none => .error .fatal
    | some ref => do
      let deps ← decodeAll wire srefs
      return ref.id :: deps

/-- The id of the previous block. -/
def decodePrevious (wire : Wire β) (block : Block β) : Except Fault BlockID :=
  if block.round = 1 then .ok BlockID.zero
  else
    match block.previous with
    | none => .error .nilPointer
    | some previous =>
      match wire.unmarshalReference previous.data with
      | none => .error .fatal
      | some prev => .ok prev.id

/-- `getBlockData`. -/
def getBlockData (wire : Wire β) (signed : SignedData β) : Except Fault (BlockData β) :=
  match wire.unmarshalBlock signed.data with
  | none => .error .fatal
  | some block => do
    let ref := wire.reference signed.data block
    let prev ← decodePrevious wire block
    let deps ← decodeAll wire block.references
    return ⟨deps, ref.id, prev, ⟨wire.marshalReference ref, signed.signature⟩⟩

/-- The order of the keys of the database: by node, then by round, then by hash. -/
def keyOrder (a b : BlockID) : Bool :=
  if a.node = b.node then
    if a.round = b.round then ¬ b.hash < a.hash else a.round < b.round
  else a.node < b.node

/-- Load the given blocks. -/
def Database.load (wire : Wire β) (db : Database β) : List BlockID → Except Fault (List (BlockData β))
  | [] => .ok []
  | id :: ids =>
    match db.blocks[id]? with
    | none => .error .fatal
    | some signed => do
      let info ← getBlockData wire signed
      let infos ← load wire db ids
      return info :: infos

/-- `getNotIncluded`. -/
def Database.getNotIncluded (wire : Wire β) (db : Database β) : Except Fault (List (BlockData β)) :=
  db.load wire (db.notIncluded.keys.insertionSort fun a b => keyOrder a b)

structure Depgraph (β : Type) where
  await : FiniteMap BlockID (List BlockID)
  blocks : List (BlockData β)
  icache : FiniteMap BlockID Bool
  /-- The queue `in`. -/
  inbox : List (BlockData β)
  pending : FiniteMap BlockID (BlockData β)
  self : Nat
  tcache : FiniteMap BlockID Bool

/-- The blocks a block has to wait for: the one before it and those it references,
except the node's own. -/
def BlockData.links (self : Nat) (block : BlockData β) : List BlockID :=
  (if block.prev.valid then [block.prev] else []) ++ block.deps.filter fun dep => dep.node ≠ self

namespace Depgraph

def new (self : Nat) (inbox : List (BlockData β)) : Depgraph β where
  await := ∅
  blocks := []
  icache := ∅
  inbox
  pending := ∅
  self
  tcache := ∅

def isIncluded (db : Database β) (d : Depgraph β) (id : BlockID) : Bool × Depgraph β :=
  match d.tcache[id]? with
  | some inc => (inc, d)
  | none =>
    match d.icache[id]? with
    | some inc => (inc, d)
    | none => (db.isIncluded id, { d with icache := d.icache.insert id (db.isIncluded id) })

def markIncluded (d : Depgraph β) (id : BlockID) : Depgraph β :=
  { d with icache := d.icache.insert id true, tcache := d.tcache.insert id true }

def actuallyIncluded (d : Depgraph β) (id : BlockID) : Depgraph β :=
  { d with tcache := d.tcache.erase id }

/-- The blocks that wait for a block. -/
def awaiting (d : Depgraph β) (dep : BlockID) : List BlockID := d.await[dep]?.getD []

def addPending (d : Depgraph β) (block : BlockData β) (deps : List BlockID) : Depgraph β :=
  { d with
    pending := d.pending.insert block.id block
    await := deps.foldl (fun await dep =>
      let ids := await[dep]?.getD []
      if block.id ∈ ids then await else await.insert dep (ids ++ [block.id])) d.await }

/-- The blocks among `deps` that are not included. Each of them is written to the
log, whatever its level. -/
def missing (db : Database β) (block : BlockData β) :
    List BlockID → Depgraph β → Except Fault (Depgraph β × List BlockID)
  | [], d => .ok (d, [])
  | dep :: deps, d =>
    let (inc, d) := d.isIncluded db dep
    if inc then missing db block deps d
    else do
      let _ ← idString block.id
      let _ ← idString dep
      let (d, rest) ← missing db block deps d
      return (d, dep :: rest)

/-- `processBlock`: whether the block is included now. -/
def processBlock (db : Database β) (d : Depgraph β) (block : BlockData β) :
    Except Fault (Depgraph β × Bool) :=
  let (inc, d) := d.isIncluded db block.id
  if inc then .ok (d, true)
  else do
    let (d, deps) ← missing db block (block.links d.self) d
    if deps ≠ [] then return (d.addPending block deps, false)
    else
      let d := d.markIncluded block.id
      return ({ d with blocks := d.blocks ++ [block] }, true)

/-- How many of the blocks fit into the limit. -/
def fitting (wire : Wire β) (limit : Nat) : Nat → List (BlockData β) → Nat
  | _, [] => 0
  | total, block :: blocks =>
    let total := total + block.ref.size wire
    if total > limit then 0 else fitting wire limit total blocks + 1

end Depgraph

/-- Where the loop of `process` stands. -/
inductive Loop
  | waiting
  /-- A block `next` was included. The blocks `revdeps` have waited for it and are
  still to be looked at, and so are those that have waited for `processed`. -/
  | cascading (first : Bool) (next : BlockID) (revdeps processed : List BlockID)
      (seen : FiniteMap BlockID Bool)

/-- Where `genBlocks` stands. -/
inductive Generator (β : Type)
  | waiting
  | collected (refs : List (BlockData β))
  | stored (refs : List (BlockData β))

/-- What the goroutines of a node share, with the history of its own blocks. -/
structure Node (β : Type) where
  db : Database β
  depgraph : Depgraph β
  loop : Loop
  gen : Generator β
  produced : List (Block β)

/-- A piece of work. -/
inductive Step (β : Type)
  /-- `processBlock` of what a peer sent. -/
  | receive (signed : SignedData β)
  /-- `process` takes a block from the queue. -/
  | take
  /-- `process` goes on to the next block that has waited. -/
  | advance
  /-- The cache of included blocks is pruned. Which entries stay is not specified. -/
  | prune (keep : BlockID → Bool)
  /-- `genBlocks` takes the blocks to reference. -/
  | collect (limit : Nat)
  /-- `genBlocks` signs the block and writes it to the database. -/
  | commit (transactions : Transactions)
  /-- `genBlocks` marks a referenced block. -/
  | settle
  /-- The process dies and is started again. -/
  | restart

namespace Node

variable (wire : Wire β)

def start (self : Nat) : Node β := ⟨.empty, .new self [], .waiting, .waiting, []⟩

/-- The next own block, with the given references. -/
def ownBlock (n : Node β) (refs : List (BlockData β)) (transactions : Transactions) : Block β :=
  ⟨n.depgraph.self, n.db.lastRef, refs.map BlockData.ref, u64 (n.db.lastRound + 1), some transactions⟩

/-- `loadState`. -/
def loadState (n : Node β) : Except Fault (Node β) := do
  let infos ← n.db.getNotIncluded wire
  return { n with depgraph := .new n.depgraph.self infos, loop := .waiting, gen := .waiting }

/-- Go on with the blocks that have waited for the first one of `processed`. -/
def resume (d : Depgraph β) (seen : FiniteMap BlockID Bool) : List BlockID → Loop
  | [] => .waiting
  | next :: processed => .cascading false next (d.awaiting next) processed seen

/-- One piece of work. What cannot be done changes nothing. -/
def step (n : Node β) : Step β → Except Fault (Node β)
  | .receive signed =>
    match wire.accept signed with
    | .error _ => .ok n
    | .ok info => .ok { n with
        db := n.db.setBlock info.id signed
        depgraph := { n.depgraph with inbox := n.depgraph.inbox ++ [info] } }
  | .take =>
    match n.loop, n.depgraph.inbox with
    | .waiting, info :: inbox => do
      let (d, included) ← Depgraph.processBlock n.db { n.depgraph with inbox } info
      return { n with
        depgraph := d
        loop := if included then
            .cascading true info.id (d.awaiting info.id) [] ((∅ : FiniteMap BlockID Bool).insert info.id true)
          else .waiting }
    | _, _ => .ok n
  | .advance =>
    match n.loop with
    | .waiting => .ok n
    | .cascading first next (revdep :: revdeps) processed seen =>
      if seen[revdep]?.getD false then
        .ok { n with loop := .cascading first next revdeps processed seen }
      else
        match n.depgraph.pending[revdep]? with
        | none => .error .nilPointer
        | some block => do
          let (d, included) ← Depgraph.processBlock n.db n.depgraph block
          return { n with
            depgraph := d
            loop := if included then .cascading first next revdeps (processed ++ [revdep]) ∅
              else .cascading first next revdeps processed (seen.insert revdep true) }
    | .cascading first next [] processed seen =>
      let d := { n.depgraph with
        await := n.depgraph.await.erase next
        pending := if first then n.depgraph.pending else n.depgraph.pending.erase next }
      .ok { n with depgraph := d, loop := resume d seen processed }
  | .prune keep =>
    if n.depgraph.icache.size > 1000 then
      .ok { n with depgraph := { n.depgraph with icache := n.depgraph.icache.restrict keep } }
    else .ok n
  | .collect limit =>
    match n.gen with
    | .waiting =>
      let idx := Depgraph.fitting wire limit 0 n.depgraph.blocks
      .ok { n with
        depgraph := { n.depgraph with blocks := n.depgraph.blocks.drop idx }
        gen := .collected (n.depgraph.blocks.take idx) }
    | _ => .ok n
  | .commit transactions =>
    match n.gen with
    | .collected refs =>
      let block := n.ownBlock refs transactions
      let data := wire.marshalBlock block
      let ref := wire.reference data block
      let refData := wire.marshalReference ref
      let signature := wire.sign n.depgraph.self refData
      .ok { n with
        db := n.db.setOwnBlock ref.id ⟨data, signature⟩ ⟨refData, signature⟩ (refs.map BlockData.id)
        gen := .stored refs
        produced := n.produced ++ [block] }
    | _ => .ok n
  | .settle =>
    match n.gen with
    | .stored (ref :: refs) =>
      .ok { n with depgraph := n.depgraph.actuallyIncluded ref.id, gen := .stored refs }
    | .stored [] => .ok { n with gen := .waiting }
    | _ => .ok n
  | .restart => n.loadState wire

/-- A sequence of pieces of work. -/
def run (n : Node β) : List (Step β) → Except Fault (Node β)
  | [] => .ok n
  | s :: steps => do
    let n ← n.step wire s
    run n steps

/-- Every piece of work of a run meets the condition in the state it is done in. -/
def meets (cond : Node β → Step β → Bool) (n : Node β) : List (Step β) → Bool
  | [] => true
  | s :: steps => cond n s &&
    match n.step wire s with
    | .ok n' => meets cond n' steps
    | .error _ => true

/-- The rule for runs. -/
theorem ensures_run {wire : Wire β} {cond : Node β → Step β → Bool} (inv : Node β → Prop)
    {fail : Fault → Prop}
    (hstep : ∀ n s, cond n s = true → inv n → Ensures (n.step wire s) inv fail)
    (steps : List (Step β)) :
    ∀ n : Node β, n.meets wire cond steps = true → inv n → Ensures (n.run wire steps) inv fail := by
  induction steps with
  | nil => exact fun n _ hinv => hinv
  | cons s steps ih =>
    intro n hmeets hinv
    rw [meets, Bool.and_eq_true] at hmeets
    refine ((hstep n s hmeets.1 hinv).and_of_ok fun n' hn' => hn').bind fun n' hn' => ?_
    have hrest := hmeets.2
    rw [hn'.2] at hrest
    exact ih n' hrest hn'.1

end Node

/-! ## What a piece of work does -/

namespace Node

/-- The references of the own block that a piece of work writes to the database. -/
def commits (n : Node β) : Step β → Option (List (BlockData β))
  | .commit _ =>
    match n.gen with
    | .collected refs => some refs
    | _ => none
  | _ => none

/-- The block that a piece of work may hand to `processBlock`. -/
def next (n : Node β) : Step β → Option (BlockData β)
  | .take =>
    match n.loop with
    | .waiting => n.depgraph.inbox.head?
    | _ => none
  | .advance =>
    match n.loop with
    | .cascading _ _ (revdep :: _) _ _ => n.depgraph.pending[revdep]?
    | _ => none
  | _ => none

/-- What a piece of work can do. -/
inductive Changes (wire : Wire β) (n : Node β) : Step β → Node β → Prop
  | received {signed : SignedData β} {info : BlockData β} (haccept : wire.accept signed = .ok info) :
    Changes wire n (.receive signed) { n with
      db := n.db.setBlock info.id signed
      depgraph := { n.depgraph with inbox := n.depgraph.inbox ++ [info] } }
  /-- A block from the queue or one that has waited is processed. -/
  | processed {s : Step β} {block : BlockData β} {inbox : List (BlockData β)} {d : Depgraph β}
      {inc : Bool} {loop : Loop} (hcommits : n.commits s = none) (hnext : n.next s = some block)
      (hinbox : inbox ⊆ n.depgraph.inbox)
      (hblock : block ∈ n.depgraph.inbox ∨ ∃ id : BlockID, n.depgraph.pending[id]? = some block)
      (hrun : Depgraph.processBlock n.db { n.depgraph with inbox } block = .ok (d, inc)) :
    Changes wire n s { n with depgraph := d, loop }
  /-- Entries are dropped that are not needed any more. -/
  | dropped {s : Step β} {await : FiniteMap BlockID (List BlockID)}
      {pending : FiniteMap BlockID (BlockData β)} {icache : FiniteMap BlockID Bool} {loop : Loop}
      (hcommits : n.commits s = none)
      (hpending : ∀ (id : BlockID) (block : BlockData β), pending[id]? = some block →
        n.depgraph.pending[id]? = some block)
      (hicache : ∀ (id : BlockID) (inc : Bool), icache[id]? = some inc →
        n.depgraph.icache[id]? = some inc) :
    Changes wire n s { n with depgraph := { n.depgraph with await, pending, icache }, loop }
  | collected {limit idx : Nat} (hidx : idx = Depgraph.fitting wire limit 0 n.depgraph.blocks)
      (hgen : n.gen = .waiting) :
    Changes wire n (.collect limit) { n with
      depgraph := { n.depgraph with blocks := n.depgraph.blocks.drop idx }
      gen := .collected (n.depgraph.blocks.take idx) }
  | committed {transactions : Transactions} {refs : List (BlockData β)} {block : Block β}
      {signed ref : SignedData β} (hgen : n.gen = .collected refs)
      (hblock : block = n.ownBlock refs transactions) (hsigned : signed = wire.signBlock block)
      (href : ref = ⟨wire.marshalReference (wire.reference signed.data block), signed.signature⟩) :
    Changes wire n (.commit transactions) { n with
      db := n.db.setOwnBlock (wire.reference signed.data block).id signed ref (refs.map BlockData.id)
      gen := .stored refs
      produced := n.produced ++ [block] }
  | settled {ref : BlockData β} {refs : List (BlockData β)} (hgen : n.gen = .stored (ref :: refs)) :
    Changes wire n .settle { n with
      depgraph := n.depgraph.actuallyIncluded ref.id
      gen := .stored refs }
  | finished (hgen : n.gen = .stored []) : Changes wire n .settle { n with gen := .waiting }
  | restarted {infos : List (BlockData β)} (hinfos : n.db.getNotIncluded wire = .ok infos) :
    Changes wire n .restart { n with
      depgraph := .new n.depgraph.self infos
      loop := .waiting
      gen := .waiting }

theorem Changes.refl (wire : Wire β) {n : Node β} {s : Step β} (h : n.commits s = none) :
    Changes wire n s n :=
  .dropped h (fun _ _ h => h) (fun _ _ h => h)

theorem changes_of_advance {wire : Wire β} {n n' : Node β} (h : n.step wire .advance = .ok n') :
    Changes wire n .advance n' := by
  rw [step] at h
  split at h
  · cases h
    exact .refl wire rfl
  · rename_i first next revdep revdeps processed seen hloop
    split at h
    · cases h
      exact .dropped rfl (fun _ _ h => h) (fun _ _ h => h)
    split at h
    · cases h
    rename_i block hblock
    obtain ⟨⟨d, inc⟩, hrun, h⟩ := bind_eq_ok.mp h
    cases h
    refine .processed rfl ?_ (Subset.refl _) (.inr ⟨revdep, hblock⟩) hrun
    rw [Node.next, hloop]
    exact hblock
  · rename_i first next processed seen hloop
    cases h
    refine .dropped rfl (fun id block hblock => ?_) (fun _ _ h => h)
    split at hblock
    · exact hblock
    · rw [lookup_erase] at hblock
      split at hblock
      · cases hblock
      · exact hblock

theorem changes_of_step {wire : Wire β} {n n' : Node β} {s : Step β}
    (h : n.step wire s = .ok n') : Changes wire n s n' := by
  cases s with
  | receive signed =>
    rw [step] at h
    split at h
    · cases h
      exact .refl wire rfl
    · cases h
      exact .received ‹_›
  | take =>
    rw [step] at h
    split at h
    · rename_i info inbox hloop hinbox
      obtain ⟨⟨d, inc⟩, hrun, h⟩ := bind_eq_ok.mp h
      cases h
      refine .processed rfl ?_ ?_ (.inl ?_) hrun
      · rw [next, hloop, hinbox]
        rfl
      · rw [hinbox]
        exact subset_cons_self _ _
      · rw [hinbox]
        exact mem_cons_self
    · cases h
      exact .refl wire rfl
  | advance => exact changes_of_advance h
  | prune keep =>
    rw [step] at h
    split at h
    · cases h
      refine .dropped rfl (fun _ _ h => h) (fun id inc hinc => ?_)
      rw [lookup_restrict] at hinc
      split at hinc
      · exact hinc
      · cases hinc
    · cases h
      exact .refl wire rfl
  | collect limit =>
    rw [step] at h
    split at h
    · cases h
      exact .collected rfl ‹_›
    · cases h
      exact .refl wire rfl
  | commit transactions =>
    rw [step] at h
    split at h
    · rename_i refs hgen
      cases h
      exact @Changes.committed _ wire n _ refs _ ⟨_, _⟩ _ hgen rfl rfl rfl
    · rename_i hgen
      cases h
      refine .refl wire ?_
      rw [commits]
      split
      · exact absurd ‹_› (hgen _)
      · rfl
  | settle =>
    rw [step] at h
    split at h
    · cases h
      exact .settled ‹_›
    · cases h
      exact .finished ‹_›
    · cases h
      exact .refl wire rfl
  | restart =>
    obtain ⟨infos, hinfos, h⟩ := bind_eq_ok.mp h
    cases h
    exact .restarted hinfos

end Node

namespace Depgraph

variable {db : Database β} {d d' : Depgraph β}

/-- Whether a block counts as included. -/
def included (db : Database β) (d : Depgraph β) (id : BlockID) : Bool :=
  d.tcache[id]?.getD (d.icache[id]?.getD (db.isIncluded id))

/-- A cache that some questions were answered with: it gives the same answers, and
new entries come from the database. -/
structure Asked (db : Database β) (d : Depgraph β) (icache : FiniteMap BlockID Bool) : Prop where
  answers : ∀ id, included db { d with icache } id = d.included db id
  entries : ∀ (id : BlockID) inc, icache[id]? = some inc →
    d.icache[id]? = some inc ∨ d.tcache[id]? = none ∧ inc = db.isIncluded id

theorem Asked.refl (db : Database β) (d : Depgraph β) : Asked db d d.icache :=
  ⟨fun _ => rfl, fun _ _ h => .inl h⟩

theorem Asked.trans {icache icache' : FiniteMap BlockID Bool} (h : Asked db d icache)
    (h' : Asked db { d with icache } icache') : Asked db d icache' where
  answers id := (h'.answers id).trans (h.answers id)
  entries id inc hinc := (h'.entries id inc hinc).elim (h.entries id inc) .inr

/-- Asking for a block fills the cache and changes no answer. -/
theorem isIncluded_spec (db : Database β) (d : Depgraph β) (id : BlockID) :
    ∃ icache, d.isIncluded db id = (d.included db id, { d with icache }) ∧ Asked db d icache := by
  unfold isIncluded included
  cases htemporary : d.tcache[id]? with
  | some inc => exact ⟨d.icache, rfl, Asked.refl db d⟩
  | none =>
    cases hcached : d.icache[id]? with
    | some inc => exact ⟨d.icache, rfl, Asked.refl db d⟩
    | none =>
      refine ⟨_, rfl, fun id' => ?_, fun id' inc hinc => ?_⟩
      · unfold included
        dsimp only
        rw [lookup_insert]
        split
        · rename_i heq
          rw [← heq, hcached]
          rfl
        · rfl
      · rw [lookup_insert] at hinc
        split at hinc
        · rename_i heq
          cases hinc
          exact .inr ⟨heq ▸ htemporary, heq ▸ rfl⟩
        · exact .inl hinc

variable {block : BlockData β}

/-- The missing blocks are those that do not count as included. -/
theorem missing_eq_ok (deps : List BlockID) {rest : List BlockID}
    (h : missing db block deps d = .ok (d', rest)) :
    rest = deps.filter (fun dep => !d.included db dep) ∧ ∃ icache, d' = { d with icache } ∧
      Asked db d icache := by
  induction deps generalizing d d' rest with
  | nil =>
    cases h
    exact ⟨rfl, d.icache, rfl, Asked.refl db _⟩
  | cons dep deps ih =>
    obtain ⟨icache, hanswer, hasked⟩ := isIncluded_spec db d dep
    rw [missing, hanswer] at h
    dsimp only at h
    split at h
    · rename_i hinc
      obtain ⟨hrest, icache', rfl, hasked'⟩ := ih h
      refine ⟨?_, icache', rfl, hasked.trans hasked'⟩
      rw [hrest, filter_cons, hinc]
      simp only [hasked.answers]
      rfl
    · rename_i hinc
      obtain ⟨_, -, h⟩ := bind_eq_ok.mp h
      obtain ⟨_, -, h⟩ := bind_eq_ok.mp h
      obtain ⟨⟨mid, later⟩, hlater, h⟩ := bind_eq_ok.mp h
      cases h
      obtain ⟨hrest, icache', rfl, hasked'⟩ := ih hlater
      refine ⟨?_, icache', rfl, hasked.trans hasked'⟩
      rw [filter_cons, eq_false_of_ne_true hinc, hrest]
      simp only [hasked.answers]
      rfl

/-- What `processBlock` does: the block was included before, or it is put off
until the missing blocks are included, or it is included. -/
theorem processBlock_cases {inc : Bool} (h : processBlock db d block = .ok (d', inc)) :
    ∃ icache, Asked db d icache ∧
      (inc = true ∧ d.included db block.id = true ∧ d' = { d with icache } ∨
      inc = false ∧ d.included db block.id = false ∧ (∃ deps, deps ≠ [] ∧
        deps = (block.links d.self).filter (fun dep => !d.included db dep) ∧
        d' = { d with icache }.addPending block deps) ∨
      inc = true ∧ d.included db block.id = false ∧
        (∀ dep ∈ block.links d.self, d.included db dep = true) ∧
        d' = { { d with icache }.markIncluded block.id with blocks := d.blocks ++ [block] }) := by
  obtain ⟨icache, hanswer, hasked⟩ := isIncluded_spec db d block.id
  rw [processBlock, hanswer] at h
  dsimp only at h
  split at h
  · rename_i hinc
    cases h
    exact ⟨icache, hasked, .inl ⟨rfl, hinc, rfl⟩⟩
  rename_i hinc
  obtain ⟨⟨mid, deps⟩, hmissing, h⟩ := bind_eq_ok.mp h
  obtain ⟨hdeps, icache', rfl, hasked'⟩ := missing_eq_ok _ hmissing
  simp only [hasked.answers] at hdeps
  refine ⟨icache', hasked.trans hasked', .inr ?_⟩
  dsimp only at h
  split at h
  · rename_i hne
    cases h
    exact .inl ⟨rfl, eq_false_of_ne_true hinc, deps, hne, hdeps, rfl⟩
  · rename_i hnone
    cases h
    refine .inr ⟨rfl, eq_false_of_ne_true hinc, fun dep hdep => ?_, rfl⟩
    rw [not_not.mp hnone] at hdeps
    have hkept := filter_eq_nil_iff.mp hdeps.symm dep hdep
    simpa using hkept

end Depgraph

theorem Node.self_of_changes {wire : Wire β} {n n' : Node β} {s : Step β}
    (h : Node.Changes wire n s n') : n'.depgraph.self = n.depgraph.self := by
  cases h with
  | processed hcommits hnext hinbox hblock hrun =>
    obtain ⟨icache, -, hcases⟩ := Depgraph.processBlock_cases hrun
    rcases hcases with ⟨-, -, rfl⟩ | ⟨-, -, deps, -, -, rfl⟩ | ⟨-, -, -, rfl⟩
    all_goals rfl
  | _ => rfl

variable {signed : SignedData β} {info : BlockData β}

section Reload

variable {wire : Wire β}

theorem decodeAll_of_checkReferences {block : Block β} {srefs : List (SignedData β)} {i : Nat}
    {deps : List BlockID} (h : wire.checkReferences block i srefs = .ok deps) :
    decodeAll wire srefs = .ok deps := by
  induction srefs generalizing i deps with
  | nil =>
    cases h
    rfl
  | cons sref srefs ih =>
    obtain ⟨dep, hdep, h⟩ := bind_eq_ok.mp h
    obtain ⟨rest, hrest, h⟩ := bind_eq_ok.mp h
    cases h
    obtain ⟨ref, href, -, -, -, rfl⟩ := Wire.of_checkReference hdep
    rw [decodeAll, href]
    exact bind_eq_ok.mpr ⟨rest, ih hrest, rfl⟩

theorem decodePrevious_of_checkPrevious {block : Block β} {prev : BlockID}
    (h : wire.checkPrevious block = .ok prev) : decodePrevious wire block = .ok prev := by
  unfold Wire.checkPrevious at h
  unfold decodePrevious
  by_cases hfirst : block.round = 1
  · rw [if_pos hfirst] at h ⊢
    cases h
    rfl
  rw [if_neg hfirst] at h ⊢
  cases hprevious : block.previous with
  | none =>
    rw [hprevious] at h
    cases h
  | some previous =>
    rw [hprevious] at h
    dsimp only at h ⊢
    split at h
    · cases h
    cases href : wire.unmarshalReference previous.data with
    | none =>
      rw [href] at h
      cases h
    | some ref =>
      rw [href] at h
      dsimp only at h
      split at h
      · cases h
      split at h
      · cases h
      cases h
      rfl

/-- The author of a block has signed the reference to it. -/
def Wire.Authentic (wire : Wire β) (signed : SignedData β) : Prop :=
  ∃ block, wire.unmarshalBlock signed.data = some block ∧ block.node ∈ wire.keys ∧
    wire.verify block.node (wire.marshalReference (wire.reference signed.data block))
      signed.signature = true

/-- A block that was accepted is reloaded as it was received. -/
theorem getBlockData_of_accept (h : wire.accept signed = .ok info) :
    getBlockData wire signed = .ok info ∧ wire.Authentic signed := by
  unfold Wire.accept at h
  split at h
  · cases h
  rename_i block hblock
  split at h
  · cases h
  rename_i hknown
  dsimp only at h
  split at h
  · cases h
  rename_i hverify
  obtain ⟨prev, hprev, h⟩ := bind_eq_ok.mp h
  obtain ⟨deps, hdeps, h⟩ := bind_eq_ok.mp h
  cases h
  refine ⟨?_, block, hblock, not_not.mp hknown, not_not.mp hverify⟩
  rw [getBlockData, hblock]
  exact bind_eq_ok.mpr ⟨prev, decodePrevious_of_checkPrevious hprev,
    bind_eq_ok.mpr ⟨deps, decodeAll_of_checkReferences hdeps, rfl⟩⟩

/-- Reloaded blocks are vouched for, too. -/
theorem vouched_of_getBlockData (hauthentic : wire.Authentic signed)
    (h : getBlockData wire signed = .ok info) :
    wire.Vouched info := by
  obtain ⟨block, hblock, hknown, hverify⟩ := hauthentic
  rw [getBlockData, hblock] at h
  obtain ⟨prev, -, h⟩ := bind_eq_ok.mp h
  obtain ⟨deps, -, h⟩ := bind_eq_ok.mp h
  cases h
  exact ⟨wire.length_digest _, hknown, wire.unmarshalReference_marshalReference _, hverify⟩

/-- Loading blocks loads each of them. -/
theorem of_load {db : Database β} {ids : List BlockID} :
    ∀ {infos : List (BlockData β)}, db.load wire ids = .ok infos → ∀ info ∈ infos,
      ∃ id ∈ ids, ∃ signed, db.blocks[id]? = some signed ∧ getBlockData wire signed = .ok info := by
  induction ids with
  | nil =>
    intro infos h info hinfo
    cases h
    cases hinfo
  | cons id ids ih =>
    intro infos h info hinfo
    rw [Database.load] at h
    split at h
    · cases h
    rename_i signed hsigned
    obtain ⟨first, hfirst, h⟩ := bind_eq_ok.mp h
    obtain ⟨rest, hrest, h⟩ := bind_eq_ok.mp h
    cases h
    rcases mem_cons.mp hinfo with rfl | hinfo
    · exact ⟨id, mem_cons_self, signed, hsigned, hfirst⟩
    · obtain ⟨id', hid', hfound⟩ := ih hrest info hinfo
      exact ⟨id', mem_cons_of_mem _ hid', hfound⟩

/-- What is reloaded was stored and not included. -/
theorem of_getNotIncluded {db : Database β} {infos : List (BlockData β)}
    (h : db.getNotIncluded wire = .ok infos) : ∀ info ∈ infos,
      ∃ id : BlockID, (db.notIncluded[id]?).isSome ∧ ∃ signed, db.blocks[id]? = some signed ∧
        getBlockData wire signed = .ok info := by
  intro info hinfo
  obtain ⟨id, hid, signed, hsigned, hdata⟩ := of_load h info hinfo
  rw [mem_insertionSort, Std.ExtTreeMap.mem_keys] at hid
  exact ⟨id, Std.ExtTreeMap.isSome_getElem?_iff_mem.mpr hid, signed, hsigned, hdata⟩

end Reload

end Broadcast

end Blockmania
