/-
# The dependency graph does not crash

The dependency graph writes every missing block to its log, and writing a block id
down takes twelve bytes of its hash. The hashes of accepted blocks are digests, but
those in references are whatever the signer chose. The graph also follows the ids of
waiting blocks to the blocks themselves, which are removed once they are included.
This is safe because a block is removed only after the blocks it has waited for are
through with it: they were included before it, and stand before it in the queue.
-/

import Blockmania.Broadcast.Depgraph

namespace Blockmania.Broadcast

open Math List FiniteMap

variable {β : Type}

/-- All ids a block has to wait for can be written down. -/
def BlockData.legible (self : Nat) (info : BlockData β) : Bool :=
  (info.links self).all fun dep => decide (dep.hash = []) || decide (12 ≤ dep.hash.length)

/-- Only short hashes cannot be written down. -/
theorem idString_ensures (id : BlockID) : Ensures (idString id) (fun _ => True)
    fun fault => fault = .indexOutOfRange ∧ id.hash ≠ [] ∧ id.hash.length < 12 := by
  unfold idString
  dsimp only
  split
  · exact trivial
  rename_i hne
  split
  · rename_i hshort
    exact ⟨rfl, hne, hshort⟩
  · exact trivial

variable {info : BlockData β} {signed old : SignedData β} {id : BlockID} {links : List BlockID}
  {self : Nat} {db' : Database β}

/-- Two encodings of one block are reloaded alike. -/
theorem getBlockData_congr {wire : Wire β} {signed' : SignedData β}
    (hsame : signed.data = signed'.data) (h : getBlockData wire signed = .ok info) :
    ∃ info', getBlockData wire signed' = .ok info' ∧ info'.id = info.id ∧
      ∀ self, info'.links self = info.links self := by
  unfold getBlockData at h
  split at h
  · cases h
  rename_i block hblock
  obtain ⟨prev, hprev, h⟩ := bind_eq_ok.mp h
  obtain ⟨deps, hdeps, h⟩ := bind_eq_ok.mp h
  cases h
  rw [hsame] at hblock
  refine ⟨⟨deps, (wire.reference signed'.data block).id, prev,
    ⟨wire.marshalReference (wire.reference signed'.data block), signed'.signature⟩⟩, ?_, ?_,
    fun self => rfl⟩
  · rw [getBlockData, hblock]
    exact bind_eq_ok.mpr ⟨prev, hprev, bind_eq_ok.mpr ⟨deps, hdeps, rfl⟩⟩
  · dsimp only
    rw [hsame]

/-- A database has the block that stands for an id, and what it holds of it can be
written down. -/
def Database.Knows (wire : Wire β) (db : Database β) (self : Nat) (id : BlockID)
    (links : List BlockID) : Prop :=
  ∃ signed info, db.blocks[id]? = some signed ∧ getBlockData wire signed = .ok info ∧
    info.id = id ∧ info.links self = links ∧ info.id.hash.length = 32 ∧ info.legible self = true

theorem Database.Knows.unique {wire : Wire β} {db : Database β} {links' : List BlockID}
    (h : db.Knows wire self id links) (h' : db.Knows wire self id links') :
    links = links' := by
  obtain ⟨signed, info, hsigned, hinfo, -, rfl, -⟩ := h
  obtain ⟨signed', info', hsigned', hinfo', -, rfl, -⟩ := h'
  obtain rfl : signed = signed' := Option.some.inj (hsigned.symm.trans hsigned')
  obtain rfl : info = info' := Except.ok.inj (hinfo.symm.trans hinfo')
  rfl

/-- No stored block is replaced by a block with other content. -/
def Database.Extends (db db' : Database β) : Prop :=
  ∀ (id : BlockID) signed, db.blocks[id]? = some signed →
    ∃ signed', db'.blocks[id]? = some signed' ∧ signed.data = signed'.data

theorem Database.isSome_of_extends {db : Database β} (hextends : db.Extends db')
    (hid : (db.blocks[id]?).isSome) : (db'.blocks[id]?).isSome := by
  obtain ⟨signed, hsigned⟩ := Option.isSome_iff_exists.mp hid
  obtain ⟨signed', hsigned', -⟩ := hextends id signed hsigned
  exact Option.isSome_of_eq_some hsigned'

theorem Database.Knows.extends {wire : Wire β} {db : Database β} (h : db.Knows wire self id links)
    (hextends : db.Extends db') :
    db'.Knows wire self id links := by
  obtain ⟨signed, info, hsigned, hinfo, rfl, rfl, hlength, hlegible⟩ := h
  obtain ⟨signed', hsigned', hdata⟩ := hextends _ signed hsigned
  obtain ⟨info', hinfo', hid, hlinks⟩ := getBlockData_congr hdata hinfo
  refine ⟨signed', info', hsigned', hinfo', hid, hlinks self, hid ▸ hlength, ?_⟩
  rw [BlockData.legible, hlinks self]
  exact hlegible

/-! ## The graph between calls -/

namespace Depgraph

/-- The block was included by this graph or before it was started. -/
def marked (db : Database β) (d : Depgraph β) (id : BlockID) : Bool :=
  d.tcache[id]?.isSome || db.isIncluded id

theorem marked_markIncluded (db : Database β) (d : Depgraph β) (icache : FiniteMap BlockID Bool)
    (block : BlockData β) (id : BlockID) :
    marked db { { d with icache }.markIncluded block.id with blocks := d.blocks ++ [block] } id =
      (marked db d id || decide (block.id = id)) := by
  simp only [marked, markIncluded, lookup_insert]
  split
  · rename_i heq
    simp [heq]
  · rename_i hne
    simp [hne]

/-- The caches tell the truth. -/
structure Cached (db : Database β) (d : Depgraph β) : Prop where
  tcache : ∀ (id : BlockID) inc, d.tcache[id]? = some inc → inc = true
  icache : ∀ (id : BlockID) inc, d.icache[id]? = some inc → inc = marked db d id

variable {db : Database β} {d : Depgraph β}

/-- The caches do not change the answer. -/
theorem Cached.included_eq (h : Cached db d) (id : BlockID) : d.included db id = marked db d id := by
  unfold included
  cases htemporary : d.tcache[id]? with
  | some inc => simp [marked, htemporary, h.tcache id inc htemporary]
  | none =>
    cases hcached : d.icache[id]? with
    | some inc => exact h.icache id inc hcached
    | none => simp [marked, htemporary]

/-- Questions keep the cache true. -/
theorem Cached.asked (h : Cached db d) {icache : FiniteMap BlockID Bool}
    (hasked : Asked db d icache) : Cached db { d with icache } where
  tcache := h.tcache
  icache id inc hinc := by
    rcases hasked.entries id inc hinc with hbefore | ⟨htemporary, hstored⟩
    · exact h.icache id inc hbefore
    · simp [marked, htemporary, hstored]

theorem Cached.restrict (h : Cached db d) (keep : BlockID → Bool) :
    Cached db { d with icache := d.icache.restrict keep } where
  tcache := h.tcache
  icache id inc hinc := by
    apply h.icache id inc
    change (d.icache.restrict keep)[id]? = some inc at hinc
    rw [lookup_restrict] at hinc
    split at hinc
    · exact hinc
    · cases hinc

theorem Cached.markIncluded (h : Cached db d) (block : BlockData β) :
    Cached db { d.markIncluded block.id with blocks := d.blocks ++ [block] } where
  tcache id inc hid := by
    change (d.tcache.insert block.id true)[id]? = some inc at hid
    rw [lookup_insert] at hid
    split at hid
    · exact (Option.some.inj hid).symm
    · exact h.tcache id inc hid
  icache id inc hid := by
    rw [marked_markIncluded db d d.icache]
    change (d.icache.insert block.id true)[id]? = some inc at hid
    rw [lookup_insert] at hid
    split at hid
    · rename_i heq
      cases hid
      simp [heq]
    · rename_i hne
      rw [h.icache id inc hid]
      simp [hne]

/-- What `processBlock` does if the caches tell the truth. -/
theorem Cached.processBlock_cases (h : Cached db d) {d' : Depgraph β} {block : BlockData β} {inc : Bool}
    (hrun : processBlock db d block = .ok (d', inc)) :
    ∃ icache, Cached db { d with icache } ∧
      (inc = true ∧ marked db d block.id = true ∧ d' = { d with icache } ∨
      inc = false ∧ marked db d block.id = false ∧ (∃ deps, deps ≠ [] ∧
        deps = (block.links d.self).filter (fun dep => !marked db d dep) ∧
        d' = { d with icache }.addPending block deps) ∨
      inc = true ∧ marked db d block.id = false ∧
        (∀ dep ∈ block.links d.self, marked db d dep = true) ∧
        d' = { { d with icache }.markIncluded block.id with blocks := d.blocks ++ [block] }) := by
  obtain ⟨icache, hasked, hcases⟩ := Depgraph.processBlock_cases hrun
  simp only [h.included_eq] at hcases
  exact ⟨icache, h.asked hasked, hcases⟩

/-- What the graph keeps track of. -/
structure Tidy (wire : Wire β) (db : Database β) (d : Depgraph β) : Prop where
  tcache : ∀ (id : BlockID) inc, d.tcache[id]? = some inc → inc = true
  icache : ∀ (id : BlockID) inc, d.icache[id]? = some inc → inc = marked db d id
  inbox : ∀ info ∈ d.inbox, db.Knows wire d.self info.id (info.links d.self)
  pending : ∀ (id : BlockID) (block : BlockData β), d.pending[id]? = some block →
    block.id = id ∧ db.Knows wire d.self id (block.links d.self)
  blocks : ∀ info ∈ d.blocks, marked db d info.id = true ∧ (db.blocks[info.id]?).isSome
  /-- A block that waits is pending, and waits for a block it builds on. -/
  await : ∀ dep id, id ∈ d.awaiting dep →
    ∃ block, d.pending[id]? = some block ∧ dep ∈ block.links d.self
  /-- An included block does not wait for one that is not. -/
  closed : ∀ dep id, id ∈ d.awaiting dep → marked db d id = true → marked db d dep = true

variable {dep : BlockID}

variable {wire : Wire β} {d' : Depgraph β}

theorem Tidy.cached (h : Tidy wire db d) : Cached db d := ⟨h.tcache, h.icache⟩

variable {block : BlockData β} {deps ids : List BlockID} {icache : FiniteMap BlockID Bool}

theorem mem_awaiting_addPending :
    id ∈ (d.addPending block deps).awaiting dep ↔
      id ∈ d.awaiting dep ∨ id = block.id ∧ dep ∈ deps := by
  have hfold : ∀ await : FiniteMap BlockID (List BlockID),
      id ∈ (deps.foldl (fun await dep =>
        let ids := await[dep]?.getD []
        if block.id ∈ ids then await else await.insert dep (ids ++ [block.id])) await)[dep]?.getD [] ↔
      id ∈ await[dep]?.getD [] ∨ id = block.id ∧ dep ∈ deps := by
    induction deps with
    | nil => simp
    | cons first deps ih =>
      intro await
      rw [foldl_cons, ih]
      dsimp only
      by_cases hfirst : first = dep
      · subst hfirst
        split
        · rename_i hmem
          constructor
          · rintro (hid | ⟨rfl, -⟩)
            · exact .inl hid
            · exact .inl hmem
          · rintro (hid | ⟨rfl, -⟩)
            · exact .inl hid
            · exact .inl hmem
        · rw [lookup_insert_self, Option.getD_some, mem_append, mem_singleton]
          simp only [mem_cons, true_or, and_true]
          tauto
      · have hrest : ∀ ids, (if block.id ∈ await[first]?.getD [] then await
            else await.insert first ids)[dep]? = await[dep]? := by
          intro ids
          split
          · rfl
          · rw [lookup_insert_of_ne _ hfirst]
        rw [hrest, mem_cons]
        simp [Ne.symm hfirst]
  exact hfold d.await

/-- What `processBlock` does for those that wait. -/
structure Progress (db : Database β) (d d' : Depgraph β) (block : BlockID) (inc : Bool) : Prop where
  self : d'.self = d.self
  marked : ∀ id, marked db d' id = true ↔ marked db d id = true ∨ inc = true ∧ id = block
  included : inc = true → (∀ dep, d'.awaiting dep = d.awaiting dep) ∧
    ∀ dep, block ∈ d.awaiting dep → Depgraph.marked db d dep = true
  putOff : inc = false → Depgraph.marked db d block = false ∧
    ∀ dep id, (id ∈ d.awaiting dep → id ∈ d'.awaiting dep) ∧ (id ∈ d'.awaiting dep →
      id ∈ d.awaiting dep ∨ id = block ∧ Depgraph.marked db d dep = false)

/-- A crash that comes from writing one of the ids down. -/
def Unwritable (ids : List BlockID) (fault : Fault) : Prop :=
  fault = .indexOutOfRange ∧ ∃ id ∈ ids, id.hash ≠ [] ∧ id.hash.length < 12

theorem Unwritable.mono {ids' : List BlockID} {fault : Fault} (h : Unwritable ids fault)
    (hsub : ∀ id ∈ ids, id ∈ ids') : Unwritable ids' fault := by
  obtain ⟨hfault, id, hid, hshort⟩ := h
  exact ⟨hfault, id, hsub id hid, hshort⟩

theorem idString_unwritable (hid : id ∈ ids) :
    Ensures (idString id) (fun _ => True) (Unwritable ids) :=
  (idString_ensures id).weaken fun _ hfault => ⟨hfault.1, id, hid, hfault.2⟩

/-- What the search for missing blocks stops at. -/
theorem missing_unwritable (db : Database β) (block : BlockData β) (deps : List BlockID) :
    ∀ d : Depgraph β, Ensures (missing db block deps d) (fun _ => True) (Unwritable (block.id :: deps)) := by
  induction deps with
  | nil => exact fun d => trivial
  | cons dep deps ih =>
    intro d
    have hrest : ∀ d : Depgraph β, Ensures (missing db block deps d) (fun _ => True)
        (Unwritable (block.id :: dep :: deps)) := fun d =>
      (ih d).weaken fun _ hfault => hfault.mono (by simp +contextual [or_imp])
    obtain ⟨icache, hanswer, -⟩ := isIncluded_spec db d dep
    rw [missing, hanswer]
    dsimp only
    split
    · exact hrest _
    · refine (idString_unwritable mem_cons_self).bind fun _ _ => ?_
      refine (idString_unwritable (mem_cons_of_mem _ mem_cons_self)).bind fun _ _ => ?_
      exact (hrest _).bind fun _ _ => trivial

/-- What `processBlock` stops at. -/
theorem processBlock_unwritable (db : Database β) (d : Depgraph β) (block : BlockData β) :
    Ensures (Depgraph.processBlock db d block) (fun _ => True)
      (Unwritable (block.id :: block.links d.self)) := by
  obtain ⟨icache, hanswer, -⟩ := isIncluded_spec db d block.id
  rw [Depgraph.processBlock, hanswer]
  dsimp only
  split
  · exact trivial
  · refine (missing_unwritable db block _ _).bind fun r _ => ?_
    split <;> exact trivial

theorem progress_asked {block : BlockID} (hinc : marked db d block = true)
    (hwaits : ∀ dep, block ∈ d.awaiting dep → marked db d dep = true)
    (icache : FiniteMap BlockID Bool) : Progress db d { d with icache } block true where
  self := rfl
  marked id := ⟨.inl, fun hid => hid.elim (fun hid => hid) fun hblock => by rwa [hblock.2]⟩
  included _ := ⟨fun _ => rfl, hwaits⟩
  putOff hfalse := by cases hfalse

theorem progress_addPending (hinc : marked db d block.id = false)
    (hdeps : deps = (block.links d.self).filter fun dep => !marked db d dep)
    (icache : FiniteMap BlockID Bool) :
    Progress db d ({ d with icache }.addPending block deps) block.id false where
  self := rfl
  marked id := ⟨.inl, fun hid => hid.elim (fun hid => hid) fun hfalse => absurd hfalse.1 (by decide)⟩
  included hfalse := by cases hfalse
  putOff _ := by
    refine ⟨hinc, fun dep id => ?_⟩
    rw [mem_awaiting_addPending]
    refine ⟨.inl, fun hid => hid.imp_right fun hnew => ⟨hnew.1, ?_⟩⟩
    rw [hdeps, mem_filter, Bool.not_eq_true'] at hnew
    exact hnew.2.2

theorem progress_markIncluded (hwaits : ∀ dep, block.id ∈ d.awaiting dep → marked db d dep = true)
    (icache : FiniteMap BlockID Bool) :
    Progress db d { { d with icache }.markIncluded block.id with blocks := d.blocks ++ [block] }
      block.id true where
  self := rfl
  marked id := by
    rw [marked_markIncluded, Bool.or_eq_true, decide_eq_true_eq]
    exact or_congr_right ⟨fun heq => ⟨rfl, heq.symm⟩, fun heq => heq.2.symm⟩
  included _ := ⟨fun _ => rfl, hwaits⟩
  putOff hfalse := by cases hfalse

theorem lookup_addPending (d : Depgraph β) (block : BlockData β) (deps : List BlockID) (id : BlockID) :
    (d.addPending block deps).pending[id]? = if block.id = id then some block else d.pending[id]? :=
  lookup_insert _ _ _ _

/-- A block is put off. -/
theorem Tidy.putOff (h : Tidy wire db d)
    (hblock : db.Knows wire d.self block.id (block.links d.self))
    (hcached : Cached db { d with icache }) (hinc : marked db d block.id = false)
    (hdeps : deps = (block.links d.self).filter fun dep => !marked db d dep) :
    Tidy wire db ({ d with icache }.addPending block deps) := { h with
  icache := hcached.icache
  pending id other hother := by
    rw [lookup_addPending] at hother
    split at hother
    · rename_i heq
      cases hother
      exact ⟨heq, heq ▸ hblock⟩
    · exact h.pending id other hother
  await dep id hid := by
    rw [lookup_addPending]
    rcases mem_awaiting_addPending.mp hid with hid | ⟨rfl, hdep⟩
    · obtain ⟨other, hother, hlink⟩ := h.await dep id hid
      split
      · rename_i heq
        -- the block waited before, and it has not changed
        refine ⟨block, rfl, ?_⟩
        have hknown := (h.pending id other hother).2
        rw [← heq] at hknown
        change dep ∈ block.links d.self
        rw [hblock.unique hknown]
        exact hlink
      · exact ⟨other, hother, hlink⟩
    · rw [hdeps] at hdep
      rw [if_pos rfl]
      exact ⟨block, rfl, (mem_filter.mp hdep).1⟩
  closed dep id hid hmarked := by
    rcases mem_awaiting_addPending.mp hid with hid | ⟨rfl, -⟩
    · exact h.closed dep id hid hmarked
    · cases hinc.symm.trans hmarked }

/-- A block waits for nothing but what it builds on. -/
theorem Tidy.marked_of_awaiting (h : Tidy wire db d)
    (hblock : db.Knows wire d.self block.id (block.links d.self))
    (hall : ∀ dep ∈ block.links d.self, marked db d dep = true) (dep : BlockID)
    (hdep : block.id ∈ d.awaiting dep) : marked db d dep = true := by
  obtain ⟨other, hother, hlink⟩ := h.await dep block.id hdep
  rw [hblock.unique (h.pending _ other hother).2] at hall
  exact hall dep hlink

/-- A block is included. -/
theorem Tidy.markIncluded (h : Tidy wire db d)
    (hblock : db.Knows wire d.self block.id (block.links d.self))
    (hcached : Cached db { d with icache })
    (hall : ∀ dep ∈ block.links d.self, marked db d dep = true) :
    Tidy wire db { { d with icache }.markIncluded block.id with blocks := d.blocks ++ [block] } := { h with
  tcache := (hcached.markIncluded block).tcache
  icache := (hcached.markIncluded block).icache
  blocks info hinfo := by
    rw [marked_markIncluded]
    rcases mem_append.mp hinfo with hinfo | hinfo
    · rw [(h.blocks info hinfo).1]
      exact ⟨rfl, (h.blocks info hinfo).2⟩
    · rw [mem_singleton.mp hinfo]
      obtain ⟨signed, -, hsigned, -⟩ := hblock
      exact ⟨by simp, Option.isSome_of_eq_some hsigned⟩
  closed dep id hid hid' := by
    rw [marked_markIncluded, Bool.or_eq_true, decide_eq_true_eq] at hid' ⊢
    rcases hid' with hid' | rfl
    · exact .inl (h.closed dep id hid hid')
    · exact .inl (h.marked_of_awaiting hblock hall dep hid) }

/-- `processBlock` does not crash, and keeps track. -/
theorem Tidy.processBlock (h : Tidy wire db d)
    (hblock : db.Knows wire d.self block.id (block.links d.self)) :
    Ensures (Depgraph.processBlock db d block)
      (fun r => Tidy wire db r.1 ∧ Progress db d r.1 block.id r.2) (fun _ => False) := by
  cases hrun : Depgraph.processBlock db d block with
  | error fault =>
    -- the ids that are written down are long enough
    obtain ⟨signed, info, -, -, hid, hlinks, hlength, hlegible⟩ := hblock
    obtain ⟨-, id, hmem, hne, hshort⟩ := (processBlock_unwritable db d block).of_error hrun
    rcases mem_cons.mp hmem with rfl | hmem
    · rw [hid] at hlength
      exact absurd hshort (by omega)
    · rw [BlockData.legible, hlinks, all_eq_true] at hlegible
      have hlong := hlegible id hmem
      rw [decide_eq_false hne, decide_eq_false (by omega)] at hlong
      cases hlong
  | ok r =>
    obtain ⟨d', inc⟩ := r
    obtain ⟨icache, hcached, hcases⟩ := h.cached.processBlock_cases hrun
    rcases hcases with ⟨rfl, hinc, rfl⟩ | ⟨rfl, hinc, deps, -, hdeps, rfl⟩ | ⟨rfl, hinc, hall, rfl⟩
    · exact ⟨⟨h.tcache, hcached.icache, h.inbox, h.pending, h.blocks, h.await, h.closed⟩,
        progress_asked hinc (fun dep hdep => h.closed dep _ hdep hinc) icache⟩
    · exact ⟨h.putOff hblock hcached hinc hdeps, progress_addPending hinc hdeps icache⟩
    · exact ⟨h.markIncluded hblock hcached hall,
        progress_markIncluded (h.marked_of_awaiting hblock hall) icache⟩

/-- Another database with the same included blocks. -/
theorem Tidy.ofDatabase (h : Tidy wire db d) (hextends : db.Extends db')
    (hmarked : ∀ id, marked db' d id = marked db d id) :
    Tidy wire db' d := { h with
  icache id inc hinc := (h.icache id inc hinc).trans (hmarked id).symm
  inbox info hinfo := (h.inbox info hinfo).extends hextends
  pending id block hblock := ⟨(h.pending id block hblock).1, (h.pending id block hblock).2.extends hextends⟩
  blocks info hinfo := by
    obtain ⟨hmark, hstored⟩ := h.blocks info hinfo
    exact ⟨(hmarked _).trans hmark, Database.isSome_of_extends hextends hstored⟩
  closed dep id hid := by
    rw [hmarked, hmarked]
    exact h.closed dep id hid }

/-- What the loop of `process` relies on. Whoever waits for an included block waits
for one that is in the queue, and for one that stands before it if it is in the
queue itself. -/
def Tracks (db : Database β) (d : Depgraph β) : Loop → Prop
  | .waiting => ∀ dep id, id ∈ d.awaiting dep → marked db d dep = false
  | .cascading _ next revdeps processed _ =>
    (∀ id ∈ next :: processed, marked db d id = true) ∧
    (∀ dep id, id ∈ d.awaiting dep → marked db d dep = true → dep ∈ next :: processed) ∧
    (∀ dep, next ∉ d.awaiting dep) ∧
    (∀ before id after, processed = before ++ id :: after → ∀ dep, id ∈ d.awaiting dep →
      dep ∈ next :: before) ∧
    ∀ id ∈ revdeps, id ∈ d.awaiting next

variable {inc first : Bool} {next : BlockID} {processed : List BlockID}
  {seen : FiniteMap BlockID Bool}

/-- Taking a block that is included starts a cascade. -/
theorem tracks_take (htracks : Tracks db d .waiting) {block : BlockID}
    (hprogress : Progress db d d' block inc) (seen : FiniteMap BlockID Bool) :
    Tracks db d' (if inc then .cascading true block (d'.awaiting block) [] seen else .waiting) := by
  cases inc with
  | true =>
    obtain ⟨hsame, hwaits⟩ := hprogress.included rfl
    refine ⟨fun id hid => ?_, fun dep id hid hdep => ?_, fun dep hdep => ?_, fun before id after hsplit => ?_,
      fun id hid => hid⟩
    · rw [mem_singleton.mp hid]
      exact (hprogress.marked block).mpr (.inr ⟨rfl, rfl⟩)
    · rw [hsame] at hid
      rcases (hprogress.marked dep).mp hdep with hdep | ⟨-, rfl⟩
      · cases (htracks dep id hid).symm.trans hdep
      · exact mem_cons_self
    · rw [hsame] at hdep
      cases (htracks dep block hdep).symm.trans (hwaits dep hdep)
    · simp at hsplit
  | false =>
    obtain ⟨-, hawaits⟩ := hprogress.putOff rfl
    intro dep id hid
    have hdep : marked db d dep = false := by
      rcases (hawaits dep id).2 hid with hid | ⟨-, hdep⟩
      · exact htracks dep id hid
      · exact hdep
    rw [Bool.eq_false_iff]
    intro hdep'
    rcases (hprogress.marked dep).mp hdep' with hdep' | ⟨hfalse, -⟩
    · cases hdep.symm.trans hdep'
    · cases hfalse

/-- The next block that has waited joins the queue if it is included. -/
theorem tracks_advance {revdep : BlockID} {revdeps : List BlockID}
    (htracks : Tracks db d (.cascading first next (revdep :: revdeps) processed seen))
    (hprogress : Progress db d d' revdep inc) (seen' : FiniteMap BlockID Bool) :
    Tracks db d' (if inc then .cascading first next revdeps (processed ++ [revdep]) ∅
      else .cascading first next revdeps processed seen') := by
  obtain ⟨hqueue, hwaiting, hnext, hbefore, hrevdeps⟩ := htracks
  have hkeeps : ∀ id, marked db d id = true → marked db d' id = true := fun id hid =>
    (hprogress.marked id).mpr (.inl hid)
  cases inc with
  | true =>
    obtain ⟨hsame, hwaits⟩ := hprogress.included rfl
    refine ⟨fun id hid => ?_, fun dep id hid hdep => ?_, fun dep => ?_,
      fun before id after hsplit dep hid => ?_, fun id hid => ?_⟩
    · rw [← cons_append, mem_append, mem_singleton] at hid
      rcases hid with hid | rfl
      · exact hkeeps id (hqueue id hid)
      · exact (hprogress.marked id).mpr (.inr ⟨rfl, rfl⟩)
    · rw [hsame] at hid
      rw [← cons_append, mem_append, mem_singleton]
      rcases (hprogress.marked dep).mp hdep with hdep | ⟨-, hdep⟩
      · exact .inl (hwaiting dep id hid hdep)
      · exact .inr hdep
    · rw [hsame]
      exact hnext dep
    · rw [hsame] at hid
      -- the split is in the old queue, or at its end
      rcases append_eq_append_iff.mp hsplit.symm with ⟨more, hmore, hlast⟩ | ⟨more, rfl, hrest⟩
      · cases more with
        | nil =>
          rw [append_nil] at hmore
          rw [nil_append] at hlast
          obtain ⟨rfl, -⟩ := List.cons.inj hlast
          rw [← hmore]
          exact hwaiting dep id hid (hwaits dep hid)
        | cons x more =>
          obtain ⟨rfl, -⟩ := List.cons.inj hlast
          exact hbefore before id more hmore dep hid
      · cases more with
        | nil =>
          obtain ⟨rfl, -⟩ := List.cons.inj hrest
          rw [append_nil]
          exact hwaiting dep revdep hid (hwaits dep hid)
        | cons x more => simp at hrest
    · rw [hsame]
      exact hrevdeps id (mem_cons_of_mem _ hid)
  | false =>
    obtain ⟨hunmarked, hawaits⟩ := hprogress.putOff rfl
    have hother : ∀ dep id, id ≠ revdep → id ∈ d'.awaiting dep → id ∈ d.awaiting dep := by
      intro dep id hne hid
      exact ((hawaits dep id).2 hid).resolve_right fun hnew => hne hnew.1
    have hmarked : ∀ id, marked db d' id = true → marked db d id = true := by
      intro id hid
      rcases (hprogress.marked id).mp hid with hid | ⟨hfalse, -⟩
      · exact hid
      · cases hfalse
    have hne : ∀ id ∈ next :: processed, id ≠ revdep := by
      rintro id hid rfl
      cases hunmarked.symm.trans (hqueue id hid)
    refine ⟨fun id hid => hkeeps id (hqueue id hid), fun dep id hid hdep => ?_, fun dep hid => ?_,
      fun before id after hsplit dep hid => ?_, fun id hid => ?_⟩
    · rcases (hawaits dep id).2 hid with hid | ⟨-, hmissing⟩
      · exact hwaiting dep id hid (hmarked dep hdep)
      · cases hmissing.symm.trans (hmarked dep hdep)
    · exact hnext dep (hother dep next (hne next mem_cons_self) hid)
    · have hid' : id ≠ revdep := hne id (by simp [hsplit])
      exact hbefore before id after hsplit dep (hother dep id hid' hid)
    · exact (hawaits next id).1 (hrevdeps id (mem_cons_of_mem _ hid))

/-- The queue only depends on who waits and on what is included. -/
theorem Tracks.congr {loop : Loop} (htracks : Tracks db d loop)
    (hmarked : ∀ id, marked db' d' id = marked db d id)
    (hawaiting : ∀ dep, d'.awaiting dep = d.awaiting dep) : Tracks db' d' loop := by
  cases loop with
  | waiting =>
    intro dep id hid
    rw [hawaiting] at hid
    rw [hmarked]
    exact htracks dep id hid
  | cascading first next revdeps processed seen =>
    simp only [Tracks, hmarked, hawaiting] at htracks ⊢
    exact htracks

/-- `next` is done with, and nobody waits for it any more. -/
def finish (d : Depgraph β) (first : Bool) (next : BlockID) : Depgraph β :=
  { d with
    await := d.await.erase next
    pending := if first then d.pending else d.pending.erase next }

theorem mem_awaiting_finish :
    id ∈ (d.finish first next).awaiting dep ↔ dep ≠ next ∧ id ∈ d.awaiting dep := by
  unfold awaiting finish
  dsimp only
  rw [lookup_erase]
  split
  · rename_i heq
    simp [heq]
  · rename_i hne
    simp [Ne.symm hne]

theorem lookup_finish_of_ne (h : id ≠ next) :
    (d.finish first next).pending[id]? = d.pending[id]? := by
  cases first with
  | true => rfl
  | false =>
    change (d.pending.erase next)[id]? = d.pending[id]?
    rw [lookup_erase, if_neg (Ne.symm h)]

theorem lookup_of_finish (h : (d.finish first next).pending[id]? = some block) :
    d.pending[id]? = some block := by
  cases first with
  | true => exact h
  | false =>
    change (d.pending.erase next)[id]? = some block at h
    rw [lookup_erase] at h
    split at h
    · cases h
    · exact h

theorem Tidy.finish (h : Tidy wire db d) (hnext : ∀ dep, next ∉ d.awaiting dep) :
    Tidy wire db (d.finish first next) := { h with
  pending id block hblock := h.pending id block (lookup_of_finish hblock)
  await dep id hid := by
    obtain ⟨-, hid⟩ := mem_awaiting_finish.mp hid
    obtain ⟨block, hblock, hlink⟩ := h.await dep id hid
    have hne : id ≠ next := fun heq => hnext dep (heq ▸ hid)
    exact ⟨block, by rw [lookup_finish_of_ne hne, hblock], hlink⟩
  closed dep id hid := h.closed dep id (mem_awaiting_finish.mp hid).2 }

/-- The loop goes on with the next block of the queue, or is done. -/
theorem tracks_finish (htracks : Tracks db d (.cascading first next [] processed seen)) :
    Tracks db (d.finish first next) (Node.resume (d.finish first next) seen processed) := by
  obtain ⟨hqueue, hwaiting, -, hbefore, -⟩ := htracks
  cases processed with
  | nil =>
    intro dep id hid
    obtain ⟨hne, hid⟩ := mem_awaiting_finish.mp hid
    rw [Bool.eq_false_iff]
    intro hdep
    exact hne (mem_singleton.mp (hwaiting dep id hid hdep))
  | cons later processed =>
    refine ⟨fun id hid => hqueue id (mem_cons_of_mem _ hid), fun dep id hid hdep => ?_,
      fun dep hid => ?_, fun before id after hsplit dep hid => ?_, fun id hid => hid⟩
    · obtain ⟨hne, hid⟩ := mem_awaiting_finish.mp hid
      exact (mem_cons.mp (hwaiting dep id hid hdep)).resolve_left hne
    · obtain ⟨hne, hid⟩ := mem_awaiting_finish.mp hid
      exact hne (mem_singleton.mp (hbefore [] later processed rfl dep hid))
    · obtain ⟨hne, hid⟩ := mem_awaiting_finish.mp hid
      exact (mem_cons.mp (hbefore (later :: before) id after (by rw [hsplit]; rfl) dep hid)).resolve_left
        hne

end Depgraph

/-! ## Runs -/

/-- No block with other content is stored under the id. -/
def Database.agrees [DecidableEq β] (db : Database β) (id : BlockID) (data : β) : Bool :=
  match db.blocks[id]? with
  | some old => old.data = data
  | none => true

theorem Database.data_of_agrees [DecidableEq β] {db : Database β} {data : β}
    (h : db.agrees id data = true) (hold : db.blocks[id]? = some old) :
    old.data = data := by
  rw [agrees, hold] at h
  exact of_decide_eq_true h

/-- Storing a block again keeps its content. -/
theorem Database.extends_of_agrees [DecidableEq β] {db : Database β}
    (h : db.agrees id signed.data = true) (hblocks : db'.blocks = db.blocks.insert id signed) :
    db.Extends db' := by
  intro id' old hold
  rw [hblocks, lookup_insert]
  split
  · rename_i heq
    subst heq
    exact ⟨signed, rfl, data_of_agrees h hold⟩
  · exact ⟨old, hold, rfl⟩

/-- A block that is set is not included, now or before. -/
theorem Database.isIncluded_setBlock (db : Database β) (id : BlockID) (signed : SignedData β)
    (id' : BlockID) : (db.setBlock id signed).isIncluded id' = db.isIncluded id' := by
  unfold isIncluded setBlock
  split
  · rfl
  rename_i hset
  dsimp only
  rw [lookup_insert]
  split
  · rename_i heq
    rw [← heq, Option.not_isSome_iff_eq_none.mp hset]
    rfl
  · rfl

/-- Own blocks include what they reference. -/
theorem Database.isIncluded_setOwnBlock (db : Database β) (id : BlockID) (signed ref : SignedData β)
    (deps : List BlockID) (id' : BlockID) :
    (db.setOwnBlock id signed ref deps).isIncluded id' = (decide (id' ∈ deps) || db.isIncluded id') := by
  unfold isIncluded setOwnBlock
  dsimp only
  rw [lookup_insertAll]
  split
  · rename_i hmem
    simp [hmem]
  · rename_i hmem
    simp [hmem]

/-- An accepted block that is stored is known. -/
theorem Database.knows_of_accept {wire : Wire β} {db : Database β}
    (haccept : wire.accept signed = .ok info) (hlegible : info.legible self = true)
    (hold : db.blocks[info.id]? = some old) (hsame : old.data = signed.data) :
    db.Knows wire self info.id (info.links self) := by
  obtain ⟨info', hinfo', hid, hlinks⟩ := getBlockData_congr hsame.symm (getBlockData_of_accept haccept).1
  refine ⟨old, info', hold, hinfo', hid, hlinks self, ?_, ?_⟩
  · rw [hid]
    exact (Wire.vouched_of_accept haccept).length
  · rw [BlockData.legible, hlinks]
    exact hlegible

/-- Known blocks can be loaded. -/
theorem Database.load_ok {wire : Wire β} {db : Database β} {ids : List BlockID}
    (h : ∀ id ∈ ids, ∃ links, db.Knows wire self id links) :
    ∃ infos, db.load wire ids = .ok infos ∧
      ∀ info ∈ infos, db.Knows wire self info.id (info.links self) := by
  induction ids with
  | nil => exact ⟨[], rfl, by simp⟩
  | cons id ids ih =>
    obtain ⟨infos, hinfos, hknown⟩ := ih fun id' hid' => h id' (mem_cons_of_mem _ hid')
    obtain ⟨links, signed, info, hsigned, hinfo, rfl, rfl, hrest⟩ := h id mem_cons_self
    refine ⟨info :: infos, ?_, fun other hother => ?_⟩
    · rw [load, hsigned]
      exact bind_eq_ok.mpr ⟨info, hinfo, bind_eq_ok.mpr ⟨infos, hinfos, rfl⟩⟩
    · rcases mem_cons.mp hother with rfl | hother
      · exact ⟨signed, other, hsigned, hinfo, rfl, rfl, hrest⟩
      · exact hknown other hother

namespace Node

/-- The blocks that `genBlocks` references are stored and included. -/
def Backed (db : Database β) (d : Depgraph β) : Generator β → Prop
  | .waiting => True
  | .collected refs => ∀ info ∈ refs, d.marked db info.id = true ∧ (db.blocks[info.id]?).isSome
  | .stored refs => ∀ info ∈ refs, db.isIncluded info.id = true

/-- What holds of a node between two pieces of work. -/
structure Coherent (wire : Wire β) (n : Node β) : Prop where
  stored : ∀ id : BlockID, (n.db.included[id]?).isSome → (n.db.blocks[id]?).isSome
  reload : ∀ id : BlockID, (n.db.notIncluded[id]?).isSome →
    ∃ links, n.db.Knows wire n.depgraph.self id links
  tidy : n.depgraph.Tidy wire n.db
  tracks : n.depgraph.Tracks n.db n.loop
  backed : Backed n.db n.depgraph n.gen

/-- Every block a peer sends that is accepted can be written down, and no two blocks
with different content have one id. -/
def sane [DecidableEq β] (wire : Wire β) (n : Node β) : Step β → Bool
  | .receive signed =>
    match wire.accept signed with
    | .ok info => info.legible n.depgraph.self && n.db.agrees info.id signed.data
    | .error _ => true
  | .commit transactions =>
    match n.gen with
    | .collected refs =>
      let block := n.ownBlock refs transactions
      let data := wire.marshalBlock block
      n.db.agrees (wire.reference data block).id data
    | _ => true
  | _ => true

variable {inbox : List (BlockData β)}

theorem coherent_new {wire : Wire β} {db : Database β} {produced : List (Block β)}
    (hstored : ∀ id : BlockID, (db.included[id]?).isSome → (db.blocks[id]?).isSome)
    (hreload : ∀ id : BlockID, (db.notIncluded[id]?).isSome → ∃ links, db.Knows wire self id links)
    (hinbox : ∀ info ∈ inbox, db.Knows wire self info.id (info.links self)) :
    Coherent wire ⟨db, .new self inbox, .waiting, .waiting, produced⟩ where
  stored := hstored
  reload := hreload
  tidy := {
    tcache := by simp [Depgraph.new]
    icache := by simp [Depgraph.new]
    inbox := hinbox
    pending := by simp [Depgraph.new]
    blocks := by simp [Depgraph.new]
    await := by simp [Depgraph.new, Depgraph.awaiting]
    closed := by simp [Depgraph.new, Depgraph.awaiting] }
  tracks := by simp [Depgraph.Tracks, Depgraph.new, Depgraph.awaiting]
  backed := trivial

theorem coherent_start (wire : Wire β) (self : Nat) : (start self).Coherent wire :=
  coherent_new (by simp [Database.empty]) (by simp [Database.empty]) (by simp)

section Step

variable {wire : Wire β} {n : Node β} {gen : Generator β} {produced : List (Block β)}

/-- More blocks do not hurt the generator. -/
theorem Backed.mono {db : Database β} {d d' : Depgraph β} (h : Backed db d gen)
    (hextends : db.Extends db')
    (hincluded : ∀ id, db.isIncluded id = true → db'.isIncluded id = true)
    (hmarked : ∀ id, d.marked db id = true → d'.marked db' id = true) : Backed db' d' gen := by
  cases gen with
  | waiting => exact trivial
  | collected refs =>
    intro info hinfo
    exact ⟨hmarked _ (h info hinfo).1, Database.isSome_of_extends hextends (h info hinfo).2⟩
  | stored refs => exact fun info hinfo => hincluded _ (h info hinfo)

variable (h : n.Coherent wire)
include h

/-- A known block joins the queue. -/
theorem Coherent.queue
    (hinfo : n.db.Knows wire n.depgraph.self info.id (info.links n.depgraph.self)) :
    Coherent wire { n with depgraph := { n.depgraph with inbox := n.depgraph.inbox ++ [info] } } := by
  refine { h with tidy := { h.tidy with inbox := fun other hother => ?_ } }
  rcases mem_append.mp hother with hother | hother
  · exact h.tidy.inbox other hother
  · rw [mem_singleton.mp hother]
    exact hinfo

/-- A block is stored. -/
theorem Coherent.store {db : Database β} (hextends : n.db.Extends db)
    (hmarked : ∀ id, n.depgraph.marked db id = n.depgraph.marked n.db id)
    (hstored : ∀ id : BlockID, (db.included[id]?).isSome → (db.blocks[id]?).isSome)
    (hreload : ∀ id : BlockID, (db.notIncluded[id]?).isSome →
      (n.db.notIncluded[id]?).isSome ∨ ∃ links, db.Knows wire n.depgraph.self id links)
    (hbacked : Backed db n.depgraph gen) :
    Coherent wire { n with db, gen, produced } where
  stored := hstored
  reload id hid := by
    rcases hreload id hid with hbefore | hnew
    · obtain ⟨links, hknown⟩ := h.reload id hbefore
      exact ⟨links, hknown.extends hextends⟩
    · exact hnew
  tidy := h.tidy.ofDatabase hextends hmarked
  tracks := h.tracks.congr hmarked fun _ => rfl
  backed := hbacked

theorem coherent_receive [DecidableEq β] (hsane : n.sane wire (.receive signed) = true) :
    Ensures (n.step wire (.receive signed)) (Coherent wire) (fun _ => False) := by
  rw [step]
  rw [sane] at hsane
  cases haccept : wire.accept signed with
  | error _ => exact h
  | ok info =>
    rw [haccept] at hsane
    obtain ⟨hlegible, hagrees⟩ := Bool.and_eq_true_iff.mp hsane
    change Coherent wire { n with
      db := n.db.setBlock info.id signed
      depgraph := { n.depgraph with inbox := n.depgraph.inbox ++ [info] } }
    by_cases hset : (n.db.included[info.id]?).isSome
    · obtain ⟨old, hold⟩ := Option.isSome_iff_exists.mp (h.stored _ hset)
      rw [Database.setBlock, if_pos hset]
      exact h.queue (Database.knows_of_accept haccept hlegible hold (Database.data_of_agrees hagrees hold))
    · have hblocks : (n.db.setBlock info.id signed).blocks = n.db.blocks.insert info.id signed := by
        rw [Database.setBlock, if_neg hset]
      have hextends := Database.extends_of_agrees hagrees hblocks
      have hfound : (n.db.setBlock info.id signed).blocks[info.id]? = some signed := by
        rw [hblocks, lookup_insert_self]
      have hknown := Database.knows_of_accept haccept hlegible hfound rfl
      have hmarked : ∀ id, n.depgraph.marked (n.db.setBlock info.id signed) id =
          n.depgraph.marked n.db id := fun id => by
        rw [Depgraph.marked, Depgraph.marked, Database.isIncluded_setBlock]
      refine Coherent.queue (h.store hextends hmarked (fun id hid => ?_) (fun id hid => ?_) ?_) hknown
      · rw [Database.setBlock, if_neg hset] at hid
        change ((n.db.included.insert info.id false)[id]?).isSome at hid
        rw [lookup_insert] at hid
        split at hid
        · rename_i heq
          rw [← heq, hfound]
          rfl
        · exact Database.isSome_of_extends hextends (h.stored id hid)
      · rw [Database.setBlock, if_neg hset] at hid
        change ((n.db.notIncluded.insert info.id ())[id]?).isSome at hid
        rw [lookup_insert] at hid
        split at hid
        · rename_i heq
          rw [← heq]
          exact .inr ⟨_, hknown⟩
        · exact .inl hid
      · apply h.backed.mono hextends
        · intro id hid
          rw [Database.isIncluded_setBlock]
          exact hid
        · exact fun id hid => (hmarked id).trans hid

/-- An own block is stored. -/
theorem Coherent.setOwnBlock [DecidableEq β] {ref : SignedData β} {refs : List (BlockData β)}
    (hagrees : n.db.agrees id signed.data = true)
    (hbacked : Backed n.db n.depgraph (.collected refs)) :
    Coherent wire { n with
      db := n.db.setOwnBlock id signed ref (refs.map BlockData.id)
      gen := .stored refs
      produced } := by
  have hextends : n.db.Extends (n.db.setOwnBlock id signed ref (refs.map BlockData.id)) :=
    Database.extends_of_agrees hagrees rfl
  refine h.store hextends (fun id => ?_) (fun id hid => ?_)
    (fun id hid => .inl (isSome_of_eraseAll hid)) ?_
  · rw [Depgraph.marked, Depgraph.marked, Database.isIncluded_setOwnBlock]
    by_cases hmem : id ∈ refs.map BlockData.id
    · obtain ⟨ref, href, rfl⟩ := mem_map.mp hmem
      have hmarked := (hbacked ref href).1
      rw [Depgraph.marked] at hmarked
      rw [hmarked, decide_eq_true hmem]
      simp
    · rw [decide_eq_false hmem, Bool.false_or]
  · change ((foldl _ n.db.included (refs.map BlockData.id))[id]?).isSome at hid
    rw [lookup_insertAll] at hid
    apply Database.isSome_of_extends hextends
    split at hid
    · rename_i hmem
      obtain ⟨ref, href, rfl⟩ := mem_map.mp hmem
      exact (hbacked ref href).2
    · exact h.stored id hid
  · intro ref href
    rw [Database.isIncluded_setOwnBlock, decide_eq_true (mem_map_of_mem href)]
    rfl

theorem coherent_commit [DecidableEq β] {transactions : Transactions}
    (hsane : n.sane wire (.commit transactions) = true) :
    Ensures (n.step wire (.commit transactions)) (Coherent wire) (fun _ => False) := by
  rw [step]
  rw [sane] at hsane
  cases hgen : n.gen with
  | waiting => exact h
  | stored refs => exact h
  | collected refs =>
    have hbacked := h.backed
    rw [hgen] at hsane hbacked
    exact h.setOwnBlock hsane hbacked

/-- Processing a block neither crashes nor loses track. -/
theorem Coherent.processBlock (hinbox : ∀ info ∈ inbox, info ∈ n.depgraph.inbox)
    {block : BlockData β}
    (hblock : n.db.Knows wire n.depgraph.self block.id (block.links n.depgraph.self))
    {loop : Depgraph β → Bool → Loop}
    (hloop : ∀ d inc, Depgraph.Progress n.db n.depgraph d block.id inc → d.Tracks n.db (loop d inc)) :
    Ensures (do
      let (d, inc) ← Depgraph.processBlock n.db { n.depgraph with inbox } block
      return { n with depgraph := d, loop := loop d inc }) (Coherent wire) (fun _ => False) := by
  have htidy : ({ n.depgraph with inbox } : Depgraph β).Tidy wire n.db :=
    { h.tidy with inbox := fun info hinfo => h.tidy.inbox info (hinbox info hinfo) }
  refine (htidy.processBlock hblock).bind fun r hr => ?_
  obtain ⟨d, inc⟩ := r
  obtain ⟨htidy', hprogress⟩ := hr
  have hself : d.self = n.depgraph.self := hprogress.self
  refine ⟨h.stored, ?_, htidy', hloop d inc ?_, h.backed.mono (fun id signed hsigned => ⟨signed, hsigned, rfl⟩)
    (fun id hid => hid) fun id hid => (hprogress.marked id).mpr (.inl hid)⟩
  · change ∀ id : BlockID, (n.db.notIncluded[id]?).isSome → ∃ links, n.db.Knows wire d.self id links
    rw [hself]
    exact h.reload
  · exact ⟨hself, hprogress.marked, hprogress.included, hprogress.putOff⟩

theorem coherent_take :
    Ensures (n.step wire .take) (Coherent wire) (fun _ => False) := by
  rw [step]
  split
  · rename_i info inbox hloop hinbox
    have htracks := h.tracks
    rw [hloop] at htracks
    refine h.processBlock ?_ ?_ fun d inc hprogress => Depgraph.tracks_take htracks hprogress _
    · exact fun other hother => hinbox ▸ mem_cons_of_mem _ hother
    · exact h.tidy.inbox info (hinbox ▸ mem_cons_self)
  · exact h

theorem coherent_advance :
    Ensures (n.step wire .advance) (Coherent wire) (fun _ => False) := by
  have htracks := h.tracks
  rw [step]
  split
  · exact h
  · rename_i first next revdep revdeps processed seen hloop
    rw [hloop] at htracks
    have hrevdeps := htracks.2.2.2.2
    split
    · refine { h with tracks := ?_ }
      exact ⟨htracks.1, htracks.2.1, htracks.2.2.1, htracks.2.2.2.1,
        fun id hid => hrevdeps id (mem_cons_of_mem _ hid)⟩
    · -- who waits is pending
      obtain ⟨block, hblock, -⟩ := h.tidy.await next revdep (hrevdeps revdep mem_cons_self)
      rw [hblock]
      obtain ⟨rfl, hknown⟩ := h.tidy.pending revdep block hblock
      exact h.processBlock (fun info hinfo => hinfo) hknown fun d inc hprogress =>
        Depgraph.tracks_advance htracks hprogress _
  · rename_i first next processed seen hloop
    rw [hloop] at htracks
    exact ⟨h.stored, h.reload, h.tidy.finish htracks.2.2.1, Depgraph.tracks_finish htracks, h.backed⟩

theorem coherent_prune (keep : BlockID → Bool) :
    Ensures (n.step wire (.prune keep)) (Coherent wire) (fun _ => False) := by
  rw [step]
  split
  · exact ⟨h.stored, h.reload, { h.tidy with icache := (h.tidy.cached.restrict keep).icache }, h.tracks,
      h.backed⟩
  · exact h

theorem coherent_collect (limit : Nat) :
    Ensures (n.step wire (.collect limit)) (Coherent wire) (fun _ => False) := by
  rw [step]
  split
  · refine ⟨h.stored, h.reload, { h.tidy with blocks := fun info hinfo => ?_ }, h.tracks, fun info hinfo => ?_⟩
    · exact h.tidy.blocks info (mem_of_mem_drop hinfo)
    · exact h.tidy.blocks info (mem_of_mem_take hinfo)
  · exact h

theorem coherent_settle :
    Ensures (n.step wire .settle) (Coherent wire) (fun _ => False) := by
  have hbacked := h.backed
  rw [step]
  split
  · rename_i ref refs hgen
    rw [hgen] at hbacked
    -- the database has taken over
    have hmarked : ∀ id, (n.depgraph.actuallyIncluded ref.id).marked n.db id =
        n.depgraph.marked n.db id := by
      intro id
      simp only [Depgraph.marked, Depgraph.actuallyIncluded, lookup_erase]
      split
      · rename_i heq
        rw [← heq, hbacked ref mem_cons_self]
        simp
      · rfl
    refine ⟨h.stored, h.reload, ⟨fun id inc hinc => ?_, fun id inc hinc => ?_, h.tidy.inbox, h.tidy.pending,
      fun info hinfo => ?_, h.tidy.await, fun dep id hid => ?_⟩, h.tracks.congr hmarked fun _ => rfl,
      fun info hinfo => hbacked info (mem_cons_of_mem _ hinfo)⟩
    · change (n.depgraph.tcache.erase ref.id)[id]? = some inc at hinc
      rw [lookup_erase] at hinc
      split at hinc
      · cases hinc
      · exact h.tidy.tcache id inc hinc
    · rw [hmarked]
      exact h.tidy.icache id inc hinc
    · rw [hmarked]
      exact h.tidy.blocks info hinfo
    · rw [hmarked, hmarked]
      exact h.tidy.closed dep id hid
  · exact { h with backed := trivial }
  · exact h

theorem coherent_restart :
    Ensures (n.step wire .restart) (Coherent wire) (fun _ => False) := by
  obtain ⟨infos, hinfos, hknown⟩ := Database.load_ok
    (fun id hid => h.reload id (Std.ExtTreeMap.isSome_getElem?_iff_mem.mpr
      (Std.ExtTreeMap.mem_keys.mp ((mem_insertionSort fun a b => keyOrder a b = true).mp hid))))
  rw [step, loadState, Database.getNotIncluded, hinfos]
  exact coherent_new h.stored h.reload hknown

end Step

/-- Every piece of work succeeds. -/
theorem coherent_step [DecidableEq β] {wire : Wire β} (n : Node β) (s : Step β)
    (hsane : n.sane wire s = true) (h : n.Coherent wire) :
    Ensures (n.step wire s) (Coherent wire) (fun _ => False) := by
  cases s with
  | receive signed => exact coherent_receive h hsane
  | take => exact coherent_take h
  | advance => exact coherent_advance h
  | prune keep => exact coherent_prune h keep
  | collect limit => exact coherent_collect h limit
  | commit transactions => exact coherent_commit h hsane
  | settle => exact coherent_settle h
  | restart => exact coherent_restart h

/-- The dependency graph does not crash, and finds every block that waits, if the
accepted blocks can be written down. -/
theorem run_ok_of_sane [DecidableEq β] (wire : Wire β) (self : Nat) (steps : List (Step β))
    (hsane : (start self).meets wire (sane wire) steps = true) :
    ∃ n, (start self).run wire steps = .ok n ∧
      ∀ dep id, id ∈ n.depgraph.awaiting dep → (n.depgraph.pending[id]?).isSome := by
  have hrun := ensures_run (Coherent wire) coherent_step steps (start self) hsane
    (coherent_start wire self)
  cases hresult : (start self).run wire steps with
  | error fault =>
    rw [hresult] at hrun
    exact hrun.elim
  | ok n =>
    refine ⟨n, rfl, fun dep id hid => ?_⟩
    obtain ⟨block, hblock, -⟩ := (hrun.of_ok hresult).tidy.await dep id hid
    exact Option.isSome_of_eq_some hblock

/-- A reference that is signed by the author of the block. -/
def signReference (ref : BlockReference) : SignedData (List Nat) :=
  ⟨(plainWire [1, 2, 3, 4]).marshalReference ref,
    (plainWire [1, 2, 3, 4]).sign ref.node ((plainWire [1, 2, 3, 4]).marshalReference ref)⟩

/-- The second block of a node arrives before the first one, and is included after it.
Then the first own block is generated and the node is restarted. -/
def reordered : List (Step (List Nat)) :=
  let wire := plainWire [1, 2, 3, 4]
  let first : Block (List Nat) := ⟨2, none, [], 1, none⟩
  let previous := signReference (wire.reference (wire.marshalBlock first) first)
  [.receive (wire.signBlock ⟨2, some previous, [], 2, none⟩), .take, .receive (wire.signBlock first),
    .take, .advance, .advance, .advance, .collect 1000, .commit ⟨0, []⟩, .settle, .restart]

theorem run_reordered :
    ∃ n, (start 1).run (plainWire [1, 2, 3, 4]) reordered = .ok n ∧
      (n.produced.map fun block => block.references.length) = [2] ∧
      ∀ dep id, id ∈ n.depgraph.awaiting dep → (n.depgraph.pending[id]?).isSome := by
  have hcheck : succeeds ((start 1).run (plainWire [1, 2, 3, 4]) reordered) (fun n =>
      (n.produced.map fun block => block.references.length) = [2]) = true := by decide +kernel
  obtain ⟨n, hrun, hawaiting⟩ := run_ok_of_sane (plainWire [1, 2, 3, 4]) 1 reordered (by decide +kernel)
  rw [hrun] at hcheck
  exact ⟨n, hrun, of_decide_eq_true hcheck, hawaiting⟩

/-- A block that references a block of the third node, which has signed a hash of
three bytes. -/
def shortReference : SignedData (List Nat) :=
  (plainWire [1, 2, 3, 4]).signBlock ⟨2, none, [signReference ⟨[1, 2, 3], 3, 1⟩], 1, none⟩

/-- The block is accepted and crashes the node, and crashes it again after each
restart. -/
theorem crash_shortReference :
    (∃ info, (plainWire [1, 2, 3, 4]).accept shortReference = .ok info) ∧
      (start 1).run (plainWire [1, 2, 3, 4]) [.receive shortReference, .take] =
        .error .indexOutOfRange ∧
      (start 1).run (plainWire [1, 2, 3, 4]) [.receive shortReference, .restart, .take] =
        .error .indexOutOfRange := by
  have haccepted : succeeds ((plainWire [1, 2, 3, 4]).accept shortReference) (fun _ => true) = true := by
    decide +kernel
  have hcrash : ∀ steps ∈ [[Step.receive shortReference, .take], [.receive shortReference, .restart, .take]],
      halted ((start 1).run (plainWire [1, 2, 3, 4]) steps) = some .indexOutOfRange := by
    decide +kernel
  obtain ⟨info, haccept, -⟩ := exists_of_succeeds haccepted
  exact ⟨⟨info, haccept⟩, eq_error_of_halted (hcrash _ (by simp)), eq_error_of_halted (hcrash _ (by simp))⟩

end Node

end Blockmania.Broadcast
