/-
# Bitsets in memory

A bitset is a pointer to two arrays of words, and setting a bit writes into an array. A
clone has arrays of its own, so it keeps what it was cloned from whatever happens to the
original. `Bitset` is what the two arrays hold at one time.

There is a word for every started block of 64 nodes, counted from the number of nodes.
Node ids start at 1, so the last id is one past the last bit whenever the number of nodes
is a multiple of 64.
-/

import Mathlib.Algebra.Order.Ring.Nat
import Blockmania.Interpreter.Bitset

namespace Blockmania

open List

/-- The arrays that were allocated, one after another. -/
abbrev Arrays : Type := List Words

namespace Arrays

/-- The content of an array. -/
def cells (h : Arrays) (address : Nat) : Words := h[address]?.getD []

/-- `make` of an array of zeros. -/
def make (h : Arrays) (words : Nat) : Arrays × Nat := (h ++ [replicate words 0], h.length)

/-- `copy` from one array to another, as far as both reach. -/
def copy (h : Arrays) (dst src : Nat) : Arrays :=
  h.set dst ((h.cells src).take (h.cells dst).length ++ (h.cells dst).drop (h.cells src).length)

theorem cells_append {h : Arrays} {address : Nat} (hlt : address < h.length) (more : Arrays) :
    cells (h ++ more) address = h.cells address := by
  rw [cells, List.getElem?_append_left hlt, cells]

theorem cells_set_self {h : Arrays} {address : Nat} (hlt : address < h.length) (ws : Words) :
    cells (h.set address ws) address = ws := by
  rw [cells, List.getElem?_set_self hlt, Option.getD_some]

theorem cells_set_ne {h : Arrays} {address other : Nat} (hne : address ≠ other) (ws : Words) :
    cells (h.set address ws) other = h.cells other := by
  rw [cells, List.getElem?_set_ne hne, cells]

/-- A copy between arrays of one length. -/
theorem copy_eq_set {h : Arrays} {dst src : Nat}
    (hlength : (h.cells dst).length = (h.cells src).length) :
    h.copy dst src = h.set dst (h.cells src) := by
  rw [copy, hlength, take_length, drop_eq_nil_of_le hlength.le, append_nil]

end Arrays

/-- Where the two arrays of a bitset are. -/
structure BitsetRef where
  commits : Nat
  prepares : Nat
  deriving DecidableEq, Repr

/-- One of the two calls that change a bitset. -/
inductive VoteOp
  | prepare (v : Nat)
  | commit (v : Nat)
  deriving DecidableEq, Repr

namespace VoteOp

/-- The node whose bit is set. -/
def node : VoteOp → Nat
  | prepare v => v
  | commit v => v

end VoteOp

namespace BitsetRef

/-- What the arrays hold. -/
def content (h : Arrays) (b : BitsetRef) : Bitset := ⟨h.cells b.commits, h.cells b.prepares⟩

/-- `newBitset`. -/
def new (h : Arrays) (size : Nat) : Arrays × BitsetRef :=
  let words := (size + 63) >>> 6
  let (h, commits) := h.make words
  let (h, prepares) := h.make words
  (h, ⟨commits, prepares⟩)

def clone (h : Arrays) (b : BitsetRef) : Arrays × BitsetRef :=
  let (h, commits) := h.make (h.cells b.commits).length
  let (h, prepares) := h.make (h.cells b.prepares).length
  let h := h.copy commits b.commits
  let h := h.copy prepares b.prepares
  (h, ⟨commits, prepares⟩)

def setCommit (h : Arrays) (b : BitsetRef) (v : Nat) : Option Arrays :=
  ((h.cells b.commits).setBit v).map fun ws => h.set b.commits ws

def setPrepare (h : Arrays) (b : BitsetRef) (v : Nat) : Option Arrays :=
  ((h.cells b.prepares).setBit v).map fun ws => h.set b.prepares ws

/-- One call; `none` when an index is out of range. -/
def perform (b : BitsetRef) (h : Arrays) : VoteOp → Option Arrays
  | .prepare v => setPrepare h b v
  | .commit v => setCommit h b v

/-- Several calls one after another. -/
def performAll (b : BitsetRef) (h : Arrays) : List VoteOp → Option Arrays
  | [] => some h
  | op :: ops => do
    let h ← b.perform h op
    performAll b h ops

/-- The arrays of a bitset exist and are two. -/
structure Allocated (h : Arrays) (b : BitsetRef) : Prop where
  commits : b.commits < h.length
  prepares : b.prepares < h.length
  ne : b.commits ≠ b.prepares

/-- Two bitsets have no array in common. -/
structure Apart (b c : BitsetRef) : Prop where
  commits : b.commits ≠ c.commits ∧ b.commits ≠ c.prepares
  prepares : b.prepares ≠ c.commits ∧ b.prepares ≠ c.prepares

end BitsetRef

namespace Bitset

/-- One call on the content of a bitset. -/
def perform (b : Bitset) : VoteOp → Option Bitset
  | .prepare v => b.setPrepare v
  | .commit v => b.setCommit v

/-- Both vectors have a word for every id up to `n`. -/
def Reaches (b : Bitset) (n : Nat) : Prop := n / 64 < b.commits.length ∧ n / 64 < b.prepares.length

end Bitset

namespace BitsetRef

variable {h h' : Arrays} {b c : BitsetRef} {n : Nat}

theorem content_new (h : Arrays) (size : Nat) :
    content (new h size).1 (new h size).2 = Bitset.new size ∧ Allocated (new h size).1 (new h size).2 := by
  constructor
  · simp [content, new, Arrays.make, Arrays.cells, Bitset.new]
  · exact ⟨by simp [new, Arrays.make], by simp [new, Arrays.make], by simp [new, Arrays.make]⟩

/-- A call changes the content of its bitset as the value changes, and that of no other. -/
theorem perform_spec (hb : Allocated h b) (op : VoteOp) :
    (b.perform h op).map (fun h' => content h' b) = (content h b).perform op ∧
      ∀ h', b.perform h op = some h' → h'.length = h.length ∧
        ∀ c, Apart b c → content h' c = content h c := by
  cases op with
  | prepare v =>
    constructor
    · simp only [perform, setPrepare, Bitset.perform, Bitset.setPrepare, Option.map_map]
      refine congrArg (Option.map · _) (funext fun ws => ?_)
      change content (h.set b.prepares ws) b = _
      rw [content, Arrays.cells_set_self hb.prepares, Arrays.cells_set_ne hb.ne.symm]
      rfl
    · intro h' hset
      obtain ⟨ws, -, rfl⟩ := Option.map_eq_some_iff.mp hset
      refine ⟨length_set, fun c hc => ?_⟩
      rw [content, Arrays.cells_set_ne hc.prepares.1, Arrays.cells_set_ne hc.prepares.2]
      rfl
  | commit v =>
    constructor
    · simp only [perform, setCommit, Bitset.perform, Bitset.setCommit, Option.map_map]
      refine congrArg (Option.map · _) (funext fun ws => ?_)
      change content (h.set b.commits ws) b = _
      rw [content, Arrays.cells_set_self hb.commits, Arrays.cells_set_ne hb.ne]
      rfl
    · intro h' hset
      obtain ⟨ws, -, rfl⟩ := Option.map_eq_some_iff.mp hset
      refine ⟨length_set, fun c hc => ?_⟩
      rw [content, Arrays.cells_set_ne hc.commits.1, Arrays.cells_set_ne hc.commits.2]
      rfl

/-- A clone has the same content in arrays of its own. -/
theorem clone_spec (hb : Allocated h b) :
    content (clone h b).1 (clone h b).2 = content h b ∧ content (clone h b).1 b = content h b ∧
      Allocated (clone h b).1 b ∧ Apart b (clone h b).2 := by
  obtain ⟨hcommits, hprepares, hne⟩ := hb
  -- the two new arrays come right behind the old ones
  set h₁ : Arrays := h ++ [replicate (h.cells b.commits).length 0] with hh₁
  have hprepares₁ : h₁.cells b.prepares = h.cells b.prepares := Arrays.cells_append hprepares _
  set h₂ : Arrays := h₁ ++ [replicate (h.cells b.prepares).length 0] with hh₂
  have hlength : h₁.length = h.length + 1 := by simp [hh₁]
  have hlength' : h₂.length = h.length + 2 := by simp [hh₂, hh₁]
  have hclone : clone h b = ((h₂.copy h.length b.commits).copy (h.length + 1) b.prepares,
      ⟨h.length, h.length + 1⟩) := by
    simp only [clone, Arrays.make, ← hh₁, hprepares₁, ← hh₂, hlength]
  have hold : ∀ address < h.length, h₂.cells address = h.cells address := by
    intro address hlt
    rw [Arrays.cells_append (by omega), Arrays.cells_append hlt]
  have hfirst : h₂.cells h.length = replicate (h.cells b.commits).length 0 := by
    rw [Arrays.cells_append (by omega)]
    simp [hh₁, Arrays.cells]
  have hsecond : h₂.cells (h.length + 1) = replicate (h.cells b.prepares).length 0 := by
    simp [hh₂, hh₁, Arrays.cells]
  have hcopy : h₂.copy h.length b.commits = h₂.set h.length (h.cells b.commits) := by
    rw [Arrays.copy_eq_set, hold _ hcommits]
    rw [hfirst, hold _ hcommits, length_replicate]
  have hcopy' : Arrays.copy (h₂.set h.length (h.cells b.commits)) (h.length + 1) b.prepares =
      (h₂.set h.length (h.cells b.commits)).set (h.length + 1) (h.cells b.prepares) := by
    have hsource : Arrays.cells (h₂.set h.length (h.cells b.commits)) b.prepares = h.cells b.prepares := by
      rw [Arrays.cells_set_ne (by omega), hold _ hprepares]
    rw [Arrays.copy_eq_set, hsource]
    rw [hsource, Arrays.cells_set_ne (by omega), hsecond, length_replicate]
  rw [hclone, hcopy, hcopy']
  have hkept : ∀ address < h.length, Arrays.cells ((h₂.set h.length (h.cells b.commits)).set
      (h.length + 1) (h.cells b.prepares)) address = h.cells address := by
    intro address hlt
    rw [Arrays.cells_set_ne (by omega), Arrays.cells_set_ne (by omega), hold address hlt]
  refine ⟨?_, ?_, ⟨?_, ?_, hne⟩, ⟨⟨hcommits.ne, ?_⟩, ⟨hprepares.ne, ?_⟩⟩⟩
  · dsimp only
    rw [content, Arrays.cells_set_ne (Nat.succ_ne_self _), Arrays.cells_set_self (by omega),
      Arrays.cells_set_self (by rw [length_set]; omega)]
    rfl
  · rw [content, hkept _ hcommits, hkept _ hprepares]
    rfl
  · simp only [length_set]
    omega
  · simp only [length_set]
    omega
  · change b.commits ≠ h.length + 1
    omega
  · change b.prepares ≠ h.length + 1
    omega

/-- Several calls change the content of their bitset one by one, and that of no other. -/
theorem performAll_spec (ops : List VoteOp) : ∀ {h : Arrays}, Allocated h b →
    (b.performAll h ops).map (fun h' => content h' b) = ops.foldlM Bitset.perform (content h b) ∧
      ∀ h', b.performAll h ops = some h' → h'.length = h.length ∧
        ∀ c, Apart b c → content h' c = content h c := by
  induction ops with
  | nil =>
    intro h hb
    refine ⟨rfl, fun h' hrun => ?_⟩
    cases hrun
    exact ⟨rfl, fun _ _ => rfl⟩
  | cons op ops ih =>
    intro h hb
    obtain ⟨hvalue, hframe⟩ := perform_spec hb op
    cases hfirst : b.perform h op with
    | none =>
      rw [hfirst] at hvalue
      refine ⟨?_, fun h' hrun => ?_⟩
      · rw [performAll, hfirst, foldlM_cons, ← hvalue]
        rfl
      · rw [performAll, hfirst] at hrun
        cases hrun
    | some mid =>
      rw [hfirst] at hvalue
      obtain ⟨hlength, hothers⟩ := hframe mid hfirst
      obtain ⟨hrest, hframe'⟩ := ih ⟨hlength ▸ hb.commits, hlength ▸ hb.prepares, hb.ne⟩
      have hstep : b.performAll h (op :: ops) = b.performAll mid ops := by
        rw [performAll, hfirst]
        rfl
      rw [hstep, foldlM_cons, ← hvalue]
      refine ⟨hrest, fun h' hrun => ?_⟩
      obtain ⟨hlength', hothers'⟩ := hframe' h' hrun
      exact ⟨hlength'.trans hlength, fun c hc => (hothers' c hc).trans (hothers c hc)⟩

end BitsetRef

/-- The nodes whose prepare bit was set. -/
def preparedBy (ops : List VoteOp) : Finset Nat :=
  (ops.filterMap fun
    | .prepare v => some v
    | .commit _ => none).toFinset

/-- The nodes whose commit bit was set. -/
def committedBy (ops : List VoteOp) : Finset Nat :=
  (ops.filterMap fun
    | .prepare _ => none
    | .commit v => some v).toFinset

theorem preparedBy_append (ops ops' : List VoteOp) :
    preparedBy (ops ++ ops') = preparedBy ops ∪ preparedBy ops' := by
  rw [preparedBy, filterMap_append, toFinset_append]
  rfl

theorem committedBy_append (ops ops' : List VoteOp) :
    committedBy (ops ++ ops') = committedBy ops ∪ committedBy ops' := by
  rw [committedBy, filterMap_append, toFinset_append]
  rfl

/-- `Topology.Nodes`. -/
def topologyNodes (nodeCount : Nat) : List Nat := (range nodeCount).map (· + 1)

theorem mem_topologyNodes {n v : Nat} : v ∈ topologyNodes n ↔ 1 ≤ v ∧ v ≤ n := by
  rw [topologyNodes, mem_map]
  constructor
  · rintro ⟨i, hi, rfl⟩
    have := mem_range.mp hi
    omega
  · exact fun ⟨hpos, hle⟩ => ⟨v - 1, mem_range.mpr (by omega), by omega⟩

namespace Bitset

/-- The counts and the bits of a bitset are those of the calls made. -/
structure Tells (n : Nat) (ops : List VoteOp) (b : Bitset) : Prop where
  prepareCount : b.prepareCount = (preparedBy ops).card
  commitCount : b.commitCount = (committedBy ops).card
  hasPrepare : ∀ v ∈ topologyNodes n, b.hasPrepare v = some (decide (v ∈ preparedBy ops))
  hasCommit : ∀ v ∈ topologyNodes n, b.hasCommit v = some (decide (v ∈ committedBy ops))

variable {n : Nat} {ops : List VoteOp} {b b' : Bitset}

/-- Calls with ids that a bitset reaches succeed, and each adds its node to one of the two
sets. -/
theorem perform_of_reaches (hb : b.Reaches n) {op : VoteOp} (hop : op.node ≤ n) :
    ∃ b', b.perform op = some b' ∧ b'.Reaches n ∧
      b'.preparers = b.preparers ∪ preparedBy [op] ∧ b'.committers = b.committers ∪ committedBy [op] := by
  cases op with
  | prepare v =>
    have hword : v / 64 < b.prepares.length := (Nat.div_le_div_right hop).trans_lt hb.2
    obtain ⟨ws, hws⟩ := Option.isSome_iff_exists.mp (Words.setBit_isSome.mpr hword)
    refine ⟨{ b with prepares := ws }, by simp [perform, setPrepare, hws], ⟨hb.1, ?_⟩, ?_, ?_⟩
    · rw [Words.length_setBit hws]
      exact hb.2
    · rw [preparers, Words.members_setBit hws, Finset.insert_eq, Finset.union_comm]
      rfl
    · simp [committedBy, committers]
  | commit v =>
    have hword : v / 64 < b.commits.length := (Nat.div_le_div_right hop).trans_lt hb.1
    obtain ⟨ws, hws⟩ := Option.isSome_iff_exists.mp (Words.setBit_isSome.mpr hword)
    refine ⟨{ b with commits := ws }, by simp [perform, setCommit, hws], ⟨?_, hb.2⟩, ?_, ?_⟩
    · rw [Words.length_setBit hws]
      exact hb.1
    · simp [preparedBy, preparers]
    · rw [committers, Words.members_setBit hws, Finset.insert_eq, Finset.union_comm]
      rfl

theorem performAll_of_reaches (ops : List VoteOp) (hb : b.Reaches n)
    (hops : ∀ op ∈ ops, op.node ≤ n) :
    ∃ b', ops.foldlM perform b = some b' ∧ b'.Reaches n ∧
      b'.preparers = b.preparers ∪ preparedBy ops ∧
      b'.committers = b.committers ∪ committedBy ops := by
  induction ops generalizing b with
  | nil => exact ⟨b, rfl, hb, by simp [preparedBy], by simp [committedBy]⟩
  | cons op ops ih =>
    obtain ⟨mid, hmid, hreaches, hprepares, hcommits⟩ := perform_of_reaches hb (hops op mem_cons_self)
    obtain ⟨b', hb', hreaches', hprepares', hcommits'⟩ :=
      ih hreaches fun op' hop' => hops op' (mem_cons_of_mem _ hop')
    refine ⟨b', ?_, hreaches', ?_, ?_⟩
    · rw [foldlM_cons, hmid]
      exact hb'
    · rw [hprepares', hprepares, Finset.union_assoc, ← preparedBy_append, singleton_append]
    · rw [hcommits', hcommits, Finset.union_assoc, ← committedBy_append, singleton_append]

theorem hasBit_of_lt {ws : Words} {v : Nat} (hword : v / 64 < ws.length) :
    ws.hasBit v = some (decide (v ∈ ws.members)) := by
  have hsome : (ws.hasBit v).isSome := by
    rw [Words.hasBit, Option.isSome_map, Nat.shiftRight_eq_div_pow]
    simpa using hword
  obtain ⟨found, hfound⟩ := Option.isSome_iff_exists.mp hsome
  rw [hfound, Option.some.injEq, Bool.eq_iff_iff, decide_eq_true_eq]
  exact Words.hasBit_eq_some hfound

/-- Counting and testing bits reads the two sets. -/
theorem tells_of_reaches (hb : b.Reaches n) (hprepares : b.preparers = preparedBy ops)
    (hcommits : b.committers = committedBy ops) : b.Tells n ops where
  prepareCount := by rw [prepareCount_eq_card, hprepares]
  commitCount := by rw [commitCount_eq_card, hcommits]
  hasPrepare v hv := by
    have hle := (mem_topologyNodes.mp hv).2
    rw [← hprepares]
    exact hasBit_of_lt ((Nat.div_le_div_right hle).trans_lt hb.2)
  hasCommit v hv := by
    have hle := (mem_topologyNodes.mp hv).2
    rw [← hcommits]
    exact hasBit_of_lt ((Nat.div_le_div_right hle).trans_lt hb.1)

/-- A new bitset has a word for the last id, unless the number of nodes is a multiple
of 64. -/
theorem reaches_new (hn : n % 64 ≠ 0) : (new n).Reaches n := by
  have hwords : n / 64 < (n + 63) >>> 6 := by
    rw [Nat.shiftRight_eq_div_pow]
    omega
  exact ⟨by rw [new, length_replicate]; exact hwords, by rw [new, length_replicate]; exact hwords⟩

end Bitset

/-- Whatever bits of a new bitset are set, no index is out of range and the bitset tells the
calls made on it. A clone has the same content, and keeps it whatever bits of the original
are set later. -/
def ExactVotes (n : Nat) : Prop :=
  ∀ (h : Arrays) (before after : List VoteOp), (∀ op ∈ before ++ after, op.node ∈ topologyNodes n) →
    ∀ h₀ b, BitsetRef.new h n = (h₀, b) →
      ∃ h₁, b.performAll h₀ before = some h₁ ∧ (b.content h₁).Tells n before ∧
        ∀ h' c, BitsetRef.clone h₁ b = (h', c) → c.content h' = b.content h₁ ∧
          ∃ h₂, b.performAll h' after = some h₂ ∧ (b.content h₂).Tells n (before ++ after) ∧
            c.content h₂ = b.content h₁

namespace BitsetRef

variable {h : Arrays} {b : BitsetRef} {n : Nat}

/-- Calls with ids that the content reaches succeed in memory, too. -/
theorem performAll_of_reaches (hb : Allocated h b) (hreaches : (b.content h).Reaches n)
    {ops : List VoteOp} (hops : ∀ op ∈ ops, op.node ≤ n) :
    ∃ h', b.performAll h ops = some h' ∧ Allocated h' b ∧ (b.content h').Reaches n ∧
      (b.content h').preparers = (b.content h).preparers ∪ preparedBy ops ∧
      (b.content h').committers = (b.content h).committers ∪ committedBy ops ∧
      ∀ c, Apart b c → c.content h' = c.content h := by
  obtain ⟨hvalue, hframe⟩ := performAll_spec ops hb
  obtain ⟨b', hb', hreaches', hprepares, hcommits⟩ := Bitset.performAll_of_reaches ops hreaches hops
  rw [hb'] at hvalue
  obtain ⟨h', hrun, rfl⟩ := Option.map_eq_some_iff.mp hvalue
  obtain ⟨hlength, hothers⟩ := hframe h' hrun
  exact ⟨h', hrun, ⟨hlength ▸ hb.commits, hlength ▸ hb.prepares, hb.ne⟩, hreaches', hprepares, hcommits,
    hothers⟩

end BitsetRef

/-- Votes are exact exactly if the number of nodes is no multiple of 64. -/
theorem exactVotes_iff (n : Nat) (hn : 1 ≤ n) : ExactVotes n ↔ n % 64 ≠ 0 := by
  constructor
  · -- the last node is one past the last word
    intro hexact hzero
    have hlast : n ∈ topologyNodes n := mem_topologyNodes.mpr ⟨hn, le_rfl⟩
    obtain ⟨hcontent, hallocated⟩ := BitsetRef.content_new [] n
    obtain ⟨h₁, hrun, -⟩ := hexact [] [.prepare n] [] (by simpa [VoteOp.node] using hlast)
      (BitsetRef.new [] n).1 (BitsetRef.new [] n).2 rfl
    have hvalue := (BitsetRef.performAll_spec [.prepare n] hallocated).1
    rw [hrun, hcontent] at hvalue
    have hset : ((Bitset.new n).prepares.setBit n).isSome := by
      cases hset : (Bitset.new n).prepares.setBit n with
      | some ws => rfl
      | none => simp [Bitset.perform, Bitset.setPrepare, hset] at hvalue
    rw [Words.setBit_isSome, Bitset.new, length_replicate, Nat.shiftRight_eq_div_pow] at hset
    omega
  · intro hn h before after hops h₀ b hnew
    have hids : ∀ op ∈ before ++ after, op.node ≤ n := fun op hop => (mem_topologyNodes.mp (hops op hop)).2
    obtain ⟨hcontent, hallocated⟩ := BitsetRef.content_new h n
    rw [hnew] at hcontent hallocated
    obtain ⟨h₁, hrun, hallocated₁, hreaches₁, hprepares₁, hcommits₁, -⟩ :=
      BitsetRef.performAll_of_reaches hallocated (hcontent ▸ Bitset.reaches_new hn)
        fun op hop => hids op (mem_append_left _ hop)
    rw [hcontent, Bitset.preparers_new, Finset.empty_union] at hprepares₁
    rw [hcontent, Bitset.committers_new, Finset.empty_union] at hcommits₁
    refine ⟨h₁, hrun, Bitset.tells_of_reaches hreaches₁ hprepares₁ hcommits₁, fun h' c hclone => ?_⟩
    obtain ⟨hsame, hkept, hallocated', hapart⟩ := BitsetRef.clone_spec hallocated₁
    rw [hclone] at hsame hkept hallocated' hapart
    obtain ⟨h₂, hrun', -, hreaches₂, hprepares₂, hcommits₂, hothers⟩ :=
      BitsetRef.performAll_of_reaches hallocated' (hkept ▸ hreaches₁)
        fun op hop => hids op (mem_append_right _ hop)
    refine ⟨hsame, h₂, hrun', Bitset.tells_of_reaches hreaches₂ ?_ ?_, (hothers c hapart).trans hsame⟩
    · rw [hprepares₂, hkept, hprepares₁, preparedBy_append]
    · rw [hcommits₂, hkept, hcommits₁, committedBy_append]

/-- Sixty-three nodes have one word. -/
theorem exactVotes_sixtyThree : ExactVotes 63 := (exactVotes_iff 63 (by decide)).mpr (by decide)

/-- The last of sixty-four nodes has no bit. -/
theorem not_exactVotes_sixtyFour :
    64 ∈ topologyNodes 64 ∧ (Bitset.new 64).setPrepare 64 = none ∧ ¬ ExactVotes 64 := by
  refine ⟨by decide, by decide, fun hexact => ?_⟩
  obtain ⟨h₁, hrun, -⟩ := hexact [] [.prepare 64] [] (by decide) _ _ rfl
  have hnone : (BitsetRef.new [] 64).2.performAll (BitsetRef.new [] 64).1 [.prepare 64] = none := by decide
  cases hnone.symm.trans hrun

end Blockmania
