/-
# Block states and the memory they share

The interpreter keeps one state per block. A state is cloned from the state of
the previous block of the same node, and the clone is deep except in two places:
the vote map stored under a ViewChanged key and the slices of timeouts are
copied by reference. Two blocks with the same predecessor therefore write to the
same vote maps and, while a backing array has room, to the same array cells.
That memory is explicit here: a state holds references and a heap holds what
they point to.

A vote map is allocated for one key and only ever copied to the same key, so a
reference to it is the key together with the number of the interpretation step
that allocated it. A backing array is likewise named by the step, by the
deadline it is filed under and by its capacity, which grows with each
reallocation.

`stateKV` maps keys of six struct types to values of five types. The keys of
different types never collide, so it is kept as one map per key type.
-/

import Blockmania.Interpreter.Bitset
import Blockmania.Interpreter.Message

namespace Blockmania

open Math FiniteMap

/-- A consensus instance in one of its views. -/
structure NodeRoundView where
  node : Nat
  round : Nat
  view : Nat
  deriving DecidableEq, Repr

instance : MapKey NodeRoundView where
  code k := [k.round, k.node, k.view]
  code_injective := by
    rintro ⟨node, round, view⟩ ⟨node', round', view'⟩ h
    simp_all

/-- A view of an instance that runs out at some deadline. -/
structure Timeout where
  node : Nat
  round : Nat
  view : Nat
  deriving DecidableEq, Repr

/-- The address of a vote map. -/
structure VoteRef where
  epoch : Nat
  key : NodeRoundView
  deriving DecidableEq, Repr

instance : MapKey VoteRef where
  code ref := ref.epoch :: MapKey.code ref.key
  code_injective := by
    rintro ⟨epoch, key⟩ ⟨epoch', key'⟩ h
    simp only [List.cons.injEq] at h
    obtain ⟨rfl, hkey⟩ := h
    rw [MapKey.code_injective hkey]

/-- The address of a backing array of timeouts. -/
structure ArrayRef where
  epoch : Nat
  deadline : Nat
  cap : Nat
  deriving DecidableEq, Repr

instance : MapKey ArrayRef where
  code ref := [ref.epoch, ref.deadline, ref.cap]
  code_injective := by
    rintro ⟨epoch, deadline, cap⟩ ⟨epoch', deadline', cap'⟩ h
    simp_all

/-- A slice of timeouts: which array, how much room it has and how much of it
belongs to the slice. -/
structure Slice where
  epoch : Nat
  cap : Nat
  len : Nat
  deriving DecidableEq, Repr

/-- The nil slice. -/
def Slice.nil : Slice := ⟨0, 0, 0⟩

/-- The memory that states refer to, with the number of the current
interpretation step. -/
structure Heap where
  clock : Nat
  votes : FiniteMap VoteRef (FiniteMap Nat Hash)
  arrays : FiniteMap ArrayRef (List Timeout)

namespace Heap

def empty : Heap := ⟨0, ∅, ∅⟩

/-- Start the next interpretation step. -/
def tick (h : Heap) : Heap := { h with clock := h.clock + 1 }

/-- The vote map at an address. -/
def readVotes (h : Heap) (ref : VoteRef) : FiniteMap Nat Hash := h.votes[ref]?.getD ∅

/-- Overwrite the vote map at an address. -/
def writeVotes (h : Heap) (ref : VoteRef) (vcs : FiniteMap Nat Hash) : Heap :=
  { h with votes := h.votes.insert ref vcs }

/-- The elements of a slice. -/
def read (h : Heap) (deadline : Nat) (s : Slice) : List Timeout :=
  (h.arrays[(⟨s.epoch, deadline, s.cap⟩ : ArrayRef)]?.getD []).take s.len

/-- `append` of one element. With room left the element is written into the
shared array behind the slice; otherwise the slice moves to a fresh array. The
language leaves the new capacity open, so it is an argument, and only that it is
sufficient is fixed. -/
def append (grow : Nat → Nat) (h : Heap) (deadline : Nat) (s : Slice) (t : Timeout) :
    Heap × Slice :=
  if s.len < s.cap then
    let ref : ArrayRef := ⟨s.epoch, deadline, s.cap⟩
    let cells := h.arrays[ref]?.getD []
    ({ h with arrays := h.arrays.insert ref (cells.take s.len ++ t :: cells.drop (s.len + 1)) },
      { s with len := s.len + 1 })
  else
    let cap := max (s.len + 1) (grow s.cap)
    ({ h with arrays := h.arrays.insert ⟨h.clock, deadline, cap⟩ (h.read deadline s ++ [t]) },
      ⟨h.clock, cap, s.len + 1⟩)

/-- Reading back a slice after an append to it. -/
theorem read_append (grow : Nat → Nat) (h : Heap) (deadline : Nat) (s : Slice) (t : Timeout) :
    (h.append grow deadline s t).1.read deadline (h.append grow deadline s t).2 =
      h.read deadline s ++ [t] := by
  unfold append
  split
  · -- the element lands right behind the slice, whose cells stay as they are
    simp only [read, lookup_insert_self, Option.getD_some, List.take_append, List.take_take,
      List.length_take]
    by_cases hfull : s.len ≤ (h.arrays[(⟨s.epoch, deadline, s.cap⟩ : ArrayRef)]?.getD []).length
    · rw [Nat.min_eq_left hfull]
      simp
    · rw [Nat.min_eq_right (by omega), List.drop_eq_nil_of_le (by omega)]
      simp
      omega
  · simp only [read, lookup_insert_self, Option.getD_some]
    apply List.take_of_length_le
    simp

/-- An append leaves the slices of other deadlines alone. -/
theorem read_append_of_ne (grow : Nat → Nat) (h : Heap) {deadline deadline' : Nat}
    (hne : deadline ≠ deadline') (s s' : Slice) (t : Timeout) :
    (h.append grow deadline s t).1.read deadline' s' = h.read deadline' s' := by
  unfold append
  split <;> simp [read, lookup_insert, hne]

@[simp]
theorem append_clock (grow : Nat → Nat) (h : Heap) (deadline : Nat) (s : Slice) (t : Timeout) :
    (h.append grow deadline s t).1.clock = h.clock := by
  unfold append
  split <;> rfl

@[simp]
theorem append_votes (grow : Nat → Nat) (h : Heap) (deadline : Nat) (s : Slice) (t : Timeout) :
    (h.append grow deadline s t).1.votes = h.votes := by
  unfold append
  split <;> rfl

end Heap

/-- `stateKV`, one map per type of key. -/
structure Data where
  final : FiniteMap NodeRound Bool
  hnv : FiniteMap NodeRoundView Bool
  prepared : FiniteMap NodeRoundView Hash
  prePrepared : FiniteMap NodeRoundView PrePrepare
  view : FiniteMap NodeRound Nat
  /-- The step that allocated the vote map of the key. -/
  viewChanged : FiniteMap NodeRoundView Nat
  deriving DecidableEq

def Data.empty : Data := ⟨∅, ∅, ∅, ∅, ∅, ∅⟩

/-- The state the interpretation of a block leaves behind. -/
structure State where
  bitsets : FiniteMap PrePrepare Bitset
  data : Data
  delay : FiniteMap Nat Nat
  final : FiniteMap NodeRound Hash
  out : List Message
  timeout : Nat
  timeouts : FiniteMap Nat Slice
  deriving DecidableEq

namespace State

/-- The state of a block without a predecessor. -/
def fresh : State := ⟨∅, Data.empty, ∅, ∅, [], 0, ∅⟩

/-- `clone` of an existing state: entries of rounds below `minround` are
dropped, except that a timeout is dropped by its deadline. -/
def clone (s : State) (minround : Nat) : State where
  bitsets := s.bitsets.restrict fun k => !decide (k.round < minround)
  data :=
    { final := s.data.final.restrict fun k => !decide (k.round < minround)
      hnv := s.data.hnv.restrict fun k => !decide (k.round < minround)
      prepared := s.data.prepared.restrict fun k => !decide (k.round < minround)
      prePrepared := s.data.prePrepared.restrict fun k => !decide (k.round < minround)
      view := s.data.view.restrict fun k => !decide (k.round < minround)
      viewChanged := s.data.viewChanged.restrict fun k => !decide (k.round < minround) }
  delay := s.delay
  final := s.final.restrict fun k => !decide (k.round < minround)
  out := s.out.filter fun m => !decide (m.nodeRound.round < minround)
  timeout := s.timeout
  timeouts := s.timeouts.restrict fun deadline => !decide (deadline < minround)

@[simp]
theorem fresh_clone (minround : Nat) : fresh.clone minround = fresh := by
  simp [clone, fresh, Data.empty]

/-- `getBitset`: the votes on a value, empty ones if there are none yet. -/
def getBitset (s : State) (size : Nat) (pp : PrePrepare) : Bitset :=
  s.bitsets[pp]?.getD (Bitset.new size)

/-- Store the votes on a value, as the pointer `getBitset` returns does. -/
def setBitset (s : State) (pp : PrePrepare) (b : Bitset) : State :=
  { s with bitsets := s.bitsets.insert pp b }

/-- `getView`: the view of an instance. Asking for it stores a zero if there is
none yet. -/
def getView (s : State) (key : NodeRound) : Nat × State :=
  match s.data.view[key]? with
  | some view => (view, s)
  | none => (0, { s with data := { s.data with view := s.data.view.insert key 0 } })

/-- Store the view of an instance. -/
def setView (s : State) (key : NodeRound) (view : Nat) : State :=
  { s with data := { s.data with view := s.data.view.insert key view } }

end State

/-- `diff` of two rounds. -/
def diff (a b : Nat) : Nat := if a ≥ b then a - b else b - a

/-- A state together with the heap it refers to. -/
structure Memory where
  heap : Heap
  state : State

namespace Memory

/-- The timeouts filed under a deadline. -/
def timeoutsAt (mem : Memory) (deadline : Nat) : List Timeout :=
  mem.heap.read deadline (mem.state.timeouts[deadline]?.getD Slice.nil)

/-- File a timeout under a deadline. -/
def addTimeout (grow : Nat → Nat) (mem : Memory) (deadline : Nat) (t : Timeout) : Memory :=
  let (heap, slice) :=
    mem.heap.append grow deadline (mem.state.timeouts[deadline]?.getD Slice.nil) t
  { heap
    state := { mem.state with timeouts := mem.state.timeouts.insert deadline slice } }

/-- Filing a timeout appends it to those of its deadline and to no others. -/
theorem timeoutsAt_addTimeout (grow : Nat → Nat) (mem : Memory) (deadline deadline' : Nat)
    (t : Timeout) :
    (mem.addTimeout grow deadline t).timeoutsAt deadline' =
      if deadline = deadline' then mem.timeoutsAt deadline ++ [t]
      else mem.timeoutsAt deadline' := by
  by_cases hd : deadline = deadline'
  · subst hd
    simp only [timeoutsAt, addTimeout, lookup_insert_self, Option.getD_some, if_true]
    exact Heap.read_append grow mem.heap deadline _ t
  · rw [if_neg hd]
    simp only [timeoutsAt, addTimeout]
    rw [lookup_insert_of_ne _ hd]
    exact Heap.read_append_of_ne grow mem.heap hd _ _ t

/-- A clone drops the timeouts of deadlines below `minround`. -/
theorem timeoutsAt_clone (heap : Heap) (s : State) (minround d : Nat) :
    timeoutsAt ⟨heap.tick, s.clone minround⟩ d =
      if d < minround then [] else timeoutsAt ⟨heap, s⟩ d := by
  by_cases hd : d < minround
  · simp [timeoutsAt, State.clone, lookup_restrict, hd, Heap.read, Slice.nil]
  · simp [timeoutsAt, State.clone, lookup_restrict, hd, Heap.read, Heap.tick]

end Memory

end Blockmania
