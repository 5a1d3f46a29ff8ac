/-
# What a block writes to shared memory

A block starts from a copy of the state of its predecessor in which the vote maps
and the slices of timeouts are references. Whatever it writes through them is seen
by every other state that holds the same reference.

Of an array it only writes the cells behind the inherited slice, one for every
timeout it files, until the array is full and the slice moves to an array of its
own. Of a vote map it writes the votes it counts. Nothing else that was allocated
by an earlier block changes.
-/

import Blockmania.Interpreter.Trail

namespace Blockmania

open Math List FiniteMap

/-- The steps `evs` lead from the memory `start` to the given one. -/
inductive Steps (p : Params) (start : Memory) : List Event → Memory → Prop
  | start : Steps p start [] start
  | step {evs : List Event} (ev : Event) {reply : Reply} (steps : Steps p start evs ev.mem)
      (hreply : ev.reply p = .ok reply) : Steps p start (evs ++ [ev]) reply.mem

/-- A step of a block that starts from `start`. If a timeout falls due, it is one of
those filed under the round of the block. -/
def Event.DueIn (start : Memory) (block : BlockID) (ev : Event) : Prop :=
  ev.block = block ∧ ∀ t, ev.cause = .timeout t → t ∈ start.timeoutsAt block.round

/-- The interpretation of a block is a sequence of steps of it. -/
theorem steps_conduct {σ : Type} {H : Host σ} {p : Params} {log : σ → List Event} {block : BlockID}
    {deps : List BlockID} {host host' : σ} {mem mem' : Memory} (hlogs : H.Logs block log)
    (h : conduct H p block deps host mem = .ok (host', mem')) :
    ∃ evs last out, log host' = log host ++ evs ∧ Steps p mem evs last ∧
      (∀ ev ∈ evs, ev.DueIn mem block) ∧ mem' = { last with state := { last.state with out } } := by
  let inv : σ → Memory → Prop := fun host' mem' =>
    ∃ evs, log host' = log host ++ evs ∧ Steps p mem evs mem' ∧ ∀ ev ∈ evs, ev.DueIn mem block
  have hstep : ∀ (host' : σ) (mem' : Memory) (cause : Cause) (reply : Reply), inv host' mem' →
      Event.DueIn mem block ⟨block, mem', cause⟩ → Event.reply p ⟨block, mem', cause⟩ = .ok reply →
      inv (H.observe host' ⟨block, mem', cause⟩) reply.mem := by
    rintro host' mem' cause reply ⟨evs, hlog, hsteps, hdue⟩ hnow hreply
    refine ⟨evs ++ [⟨block, mem', cause⟩], ?_, hsteps.step _ hreply, fun ev hev => ?_⟩
    · rw [hlogs.observe _ _ rfl, hlog, append_assoc]
    · rcases mem_append.mp hev with hev | hev
      · exact hdue ev hev
      · rw [mem_singleton.mp hev]
        exact hnow
  have hensures : Ensures (conduct H p block deps host mem)
      (fun r => ∃ last out, inv r.1 last ∧ r.2 = { last with state := { last.state with out } })
      (fun _ => True) := by
    refine ensures_conduct_of_steps inv ⟨[], (append_nil _).symm, .start, by simp⟩
      (fun t ht host' mem' hinv => hstep host' mem' (.timeout t) _ hinv
        ⟨rfl, fun t' ht' => by cases ht'; exact ht⟩ rfl)
      (fun _ _ _ _ _ _ _ => trivial) (fun host mem' sender msg reply hinv hreply => ?_)
    have hnow : Event.DueIn mem block ⟨block, mem', .message sender block.node msg⟩ :=
      ⟨rfl, fun t ht => by cases ht⟩
    have hnext := hstep host mem' (.message sender block.node msg) reply hinv hnow hreply
    refine ensures_settle (fun _ => hnext) (fun d host' _ hdeliver => ?_) (fun _ _ _ _ => trivial)
    obtain ⟨evs, hlog, hrest⟩ := hnext
    exact ⟨evs, (hlogs.deliver _ d host' hdeliver).trans hlog, hrest⟩
  obtain ⟨last, out, ⟨evs, hlog, hsteps, hdue⟩, rfl⟩ := hensures.of_ok h
  exact ⟨evs, last, out, hlog, hsteps, hdue, rfl⟩

/-- The array of a slice. -/
def Slice.ref (slice : Slice) (deadline : Nat) : ArrayRef := ⟨slice.epoch, deadline, slice.cap⟩

/-- The cells of an array that have been written. -/
def Heap.cells (h : Heap) (ref : ArrayRef) : List Timeout := h.arrays[ref]?.getD []

/-- Overwriting or adding one cell. -/
theorem getElem?_overwrite {α : Type} {l : List α} {n : Nat} (hn : n ≤ l.length) (a : α) (i : Nat) :
    (l.take n ++ a :: l.drop (n + 1))[i]? = if i = n then some a else l[i]? := by
  have hlength : (l.take n).length = n := by simp [hn]
  rcases lt_trichotomy i n with hi | rfl | hi
  · rw [List.getElem?_append_left (by omega), List.getElem?_take_of_lt hi, if_neg (by omega)]
  · rw [List.getElem?_append_right (by omega), hlength, Nat.sub_self]
    simp
  · obtain ⟨j, rfl⟩ : ∃ j, i = n + 1 + j := ⟨i - (n + 1), by omega⟩
    rw [List.getElem?_append_right (by omega), hlength, if_neg (by omega),
      show n + 1 + j - n = j + 1 by omega, List.getElem?_cons_succ, List.getElem?_drop]

section Append

variable {h : Heap} {deadline : Nat} {slice : Slice}

/-- With room left, an append writes the cell behind the slice. -/
theorem cells_append_of_room (hroom : slice.len < slice.cap) (grow : Nat → Nat) (t : Timeout)
    (ref : ArrayRef) :
    (h.append grow deadline slice t).1.cells ref = if slice.ref deadline = ref
      then (h.cells ref).take slice.len ++ t :: (h.cells ref).drop (slice.len + 1)
      else h.cells ref := by
  unfold Heap.append Heap.cells
  rw [if_pos hroom]
  dsimp only
  change ((h.arrays.insert (slice.ref deadline) _)[ref]?).getD [] = _
  rw [lookup_insert]
  split
  · rename_i heq
    rw [← heq]
    rfl
  · rfl

variable {ref : ArrayRef}

/-- Without room, an append writes to an array of the current step. -/
theorem cells_append_of_full (hfull : ¬ slice.len < slice.cap) (grow : Nat → Nat) (t : Timeout)
    (href : ref.epoch ≠ h.clock) :
    (h.append grow deadline slice t).1.cells ref = h.cells ref := by
  unfold Heap.append Heap.cells
  rw [if_neg hfull]
  dsimp only
  rw [lookup_insert_of_ne]
  rintro rfl
  exact href rfl

/-- An append leaves the arrays of other deadlines alone. -/
theorem cells_append_of_ne (grow : Nat → Nat) (t : Timeout) (href : deadline ≠ ref.deadline) :
    (h.append grow deadline slice t).1.cells ref = h.cells ref := by
  unfold Heap.append Heap.cells
  split
  · dsimp only
    rw [lookup_insert_of_ne]
    rintro rfl
    exact href rfl
  · dsimp only
    rw [lookup_insert_of_ne]
    rintro rfl
    exact href rfl

/-- The slice an append returns lies inside its array. -/
theorem placed_append (hlen : slice.len ≤ (h.cells (slice.ref deadline)).length) (grow : Nat → Nat)
    (t : Timeout) :
    (h.append grow deadline slice t).2.len ≤ (h.append grow deadline slice t).2.cap ∧
      (h.append grow deadline slice t).2.len ≤
        ((h.append grow deadline slice t).1.cells
          ((h.append grow deadline slice t).2.ref deadline)).length := by
  have hnext : (h.append grow deadline slice t).2.len = slice.len + 1 ∧
      (h.append grow deadline slice t).2.len ≤ (h.append grow deadline slice t).2.cap := by
    unfold Heap.append
    split
    · rename_i hroom
      exact ⟨rfl, hroom⟩
    · exact ⟨rfl, Nat.le_max_left _ _⟩
  have hread := congrArg List.length (Heap.read_append grow h deadline slice t)
  have hold : (h.read deadline slice).length = slice.len := by
    change ((h.cells (slice.ref deadline)).take slice.len).length = _
    rw [length_take, Nat.min_eq_left hlen]
  rw [length_append, hold] at hread
  change ((Heap.cells _ _).take _).length = _ at hread
  rw [length_take, hnext.1] at hread
  refine ⟨hnext.2, ?_⟩
  rw [hnext.1]
  simp only [length_singleton] at hread
  exact le_of_eq_of_le hread.symm (Nat.min_le_right _ _)

end Append

/-- Every slice lies inside its array. -/
def State.Placed (h : Heap) (s : State) : Prop :=
  ∀ (d : Nat) (slice : Slice), s.timeouts[d]? = some slice →
    slice.len ≤ slice.cap ∧ slice.len ≤ (h.cells (slice.ref d)).length

/-- The arrays and the slices are the same. -/
structure Memory.SameSlices (mem mem' : Memory) : Prop where
  clock : mem'.heap.clock = mem.heap.clock
  arrays : mem'.heap.arrays = mem.heap.arrays
  timeouts : mem'.state.timeouts = mem.state.timeouts

theorem Memory.SameSlices.trans {mem mem' mem'' : Memory} (h : mem.SameSlices mem')
    (h' : mem'.SameSlices mem'') : mem.SameSlices mem'' where
  clock := h'.clock.trans h.clock
  arrays := h'.arrays.trans h.arrays
  timeouts := h'.timeouts.trans h.timeouts

/-- Timeouts were filed, starting from the memory `base`. A slice that still lies in
an array of an earlier block has grown by the timeouts filed, and of such an array
only the cells behind the inherited slice were written. -/
structure Filed (base : Memory) (fs : List Filing) (mem : Memory) : Prop where
  clock : mem.heap.clock = base.heap.clock
  placed : mem.state.Placed mem.heap
  slices : ∀ (d : Nat) (slice : Slice), mem.state.timeouts[d]? = some slice → slice.epoch = base.heap.clock ∨
    ∃ old, base.state.timeouts[d]? = some old ∧
      slice = { old with len := old.len + (filedAt fs d).length }
  cells : ∀ ref i, (mem.heap.cells ref)[i]? = (base.heap.cells ref)[i]? ∨
    ref.epoch = base.heap.clock ∨
    ∃ old t, base.state.timeouts[ref.deadline]? = some old ∧ ref = old.ref ref.deadline ∧
      old.len ≤ i ∧ i < old.cap ∧ (filedAt fs ref.deadline)[i - old.len]? = some t ∧
      (mem.heap.cells ref)[i]? = some t

namespace Filed

variable {base mem mem' : Memory} {fs : List Filing}

theorem refl (hplaced : base.state.Placed base.heap) : Filed base [] base where
  clock := rfl
  placed := hplaced
  slices _ slice hslice := .inr ⟨slice, hslice, rfl⟩
  cells _ _ := .inl rfl

theorem congr (h : Filed base fs mem) (hsame : mem.SameSlices mem') : Filed base fs mem' where
  clock := hsame.clock.trans h.clock
  placed := by
    unfold State.Placed Heap.cells
    rw [hsame.arrays, hsame.timeouts]
    exact h.placed
  slices := by
    rw [hsame.timeouts]
    exact h.slices
  cells := by
    unfold Heap.cells
    rw [hsame.arrays]
    exact h.cells

theorem filedAt_concat (fs : List Filing) (f : Filing) (d : Nat) :
    filedAt (fs ++ [f]) d = filedAt fs d ++ if f.deadline = d then [f.timeout] else [] := by
  rw [filedAt_append]
  congr 1
  by_cases hd : f.deadline = d <;> simp [filedAt, hd]

variable {d : Nat}

/-- What was filed before is still there. -/
theorem getElem?_filedAt_concat {f : Filing} {i : Nat} {t : Timeout}
    (h : (filedAt fs d)[i]? = some t) : (filedAt (fs ++ [f]) d)[i]? = some t := by
  rw [filedAt_concat, List.getElem?_append_left (List.getElem?_eq_some_iff.mp h).1, h]

/-- Filing more keeps what is known about a cell. -/
theorem cell_concat (h : Filed base fs mem) (f : Filing) (ref : ArrayRef) (i : Nat) :
    (mem.heap.cells ref)[i]? = (base.heap.cells ref)[i]? ∨ ref.epoch = base.heap.clock ∨
      ∃ old t, base.state.timeouts[ref.deadline]? = some old ∧ ref = old.ref ref.deadline ∧
        old.len ≤ i ∧ i < old.cap ∧ (filedAt (fs ++ [f]) ref.deadline)[i - old.len]? = some t ∧
        (mem.heap.cells ref)[i]? = some t := by
  rcases h.cells ref i with hsame | hown | ⟨old, t, hold, href, hlow, hhigh, hfiled, hcell⟩
  · exact .inl hsame
  · exact .inr (.inl hown)
  · exact .inr (.inr ⟨old, t, hold, href, hlow, hhigh, getElem?_filedAt_concat hfiled, hcell⟩)

/-- The slice a timeout is appended to. -/
theorem placed_slice (h : Filed base fs mem) (d : Nat) :
    (mem.state.timeouts[d]?.getD Slice.nil).len ≤
      (mem.heap.cells ((mem.state.timeouts[d]?.getD Slice.nil).ref d)).length := by
  cases hfound : mem.state.timeouts[d]? with
  | none => exact Nat.zero_le _
  | some slice => exact (h.placed d slice hfound).2

/-- A slice with room is one of the current step or has grown from an inherited one. -/
theorem slice_of_room (h : Filed base fs mem)
    (hroom : (mem.state.timeouts[d]?.getD Slice.nil).len < (mem.state.timeouts[d]?.getD Slice.nil).cap) :
    (mem.state.timeouts[d]?.getD Slice.nil).epoch = base.heap.clock ∨
      ∃ old, base.state.timeouts[d]? = some old ∧ mem.state.timeouts[d]?.getD Slice.nil =
        { old with len := old.len + (filedAt fs d).length } := by
  cases hfound : mem.state.timeouts[d]? with
  | none =>
    rw [hfound] at hroom
    exact absurd hroom (Nat.lt_irrefl 0)
  | some slice => exact h.slices d slice hfound

/-- One more timeout is filed. -/
theorem addTimeout (h : Filed base fs mem) (grow : Nat → Nat) (f : Filing) :
    Filed base (fs ++ [f]) (mem.addTimeout grow f.deadline f.timeout) := by
  have hlen := h.placed_slice f.deadline
  have hlookup : ∀ d : Nat, (mem.addTimeout grow f.deadline f.timeout).state.timeouts[d]? =
      if f.deadline = d then some (mem.heap.append grow f.deadline
        (mem.state.timeouts[f.deadline]?.getD Slice.nil) f.timeout).2
      else mem.state.timeouts[d]? := fun d => lookup_insert _ _ _ _
  have hself : filedAt (fs ++ [f]) f.deadline = filedAt fs f.deadline ++ [f.timeout] := by
    rw [filedAt_concat, if_pos rfl]
  have hother : ∀ d, f.deadline ≠ d → filedAt (fs ++ [f]) d = filedAt fs d := by
    intro d hd
    rw [filedAt_concat, if_neg hd, append_nil]
  refine ⟨(Heap.append_clock ..).trans h.clock, fun d slice hslice => ?_, fun d slice hslice => ?_,
    fun ref i => ?_⟩
  · rw [hlookup] at hslice
    split at hslice
    · rename_i hd
      cases hslice
      exact hd ▸ placed_append hlen grow f.timeout
    · rename_i hd
      have hne : f.deadline ≠ (slice.ref d).deadline := hd
      change _ ∧ _ ≤ ((mem.heap.append _ _ _ _).1.cells _).length
      rw [cells_append_of_ne _ _ hne]
      exact h.placed d slice hslice
  · rw [hlookup] at hslice
    split at hslice
    · rename_i hd
      subst hd
      cases hslice
      rw [hself]
      by_cases hroom : (mem.state.timeouts[f.deadline]?.getD Slice.nil).len <
          (mem.state.timeouts[f.deadline]?.getD Slice.nil).cap
      · have hgrown := h.slice_of_room hroom
        unfold Heap.append
        rw [if_pos hroom]
        refine hgrown.imp_right fun ⟨old, hold, hslice⟩ => ⟨old, hold, ?_⟩
        rw [hslice]
        simp [Nat.add_assoc]
      · left
        unfold Heap.append
        rw [if_neg hroom]
        exact h.clock
    · rename_i hd
      rw [hother d hd]
      exact h.slices d slice hslice
  · change ((mem.heap.append _ _ _ _).1.cells ref)[i]? = _ ∨ _ ∨ ∃ old t, _ ∧ _ ∧ _ ∧ _ ∧ _ ∧
      ((mem.heap.append _ _ _ _).1.cells ref)[i]? = some t
    by_cases hd : f.deadline = ref.deadline
    swap
    · rw [cells_append_of_ne _ _ hd]
      exact h.cell_concat f ref i
    by_cases hroom : (mem.state.timeouts[f.deadline]?.getD Slice.nil).len <
        (mem.state.timeouts[f.deadline]?.getD Slice.nil).cap
    · rw [cells_append_of_room hroom]
      split
      · rename_i href
        rw [href] at hlen
        rw [getElem?_overwrite hlen]
        split
        · rename_i hi
          right
          refine (h.slice_of_room hroom).imp (fun hown => ?_) fun ⟨old, hold, hslice⟩ => ?_
          · rw [← href]
            exact hown
          · rw [hslice] at hi href hroom
            refine ⟨old, f.timeout, hd ▸ hold, ?_, ?_, ?_, ?_, rfl⟩
            · rw [← href]
              rfl
            · exact hi ▸ Nat.le_add_right _ _
            · exact hi ▸ hroom
            · rw [← hd, hself, hi]
              simp
        · exact h.cell_concat f ref i
      · exact h.cell_concat f ref i
    · by_cases hown : ref.epoch = mem.heap.clock
      · exact .inr (.inl (hown.trans h.clock))
      · rw [cells_append_of_full hroom _ _ hown]
        exact h.cell_concat f ref i

end Filed

/-! ## Which steps file a timeout -/

section Messages

variable {p : Params} {mem : Memory} {v sender receiver : Nat} {reply : Reply}

theorem slices_processPrePrepare {m : PrePrepare}
    (h : processPrePrepare p mem v sender receiver m = .ok reply) (deadline : Nat) :
    mem.SameSlices reply.mem ∧ filings deadline reply.resp = [] := by
  unfold processPrePrepare at h
  dsimp only at h
  split at h
  · cases h
    exact ⟨⟨rfl, rfl, rfl⟩, rfl⟩
  split at h
  · cases h
    exact ⟨⟨rfl, rfl, rfl⟩, rfl⟩
  obtain ⟨b, -, h⟩ := bind_eq_ok.mp h
  obtain ⟨b', -, h⟩ := bind_eq_ok.mp h
  cases h
  exact ⟨⟨rfl, rfl, rfl⟩, rfl⟩

variable {m : Vote}

theorem slices_processPrepare (h : processPrepare p mem v receiver m = .ok reply) (deadline : Nat) :
    mem.SameSlices reply.mem ∧ filings deadline reply.resp = [] := by
  unfold processPrepare at h
  dsimp only at h
  split at h
  · cases h
    exact ⟨⟨rfl, rfl, rfl⟩, rfl⟩
  split at h <;> obtain ⟨b, -, h⟩ := bind_eq_ok.mp h
  · cases h
    exact ⟨⟨rfl, rfl, rfl⟩, rfl⟩
  split at h
  · cases h
    exact ⟨⟨rfl, rfl, rfl⟩, rfl⟩
  obtain ⟨committed, -, h⟩ := bind_eq_ok.mp h
  split at h
  · cases h
    exact ⟨⟨rfl, rfl, rfl⟩, rfl⟩
  obtain ⟨b', -, h⟩ := bind_eq_ok.mp h
  cases h
  exact ⟨⟨rfl, rfl, rfl⟩, rfl⟩

theorem slices_processCommit (h : processCommit p mem v m = .ok reply) (deadline : Nat) :
    mem.SameSlices reply.mem ∧ filings deadline reply.resp = [] := by
  unfold processCommit at h
  dsimp only at h
  split at h
  · cases h
    exact ⟨⟨rfl, rfl, rfl⟩, rfl⟩
  obtain ⟨b, -, h⟩ := bind_eq_ok.mp h
  split at h
  · cases h
    exact ⟨⟨rfl, rfl, rfl⟩, rfl⟩
  split at h
  · cases h
    exact ⟨⟨rfl, rfl, rfl⟩, rfl⟩
  cases h
  exact ⟨⟨rfl, rfl, rfl⟩, rfl⟩

theorem slices_processViewChange (h : processViewChange p mem v receiver m = .ok reply)
    (deadline : Nat) : mem.SameSlices reply.mem ∧ filings deadline reply.resp = [] := by
  unfold processViewChange at h
  split at h
  · cases h
    exact ⟨⟨rfl, rfl, rfl⟩, rfl⟩
  obtain ⟨epoch, viewChanged, hopen, -, -⟩ := openVotes_spec mem ⟨m.node, m.round, v⟩
  simp only [hopen] at h
  split at h
  · cases h
    exact ⟨⟨rfl, rfl, rfl⟩, rfl⟩
  split at h
  · cases h
  · cases h
    exact ⟨⟨rfl, rfl, rfl⟩, rfl⟩

end Messages

/-- The timeout a step files. -/
def Event.filed (p : Params) (ev : Event) : List Filing :=
  filings (u64 (ev.block.round + ev.mem.state.timeout + 5)) (ev.answer p)

variable {ev : Event} {evs : List Event} {start : Memory} {e : Entry} {heap : Heap} {s : State}

/-- A step writes to an array only to file a timeout, and it files at most one. -/
theorem slices_reply {p : Params} {reply : Reply} (hreply : ev.reply p = .ok reply) :
    ev.filed p = [] ∧ ev.mem.SameSlices reply.mem ∨
      ∃ f mem, ev.filed p = [f] ∧ ev.mem.SameSlices mem ∧
        (mem.addTimeout p.grow f.deadline f.timeout).SameSlices reply.mem := by
  rw [Event.filed, Event.answer_of_reply hreply]
  obtain ⟨block, mem, cause⟩ := ev
  cases cause with
  | timeout t =>
    cases hreply
    left
    dsimp only
    unfold Memory.expire
    dsimp only
    split
    · exact ⟨rfl, rfl, rfl, rfl⟩
    split
    · exact ⟨rfl, rfl, rfl, rfl⟩
    · exact ⟨rfl, rfl, rfl, rfl⟩
  | message sender receiver msg =>
    change processMessage p mem sender receiver block msg = .ok reply at hreply
    unfold processMessage at hreply
    dsimp only at hreply ⊢
    split at hreply
    · cases hreply
      exact .inl ⟨rfl, rfl, rfl, rfl⟩
    have hview : mem.SameSlices { mem with state := (mem.state.getView msg.nodeRound).2 } ∧
        (mem.state.getView msg.nodeRound).2.timeout = mem.state.timeout := by
      unfold State.getView
      split
      · exact ⟨⟨rfl, rfl, rfl⟩, rfl⟩
      · exact ⟨⟨rfl, rfl, rfl⟩, rfl⟩
    have hquiet : ∀ {resp : Option Message} {mem' : Memory},
        Memory.SameSlices { mem with state := (mem.state.getView msg.nodeRound).2 } mem' ∧
          filings (u64 (block.round + mem.state.timeout + 5)) resp = [] →
        filings (u64 (block.round + mem.state.timeout + 5)) resp = [] ∧ mem.SameSlices mem' :=
      fun h => ⟨h.2, hview.1.trans h.1⟩
    cases msg with
    | prePrepare m => exact .inl (hquiet (slices_processPrePrepare hreply _))
    | prepare m => exact .inl (hquiet (slices_processPrepare hreply _))
    | commit m => exact .inl (hquiet (slices_processCommit hreply _))
    | viewChange m => exact .inl (hquiet (slices_processViewChange hreply _))
    | newView m =>
      unfold processNewView at hreply
      dsimp only at hreply
      split at hreply
      · cases hreply
        exact .inl (hquiet ⟨⟨rfl, rfl, rfl⟩, rfl⟩)
      split at hreply
      · cases hreply
        exact .inl (hquiet ⟨⟨rfl, rfl, rfl⟩, rfl⟩)
      cases hreply
      rw [← hview.2]
      exact .inr ⟨⟨_, ⟨m.node, m.round, m.view⟩⟩, { mem with
        state := ((mem.state.getView ⟨m.node, m.round⟩).2).setView ⟨m.node, m.round⟩ m.view }, rfl,
        hview.1.trans ⟨rfl, rfl, rfl⟩, rfl, rfl, rfl⟩

/-- A step files the timeout of the view it enters, and writes to no array
otherwise. -/
theorem Filed.reply {base : Memory} {fs : List Filing} {p : Params} {reply : Reply}
    (h : Filed base fs ev.mem) (hreply : ev.reply p = .ok reply) :
    Filed base (fs ++ ev.filed p) reply.mem := by
  rcases slices_reply hreply with ⟨hnone, hsame⟩ | ⟨f, mem, hone, hsame, hadded⟩
  · rw [hnone, append_nil]
    exact h.congr hsame
  · rw [hone]
    exact ((h.congr hsame).addTimeout p.grow f).congr hadded

/-- The timeouts of the own round of a block. -/
def Entry.filed (p : Params) (delay : FiniteMap Nat Nat) (e : Entry) : List Filing :=
  p.peers.map fun xnode => ⟨u64 (e.block.round + timeoutValue p (recordDelays e.block.round e.deps delay)),
    ⟨xnode, e.block.round, 0⟩⟩

/-- A block first files the timeouts of its own round. -/
theorem Filed.schedule {base : Memory} (hplaced : base.state.Placed base.heap) (p : Params) (e : Entry) :
    Filed base (e.filed p base.state.delay) (base.schedule p e) := by
  have hfile : ∀ (deadline : Nat) (peers : List Nat) (fs : List Filing) (mem : Memory),
      Filed base fs mem → Filed base
        (fs ++ peers.map fun xnode => ⟨deadline, ⟨xnode, e.block.round, 0⟩⟩)
        (peers.foldl (fun mem xnode => mem.addTimeout p.grow deadline ⟨xnode, e.block.round, 0⟩) mem) := by
    intro deadline peers
    induction peers with
    | nil =>
      intro fs mem h
      simpa using h
    | cons xnode peers ih =>
      intro fs mem h
      have hrest := ih _ _ (h.addTimeout p.grow ⟨deadline, ⟨xnode, e.block.round, 0⟩⟩)
      rwa [append_assoc] at hrest
  exact hfile _ p.peers [] _ ((Filed.refl hplaced).congr ⟨rfl, rfl, rfl⟩)

/-- The step counts a ViewChange into a vote map that an earlier block allocated
and that does not hold this vote yet. -/
def Event.overwrites (ev : Event) : Bool :=
  match ev.cause with
  | .message _ _ (.viewChange m) =>
    let key : NodeRound := ⟨m.node, m.round⟩
    let ref := ev.mem.voteRef key
    !(ev.mem.inst key).closed && decide ((ev.mem.inst key).current ≤ m.view) &&
      decide (ref.epoch ≠ ev.mem.heap.clock) &&
      decide ((ev.mem.heap.readVotes ref)[m.sender]? ≠ some m.hash)
  | _ => false

/-- Writing an entry that is there changes nothing. -/
theorem insert_eq_self {K V : Type} [MapKey K] {m : FiniteMap K V} {k : K} {v : V}
    (h : m[k]? = some v) : m.insert k v = m := by
  classical
  apply ext_lookup
  intro a
  rw [lookup_insert]
  split
  · rename_i heq
    rw [← heq, h]
  · rfl

/-- The votes of the current view in a map of an earlier block. -/
theorem viewChanged_of_voteRef {mem : Memory} {key : NodeRound}
    (h : (mem.voteRef key).epoch ≠ mem.heap.clock) :
    (mem.inst key).viewChanged (mem.inst key).current = some (mem.heap.readVotes (mem.voteRef key)) := by
  unfold Memory.voteRef Memory.openVotes at h ⊢
  dsimp only at h ⊢
  generalize (mem.inst key).current = view at h ⊢
  cases hfound : mem.state.data.viewChanged[(⟨key.node, key.round, view⟩ : NodeRoundView)]? with
  | none =>
    rw [hfound] at h
    exact absurd rfl h
  | some epoch => simp [Memory.inst, hfound]

/-- A step that overwrites no vote leaves the vote maps of earlier blocks alone. -/
theorem readVotes_of_reply {p : Params} {reply : Reply} (hreply : ev.reply p = .ok reply)
    (hkeeps : ev.overwrites = false) {ref : VoteRef} (href : ref.epoch ≠ ev.mem.heap.clock) :
    reply.mem.heap.readVotes ref = ev.mem.heap.readVotes ref := by
  obtain ⟨block, mem, cause⟩ := ev
  cases cause with
  | timeout t =>
    cases hreply
    unfold Memory.expire
    dsimp only
    split
    · rfl
    split <;> rfl
  | message sender receiver msg =>
    change processMessage p mem sender receiver block msg = .ok reply at hreply
    rcases votes_of_processMessage hreply with hsame | ⟨m, rfl, hopen, hview, hwrite⟩
    · rw [Heap.readVotes, hsame]
      rfl
    unfold Heap.readVotes
    rw [hwrite, lookup_insert]
    split
    · rename_i heq
      -- the vote is there already
      subst heq
      have hvotes := viewChanged_of_voteRef href
      have hthere : (mem.heap.readVotes (mem.voteRef ⟨m.node, m.round⟩))[m.sender]? = some m.hash := by
        by_contra hnew
        simp [Event.overwrites, hopen, hview, hnew] at hkeeps
        exact href hkeeps
      rw [Instance.protests, hvotes, Option.getD_some, Option.getD_some, insert_eq_self hthere]
      rfl
    · rfl

/-- What a step does to the memory. -/
theorem Event.effect {p : Params} {reply : Reply} (h : ev.reply p = .ok reply) :
    Memory.Effect ev.key (ev.filed p) ev.mem reply.mem := by
  rw [Event.filed, Event.answer_of_reply h]
  obtain ⟨block, mem, cause⟩ := ev
  cases cause with
  | timeout t =>
    have hnone : filings (u64 (block.round + mem.state.timeout + 5)) (mem.expire block.node t).2 = [] := by
      unfold Memory.expire
      dsimp only
      split
      · rfl
      split <;> rfl
    cases h
    change Memory.Effect ⟨t.node, t.round⟩ (filings _ (mem.expire block.node t).2) _ _
    rw [hnone]
    exact expire_effect block.node t
  | message sender receiver msg => exact processMessage_effect h

/-- What the interpretation of a block does to the memory it starts from. -/
structure Writes (base : Memory) (fs : List Filing) (evs : List Event) (mem : Memory) : Prop where
  filed : Filed base fs mem
  timeoutsAt : ∀ d, mem.timeoutsAt d = base.timeoutsAt d ++ filedAt fs d
  votes : (∀ ev ∈ evs, ev.overwrites = false) → ∀ ref : VoteRef, ref.epoch ≠ base.heap.clock →
    mem.heap.readVotes ref = base.heap.readVotes ref
  owns : ∀ E : Nat → Prop, E base.heap.clock → base.state.Owns E → mem.state.Owns E

/-- What a block files: the timeouts of its own round, and one for every view that
one of its steps enters. -/
def filedBy (p : Params) (delay : FiniteMap Nat Nat) (e : Entry) (evs : List Event) : List Filing :=
  e.filed p delay ++ evs.flatMap (Event.filed p)

theorem writes_schedule {base : Memory} (hplaced : base.state.Placed base.heap) (p : Params) (e : Entry) :
    Writes base (filedBy p base.state.delay e []) [] (base.schedule p e) := by
  have hall : filedBy p base.state.delay e [] = e.filed p base.state.delay := append_nil _
  rw [hall]
  refine ⟨Filed.schedule hplaced p e, fun d => ?_, fun _ ref _ => ?_, fun E hclock howns => ?_⟩
  · rw [timeoutsAt_schedule]
    congr 1
    unfold filedAt Entry.filed
    split
    · rename_i hd
      simp [hd, filter_map, Function.comp_def]
    · rename_i hd
      simp [hd, filter_map, Function.comp_def]
  · rw [Heap.readVotes, votes_schedule]
    rfl
  · exact (schedule_owned p e hclock howns).1

theorem Writes.steps {base mem : Memory} {p : Params} {delay : FiniteMap Nat Nat}
    (h : Writes base (filedBy p delay e []) [] start) (hsteps : Steps p start evs mem) :
    Writes base (filedBy p delay e evs) evs mem := by
  induction hsteps with
  | start => exact h
  | @step evs ev reply _ hreply ih =>
    have heffect := Event.effect hreply
    have hfiled : filedBy p delay e (evs ++ [ev]) = filedBy p delay e evs ++ ev.filed p := by
      simp [filedBy, flatMap_append]
    rw [hfiled]
    refine ⟨ih.filed.reply hreply, fun d => ?_, fun hkeeps ref href => ?_, fun E hclock howns => ?_⟩
    · rw [heffect.timeoutsAt, ih.timeoutsAt, filedAt_append, append_assoc]
    · have hnow := readVotes_of_reply hreply (hkeeps ev (by simp)) (ih.filed.clock ▸ href)
      exact hnow.trans (ih.votes (fun ev' hev' => hkeeps ev' (mem_append_left _ hev')) ref href)
    · exact (heffect.owned E (ih.filed.clock ▸ hclock) (ih.owns E hclock howns)).1

/-- What the interpretation of a block writes. -/
theorem writes_interpret {σ : Type} {H : Host σ} {p : Params} {log : σ → List Event}
    {minround : Nat} {prev : Option State} {host host' : σ} {mem : Memory}
    (hlogs : H.Logs e.block log)
    (hplaced : (findOrCreateState heap prev minround e).state.Placed heap.tick)
    (h : interpret H p minround heap prev host e = .ok (host', mem)) :
    ∃ evs, log host' = log host ++ evs ∧ (∀ ev ∈ evs, ev.block = e.block) ∧
      Writes (findOrCreateState heap prev minround e)
        (filedBy p (findOrCreateState heap prev minround e).state.delay e evs) evs mem := by
  obtain ⟨evs, last, out, hlog, hsteps, hdue, rfl⟩ := steps_conduct hlogs h
  obtain ⟨hfiled, htimeouts, hvotes, howns⟩ := (writes_schedule hplaced p e).steps hsteps
  exact ⟨evs, hlog, fun ev hev => (hdue ev hev).1, hfiled.congr ⟨rfl, rfl, rfl⟩, htimeouts, hvotes,
    fun E hclock howns' => ⟨(howns E hclock howns').votes, (howns E hclock howns').timeouts⟩⟩

/-- A state that lies in memory that earlier blocks allocated. -/
structure State.Settled (h : Heap) (s : State) : Prop where
  owns : s.Owns (· ≤ h.clock)
  placed : s.Placed h

/-- A state does not see what is written behind its slices, or what it held
there already. -/
theorem Filed.timeoutsAt_eq {base mem : Memory} {fs : List Filing} (h : Filed base fs mem)
    (hplaced : s.Placed base.heap)
    (hepoch : ∀ (d : Nat) (slice : Slice), s.timeouts[d]? = some slice → slice.epoch ≠ base.heap.clock)
    (hkept : ∀ (d : Nat) (slice old : Slice) (i : Nat) (t t' : Timeout), s.timeouts[d]? = some slice →
      base.state.timeouts[d]? = some old → slice.ref d = old.ref d → old.len ≤ i → i < slice.len →
      (base.heap.cells (slice.ref d))[i]? = some t → (filedAt fs d)[i - old.len]? = some t' → t = t')
    (d : Nat) : Memory.timeoutsAt ⟨mem.heap, s⟩ d = Memory.timeoutsAt ⟨base.heap, s⟩ d := by
  unfold Memory.timeoutsAt
  dsimp only
  cases hslice : s.timeouts[d]? with
  | none => simp [Heap.read, Slice.nil]
  | some slice =>
    rw [Option.getD_some]
    change (mem.heap.cells (slice.ref d)).take slice.len = (base.heap.cells (slice.ref d)).take slice.len
    apply ext_getElem?
    intro i
    by_cases hi : i < slice.len
    · rw [List.getElem?_take_of_lt hi, List.getElem?_take_of_lt hi]
      rcases h.cells (slice.ref d) i with hsame | hown | ⟨old, t', hold, href, hlow, -, hfiled, hcell⟩
      · exact hsame
      · exact absurd hown (hepoch d slice hslice)
      · have hlt : i < (base.heap.cells (slice.ref d)).length := lt_of_lt_of_le hi (hplaced d slice hslice).2
        have hbefore : (base.heap.cells (slice.ref d))[i]? = some (base.heap.cells (slice.ref d))[i] :=
          List.getElem?_eq_getElem hlt
        rw [hcell, hbefore, hkept d slice old i _ t' hslice hold href hlow hi hbefore hfiled]
    · rw [List.getElem?_take, List.getElem?_take, if_neg hi, if_neg hi]

/-- What was settled stays so. -/
theorem State.Settled.of_filed {base : State} {fs : List Filing} {mem : Memory}
    (hs : s.Settled heap) (h : Filed ⟨heap.tick, base⟩ fs mem) : s.Settled mem.heap := by
  have hclock : mem.heap.clock = heap.clock + 1 := h.clock
  constructor
  · exact hs.owns.mono fun epoch hepoch => by omega
  · intro d slice hslice
    obtain ⟨hcap, hlen⟩ := hs.placed d slice hslice
    have hepoch := hs.owns.timeouts d slice hslice
    refine ⟨hcap, ?_⟩
    by_contra hshort
    -- the last cell of the slice was written before and cannot have gone
    have hlt : slice.len - 1 < (heap.cells (slice.ref d)).length := by omega
    have hgone : (mem.heap.cells (slice.ref d))[slice.len - 1]? = none :=
      List.getElem?_eq_none (by omega)
    rcases h.cells (slice.ref d) (slice.len - 1) with hsame | hown | ⟨_, _, -, -, -, -, -, hcell⟩
    · have hbefore : (heap.tick.cells (slice.ref d))[slice.len - 1]? =
          some (heap.cells (slice.ref d))[slice.len - 1] := List.getElem?_eq_getElem hlt
      rw [hgone, hbefore] at hsame
      cases hsame
    · have hnow : slice.epoch = heap.clock + 1 := hown
      omega
    · rw [hgone] at hcell
      cases hcell

/-- A clone is settled where its original is. -/
theorem State.Settled.clone (hs : s.Settled heap) (minround : Nat) :
    (s.clone minround).Settled heap := by
  refine ⟨hs.owns.clone minround, fun d slice hslice => hs.placed d slice ?_⟩
  change (s.timeouts.restrict _)[d]? = some slice at hslice
  rw [lookup_restrict] at hslice
  split at hslice
  · exact hslice
  · cases hslice

theorem State.Settled.fresh (heap : Heap) : State.fresh.Settled heap :=
  ⟨State.Owns.fresh _, fun d slice hslice => by simp [State.fresh] at hslice⟩

end Blockmania
