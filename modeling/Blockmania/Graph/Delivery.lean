/-
# Rounds are delivered in order

Decided values reach `deliver` in any order, across rounds and nodes, and some of
them repeatedly or too late. The callback is called once for every round from the
first one on, in order, as soon as all peers have a value for it, and it is handed
the values that are not empty. `Settled` says what a graph holds after some
deliveries, and every delivery keeps it.
-/

import Blockmania.Graph.Actions

namespace Blockmania

open Math List FiniteMap

namespace Graph

/-- A sequence of calls of `deliver`. -/
def deliverAll (g : Graph) : List Delivery → Except Crash Graph
  | [] => .ok g
  | d :: ds => do
    let g ← deliver g d
    deliverAll g ds

/-- All peers have a value for a round. -/
def Complete (p : Params) (ds : List Delivery) (round : Nat) : Prop :=
  ∀ x ∈ p.peers, ∃ d ∈ ds, d.key = ⟨x, round⟩

/-- No two nodes have the same value in a round, apart from the empty one. -/
def Distinct (ds : List Delivery) (round : Nat) : Prop :=
  ∀ d ∈ ds, ∀ d' ∈ ds, d.key.round = round → d'.key.round = round → d.hash ≠ [] →
    d.hash = d'.hash → d.key = d'.key

/-- What the callback and the graph have to show after the deliveries `ds`. The
rounds come one after another, each complete and with each of its values once, in
the order of their hashes. Then comes the first round that is not complete. -/
structure InOrder (p : Params) (lastInterpreted : Nat) (ds : List Delivery) (g : Graph) : Prop where
  rounds : g.callbacks.map Interpreted.round =
    (range g.callbacks.length).map fun i => u64 (lastInterpreted + 1 + i)
  once : g.callbacks.length ≤ 2 ^ 64 → (g.callbacks.map Interpreted.round).Nodup
  complete : ∀ i ∈ g.callbacks, Complete p ds i.round
  blocks : ∀ i ∈ g.callbacks, ∀ b, b ∈ i.blocks ↔
    b.round = i.round ∧ b.hash ≠ [] ∧ ⟨⟨b.node, b.round⟩, b.hash⟩ ∈ ds
  nodup : ∀ i ∈ g.callbacks, i.blocks.Nodup
  sorted : ∀ i ∈ g.callbacks, Distinct ds i.round → i.blocks.Pairwise fun a b => a.hash < b.hash
  round : g.round = u64 (lastInterpreted + 1 + g.callbacks.length)
  first : lastInterpreted + 1 + g.callbacks.length < 2 ^ 64 →
    (∀ r, lastInterpreted < r → r < g.round → Complete p ds r) ∧ ¬ Complete p ds g.round
  resolved : ∀ r : Nat, (g.resolved[r]?).isSome → g.round ≤ r

/-- What a graph holds after the deliveries `ds`. -/
structure Settled (p : Params) (lastInterpreted : Nat) (ds : List Delivery) (g : Graph) : Prop where
  params : g.params = p
  round : g.round = u64 (lastInterpreted + 1 + g.callbacks.length)
  sound : ∀ key hash, g.known key = some hash → ⟨key, hash⟩ ∈ ds
  resolved : ∀ r : Nat, (g.resolved[r]?).isSome → g.round ≤ r ∧ ∃ d ∈ ds, d.key.round = r
  /-- As long as the round counter has not wrapped around, no value is lost. -/
  kept : lastInterpreted + 1 + g.callbacks.length < 2 ^ 64 →
    ∀ d ∈ ds, g.round ≤ d.key.round → g.known d.key = some d.hash
  rounds : g.callbacks.map Interpreted.round =
    (range g.callbacks.length).map fun i => u64 (lastInterpreted + 1 + i)
  handed : ∀ i ∈ g.callbacks, ∃ hashes : FiniteMap Nat Hash, i.blocks = roundBlocks i.round hashes ∧
    hashes.size = p.peerCount ∧
    ∀ (x : Nat) (hash : Hash), hashes[x]? = some hash → ⟨⟨x, i.round⟩, hash⟩ ∈ ds

/-- The round that comes next lacks a value. -/
def Unfinished (g : Graph) : Prop :=
  ∀ hashes, g.resolved[g.round]? = some hashes → hashes.size ≠ g.params.peerCount

variable {d : Delivery}

variable {p : Params} {lastInterpreted : Nat} {ds : List Delivery} {g g' : Graph}

/-- A new graph has nothing to show. -/
theorem settled_new (p : Params) (lastInterpreted : Nat) (infos : List BlockInfo) :
    Settled p lastInterpreted [] { new p lastInterpreted with blocks := infos } where
  params := rfl
  round := rfl
  sound key hash hknown := by simp [new, known] at hknown
  resolved r hr := by simp [new] at hr
  kept _ d hd := by cases hd
  rounds := rfl
  handed i hi := by cases hi

/-- More deliveries hold more. -/
theorem Settled.append_late (h : Settled p lastInterpreted ds g)
    (hd : g.round ≤ d.key.round → g.known d.key = some d.hash) :
    Settled p lastInterpreted (ds ++ [d]) g := { h with
  sound key hash hknown := mem_append_left _ (h.sound key hash hknown)
  resolved r hr := by
    obtain ⟨hround, d', hd', heq⟩ := h.resolved r hr
    exact ⟨hround, d', mem_append_left _ hd', heq⟩
  kept hwrap d' hd' hround := by
    rcases mem_append.mp hd' with hd' | hd'
    · exact h.kept hwrap d' hd' hround
    · rw [mem_singleton] at hd'
      subst hd'
      exact hd hround
  handed i hi := by
    obtain ⟨hashes, hblocks, hsize, hfrom⟩ := h.handed i hi
    exact ⟨hashes, hblocks, hsize, fun x hash hx => mem_append_left _ (hfrom x hash hx)⟩ }

/-- A value is noted. -/
theorem Settled.note (h : Settled p lastInterpreted ds g) (hround : g.round ≤ d.key.round)
    (hfresh : g.known d.key = none) :
    Settled p lastInterpreted (ds ++ [d]) (g.note d) := { h with
  sound key hash hknown := by
    rcases known_of_note hknown with hknown | rfl
    · exact mem_append_left _ (h.sound key hash hknown)
    · exact mem_append_right _ (mem_singleton.mpr rfl)
  resolved r hr := by
    change ((g.resolved.insert d.key.round _)[r]?).isSome at hr
    rw [lookup_insert] at hr
    split at hr
    · rename_i heq
      exact ⟨heq ▸ hround, d, mem_append_right _ (mem_singleton.mpr rfl), heq⟩
    · obtain ⟨hround, d', hd', heq⟩ := h.resolved r hr
      exact ⟨hround, d', mem_append_left _ hd', heq⟩
  kept hwrap d' hd' hround' := by
    rcases mem_append.mp hd' with hd' | hd'
    · have hbefore := h.kept hwrap d' hd' hround'
      exact known_note_of_known hfresh hbefore
    · rw [mem_singleton] at hd'
      subst hd'
      exact known_note_self g d'
  handed i hi := by
    obtain ⟨hashes, hblocks, hsize, hfrom⟩ := h.handed i hi
    exact ⟨hashes, hblocks, hsize, fun x hash hx => mem_append_left _ (hfrom x hash hx)⟩ }

/-- A delivered round keeps the graph settled. -/
theorem Settled.rounds_of (h : Settled p lastInterpreted ds g) (hrounds : Rounds g g') :
    Settled p lastInterpreted ds g' := by
  induction hrounds with
  | none => exact h
  | @next g mid g' hashes consumed hresolved hfull consumes rest ih =>
    have hmid : ∀ r : Nat, mid.resolved[r]? = if g.round = r then none else g.resolved[r]? := by
      intro r
      rw [consumes.resolved, lookup_erase]
    have hknown : ∀ key hash, (mid.resolved[key.round]?.getD ∅)[key.node]? = some hash →
        g.round ≠ key.round ∧ g.known key = some hash := by
      intro key hash hkey
      rw [hmid] at hkey
      split at hkey
      · simp at hkey
      · rename_i hne
        exact ⟨hne, hkey⟩
    apply ih
    refine ⟨consumes.params.trans h.params, ?_, ?_, ?_, ?_, ?_, ?_⟩
    · simp only [length_append, length_singleton, consumes.callbacks, consumes.round]
      rw [h.round, u64_succ, Nat.add_assoc]
    · intro key hash hkey
      exact h.sound key hash (hknown key hash hkey).2
    · intro r hr
      change (mid.resolved[r]?).isSome at hr
      rw [hmid] at hr
      split at hr
      · cases hr
      · rename_i hne
        obtain ⟨hlow, hfrom⟩ := h.resolved r hr
        have hmod : u64 (mid.round + 1) ≤ mid.round + 1 := Nat.mod_le _ _
        rw [consumes.round] at hmod ⊢
        dsimp only at hmod ⊢
        exact ⟨by omega, hfrom⟩
    · intro hwrap d hd hround
      simp only [length_append, length_singleton, consumes.callbacks] at hwrap
      have hbefore : g.round = lastInterpreted + 1 + g.callbacks.length := by
        rw [h.round, u64, Nat.mod_eq_of_lt (by omega)]
      have hafter : u64 (mid.round + 1) = g.round + 1 := by
        rw [consumes.round, u64, Nat.mod_eq_of_lt]
        dsimp only
        omega
      change u64 (mid.round + 1) ≤ d.key.round at hround
      change (mid.resolved[d.key.round]?.getD ∅)[d.key.node]? = some d.hash
      rw [hmid, if_neg (by omega)]
      exact h.kept (by omega) d hd (by omega)
    · simp only [map_append, length_append, length_singleton, consumes.callbacks,
        range_succ, map_singleton]
      rw [h.rounds, ← h.round]
    · intro i hi
      change i ∈ mid.callbacks ++ [_] at hi
      rw [consumes.callbacks, mem_append, mem_singleton] at hi
      rcases hi with hi | rfl
      · exact h.handed i hi
      · refine ⟨hashes, rfl, hfull.trans (congrArg Params.peerCount h.params), fun x hash hx => ?_⟩
        apply h.sound
        rw [known, hresolved]
        exact hx

/-- A delivery keeps the graph settled. -/
theorem Settled.deliver (h : Settled p lastInterpreted ds g) (hdeliver : deliver g d = .ok g') :
    Settled p lastInterpreted (ds ++ [d]) g' := by
  rcases deliver_cases hdeliver with ⟨hlate, rfl⟩ | ⟨hknown, hrounds⟩ | ⟨hround, hfresh, hrounds⟩
  · exact h.append_late fun hround => absurd hlate (not_lt.mpr hround)
  · exact (h.append_late fun _ => hknown).rounds_of hrounds
  · exact (h.note hround hfresh).rounds_of hrounds

/-- A report leaves one resolved round less. -/
theorem size_of_report {t : Graph} {hashes values : FiniteMap Nat Hash}
    (hresolved : g.resolved[g.round]? = some values) (hreport : g.report hashes = some t) :
    t.resolved.size + 1 = g.resolved.size := by
  have hmem : g.resolved.contains g.round = true := Std.ExtTreeMap.contains_iff_mem.mpr
    (Std.ExtTreeMap.mem_iff_isSome_getElem?.mpr (by simp [hresolved]))
  have hpos : g.resolved.size ≠ 0 := by
    intro hzero
    rw [Std.ExtTreeMap.eq_empty_iff_size_eq_zero.mpr hzero] at hresolved
    simp at hresolved
  obtain ⟨consumed, mid, hconsumes, rfl⟩ := consumes_of_report hreport
  rw [hconsumes.resolved, Std.ExtTreeMap.size_erase, if_pos hmem]
  omega

variable {hashes : FiniteMap Nat Hash} {round : Nat}

/-- Delivering rounds stops at one that lacks a value. Every call removes a
resolved round, so their number is fuel enough. -/
theorem unfinished_of_deliverRound {fuel : Nat} (hround : round = g.round)
    (hresolved : g.resolved[round]? = some hashes) (hsize : g.resolved.size ≤ fuel)
    (h : deliverRound fuel g round hashes = .ok g') : Unfinished g' := by
  induction fuel generalizing g g' round hashes with
  | zero =>
    have hempty : g.resolved = ∅ := Std.ExtTreeMap.eq_empty_iff_size_eq_zero.mpr (by omega)
    rw [hempty] at hresolved
    simp at hresolved
  | succ fuel ih =>
    subst hround
    rw [deliverRound_succ] at h
    cases hreport : g.report hashes with
    | none =>
      rw [hreport] at h
      cases h
    | some mid =>
      rw [hreport] at h
      have hless := size_of_report hresolved hreport
      dsimp only at h
      split at h
      · rename_i hashes' hresolved'
        split at h
        · exact ih rfl hresolved' (by omega) h
        · rename_i hlacks
          cases h
          intro hashes'' hresolved''
          cases hresolved'.symm.trans hresolved''
          exact hlacks
      · rename_i hnone
        cases h
        intro hashes'' hresolved''
        cases hnone.symm.trans hresolved''

theorem unfinished_of_release (hopen : round ≠ g.round → Unfinished g)
    (h : g.release round = .ok g') : Unfinished g' := by
  unfold release at h
  split at h
  · rename_i hround
    cases h
    exact hopen hround
  rename_i hround
  obtain rfl := not_not.mp hround
  split at h
  · rename_i hashes hresolved
    split at h
    · exact unfinished_of_deliverRound rfl hresolved le_rfl h
    · rename_i hlacks
      cases h
      intro hashes' hresolved'
      cases hresolved.symm.trans hresolved'
      exact hlacks
  · rename_i hnone
    cases h
    intro hashes' hresolved'
    cases hnone.symm.trans hresolved'

/-- No delivery leaves a complete round behind. -/
theorem unfinished_of_deliver (hopen : Unfinished g) (h : deliver g d = .ok g') :
    Unfinished g' := by
  rw [deliver_eq] at h
  split at h
  · cases h
    exact hopen
  split at h
  swap
  · cases h
  refine unfinished_of_release (fun hround => ?_) h
  unfold noted at hround ⊢
  split
  · exact hopen
  · rename_i hfresh
    rw [if_neg hfresh] at hround
    exact fun hashes hresolved =>
      hopen hashes ((lookup_insert_of_ne g.resolved hround _).symm.trans hresolved)

variable {info : BlockInfo}

/-! ## An own block that is not consumed -/

/-- A delivery that does not contradict what is known does not stop the program while there is
an own block that mentions a round past all resolved ones, and leaves that block in place. -/
theorem deliver_ok (hinfo : info ∈ g.blocks)
    (hresolved : ∀ r : Nat, (g.resolved[r]?).isSome → r < info.max)
    (hround : d.key.round < info.max) (hsame : ∀ hash, g.known d.key = some hash → hash = d.hash) :
    ∃ g', deliver g d = .ok g' ∧ info ∈ g'.blocks := by
  have hrule : Ensures (deliver g d)
      (fun g => info ∈ g.blocks ∧ ∀ r : Nat, (g.resolved[r]?).isSome → r < info.max)
      (fun _ => False) := by
    refine ensures_deliver ?_ ?_ ?_ (fun hash hknown hne => hne (hsame hash hknown)) ⟨hinfo, hresolved⟩
    · rintro ⟨hinfo, hresolved⟩
      refine ⟨hinfo, fun r hr => ?_⟩
      rw [note, lookup_insert] at hr
      split at hr
      · rename_i heq
        exact heq ▸ hround
      · exact hresolved r hr
    · rintro g hashes g' ⟨hinfo, hresolved⟩ hnext _ hreport
      obtain ⟨consumed, mid, hconsumes, rfl⟩ := consumes_of_report hreport
      refine ⟨hconsumes.kept info hinfo (hresolved _ (by simp [hnext])), fun r hr => ?_⟩
      rw [hconsumes.resolved, lookup_erase] at hr
      split at hr
      · cases hr
      · exact hresolved r hr
    · rintro g hashes ⟨hinfo, -⟩ _ _ hnone
      exact exists_report (ne_nil_of_mem hinfo) hashes hnone
  cases hdeliver : deliver g d with
  | error crash => exact (hrule.of_error hdeliver).elim
  | ok g' => exact ⟨g', rfl, (hrule.of_ok hdeliver).1⟩

/-- All peers have a value, and nobody else: then there are as many values as
peers, and conversely. -/
theorem size_eq_peerCount_iff (hnodup : p.peers.Nodup)
    (hpeers : ∀ (x : Nat) (hash : Hash), hashes[x]? = some hash → x ∈ p.peers) :
    hashes.size = p.peerCount ↔ ∀ x ∈ p.peers, (hashes[x]?).isSome := by
  have hsub : hashes.domain ⊆ p.peers.toFinset := by
    intro x hx
    obtain ⟨hash, hhash⟩ := Option.isSome_iff_exists.mp (mem_domain.mp hx)
    exact mem_toFinset.mpr (hpeers x hash hhash)
  rw [size_eq_card_domain, Params.peerCount, ← toFinset_card_of_nodup hnodup]
  constructor
  · intro hcard x hx
    apply mem_domain.mp
    rw [Finset.eq_of_subset_of_card_le hsub hcard.ge]
    exact mem_toFinset.mpr hx
  · intro hall
    apply congrArg
    apply Finset.Subset.antisymm hsub
    intro x hx
    exact mem_domain.mpr (hall x (mem_toFinset.mp hx))

/-- No block is handed over twice. -/
theorem nodup_roundBlocks (round : Nat) (hashes : FiniteMap Nat Hash) :
    (roundBlocks round hashes).Nodup := by
  refine (perm_insertionSort _ _).nodup_iff.mpr (Nodup.map ?_ ((nodup_toList hashes).filter _))
  rintro ⟨x, hash⟩ ⟨y, hash'⟩ heq
  cases heq
  rfl

/-- The blocks of a round with distinct hashes ascend strictly. -/
theorem sorted_roundBlocks (hdistinct : ((roundBlocks round hashes).map BlockID.hash).Nodup) :
    (roundBlocks round hashes).Pairwise fun a b => a.hash < b.hash := by
  have htotal : Std.Total fun a b : BlockID => ¬ b.hash < a.hash :=
    ⟨fun a b => List.le_total a.hash b.hash⟩
  have htrans : IsTrans BlockID fun a b => ¬ b.hash < a.hash :=
    ⟨fun a b c hab hbc => List.le_trans hab hbc⟩
  have hsorted : (roundBlocks round hashes).Pairwise fun a b => ¬ b.hash < a.hash :=
    pairwise_insertionSort _ _
  have hne : (roundBlocks round hashes).Pairwise fun a b => a.hash ≠ b.hash :=
    pairwise_map.mp hdistinct
  refine hsorted.imp₂ (fun a b hle hne => ?_) hne
  by_contra hlt
  exact hne (List.le_antisymm hle hlt)

/-- `2 ^ 64` rounds in a row are distinct. -/
theorem nodup_rounds {n : Nat} (first : Nat) (hn : n ≤ 2 ^ 64) :
    ((range n).map fun i => u64 (first + i)).Nodup := by
  refine List.Nodup.map_on ?_ nodup_range
  intro i hi j hj heq
  rw [mem_range] at hi hj
  unfold u64 at heq
  omega

/-- What is delivered for an instance is what is known. -/
theorem Settled.same (h : Settled p lastInterpreted ds g)
    (hone : ∀ d' ∈ ds, d'.key = d.key → d'.hash = d.hash) (hash : Hash)
    (hknown : g.known d.key = some hash) : hash = d.hash :=
  hone ⟨d.key, hash⟩ (h.sound d.key hash hknown) rfl

/-- A sequence of deliveries settles the graph and leaves no complete round
behind. -/
theorem settled_deliverAll (ds : List Delivery) (done : List Delivery) (g : Graph)
    (hone : ∀ d ∈ done ++ ds, ∀ d' ∈ done ++ ds, d.key = d'.key → d.hash = d'.hash)
    (hsettled : Settled p lastInterpreted done g) (hopen : Unfinished g) :
    Ensures (deliverAll g ds)
      (fun g' => Settled p lastInterpreted (done ++ ds) g' ∧ Unfinished g')
      (fun crash => crash = .noBlocks) := by
  induction ds generalizing done g with
  | nil =>
    rw [append_nil]
    exact ⟨hsettled, hopen⟩
  | cons d ds ih =>
    have hdeliver : Ensures (deliver g d)
        (fun g' => Settled p lastInterpreted (done ++ [d]) g' ∧ Unfinished g')
        (fun crash => crash = .noBlocks) := by
      cases hdeliver : deliver g d with
      | ok g' => exact ⟨hsettled.deliver hdeliver, unfinished_of_deliver hopen hdeliver⟩
      | error crash =>
        rcases deliver_eq_error hdeliver with hblocks | ⟨-, hash, hknown, hne⟩
        · exact hblocks
        · refine absurd (hsettled.same (fun d' hd' => ?_) hash hknown) hne
          exact hone d' (by simp [hd']) d (by simp)
    refine hdeliver.bind fun g' hg' => ?_
    rw [append_cons] at hone ⊢
    exact ih (done ++ [d]) g' hone hg'.1 hg'.2

/-- Deliveries below the bound of an own block do not stop the program. -/
theorem deliverAll_ok (ds : List Delivery) :
    ∀ (done : List Delivery) (g : Graph),
      (∀ d ∈ done ++ ds, ∀ d' ∈ done ++ ds, d.key = d'.key → d.hash = d'.hash) →
      (∀ d ∈ done ++ ds, d.key.round < info.max) →
      Settled p lastInterpreted done g → info ∈ g.blocks → ∃ g', deliverAll g ds = .ok g' := by
  induction ds with
  | nil => exact fun _ g _ _ _ _ => ⟨g, rfl⟩
  | cons d ds ih =>
    intro done g hone hbelow hsettled hinfo
    have hresolved : ∀ r : Nat, (g.resolved[r]?).isSome → r < info.max := by
      intro r hr
      obtain ⟨-, d', hd', rfl⟩ := hsettled.resolved r hr
      exact hbelow d' (by simp [hd'])
    obtain ⟨g', hdeliver, hinfo'⟩ := deliver_ok hinfo hresolved (hbelow d (by simp))
      (hsettled.same fun d' hd' => hone d' (by simp [hd']) d (by simp))
    rw [append_cons] at hone hbelow
    obtain ⟨last, hlast⟩ := ih (done ++ [d]) g' hone hbelow (hsettled.deliver hdeliver) hinfo'
    refine ⟨last, ?_⟩
    rw [deliverAll, hdeliver]
    exact hlast

/-- A settled graph with no complete round left shows what it has to. -/
theorem Settled.inOrder (h : Settled p lastInterpreted ds g) (hopen : Unfinished g)
    (hnodup : p.peers.Nodup) (hne : p.peers ≠ []) (hpeers : ∀ d ∈ ds, d.key.node ∈ p.peers)
    (hone : ∀ d ∈ ds, ∀ d' ∈ ds, d.key = d'.key → d.hash = d'.hash) :
    InOrder p lastInterpreted ds g := by
  have hcomplete : ∀ i ∈ g.callbacks, Complete p ds i.round := by
    intro i hi x hx
    obtain ⟨hashes, -, hsize, hfrom⟩ := h.handed i hi
    have hall := (size_eq_peerCount_iff hnodup fun x hash hx => hpeers _ (hfrom x hash hx)).mp hsize
    obtain ⟨hash, hhash⟩ := Option.isSome_iff_exists.mp (hall x hx)
    exact ⟨_, hfrom x hash hhash, rfl⟩
  have hmem : ∀ i ∈ g.callbacks, ∀ b, b ∈ i.blocks ↔
      b.round = i.round ∧ b.hash ≠ [] ∧ ⟨⟨b.node, b.round⟩, b.hash⟩ ∈ ds := by
    intro i hi b
    obtain ⟨hashes, hblocks, hsize, hfrom⟩ := h.handed i hi
    rw [hblocks, mem_roundBlocks]
    refine and_congr_right fun hround => and_congr_right fun _ => ?_
    rw [hround]
    refine ⟨hfrom b.node b.hash, fun hb => ?_⟩
    have hall := (size_eq_peerCount_iff hnodup fun x hash hx => hpeers _ (hfrom x hash hx)).mp hsize
    obtain ⟨hash, hhash⟩ := Option.isSome_iff_exists.mp (hall b.node (hpeers _ hb))
    have hsame : hash = b.hash := hone _ (hfrom b.node hash hhash) _ hb rfl
    rw [hhash, hsame]
  have hblocks : ∀ i ∈ g.callbacks, i.blocks.Nodup := by
    intro i hi
    obtain ⟨hashes, hblocks, -, -⟩ := h.handed i hi
    exact hblocks ▸ nodup_roundBlocks i.round hashes
  refine ⟨h.rounds, fun hcount => ?_, hcomplete, hmem, hblocks, fun i hi hdistinct => ?_, h.round,
    fun hwrap => ?_, fun r hr => (h.resolved r hr).1⟩
  · rw [h.rounds]
    exact nodup_rounds _ hcount
  · have hhashes : (i.blocks.map BlockID.hash).Nodup := by
      refine (hblocks i hi).map_on fun a ha b hb heq => ?_
      obtain ⟨haround, hane, hafrom⟩ := (hmem i hi a).mp ha
      obtain ⟨hbround, -, hbfrom⟩ := (hmem i hi b).mp hb
      have hkey := hdistinct _ hafrom _ hbfrom haround hbround hane heq
      cases a
      cases b
      cases hkey
      cases heq
      rfl
    obtain ⟨hashes, hroundBlocks, -, -⟩ := h.handed i hi
    rw [hroundBlocks] at hhashes ⊢
    exact sorted_roundBlocks hhashes
  · have hround : g.round = lastInterpreted + 1 + g.callbacks.length := by
      rw [h.round, u64, Nat.mod_eq_of_lt hwrap]
    refine ⟨fun r hafter hbefore => ?_, fun hall => ?_⟩
    · have hr : r ∈ g.callbacks.map Interpreted.round := by
        rw [h.rounds, mem_map]
        refine ⟨r - (lastInterpreted + 1), mem_range.mpr (by omega), ?_⟩
        rw [u64, Nat.mod_eq_of_lt (by omega)]
        omega
      obtain ⟨i, hi, rfl⟩ := mem_map.mp hr
      exact hcomplete i hi
    -- All values are known, so the graph would have counted them.
    · have hknown : ∀ x ∈ p.peers, ∃ hash, g.known ⟨x, g.round⟩ = some hash := by
        intro x hx
        obtain ⟨d, hd, hkey⟩ := hall x hx
        refine ⟨d.hash, ?_⟩
        rw [← hkey]
        exact h.kept hwrap d hd (by rw [hkey])
      cases hresolved : g.resolved[g.round]? with
      | none =>
        obtain ⟨x, hx⟩ := exists_mem_of_ne_nil _ hne
        obtain ⟨hash, hhash⟩ := hknown x hx
        simp [known, hresolved] at hhash
      | some hashes =>
        apply hopen hashes hresolved
        rw [h.params]
        refine (size_eq_peerCount_iff hnodup fun x hash hx => ?_).mpr fun x hx => ?_
        · refine hpeers ⟨⟨x, g.round⟩, hash⟩ (h.sound _ _ ?_)
          rw [known, hresolved]
          exact hx
        · obtain ⟨hash, hhash⟩ := hknown x hx
          rw [known, hresolved] at hhash
          exact Option.isSome_of_eq_some hhash

/-- Rounds are delivered in order, once and complete, whatever the order of the
deliveries. The program stops only where `graph.blocks` has run empty, which it
does not while some own block mentions a later round than those delivered. -/
theorem inOrder_deliverAll (p : Params) (lastInterpreted : Nat) (infos : List BlockInfo)
    (ds : List Delivery) (hnodup : p.peers.Nodup) (hne : p.peers ≠ [])
    (hpeers : ∀ d ∈ ds, d.key.node ∈ p.peers)
    (hone : ∀ d ∈ ds, ∀ d' ∈ ds, d.key = d'.key → d.hash = d'.hash) :
    Ensures (deliverAll { new p lastInterpreted with blocks := infos } ds)
        (InOrder p lastInterpreted ds) (fun crash => crash = .noBlocks) ∧
      ((∃ info ∈ infos, ∀ d ∈ ds, d.key.round < info.max) →
        ∃ g, deliverAll { new p lastInterpreted with blocks := infos } ds = .ok g) := by
  have hstart := settled_new p lastInterpreted infos
  constructor
  · refine (settled_deliverAll ds [] _ hone hstart ?_).mono fun g hg => ?_
    · intro hashes hresolved
      simp [new] at hresolved
    · exact hg.1.inOrder hg.2 hnodup hne hpeers hone
  · rintro ⟨info, hinfo, hbelow⟩
    exact deliverAll_ok ds [] _ hone hbelow hstart hinfo

/-- Round 2 is complete before round 1, one value is repeated, one instance was
decided for no value, and the last delivery comes too late. -/
def shuffled : List Delivery :=
  [⟨⟨2, 2⟩, [22]⟩, ⟨⟨1, 2⟩, [21]⟩, ⟨⟨4, 2⟩, [24]⟩, ⟨⟨3, 2⟩, [23]⟩, ⟨⟨1, 1⟩, [11]⟩, ⟨⟨2, 1⟩, []⟩,
    ⟨⟨1, 1⟩, [11]⟩, ⟨⟨4, 1⟩, [14]⟩, ⟨⟨3, 1⟩, [13]⟩, ⟨⟨1, 1⟩, [11]⟩]

theorem inOrder_shuffled : ∃ g,
    deliverAll { new .four 0 with blocks := [⟨ownAt 1 1 [], 3⟩] } shuffled = .ok g ∧
      g.callbacks.length = 2 ∧ InOrder .four 0 shuffled g := by
  have hcheck : succeeds (deliverAll { new .four 0 with blocks := [⟨ownAt 1 1 [], 3⟩] } shuffled)
      (fun g => decide (g.callbacks.length = 2)) = true := by decide +kernel
  obtain ⟨g, hrun, hcount⟩ := exists_of_succeeds hcheck
  have h := inOrder_deliverAll .four 0 [⟨ownAt 1 1 [], 3⟩] shuffled (by decide) (by decide)
    (by decide) (by decide)
  exact ⟨g, hrun, of_decide_eq_true hcount, h.1.of_ok hrun⟩

end Graph

end Blockmania
