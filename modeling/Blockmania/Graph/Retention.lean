/-
# The own block that is being interpreted

While a block is interpreted, rounds may be delivered, and a delivered round consumes the
own blocks that mention no later one. If that were to happen to the own block whose
iteration it is, the states of the blocks that come with it would be stored after they
were given up, and nobody would ever remove them.

The bound of that own block is the highest of all. So it could only go with a round that
no block has passed. With four or more peers such a round is not delivered. Some node that
never forks was the last to show its block of the round, and the quorum that backs it has
another such node in it, which has shown its own block of the round before and can only
back this one with a later block.

With fewer peers the block may go, but then no block is of a later round than the one
delivered, and no further round is delivered in the same iteration. So there is always an
own block left to count from.
-/

import Blockmania.Graph.Consumption
import Blockmania.Graph.Timeouts

namespace Blockmania

open Math List FiniteMap
open BlockGraph (actions entries)

/-- The instances of as many nodes as there are peers are decided, for a round that no
known block has passed. -/
def Swept (p : Params) (known : List Entry) (trace : List Event) : Prop :=
  ∃ (round : Nat) (nodes : Finset Nat), nodes.card = p.peerCount ∧
    (∀ e ∈ known, e.block.round ≤ round) ∧ ∀ x ∈ nodes, ∃ hash, Certified p ⟨x, round⟩ trace hash

/-- The last member of a list with a property. -/
theorem exists_last {α : Type} {prop : α → Prop} :
    ∀ {l : List α}, (∃ a ∈ l, prop a) →
      ∃ before a after, l = before ++ a :: after ∧ prop a ∧ ∀ b ∈ after, ¬ prop b
  | [], h => by simp at h
  | a :: l, h => by
    by_cases hrest : ∃ b ∈ l, prop b
    · obtain ⟨before, b, after, rfl, hb, hafter⟩ := exists_last hrest
      exact ⟨a :: before, b, after, rfl, hb, hafter⟩
    · obtain ⟨b, hb, hprop⟩ := h
      rcases mem_cons.mp hb with rfl | hb
      · exact ⟨[], b, l, rfl, hprop, fun c hc hcprop => hrest ⟨c, hc, hcprop⟩⟩
      · exact absurd ⟨b, hb, hprop⟩ hrest

variable {p : Params} {es : List Entry} {F : Finset Nat} {trace : List Event}

/-- An instance of the last round is decided for a block of it, which a quorum of nodes
has seen. -/
theorem Traced.backers {key : NodeRound} {hash : Hash} (h : Traced p es trace)
    (hcalm : Calm F key.round trace) (hfaults : F.card ≤ p.faults)
    (hcertified : Certified p key trace hash) :
    ∃ nodes : Finset Nat, nodes.card = p.quorum2f1 ∧ ∀ x ∈ nodes,
      (∃ e ∈ es, e.block = ⟨hash, key.node, key.round⟩) ∧
        (x = key.node ∨ ∃ c : BlockID, c.node = x ∧ Sees es key c) := by
  obtain ⟨w, nodes, hcard, hnodes⟩ := hcertified
  obtain ⟨y, hy⟩ := Finset.card_pos.mp ((Nat.succ_pos _).trans_le hcard)
  obtain ⟨ev, older, hsuffix, hall, -, -, -, -, backers, hquorum, hbacked⟩ :=
    (h.grounded key).of_committed (hnodes y hy)
  refine ⟨backers, hquorum, fun x hx => ?_⟩
  obtain ⟨ev', older', sender, hsuffix', -, hall', -, -, hwho, hsource⟩ := hall.of_backed (hbacked x hx)
  rcases hsource with hanswered | ⟨-, rfl, hproposed, hsees⟩
  · have hearlier := (hanswered.mono (older_subset hsuffix')).mono (older_subset hsuffix)
    exact absurd hearlier (hcalm.not_answered hfaults (h.grounded key) _ _)
  · exact ⟨hproposed, hwho.imp_right fun hx => ⟨ev'.block, hx.symm, hsees⟩⟩

/-- A round that no block has passed is not decided. -/
theorem not_swept {known : List Entry} (hpeers : 4 ≤ p.peerCount) (hcausal : Causal p.peers es)
    (hone : ∀ x, x ∉ F → OneChain es x) (hfaults : F.card ≤ p.faults) (hknown : es ⊆ known)
    (h : Traced p es trace) : ¬ Swept p known trace := by
  rintro ⟨round, nodes, hcard, hlast, hdecided⟩
  have hcalm : Calm F round trace := h.calm hcausal hone hfaults fun e he => hlast e (hknown he)
  have hfault : 1 ≤ p.faults ∧ p.faults < p.peerCount := by
    unfold Params.faults Params.peerCount at *
    omega
  have hnodes : nodes ⊆ p.peers.toFinset := by
    intro x hx
    obtain ⟨hash, hcertified⟩ := hdecided x hx
    exact mem_toFinset.mpr (h.key_of_certified hcausal.wellFormed hcertified).1
  have hpeer : ∀ e ∈ es, e.block.node ∈ nodes := by
    intro e he
    have hall := Finset.eq_of_subset_of_card_le hnodes (hcard ▸ p.peers.toFinset_card_le)
    exact hall ▸ mem_toFinset.mpr (hcausal.wellFormed e he).node
  have hshown : ∀ x ∈ nodes, ∃ e ∈ es, e.block.node = x ∧ e.block.round = round := by
    intro x hx
    obtain ⟨hash, hcertified⟩ := hdecided x hx
    obtain ⟨backers, hquorum, hbackers⟩ := Traced.backers h hcalm hfaults hcertified
    obtain ⟨y, hy⟩ := Finset.card_pos.mp ((Nat.succ_pos _).trans_eq hquorum.symm)
    obtain ⟨⟨e, he, hblock⟩, -⟩ := hbackers y hy
    exact ⟨e, he, congrArg BlockID.node hblock, congrArg BlockID.round hblock⟩
  -- the block that came last among those of the nodes that never fork
  obtain ⟨x₀, hx₀, hhonest₀⟩ : ∃ x ∈ nodes, x ∉ F :=
    Finset.exists_mem_notMem_of_card_lt_card (by omega)
  obtain ⟨e₀, he₀, rfl, hround₀⟩ := hshown x₀ hx₀
  have hsome : ∃ e ∈ es, e.block.node ∉ F ∧ e.block.round = round := ⟨e₀, he₀, hhonest₀, hround₀⟩
  obtain ⟨before, last, after, hsplit, ⟨hhonest, hround⟩, hafter⟩ := exists_last hsome
  have hmem : last ∈ es := by simp [hsplit]
  obtain ⟨hash, hcertified⟩ := hdecided _ (hpeer last hmem)
  obtain ⟨backers, hquorum, hbackers⟩ := Traced.backers h hcalm hfaults hcertified
  -- another one has backed it
  obtain ⟨x, hx, hother⟩ : ∃ x ∈ backers, x ∉ insert last.block.node F := by
    apply Finset.exists_mem_notMem_of_card_lt_card
    have hinsert := Finset.card_insert_le last.block.node F
    rw [hquorum, Params.quorum2f1]
    omega
  rw [Finset.mem_insert, not_or] at hother
  obtain ⟨hne, hhonest'⟩ := hother
  obtain ⟨-, rfl | ⟨_, rfl, e, he, rfl, _, hsees, ⟨seen, hseen, rfl⟩, hkey⟩⟩ := hbackers x hx
  · exact hne rfl
  have hseenlast : seen.block = last.block :=
    hone _ hhonest seen hseen last hmem (congrArg NodeRound.node hkey) rfl
      ((congrArg NodeRound.round hkey).trans hround.symm)
  rw [hseenlast] at hsees
  have hdep : last.block ∈ e.deps := hsees.resolve_left fun heq => hne (congrArg BlockID.node heq.symm)
  have hlater : e ∈ after := by
    rw [hsplit] at he
    rcases mem_append.mp he with he | he
    · obtain ⟨front, back, rfl⟩ := append_of_mem he
      have hclosed := hcausal.closed front e (back ++ last :: after) (by simp [hsplit]) _ hdep
        (hcausal.wellFormed last hmem).valid
      obtain ⟨e', he', heq⟩ := mem_map.mp hclosed
      exact absurd heq ((hcausal.block_ne hsplit).1 e' (mem_append_left _ he'))
    · rcases mem_cons.mp he with rfl | he
      · exact absurd rfl hne
      · exact he
  obtain ⟨own, hown, hnode, hround'⟩ := hshown _ (hpeer e he)
  have hearlier : own ∈ before := by
    rw [hsplit] at hown
    rcases mem_append.mp hown with hown | hown
    · exact hown
    · rcases mem_cons.mp hown with rfl | hown
      · exact absurd hnode.symm hne
      · exact absurd ⟨hnode ▸ hhonest', hround'⟩ (hafter own hown)
  obtain ⟨front, back, rfl⟩ := append_of_mem hlater
  have hlt := (hone _ hhonest').round_lt hcausal
    (by rw [hsplit, ← cons_append, ← append_assoc] : es = (before ++ last :: front) ++ e :: back)
    (mem_append_left _ hearlier) rfl hnode
  have hle := hlast e (hknown he)
  omega

theorem Swept.mono {known : List Entry} {trace' : List Event} (h : Swept p known trace)
    (hsub : trace ⊆ trace') : Swept p known trace' := by
  obtain ⟨round, nodes, hcard, hlast, hdecided⟩ := h
  exact ⟨round, nodes, hcard, hlast, fun x hx => (hdecided x hx).imp fun hash h => h.mono hsub⟩

namespace Graph

/-- An own block stays in the list, or it goes with all that came with it. -/
theorem forgets_of_consume (round : Nat) (infos : List BlockInfo) :
    ∀ (consumed : Nat) (g : Graph), ∀ info ∈ infos,
      info ∈ (consume round infos consumed g).2.blocks ∨ ∀ b ∈ info.gone,
        (consume round infos consumed g).2.max[b]? = none ∧
          (consume round infos consumed g).2.statess[b]? = none := by
  induction infos with
  | nil => simp
  | cons first rest ih =>
    intro consumed g info hinfo
    unfold consume
    split
    · exact .inl hinfo
    rcases mem_cons.mp hinfo with rfl | hinfo
    · right
      intro b hb
      -- what is erased first is not there later
      have hrest := consume_spec round rest (u64 (consumed + 1)) { g with
        max := info.gone.foldl (fun max b => max.erase b) g.max
        statess := info.gone.foldl (fun statess b => statess.erase b) g.statess }
      rcases hrest.lookup b with ⟨hmax, hstate⟩ | ⟨hmax, hstate, -⟩
      · simp only [lookup_eraseAll, if_pos hb] at hmax hstate
        exact ⟨hmax, hstate⟩
      · exact ⟨hmax, hstate⟩
    · exact ih _ _ info hinfo

theorem forgets_of_report {g g' : Graph} {hashes : FiniteMap Nat Hash} (h : g.report hashes = some g')
    {info : BlockInfo} (hinfo : info ∈ g.blocks) :
    info ∈ g'.blocks ∨ ∀ b ∈ info.gone, g'.max[b]? = none ∧ g'.statess[b]? = none := by
  obtain ⟨first, rest, consumed, mid, -, hconsume, rfl⟩ := report_eq_some h
  have hforgets := forgets_of_consume g.round g.blocks (u64 (first.data.block.round + (2 ^ 64 - 1)))
    { g with resolved := g.resolved.erase g.round } info hinfo
  rwa [hconsume] at hforgets

/-- A report forgets the values of its round and adds none. -/
theorem known_of_report {g g' : Graph} {hashes : FiniteMap Nat Hash} (h : g.report hashes = some g')
    {key : NodeRound} {hash : Hash} (hknown : g'.known key = some hash) : g.known key = some hash := by
  obtain ⟨consumed, mid, hconsumes, rfl⟩ := consumes_of_report h
  have hresolved : mid.resolved = g.resolved.erase g.round := hconsumes.resolved
  simp only [known] at hknown ⊢
  rw [hresolved, lookup_erase] at hknown
  split at hknown
  · simp at hknown
  · exact hknown

/-- Whatever the map holds comes with an own block that is still in the list. -/
def Housed {V : Type} (m : FiniteMap BlockID V) (infos : List BlockInfo) : Prop :=
  ∀ (b : BlockID) (v : V), m[b]? = some v → ∃ info ∈ infos, b ∈ info.gone

theorem housed_report {g g' : Graph} {hashes : FiniteMap Nat Hash} (h : g.report hashes = some g') :
    (Housed g.max g.blocks → Housed g'.max g'.blocks) ∧
      (Housed g.statess g.blocks → Housed g'.statess g'.blocks) := by
  have hreports := reports_of_report h
  constructor
  · intro hhoused b m hm
    rcases hreports.lookup b with ⟨hsame, -⟩ | ⟨hnone, -⟩
    · obtain ⟨info, hinfo, hb⟩ := hhoused b m (hsame ▸ hm)
      rcases forgets_of_report h hinfo with hkept | hgone
      · exact ⟨info, hkept, hb⟩
      · cases (hgone b hb).1.symm.trans hm
    · cases hnone.symm.trans hm
  · intro hhoused b s hs
    rcases hreports.lookup b with ⟨-, hsame⟩ | ⟨-, hnone, -⟩
    · obtain ⟨info, hinfo, hb⟩ := hhoused b s (hsame ▸ hs)
      rcases forgets_of_report h hinfo with hkept | hgone
      · exact ⟨info, hkept, hb⟩
      · cases (hgone b hb).2.symm.trans hs
    · cases hnone.symm.trans hs

/-- The bookkeeping of a graph is in order: bounds that are gone are below the round that
comes next, unless the count of rounds has wrapped around, bounds that are there belong to
own blocks in the list, and whatever is known was decided. -/
structure Orderly (p : Params) (known : List Entry) (g : Graph) : Prop where
  params : g.params = p
  fits : g.round < 2 ^ 64
  booked : g.round = 0 ∨ ∃ bound, Booked bound known g
  housed : Housed g.max g.blocks
  decided : ∀ key hash, g.known key = some hash → Certified p key g.trace hash

/-- The own block whose iteration it is has the highest bound and is in the list. If it is
not, the list is empty and no block is of a round still to be delivered. -/
structure Attends (p : Params) (known : List Entry) (info : BlockInfo) (g : Graph) : Prop where
  highest : ∀ other ∈ g.blocks, other.max ≤ info.max
  current : info ∈ g.blocks ∨
    g.blocks = [] ∧ (g.round = 0 ∨ ∀ e ∈ known, e.block.round < g.round) ∧ Swept p known g.trace

variable {known : List Entry} {info : BlockInfo} {g g' : Graph} {hashes : FiniteMap Nat Hash}

/-- No block is of a round past a bound that the highest of the bounds does not exceed. -/
theorem Orderly.round_le (h : Orderly p known g) (hround : g.round ≠ 0)
    (hhighest : ∀ other ∈ g.blocks, other.max ≤ g.round) : ∀ e ∈ known, e.block.round ≤ g.round := by
  intro e he
  obtain ⟨bound, hbooked⟩ := h.booked.resolve_left hround
  obtain ⟨before, after, hsplit⟩ := append_of_mem he
  have hbound := (hbooked.ledger.graded before e after hsplit).1
  cases hmax : g.max[e.block]? with
  | none =>
    have := hbooked.ledger.gone e he hmax
    omega
  | some m =>
    obtain ⟨other, hother, hgone⟩ := h.housed e.block m hmax
    have := (hbooked.infos other hother e.block hgone).2
    have := hhighest other hother
    omega

/-- A round that is complete is the round of some block. -/
theorem Orderly.round_of_full (h : Orderly p known g) (hwf : ∀ e ∈ es, e.WellFormed p.peers)
    (hpeers : p.peers ≠ []) (htraced : Traced p es g.trace)
    (hresolved : g.resolved[g.round]? = some hashes) (hfull : hashes.size = g.params.peerCount) :
    (∀ x ∈ hashes.domain, ∃ hash, Certified p ⟨x, g.round⟩ g.trace hash) ∧
      ∃ e ∈ es, e.block.round = g.round := by
  have hdecided : ∀ x ∈ hashes.domain, ∃ hash, Certified p ⟨x, g.round⟩ g.trace hash := by
    intro x hx
    obtain ⟨hash, hhash⟩ := Option.isSome_iff_exists.mp (mem_domain.mp hx)
    refine ⟨hash, h.decided ⟨x, g.round⟩ hash ?_⟩
    rw [Graph.known, hresolved]
    exact hhash
  refine ⟨hdecided, ?_⟩
  have hpos : 0 < hashes.domain.card := by
    rw [← size_eq_card_domain, hfull, h.params]
    exact length_pos_iff.mpr hpeers
  obtain ⟨x, hx⟩ := Finset.card_pos.mp hpos
  obtain ⟨hash, hcertified⟩ := hdecided x hx
  exact (htraced.key_of_certified hwf hcertified).2

/-- A complete round finds the current own block in the list. -/
theorem Attends.of_full (ha : Attends p known info g) (hwf : ∀ e ∈ es, e.WellFormed p.peers)
    (hes : es ⊆ known) (hround : ∃ e ∈ es, e.block.round = g.round) :
    g.round ≠ 0 ∧ info ∈ g.blocks := by
  obtain ⟨e, he, hround⟩ := hround
  have hpos := (hwf e he).round
  refine ⟨by omega, ha.current.resolve_right ?_⟩
  rintro ⟨-, hzero | hpassed, -⟩
  · omega
  · have := hpassed e (hes he)
    omega

/-- A report keeps the bookkeeping in order, and takes the current own block only if it
leaves nothing to be delivered. -/
theorem Orderly.report (h : Orderly p known g) (ha : Attends p known info g)
    (hwf : ∀ e ∈ es, e.WellFormed p.peers) (hes : es ⊆ known) (hpeers : p.peers ≠ [])
    (htraced : Traced p es g.trace) (hresolved : g.resolved[g.round]? = some hashes)
    (hfull : hashes.size = g.params.peerCount) (hreport : g.report hashes = some g') :
    Orderly p known g' ∧ Attends p known info g' := by
  obtain ⟨hdecided, hsome⟩ := h.round_of_full hwf hpeers htraced hresolved hfull
  obtain ⟨hround, hcurrent⟩ := ha.of_full hwf hes hsome
  have hreports := reports_of_report hreport
  have hnext : g'.round = g.round + 1 ∧ g.round + 1 < 2 ^ 64 ∨ g'.round = 0 := by
    have hfits := h.fits
    rw [hreports.round]
    unfold u64
    omega
  obtain ⟨_, _, -, k, -, hdrop, -, hhead⟩ := hreports.blocks
  have hsub : ∀ other ∈ g'.blocks, other ∈ g.blocks := fun other hother =>
    mem_of_mem_drop (hdrop ▸ hother)
  constructor
  · refine ⟨hreports.params.trans h.params, ?_, ?_, (housed_report hreport).1 h.housed,
      fun key hash hknown => ?_⟩
    · rw [hreports.round]
      exact Nat.mod_lt _ (by decide)
    · rcases hnext with ⟨-, hsmall⟩ | hzero
      · obtain ⟨bound, hbooked⟩ := h.booked.resolve_left hround
        exact .inr ⟨bound, hbooked.report hreports hsmall⟩
      · exact .inl hzero
    · rw [hreports.trace]
      exact h.decided key hash (known_of_report hreport hknown)
  · refine ⟨fun other hother => ha.highest other (hsub other hother), ?_⟩
    by_cases hkept : info ∈ g'.blocks
    · exact .inl hkept
    right
    have hmax : info.max ≤ g.round := not_lt.mp fun hlarge => hkept (hreports.kept info hcurrent hlarge)
    have hlow : ∀ other ∈ g.blocks, other.max ≤ g.round := fun other hother =>
      (ha.highest other hother).trans hmax
    have hpassed := h.round_le hround hlow
    refine ⟨?_, ?_, g.round, hashes.domain, ?_, hpassed, hreports.trace ▸ hdecided⟩
    · -- what is left at the front would mention a later round
      rw [hdrop, ← List.head?_eq_none_iff, Option.eq_none_iff_forall_ne_some]
      intro other hother
      have hlarge := hhead other hother
      have := hlow other (mem_of_mem_drop (mem_of_head? hother))
      omega
    · rcases hnext with ⟨hsucc, -⟩ | hzero
      · right
        intro e he
        have := hpassed e he
        omega
      · exact .inl hzero
    · rw [← size_eq_card_domain, hfull, h.params]

variable {d : Delivery}

/-- What a step of a run delivers was decided. -/
theorem certified_of_delivery {ev : Event} {older : List Event} {reply : Reply}
    (h : Traced p es (ev :: older)) (hreply : ev.reply p = .ok reply)
    (hdelivery : reply.delivery = some d) : Certified p d.key (ev :: older) d.hash := by
  have hvouched := vouched_reply (h.grounded d.key).1 hreply
  obtain ⟨block, mem, cause⟩ := ev
  cases cause with
  | timeout t =>
    cases hreply
    cases hdelivery
  | message sender receiver msg =>
    have htransition := transition_of_processMessage hreply
    obtain ⟨hfinal, -⟩ := Instance.final_of_transition htransition hdelivery
    rw [← Instance.key_of_transition htransition hdelivery] at hfinal
    exact hvouched.final d.hash hfinal

/-- A property of the graph that steps and deliveries keep, as long as the steps taken are
good ones. -/
theorem interpret_of_trace (good : List Event → Prop) (inv : Graph → Prop)
    (hgood : ∀ ev older, good (ev :: older) → good older)
    (hobserve : ∀ g ev, inv g → inv (host.observe g ev))
    (hdeliver : ∀ g ev older reply d, good g.trace → g.trace = ev :: older → ev.reply p = .ok reply →
      reply.delivery = some d → inv g → Ensures (deliver g d) inv (fun crash => crash ≠ .noBlocks))
    (minround : Nat) (heap : Heap) (prev : Option State) (e : Entry) (hstart : inv g) :
    Ensures (interpret host p minround heap prev g e) (fun r => good r.1.trace → inv r.1)
      (fun halt => good halt.host.trace → inv halt.host ∧ halt.crash ≠ .noBlocks) := by
  have hnoted : ∀ (g' : Graph) (ev : Event), (good g'.trace → inv g') →
      good (host.observe g' ev).trace → inv (host.observe g' ev) := fun _ _ hinv htrace =>
    hobserve _ _ (hinv (hgood _ _ htrace))
  refine (ensures_conduct_of_steps (fun g' _ => good g'.trace → inv g') (fun _ => hstart)
    (fun t _ g' mem => hnoted g' _) (fun g' mem sender msg crash hinv hcrash htrace => ?_)
    fun g' mem sender msg reply hinv hreply => ?_).mono ?_
  · refine ⟨hnoted _ _ hinv htrace, ?_⟩
    rintro rfl
    rcases Instance.step_eq_error (step_of_processMessage_error hcrash) with hother | ⟨hother, -⟩ <;>
      cases hother
  · have hnext := hnoted _ ⟨e.block, mem, .message sender e.block.node msg⟩ hinv
    refine ensures_settle (fun _ => hnext) (fun d host' hd h htrace => ?_) (fun d crash hd h htrace => ?_)
    · rw [show host'.trace = _ from (advances_of_deliver h).trace] at htrace
      exact (hdeliver _ _ _ reply d htrace rfl hreply hd (hnext htrace)).of_ok h
    · exact ⟨hnext htrace, (hdeliver _ _ _ reply d htrace rfl hreply hd (hnext htrace)).of_error h⟩
  · rintro ⟨host', mem'⟩ ⟨last, out, hinv, -⟩
    exact hinv

theorem Orderly.observe (h : Orderly p known g) (ev : Event) : Orderly p known (host.observe g ev) := { h with
  booked := h.booked.imp_right fun ⟨bound, hbooked⟩ => ⟨bound, hbooked.congr rfl rfl rfl⟩
  decided key hash hknown := (h.decided key hash hknown).mono (subset_cons_self _ _) }

theorem Attends.observe (h : Attends p known info g) (ev : Event) :
    Attends p known info (host.observe g ev) where
  highest := h.highest
  current := h.current.imp_right fun ⟨hempty, hround, hswept⟩ =>
    ⟨hempty, hround, hswept.mono (subset_cons_self _ _)⟩

theorem Orderly.note (h : Orderly p known g) (hd : Certified p d.key g.trace d.hash) :
    Orderly p known (g.note d) := { h with
  booked := h.booked.imp_right fun ⟨bound, hbooked⟩ => ⟨bound, hbooked.congr rfl rfl rfl⟩
  decided key hash hknown := by
    rcases known_of_note hknown with hbefore | rfl
    · exact h.decided key hash hbefore
    · exact hd }

/-- A delivery keeps the bookkeeping in order and always finds an own block. -/
theorem Orderly.deliver (h : Orderly p known g) (ha : Attends p known info g)
    (hwf : ∀ e ∈ es, e.WellFormed p.peers) (hes : es ⊆ known) (hpeers : p.peers ≠ [])
    (htraced : Traced p es g.trace) (hd : Certified p d.key g.trace d.hash) :
    Ensures (deliver g d) (fun g' => Orderly p known g' ∧ Attends p known info g')
      (fun crash => crash ≠ .noBlocks) := by
  have hrule : Ensures (Graph.deliver g d)
      (fun g' => g'.trace = g.trace ∧ Orderly p known g' ∧ Attends p known info g')
      (fun crash => crash ≠ .noBlocks) := by
    refine ensures_deliver ?_ ?_ ?_ (fun _ _ _ hcrash => by cases hcrash) ⟨rfl, h, ha⟩
    · rintro -
      exact ⟨rfl, h.note hd, ha.highest, ha.current⟩
    · rintro mid hashes g' ⟨htrace, ho, hattends⟩ hresolved hfull hreport
      refine ⟨(reports_of_report hreport).trace.trans htrace, ?_⟩
      exact ho.report hattends hwf hes hpeers (htrace ▸ htraced) hresolved hfull hreport
    · rintro mid hashes ⟨htrace, ho, hattends⟩ hresolved hfull hnone
      obtain ⟨-, hsome⟩ := ho.round_of_full hwf hpeers (htrace ▸ htraced) hresolved hfull
      obtain ⟨-, hinfo⟩ := hattends.of_full hwf hes hsome
      exact absurd hnone (exists_report (ne_nil_of_mem hinfo) hashes)
  exact hrule.mono fun g' hg' => hg'.2

/-- Interpreting a block keeps the bookkeeping in order, if there is evidence for its
steps. -/
theorem Orderly.process (h : Orderly p known g) (ha : Attends p known info g)
    (hwf : ∀ e ∈ es, e.WellFormed p.peers) (hes : es ⊆ known) (hpeers : p.peers ≠ []) (e : Entry) :
    Ensures (process g e)
      (fun g' => Traced p es g'.trace → Orderly p known g' ∧ Attends p known info g')
      (fun halt => Traced p es halt.host.trace →
        (Orderly p known halt.host ∧ Attends p known info halt.host) ∧ halt.crash ≠ .noBlocks) := by
  apply ensures_process
  rw [h.params]
  refine (interpret_of_trace (Traced p es) (fun g => Orderly p known g ∧ Attends p known info g)
    (fun ev older htraced => htraced.of_cons) (fun g ev hg => ⟨hg.1.observe ev, hg.2.observe ev⟩)
    ?_ _ _ _ e ⟨h, ha⟩).mono ?_
  · intro g ev older reply d htraced htrace hreply hdelivery hg
    refine hg.1.deliver hg.2 hwf hes hpeers htraced ?_
    rw [htrace] at htraced ⊢
    exact certified_of_delivery htraced hreply hdelivery
  · intro r hr htraced
    obtain ⟨ho, hattends⟩ := hr htraced
    refine ⟨{ ho with booked := ?_ }, { hattends with }⟩
    exact ho.booked.imp_right fun ⟨bound, hbooked⟩ => ⟨bound, hbooked.congr rfl rfl rfl⟩

variable {bg : BlockGraph}

/-! ## Runs -/

section Runs

variable {lastInterpreted node first : Nat} {bgs : List BlockGraph} {done rest : List Action}
  {e : Entry}

/-- The entry a run interprets comes with the own block registered last. -/
theorem current_of_split (bgs : List BlockGraph)
    (h : bgs.flatMap actions = done ++ .process e :: rest) :
    ∃ bg, (added done).getLast? = some bg ∧ e ∈ bg.entries := by
  induction bgs generalizing done rest e with
  | nil => simp at h
  | cons bg bgs ih =>
    rw [flatMap_cons] at h
    rcases append_eq_append_iff.mp h with ⟨more, rfl, hrest⟩ | ⟨more, hbg, hrest⟩
    · -- the iteration of the first own block is complete
      obtain ⟨bg', hlast, he⟩ := ih hrest
      refine ⟨bg', ?_, he⟩
      rw [added_append, List.getLast?_append, hlast]
      rfl
    · cases more with
      | nil =>
        have hnext : bgs.flatMap actions = [] ++ .process e :: rest := hrest.symm
        obtain ⟨bg', hlast, -⟩ := ih hnext
        cases hlast
      | cons a more =>
        obtain ⟨rfl, -⟩ := List.cons.inj hrest
        cases done with
        | nil => cases hbg
        | cons a done =>
          obtain ⟨rfl, htail⟩ := List.cons.inj hbg
          obtain ⟨front, back, hentries, rfl, hback⟩ := map_eq_append_iff.mp htail
          obtain ⟨e', back, rfl, hcurrent, -⟩ := map_eq_cons_iff.mp hback
          cases hcurrent
          refine ⟨bg, ?_, by simp [hentries]⟩
          have hnone : ∀ es : List Entry, added (es.map .process) = [] := by
            intro es
            induction es with
            | nil => rfl
            | cons e es ih => exact ih
          change (bg :: added (front.map .process)).getLast? = some bg
          rw [hnone]
          rfl

/-- There is evidence for the steps of the next block. -/
theorem traced_process (hwf : ∀ e' ∈ interpreted done ++ [e], e'.WellFormed p.peers)
    (hrun : actAll (new p lastInterpreted) done = .ok g) :
    Ensures (process g e) (fun g' => Traced p (interpreted done ++ [e]) g'.trace)
      (fun halt => Traced p (interpreted done ++ [e]) halt.host.trace) := by
  rw [← interpreted_process] at hwf ⊢
  have htraced : Ensures (actAll (new p lastInterpreted) (done ++ [.process e])) _ _ := traced_actAll hwf
  rw [actAll_append, hrun] at htraced
  change Ensures (process g e >>= fun g => actAll g []) _ _ at htraced
  cases hprocess : process g e with
  | ok g' =>
    rw [hprocess] at htraced
    exact htraced
  | error halt =>
    rw [hprocess] at htraced
    exact htraced

/-- Registering an own block keeps the bookkeeping in order. -/
theorem Orderly.register (h : Orderly p known g)
    (hnodup : ((known ++ bg.entries).map Entry.block).Nodup)
    (hzero : ∀ e ∈ bg.entries, e.block.round = 1 → e.prev.valid = false) :
    Orderly p (known ++ bg.entries) (g.register bg) := by
  have hround : (g.register bg).round = g.round := by rw [register_eq]
  have hknown : (g.register bg).known = g.known := by rw [register_eq]; rfl
  refine ⟨by rw [register_eq]; exact h.params, hround ▸ h.fits, ?_, fun b m hm => ?_, fun key hash hk => ?_⟩
  · rw [hround]
    refine h.booked.imp_right fun ⟨bound, hbooked⟩ => ?_
    obtain ⟨bound', hbooked', -⟩ := hbooked.register hnodup hzero
    exact ⟨bound', hbooked'⟩
  · obtain ⟨bound, hblocks, -, hother, -⟩ := register_spec g bg
    rw [hblocks]
    by_cases hgone : b ∈ BlockInfo.gone ⟨bg, bound⟩
    · exact ⟨⟨bg, bound⟩, by simp, hgone⟩
    · rw [BlockInfo.gone, mem_cons, not_or] at hgone
      rw [hother b hgone.2 hgone.1] at hm
      obtain ⟨info, hinfo, hb⟩ := h.housed b m hm
      exact ⟨info, mem_append_left _ hinfo, hb⟩
  · rw [hknown] at hk
    have htrace : (g.register bg).trace = g.trace := by rw [register_eq]
    exact htrace ▸ h.decided key hash hk

/-- The bookkeeping is in order, and the own block registered last is attended to. -/
structure Running (p : Params) (done : List Action) (g : Graph) : Prop where
  orderly : Orderly p (registered done) g
  attends : ∀ bg, (added done).getLast? = some bg →
    ∃ info, info.data = bg ∧ Attends p (registered done) info g

/-- An own block that is registered is the current one. -/
theorem Running.register (hown : OwnChain node first bgs)
    (hsplit : bgs.flatMap actions = done ++ .register bg :: rest)
    (hrun : actAll (new p lastInterpreted) done = .ok g) (h : Running p done g) :
    Running p (done ++ [.register bg]) (g.register bg) := by
  have hentries := registered_split (hsplit.trans (append_cons _ _ _))
  rw [registered_concat_register] at hentries
  have hnodup := hown.nodup
  rw [hentries, map_append, nodup_append'] at hnodup
  have hqueued : Queued first (added done ++ [bg]) (g.register bg) :=
    ((queued_actAll hown hsplit).of_ok hrun).register hown (added_concat_begins hsplit)
  obtain ⟨bound, hblocks, -⟩ := register_spec g bg
  refine ⟨?_, fun bg' hlast => ⟨⟨bg', bound⟩, rfl, ?_⟩⟩
  · rw [registered_concat_register]
    exact h.orderly.register hnodup.1 fun e he => hown.zero e (by rw [hentries]; simp [he])
  · rw [added_concat_register, getLast?_concat] at hlast
    cases hlast
    have hsorted := hqueued.sorted
    rw [hblocks] at hsorted
    refine ⟨fun other hother => ?_, .inl (by simp [hblocks])⟩
    rw [hblocks] at hother
    rcases mem_append.mp hother with hother | hother
    · exact (pairwise_append.mp hsorted).2.2 other hother _ (mem_singleton_self _)
    · rw [mem_singleton.mp hother]

/-- Interpreting a block attends to the current own block. -/
theorem Running.process (hcausal : Causal p.peers (bgs.flatMap entries))
    (hsplit : bgs.flatMap actions = done ++ .process e :: rest)
    (hrun : actAll (new p lastInterpreted) done = .ok g) (h : Running p done g) :
    ∃ info, (added done).getLast? = some info.data ∧ e.block ∈ info.gone ∧
      Ensures (process g e)
        (fun g' => Traced p (interpreted done ++ [e]) g'.trace ∧ Orderly p (registered done) g' ∧
          Attends p (registered done) info g')
        (fun halt => Traced p (interpreted done ++ [e]) halt.host.trace ∧
          Attends p (registered done) info halt.host ∧ halt.crash ≠ .noBlocks) := by
  obtain ⟨later, hlater⟩ := registered_eq_of_process hsplit
  have hes : interpreted done ++ [e] ⊆ registered done := by
    rw [hlater]
    exact append_subset.mpr ⟨subset_append_left _ _, by simp⟩
  have hwf : ∀ e' ∈ interpreted done ++ [e], e'.WellFormed p.peers := fun e' he' =>
    hcausal.wellFormed e' (by rw [registered_split hsplit]; exact mem_append_left _ (hes he'))
  have hpeers : p.peers ≠ [] := ne_nil_of_mem (hwf e (by simp)).node
  obtain ⟨bg, hlast, he⟩ := current_of_split bgs hsplit
  obtain ⟨info, rfl, hattends⟩ := h.attends bg hlast
  refine ⟨info, hlast, ?_, ?_⟩
  · rw [entries, mem_append, mem_map, mem_singleton] at he
    rcases he with ⟨dep, hdep, rfl⟩ | rfl
    · exact mem_cons_of_mem _ (mem_map_of_mem hdep)
    · exact mem_cons_self
  · refine (((traced_process hwf hrun).and (h.orderly.process hattends hwf hes hpeers e)).mono ?_).weaken ?_
    · rintro g' ⟨htraced, hg'⟩
      exact ⟨htraced, hg' htraced⟩
    · rintro halt ⟨htraced, hhalt⟩
      exact ⟨htraced, (hhalt htraced).1.2, (hhalt htraced).2⟩

/-- Every run attends to its current own block, and always has an own block to count
from. -/
theorem running_actAll (hown : OwnChain node first bgs)
    (hcausal : Causal p.peers (bgs.flatMap entries))
    (hsplit : bgs.flatMap actions = done ++ rest) :
    Ensures (actAll (new p lastInterpreted) done) (Running p done)
      (fun halt => halt.crash ≠ .noBlocks) := by
  apply ensures_actAll (Running p)
  · intro before a after mid hbefore hrun hmid
    have hacts := split_of_begins hsplit hbefore
    cases a with
    | register bg => exact hmid.register hown hacts hrun
    | process e =>
      obtain ⟨info, hlast, -, hprocess⟩ := hmid.process hcausal hacts hrun
      refine (hprocess.mono ?_).weaken fun halt hhalt => hhalt.2.2
      rintro g' ⟨-, horderly, hattends⟩
      refine ⟨?_, fun bg hbg => ⟨info, ?_⟩⟩
      · rwa [registered_concat_process]
      · rw [added_concat_process, hlast] at hbg
        rw [registered_concat_process]
        exact ⟨Option.some.inj hbg, hattends⟩
  · refine ⟨⟨rfl, Nat.mod_lt _ (by decide), .inr ⟨fun _ => 0, ⟨?_, ?_, ?_⟩, ?_⟩, ?_, ?_⟩, ?_⟩
    · simp [new]
    · simp [registered]
    · intro before e after hnil
      simp [registered] at hnil
    · simp [new]
    · intro b m hm
      simp [new] at hm
    · intro key hash hknown
      simp [new, known] at hknown
    · intro bg hbg
      simp [added] at hbg

section FourPeers

variable (hpeers : 4 ≤ p.peerCount) (hfaults : F.card ≤ p.faults)
  (hcausal : Causal p.peers (bgs.flatMap entries))
  (hone : ∀ x, x ∉ F → OneChain (bgs.flatMap entries) x) (hown : OwnChain node first bgs)

include hpeers hfaults hcausal hone hown

/-- The current own block stays in the list, whether or not the block that is
interpreted stops the program. -/
theorem current_process (hsplit : bgs.flatMap actions = done ++ .process e :: rest)
    (hrun : actAll (new p lastInterpreted) done = .ok g) :
    ∃ info, (added done).getLast? = some info.data ∧ e.block ∈ info.gone ∧
      Ensures (process g e) (fun g' => info ∈ g'.blocks) (fun halt => info ∈ halt.host.blocks) := by
  have hrunning : Running p done g := (running_actAll hown hcausal hsplit).of_ok hrun
  obtain ⟨info, hlast, hgone, hprocess⟩ := hrunning.process hcausal hsplit hrun
  obtain ⟨later, hlater⟩ := registered_eq_of_process hsplit
  have hentries : bgs.flatMap entries =
      (interpreted done ++ [e]) ++ (later ++ registered (.process e :: rest)) := by
    rw [registered_split hsplit, hlater]
    simp
  have hknown : interpreted done ++ [e] ⊆ registered done := by
    rw [hlater]
    exact append_subset.mpr ⟨subset_append_left _ _, by simp⟩
  rw [hentries] at hcausal hone
  have hsettled : ∀ {trace : List Event}, Traced p (interpreted done ++ [e]) trace →
      ¬ Swept p (registered done) trace :=
    not_swept hpeers hcausal.of_append
      (fun x hx => (hone x hx).of_subset (subset_append_left _ _)) hfaults hknown
  refine ⟨info, hlast, hgone, (hprocess.mono ?_).weaken ?_⟩
  · rintro g' ⟨htraced, -, hattends⟩
    exact hattends.current.resolve_right fun hgone => hsettled htraced hgone.2.2
  · rintro halt ⟨htraced, hattends, -⟩
    exact hattends.current.resolve_right fun hgone => hsettled htraced hgone.2.2

/-- No state outlives the own block it came with. -/
theorem housed_actAll (hsplit : bgs.flatMap actions = done ++ rest) :
    Ensures (actAll (new p lastInterpreted) done)
      (fun g => Housed g.max g.blocks ∧ Housed g.statess g.blocks) (fun _ => True) := by
  have hstates : Ensures (actAll (new p lastInterpreted) done)
      (fun g => Housed g.statess g.blocks) (fun _ => True) := by
    apply holds_actAll fun _ g => Housed g.statess g.blocks
    · intro before bg after mid _ _ hmid b s hs
      have hstatess : (mid.register bg).statess = mid.statess := by rw [register_eq]
      obtain ⟨bound, hblocks, -⟩ := register_spec mid bg
      rw [hstatess] at hs
      obtain ⟨info, hinfo, hb⟩ := hmid b s hs
      exact ⟨info, by rw [hblocks]; exact mem_append_left _ hinfo, hb⟩
    · intro before e after mid g' hbefore hrun hmid hprocess
      obtain ⟨info, -, hgone, hcurrent⟩ :=
        current_process hpeers hfaults hcausal hone hown (split_of_begins hsplit hbefore) hrun
      have hinfo : info ∈ g'.blocks := hcurrent.of_ok hprocess
      obtain ⟨last, mem, hinterpret, rfl⟩ := process_eq_ok hprocess
      have hlast : Housed last.statess last.blocks := by
        refine (host_interpret (fun g => Housed g.statess g.blocks) (fun _ _ h => h) ?_ _ _ _ _ e
          hmid).of_ok hinterpret
        intro g d g' hg hdeliver
        have hrule : Ensures (deliver g d) (fun g => Housed g.statess g.blocks) (fun _ => True) :=
          ensures_deliver (fun h => h) (fun _ _ _ h _ _ hreport => (housed_report hreport).2 h)
            (fun _ _ _ _ _ _ => trivial) (fun _ _ _ => trivial) hg
        exact hrule.of_ok hdeliver
      intro b s hs
      simp only [store, lookup_insert] at hs
      split at hs
      · rename_i hb
        exact ⟨info, hinfo, hb ▸ hgone⟩
      · exact hlast b s hs
    · intro b s hs
      simp [new] at hs
  refine ((running_actAll hown hcausal hsplit).and hstates).mono ?_ |>.weaken fun _ _ => trivial
  rintro g ⟨hrunning, hhoused⟩
  exact ⟨hrunning.orderly.housed, hhoused⟩

end FourPeers

/-- The own block that is being interpreted is never consumed. A run over own blocks in
a causal order never looks for an own block in an empty list, whatever the number of peers.
If there are four or more of them and all but `faults` of them never fork, the own block
registered last is in the list after every action, also after one that stops the program,
and after each iteration every bound and every state belongs to an own block in the list or
to a block it references. -/
theorem keeps_current (F : Finset Nat) (hown : OwnChain node first bgs)
    (hcausal : Causal p.peers (bgs.flatMap entries)) :
    Ensures (addAll (new p lastInterpreted) bgs) (fun _ => True) (fun halt => halt.crash ≠ .noBlocks) ∧
    (4 ≤ p.peerCount → F.card ≤ p.faults →
      (∀ x, x ∉ F → OneChain (bgs.flatMap entries) x) →
      (∀ done a rest g bg, bgs.flatMap actions = done ++ a :: rest →
        actAll (new p lastInterpreted) done = .ok g → (added (done ++ [a])).getLast? = some bg →
        Ensures (g.act a) (fun g' => bg ∈ g'.blocks.map BlockInfo.data)
          (fun halt => bg ∈ halt.host.blocks.map BlockInfo.data)) ∧
      ∀ done rest g, bgs = done ++ rest → addAll (new p lastInterpreted) done = .ok g →
        ∀ b : BlockID, (g.max[b]?).isSome ∨ (g.statess[b]?).isSome →
          ∃ info ∈ g.blocks, b = info.data.block ∨ ∃ dep ∈ info.data.deps, b = dep.block) := by
  constructor
  · rw [addAll_eq_actAll]
    exact (running_actAll hown hcausal (append_nil _).symm).mono fun _ _ => trivial
  intro hpeers hfaults hone
  constructor
  · intro done a rest g bg hsplit hrun hlast
    cases a with
    | register bg' =>
      rw [added_concat_register, getLast?_concat] at hlast
      cases hlast
      obtain ⟨bound, hblocks, -⟩ := register_spec g bg
      change bg ∈ (g.register bg).blocks.map BlockInfo.data
      simp [hblocks]
    | process e =>
      obtain ⟨info, hcurrent, -, hprocess⟩ :=
        current_process hpeers hfaults hcausal hone hown hsplit hrun
      rw [added_concat_process, hcurrent] at hlast
      cases hlast
      exact (hprocess.mono fun g' hinfo => mem_map_of_mem hinfo).weaken fun halt hinfo =>
        mem_map_of_mem hinfo
  · intro done rest g hbgs hrun b hb
    have hsplit : bgs.flatMap actions =
        done.flatMap actions ++ rest.flatMap actions := by
      rw [hbgs, flatMap_append]
    rw [addAll_eq_actAll] at hrun
    obtain ⟨hmax, hstatess⟩ := (housed_actAll hpeers hfaults hcausal hone hown hsplit).of_ok hrun
    have hhoused : ∃ info ∈ g.blocks, b ∈ info.gone := by
      rcases hb with hb | hb
      · obtain ⟨m, hm⟩ := Option.isSome_iff_exists.mp hb
        exact hmax b m hm
      · obtain ⟨s, hs⟩ := Option.isSome_iff_exists.mp hb
        exact hstatess b s hs
    obtain ⟨info, hinfo, hgone⟩ := hhoused
    refine ⟨info, hinfo, (mem_cons.mp hgone).imp_right fun hdep => ?_⟩
    obtain ⟨dep, hmem, rfl⟩ := mem_map.mp hdep
    exact ⟨dep, hmem, rfl⟩

/-- Four nodes in lockstep: the fourth own block delivers the first round, which consumes the
first own block, and is in the list with all the blocks that are left. -/
theorem keeps_current_lockstep :
    ∃ g, addAll (new .four 0) lockstep = .ok g ∧
      g.callbacks.map (fun i => (i.consumed, i.round)) = [(1, 1)] ∧
      g.blocks.map (fun info => info.data.block) = [blockAt 1 2, blockAt 1 3, blockAt 1 4] ∧
      (g.statess[blockAt 2 3]?).isSome ∧
      ∃ info ∈ g.blocks, blockAt 2 3 = info.data.block ∨ ∃ dep ∈ info.data.deps, blockAt 2 3 = dep.block := by
  have hcheck : succeeds (addAll (new .four 0) lockstep) (fun g =>
      decide (g.callbacks.map (fun i => (i.consumed, i.round)) = [(1, 1)]) &&
      decide (g.blocks.map (fun info => info.data.block) = [blockAt 1 2, blockAt 1 3, blockAt 1 4]) &&
      (g.statess[blockAt 2 3]?).isSome) = true := by decide +kernel
  obtain ⟨g, hrun, hfacts⟩ := exists_of_succeeds hcheck
  simp only [Bool.and_eq_true, decide_eq_true_eq] at hfacts
  obtain ⟨⟨hcallbacks, hblocks⟩, hstate⟩ := hfacts
  have hown : OwnChain 1 1 lockstep := by constructor <;> decide +kernel
  have hcausal : Causal Params.four.peers (lockstep.flatMap entries) :=
    causal_of_check (by decide +kernel)
  have hone : ∀ x, x ∉ (∅ : Finset Nat) → OneChain (lockstep.flatMap entries) x := by
    have hforks : ∀ e ∈ lockstep.flatMap entries, ∀ e' ∈ lockstep.flatMap entries,
        e.block.node = e'.block.node → e.block.round = e'.block.round → e.block = e'.block := by
      decide +kernel
    intro x _ e he e' he' hnode hnode' hround
    exact hforks e he e' he' (hnode.trans hnode'.symm) hround
  obtain ⟨-, hfour⟩ := @keeps_current .four 0 1 1 lockstep ∅ hown hcausal
  obtain ⟨-, hhoused⟩ := hfour (by decide) (by decide) hone
  exact ⟨g, hrun, hcallbacks, hblocks, hstate, hhoused lockstep [] g (append_nil _).symm hrun _
    (Or.inr hstate)⟩

end Runs

end Graph

end Blockmania
