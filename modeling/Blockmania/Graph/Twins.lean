/-
# A block in two graphs

A graph and one that was restarted after the round `R` interpret the same blocks. Some
blocks are quiet: nothing they build on is of a round past `R`. What the two graphs hold of
those may differ, but none of it is about such a round. The others start from states that
agree on the rounds past `R` and read outputs that do, so they come to the same, if the two
graphs give them the same timeout value and the restarted one has not dropped a timeout that
the other one is still to see fall due.
-/

import Blockmania.Graph.Pairing

namespace Blockmania

open Math

theorem dropped_of_le {R : Nat} {key : NodeRound} (h : key.round ≤ R) :
    fromRound (R + 1) key = false :=
  decide_eq_false (by omega)

/-- Lists without kept elements agree. -/
theorem SameKept.of_dropped {α : Type} {keep : α → Bool} {as bs : List α}
    (has : ∀ a ∈ as, keep a = false) (hbs : ∀ b ∈ bs, keep b = false) : SameKept keep as bs := by
  have hnone : ∀ {l : List α}, (∀ a ∈ l, keep a = false) → l.filter keep = [] := fun h =>
    List.filter_eq_nil_iff.mpr fun a ha => by simp [h a ha]
  exact SameKept.of_filter_eq ((hnone has).trans (hnone hbs).symm)

theorem Memory.Within.of_same {bound : Nat} {mem mem' : Memory} (h : mem.Within bound)
    (hsame : mem.Same mem') : mem'.Within bound where
  inst key hkey := (hsame.inst key).trans (h.inst key hkey)
  timeouts d t ht := h.timeouts d t (hsame.timeoutsAt d ▸ ht)

namespace Graph

/-- The timeout value that the block comes to. -/
def patience (g : Graph) (e : Entry) : Nat :=
  timeoutValue g.params (recordDelays e.block.round e.deps (g.opened e).state.delay)

/-- A node has a block of a round. -/
def HasBlock (es : List Entry) (x round : Nat) : Prop :=
  ∃ e ∈ es, e.block.node = x ∧ e.block.round = round

/-- The timeouts that the second graph prunes from the state the block starts from, and the
first one does not, are about rounds up to `R`, as far as they will fall due. -/
def Spares (R : Nat) (es : List Entry) (g g' : Graph) (e : Entry) : Prop :=
  ∀ d, e.block.round ≤ d → d < g'.round → HasBlock es e.block.node d →
    ∀ t ∈ (g.opened e).timeoutsAt d, t.round ≤ R

/-- What a graph holds of quiet blocks is about rounds up to `R`: their outputs, and the
states that the next blocks of their nodes start from. -/
structure Modest (R : Nat) (quiet : BlockID → Prop) (seen : List Entry) (g : Graph) : Prop where
  out : ∀ (b : BlockID) (s : State), quiet b → g.statess[b]? = some s → s.Says R
  within : ∀ (b : BlockID) (s : State), quiet b → tip seen b.node = some b →
    g.statess[b]? = some s → Memory.Within R ⟨g.heap, s⟩

/-- Two graphs that have seen the same blocks hold the same about the rounds past `R`. -/
structure Twins (R : Nat) (quiet : BlockID → Prop) (es seen : List Entry)
    (g g' : Graph) : Prop where
  modest : Modest R quiet seen g
  modest' : Modest R quiet seen g'
  out : ∀ (b : BlockID) (s s' : State), ¬ quiet b → g.statess[b]? = some s →
    g'.statess[b]? = some s' → SameKept (keptMessage (fromRound (R + 1))) s.out s'.out
  inst : ∀ (b : BlockID) (s s' : State), ¬ quiet b → tip seen b.node = some b →
    g.statess[b]? = some s → g'.statess[b]? = some s' → ∀ key, fromRound (R + 1) key = true →
    Memory.inst ⟨g.heap, s⟩ key = Memory.inst ⟨g'.heap, s'⟩ key
  timeoutsAt : ∀ (b : BlockID) (s s' : State), ¬ quiet b → tip seen b.node = some b →
    g.statess[b]? = some s → g'.statess[b]? = some s' → ∀ d, b.round < d → HasBlock es b.node d →
    SameKept (keptTimeout (fromRound (R + 1))) (Memory.timeoutsAt ⟨g.heap, s⟩ d)
      (Memory.timeoutsAt ⟨g'.heap, s'⟩ d)

variable {R : Nat} {quiet : BlockID → Prop} {es seen done done' : List Entry} {e : Entry}
  {g g' t t' last last' : Graph} {mem mem' : Memory} {rel : Graph → Graph → Prop} {lost : Graph → Prop}

/-- A block with a quiet predecessor, or with none, starts from nothing past `R`. -/
theorem Modest.opened (h : Modest R quiet seen g)
    (hprev : e.prev.valid = true → quiet e.prev ∧ tip seen e.prev.node = some e.prev) :
    (g.opened e).Within R := by
  by_cases hvalid : e.prev.valid = true
  · obtain ⟨hquiet, htip⟩ := hprev hvalid
    rcases g.opened_cases e with ⟨s, hs, hopened⟩ | ⟨hopened, -⟩
    · rw [hopened]
      exact (h.within _ s hquiet htip hs).clone _
    · rw [hopened]
      exact Memory.Within.fresh _
  · rw [opened_of_invalid hvalid]
    exact Memory.Within.fresh _

/-- Two memories that hold nothing past `R` agree on it. -/
theorem agrees_of_within (h : mem.Within R) (h' : mem'.Within R) :
    (∀ key, fromRound (R + 1) key = true → mem.inst key = mem'.inst key) ∧
      ∀ d, SameKept (keptTimeout (fromRound (R + 1))) (mem.timeoutsAt d) (mem'.timeoutsAt d) := by
  refine ⟨fun key hkey => ?_, fun d => SameKept.of_dropped (fun t ht => ?_) fun t ht => ?_⟩
  · rw [h.inst key (le_of_fromRound hkey), h'.inst key (le_of_fromRound hkey)]
  · exact dropped_of_le (h.timeouts d t ht)
  · exact dropped_of_le (h'.timeouts d t ht)

/-- The block starts from the same in both graphs, as far as rounds past `R` and
timeouts that will fall due are concerned. -/
theorem Twins.opened (h : Twins R quiet es seen g g')
    (hprev : e.prev.valid = true → tip seen e.prev.node = some e.prev ∧
      e.prev.node = e.block.node ∧ e.prev.round + 1 = e.block.round)
    (hstates : ∀ b, ¬ quiet b → ((g.statess[b]?).isSome ↔ (g'.statess[b]?).isSome))
    (hround : g'.round = g.round ∨ g.round ≤ g'.round ∧ g'.round = R + 1)
    (hspares : Spares R es g g' e) :
    (∀ key, fromRound (R + 1) key = true → (g.opened e).inst key = (g'.opened e).inst key) ∧
      ∀ d, e.block.round ≤ d → HasBlock es e.block.node d →
        SameKept (keptTimeout (fromRound (R + 1))) ((g.opened e).timeoutsAt d)
          ((g'.opened e).timeoutsAt d) := by
  have hle : g.round ≤ g'.round := by omega
  by_cases hloud : e.prev.valid = true ∧ ¬ quiet e.prev ∧ (g.statess[e.prev]?).isSome
  · obtain ⟨hvalid, hloud, hsome⟩ := hloud
    obtain ⟨htip, hnode, hnext⟩ := hprev hvalid
    obtain ⟨s, hs⟩ := Option.isSome_iff_exists.mp hsome
    obtain ⟨s', hs'⟩ := Option.isSome_iff_exists.mp ((hstates _ hloud).mp hsome)
    have hopened := opened_eq hvalid hs
    have hopened' := opened_eq hvalid hs'
    refine ⟨fun key hkey => ?_, fun d hd hblock => ?_⟩
    · have hpast := le_of_fromRound hkey
      rw [hopened, hopened', inst_clone, inst_clone]
      by_cases hpruned : key.round < g.round
      · rw [if_pos hpruned, if_pos (hpruned.trans_le hle)]
      · rw [if_neg hpruned, if_neg (by omega)]
        exact h.inst _ s s' hloud htip hs hs' key hkey
    · by_cases hpruned : d < g'.round
      · -- what the second graph prunes is not kept in the first one
        refine SameKept.of_dropped (fun t ht => dropped_of_le (hspares d hd hpruned hblock t ht)) ?_
        rw [hopened', Memory.timeoutsAt_clone, if_pos hpruned]
        exact fun t ht => nomatch ht
      · rw [hopened, hopened', Memory.timeoutsAt_clone, Memory.timeoutsAt_clone, if_neg hpruned,
          if_neg (by omega)]
        exact h.timeoutsAt _ s s' hloud htip hs hs' d (by omega) (hnode ▸ hblock)
  · -- otherwise neither graph holds anything past `R`
    have hwithin : ∀ g₁ : Graph, Modest R quiet seen g₁ →
        (e.prev.valid = true → ¬ quiet e.prev → g₁.statess[e.prev]? = none) →
        (g₁.opened e).Within R := by
      intro g₁ hmodest hnone
      by_cases hvalid : e.prev.valid = true
      · by_cases hquiet : quiet e.prev
        · exact hmodest.opened fun _ => ⟨hquiet, (hprev hvalid).1⟩
        · rcases g₁.opened_cases e with ⟨s, hs, -⟩ | ⟨hopened, -⟩
          · cases (hnone hvalid hquiet).symm.trans hs
          · rw [hopened]
            exact Memory.Within.fresh _
      · rw [opened_of_invalid hvalid]
        exact Memory.Within.fresh _
    have hforgot : e.prev.valid = true → ¬ quiet e.prev → g.statess[e.prev]? = none := by
      intro hvalid hquiet
      rw [← Option.not_isSome_iff_eq_none]
      exact fun hsome => hloud ⟨hvalid, hquiet, hsome⟩
    have hagrees := agrees_of_within (hwithin g h.modest hforgot)
      (hwithin g' h.modest' fun hvalid hquiet => by
      rw [← Option.not_isSome_iff_eq_none, ← hstates _ hquiet, hforgot hvalid hquiet]
      simp)
    exact ⟨hagrees.1, fun d _ _ => hagrees.2 d⟩

/-- What the second graph makes of a block that the first one has interpreted. -/
def Keeps (R : Nat) (quiet : BlockID → Prop) (es : List Entry) (rel : Graph → Graph → Prop)
    (e : Entry) (last : Graph) (mem : Memory) (last' : Graph) (mem' : Memory) : Prop :=
  rel last last' ∧
    (quiet e.block → (mem.Within R ∧ mem.state.Says R) ∧ mem'.Within R ∧ mem'.state.Says R) ∧
    (¬ quiet e.block → SameKept (keptMessage (fromRound (R + 1))) mem.state.out mem'.state.out ∧
      Agree (fromRound (R + 1)) (fun d => e.block.round ≤ d ∧ HasBlock es e.block.node d) mem mem')

/-- A block that is not quiet comes to the same in both graphs. -/
theorem keeps_of_loud (hguides : Guides host host (fromRound (R + 1)) rel lost)
    (hloud : ¬ quiet e.block) (he : e ∈ es) (hparams : g'.params = g.params) (hrel : rel g g')
    (hinst : ∀ key, fromRound (R + 1) key = true → (g.opened e).inst key = (g'.opened e).inst key)
    (htimeouts : ∀ d, e.block.round ≤ d → HasBlock es e.block.node d →
      SameKept (keptTimeout (fromRound (R + 1))) ((g.opened e).timeoutsAt d)
        ((g'.opened e).timeoutsAt d)) (hpatience : g.patience e = g'.patience e)
    (houtput : ∀ dep ∈ e.deps, ∀ {s s'}, rel s s' → ¬ lost s →
      SameKept (keptMessage (fromRound (R + 1))) (host.output s dep) (host.output s' dep))
    (hrun : interpret host g.params g.round g.heap g.statess[e.prev]? g e = .ok (last, mem))
    (hkept : ¬ lost last) :
    Ensures (interpret host g'.params g'.round g'.heap g'.statess[e.prev]? g' e)
      (fun r => Keeps R quiet es rel e last mem r.1 r.2) Stumbles := by
  have hlive : e.block.round ≤ e.block.round ∧ HasBlock es e.block.node e.block.round :=
    ⟨le_rfl, e, he, rfl, rfl⟩
  unfold patience at hpatience
  rw [hparams] at hpatience ⊢
  have hmem : Agree (fromRound (R + 1)) (fun d => e.block.round ≤ d ∧ HasBlock es e.block.node d)
      ((g.opened e).schedule g.params e) ((g'.opened e).schedule g.params e) :=
    Agree.schedule hinst (fun d hd => htimeouts d hd.1 hd.2) rfl hpatience
  exact (follows_conduct hguides hlive houtput hrel hmem hrun hkept).mono fun r hr =>
    ⟨hr.1, fun hquiet => absurd hquiet hloud, fun _ => ⟨hr.2.2, hr.2.1⟩⟩

/-- A quiet block goes unnoticed in either graph. -/
theorem keeps_of_quiet (hguides : Guides host host (fromRound (R + 1)) rel lost)
    (hquiet : quiet e.block) (hround : e.block.round ≤ R) (hrel : rel g g')
    (hopened : (g.opened e).Within R) (hopened' : (g'.opened e).Within R)
    (hdeps : ∀ dep ∈ e.deps, ∀ s, g.statess[dep]? = some s → s.Says R)
    (hdeps' : ∀ dep ∈ e.deps, ∀ s, g'.statess[dep]? = some s → s.Says R)
    (hrun : interpret host g.params g.round g.heap g.statess[e.prev]? g e = .ok (last, mem))
    (hkept : ¬ lost last) :
    Ensures (interpret host g'.params g'.round g'.heap g'.statess[e.prev]? g' e)
      (fun r => Keeps R quiet es rel e last mem r.1 r.2) Stumbles := by
  have hleft : Ensures (interpret host g.params g.round g.heap g.statess[e.prev]? g e)
      (fun r => rel r.1 g' ∧ r.2.Within R ∧ r.2.state.Says R) (fun _ => True) := by
    apply ensures_within (fun s => rel s g') hround hopened hdeps hrel
      (fun s ev hs => hguides.coupling.observe_left ev hs)
    · intro s d hs hd
      cases hdeliver : deliver s d with
      | ok t => exact hguides.coupling.deliver_left hs (dropped_of_le hd) hdeliver
      | error crash => trivial
    · exact fun _ _ _ _ _ _ => trivial
  obtain ⟨hlast, hmem⟩ := hleft.of_ok hrun
  have hright : Ensures (interpret host g'.params g'.round g'.heap g'.statess[e.prev]? g' e)
      (fun r => rel last r.1 ∧ r.2.Within R ∧ r.2.state.Says R) Stumbles := by
    apply ensures_within (fun s' => rel last s') hround hopened' hdeps' hlast
      (fun s' ev hs => hguides.coupling.observe_right ev hs)
    · intro s' d hs hd
      obtain ⟨t', ht'⟩ := hguides.right hs hkept (dropped_of_le hd)
      have hdeliver : deliver s' d = .ok t' := ht'
      rw [hdeliver]
      exact hguides.coupling.deliver_right hs (dropped_of_le hd) ht'
    · exact fun _ _ _ _ host' hcrash => stumbles_of_processMessage host' hcrash
  exact hright.mono fun r hr => ⟨hr.1, fun _ => ⟨hmem, hr.2⟩, fun hloud => absurd hquiet hloud⟩

/-- Besides the state of the block, a graph keeps states that it had. -/
theorem store_cases (hfollows : Follows g last) {b : BlockID} {s : State}
    (hs : (last.store e.block mem).statess[b]? = some s) :
    b = e.block ∧ s = mem.state ∨ b ≠ e.block ∧ g.statess[b]? = some s := by
  obtain ⟨evs, hadvances⟩ := hfollows
  rw [store, FiniteMap.lookup_insert] at hs
  split at hs
  · rename_i hb
    cases hs
    exact .inl ⟨hb.symm, rfl⟩
  · rename_i hne
    exact .inr ⟨Ne.symm hne, hadvances.statess b s hs⟩

/-- A block that is still the last one of its node is one of another node. -/
theorem tip_of_concat {b : BlockID} (htip : tip (seen ++ [e]) b.node = some b) (hne : b ≠ e.block) :
    e.block.node ≠ b.node ∧ tip seen b.node = some b := by
  by_cases hnode : e.block.node = b.node
  · rw [tip_append_of_eq hnode] at htip
    exact absurd (Option.some.inj htip).symm hne
  · rw [tip_append_of_ne hnode] at htip
    exact ⟨hnode, htip⟩

/-- What is stored of a quiet block is about rounds up to `R`, and the other nodes do not
see it. -/
theorem Modest.store (h : Modest R quiet seen g) (howned : Owned done g)
    (hprev : e.prev.valid = true → e.prev.node = e.block.node) (hfollows : Follows g last)
    (hprocess : g.process e = .ok (last.store e.block mem))
    (hmem : quiet e.block → mem.Within R ∧ mem.state.Says R) :
    Modest R quiet (seen ++ [e]) (last.store e.block mem) where
  out b s hquiet hs := by
    rcases store_cases hfollows hs with ⟨rfl, rfl⟩ | ⟨-, hbefore⟩
    · exact (hmem hquiet).2
    · exact h.out b s hquiet hbefore
  within b s hquiet htip hs := by
    rcases store_cases hfollows hs with ⟨rfl, rfl⟩ | ⟨hne, hbefore⟩
    · exact (hmem hquiet).1
    · obtain ⟨hnode, htip⟩ := tip_of_concat htip hne
      exact (h.within b s hquiet htip hbefore).of_same
        (howned.same_process hprev hprocess hnode (howned.owns b s hbefore))

/-- Storing what the block came to keeps the graphs twins. -/
theorem Twins.store (h : Twins R quiet es seen g g') (howned : Owned done g)
    (howned' : Owned done' g') (hprev : e.prev.valid = true → e.prev.node = e.block.node)
    (hfollows : Follows g last) (hfollows' : Follows g' last')
    (hprocess : g.process e = .ok (last.store e.block mem))
    (hprocess' : g'.process e = .ok (last'.store e.block mem'))
    (hkeeps : Keeps R quiet es rel e last mem last' mem') :
    Twins R quiet es (seen ++ [e]) (last.store e.block mem) (last'.store e.block mem') := by
  obtain ⟨-, hquiet, hloud⟩ := hkeeps
  refine ⟨h.modest.store howned hprev hfollows hprocess fun hq => (hquiet hq).1,
    h.modest'.store howned' hprev hfollows' hprocess' fun hq => (hquiet hq).2, ?_, ?_, ?_⟩
  · intro b s s' hb hs hs'
    rcases store_cases hfollows hs with ⟨rfl, rfl⟩ | ⟨hne, hbefore⟩
    · rcases store_cases hfollows' hs' with ⟨-, rfl⟩ | ⟨hne, -⟩
      · exact (hloud hb).1
      · exact absurd rfl hne
    · rcases store_cases hfollows' hs' with ⟨heq, -⟩ | ⟨-, hbefore'⟩
      · exact absurd heq hne
      · exact h.out b s s' hb hbefore hbefore'
  · intro b s s' hb htip hs hs' key hkey
    rcases store_cases hfollows hs with ⟨rfl, rfl⟩ | ⟨hne, hbefore⟩
    · rcases store_cases hfollows' hs' with ⟨-, rfl⟩ | ⟨hne, -⟩
      · exact (hloud hb).2.inst key hkey
      · exact absurd rfl hne
    · rcases store_cases hfollows' hs' with ⟨heq, -⟩ | ⟨-, hbefore'⟩
      · exact absurd heq hne
      obtain ⟨hnode, htip⟩ := tip_of_concat htip hne
      rw [(howned.same_process hprev hprocess hnode (howned.owns b s hbefore)).inst key,
        (howned'.same_process hprev hprocess' hnode (howned'.owns b s' hbefore')).inst key]
      exact h.inst b s s' hb htip hbefore hbefore' key hkey
  · intro b s s' hb htip hs hs' d hd hblock
    rcases store_cases hfollows hs with ⟨rfl, rfl⟩ | ⟨hne, hbefore⟩
    · rcases store_cases hfollows' hs' with ⟨-, rfl⟩ | ⟨hne, -⟩
      · exact (hloud hb).2.timeoutsAt d ⟨hd.le, hblock⟩
      · exact absurd rfl hne
    · rcases store_cases hfollows' hs' with ⟨heq, -⟩ | ⟨-, hbefore'⟩
      · exact absurd heq hne
      obtain ⟨hnode, htip⟩ := tip_of_concat htip hne
      rw [(howned.same_process hprev hprocess hnode (howned.owns b s hbefore)).timeoutsAt d,
        (howned'.same_process hprev hprocess' hnode (howned'.owns b s' hbefore')).timeoutsAt d]
      exact h.timeoutsAt b s s' hb htip hbefore hbefore' d hd hblock

/-- The block can come next: its predecessor is the last block of its node, and if it is
quiet it builds on quiet blocks only. -/
structure Next (R : Nat) (quiet : BlockID → Prop) (es seen : List Entry) (e : Entry) : Prop where
  mem : e ∈ es
  prev : e.prev.valid = true → tip seen e.prev.node = some e.prev ∧
    e.prev.node = e.block.node ∧ e.prev.round + 1 = e.block.round
  quiet : quiet e.block → e.block.round ≤ R ∧ (∀ b ∈ e.deps, quiet b) ∧
    (e.prev.valid = true → quiet e.prev)

/-- The outputs that are read agree on the rounds past `R`. -/
theorem Twins.output (h : Twins R quiet es seen g g') {s s' : Graph} (hfollows : Follows g s)
    (hfollows' : Follows g' s')
    (hstates : ∀ b, ¬ quiet b → ((s.statess[b]?).isSome ↔ (s'.statess[b]?).isSome))
    (dep : BlockID) :
    SameKept (keptMessage (fromRound (R + 1))) (host.output s dep) (host.output s' dep) := by
  obtain ⟨evs, hadvances⟩ := hfollows
  obtain ⟨evs', hadvances'⟩ := hfollows'
  by_cases hquiet : quiet dep
  · refine SameKept.of_dropped (fun msg hmsg => ?_) fun msg hmsg => ?_
    · obtain ⟨st, hst, hmsg⟩ := hadvances.output hmsg
      exact dropped_of_le (h.modest.out dep st hquiet hst msg hmsg)
    · obtain ⟨st, hst, hmsg⟩ := hadvances'.output hmsg
      exact dropped_of_le (h.modest'.out dep st hquiet hst msg hmsg)
  · have hboth := hstates dep hquiet
    change SameKept _ ((s.statess[dep]?.map State.out).getD [])
      ((s'.statess[dep]?.map State.out).getD [])
    cases hst : s.statess[dep]? with
    | none =>
      have hst' : s'.statess[dep]? = none := by
        rw [← Option.not_isSome_iff_eq_none, ← hboth, hst]
        simp
      rw [hst']
      exact .nil
    | some st =>
      obtain ⟨st', hst'⟩ := Option.isSome_iff_exists.mp (hboth.mp (by rw [hst]; rfl))
      rw [hst']
      exact h.out dep st st' hquiet (hadvances.statess _ _ hst) (hadvances'.statess _ _ hst')

/-- Twins stay twins over a block. If one graph interprets a block, so does the other
one, unless it stumbles, and both come to the same about the rounds past `R`. The relation
`rel` follows what happens to the rest of the graphs meanwhile. -/
theorem twins_process (hguides : Guides host host (fromRound (R + 1)) rel lost)
    (hview : ∀ {s s'}, rel s s' → ¬ lost s → Follows g s ∧ Follows g' s' ∧
      ∀ b, ¬ quiet b → ((s.statess[b]?).isSome ↔ (s'.statess[b]?).isSome))
    (hstored : ∀ s mem, lost s → lost (s.store e.block mem))
    (htwins : Twins R quiet es seen g g') (howned : Owned done g) (howned' : Owned done' g')
    (hnext : Next R quiet es seen e) (hparams : g'.params = g.params)
    (hround : g'.round = g.round ∨ g.round ≤ g'.round ∧ g'.round = R + 1)
    (htime : ¬ quiet e.block → g.patience e = g'.patience e ∧ Spares R es g g' e)
    (hrel : rel g g') (hnow : ¬ lost g) (hprocess : g.process e = .ok t) (hkept : ¬ lost t) :
    Ensures (g'.process e) (fun t' => Twins R quiet es (seen ++ [e]) t t' ∧
      ∃ last mem last' mem', t = last.store e.block mem ∧ t' = last'.store e.block mem' ∧
        rel last last' ∧ ¬ lost last) Stumbles := by
  obtain ⟨last, mem, hrun, hstore⟩ := process_eq_ok hprocess
  subst hstore
  have hlast : ¬ lost last := fun hlost => hkept (hstored last mem hlost)
  have hprev := fun hvalid => (hnext.prev hvalid).2.1
  have hkeeps : Ensures (interpret host g'.params g'.round g'.heap g'.statess[e.prev]? g' e)
      (fun r => Keeps R quiet es rel e last mem r.1 r.2) Stumbles := by
    by_cases hquiet : quiet e.block
    · obtain ⟨hle, hdeps, hquietPrev⟩ := hnext.quiet hquiet
      have hopened := fun hvalid => And.intro (hquietPrev hvalid) (hnext.prev hvalid).1
      exact keeps_of_quiet hguides hquiet hle hrel (htwins.modest.opened hopened)
        (htwins.modest'.opened hopened)
        (fun dep hdep s => htwins.modest.out dep s (hdeps dep hdep))
        (fun dep hdep s => htwins.modest'.out dep s (hdeps dep hdep)) hrun hlast
    · obtain ⟨hpatience, hspares⟩ := htime hquiet
      obtain ⟨hinst, htimeouts⟩ :=
        htwins.opened hnext.prev (hview hrel hnow).2.2 hround hspares
      refine keeps_of_loud hguides hquiet hnext.mem hparams hrel hinst htimeouts hpatience ?_ hrun
        hlast
      intro dep _ s s' hs hs'
      obtain ⟨hfollows, hfollows', hstates⟩ := hview hs hs'
      exact htwins.output hfollows hfollows' hstates dep
  cases hrun' : interpret host g'.params g'.round g'.heap g'.statess[e.prev]? g' e with
  | error halt =>
    have hstop := hkeeps.of_error hrun'
    apply ensures_process
    rw [hrun']
    exact hstop
  | ok r =>
    obtain ⟨last', mem'⟩ := r
    have hkept' := hkeeps.of_ok hrun'
    have hprocess' : g'.process e = .ok (last'.store e.block mem') := by
      rw [process, hrun']
      rfl
    rw [hprocess']
    obtain ⟨hfollows, hfollows', -⟩ := hview hkept'.1 hlast
    exact ⟨htwins.store howned howned' hprev hfollows hfollows' hprocess hprocess' hkept',
      last, mem, last', mem', rfl, rfl, hkept'.1, hlast⟩

/-- Registering an own block touches no state. -/
theorem Twins.register (h : Twins R quiet es seen g g') (bg : BlockGraph) :
    Twins R quiet es seen (g.register bg) (g'.register bg) := by
  rw [register_eq g, register_eq g']
  exact ⟨⟨h.modest.out, h.modest.within⟩, ⟨h.modest'.out, h.modest'.within⟩, h.out, h.inst,
    h.timeoutsAt⟩

end Graph

end Blockmania
