/-
# Supported sets

Things need other things. A set is supported if everything that a member needs is
given or a member, too. Supported sets can be united, so there is a largest one.
If nothing needs itself, not even indirectly, a supported set is the largest one as
soon as everything outside lacks something: a larger set would lead from one missing
thing to the next without end.
-/

import Mathlib.Order.WellFoundedSet
import Mathlib.Logic.Relation

namespace Blockmania.Math

variable {α : Type} {given known s : Set α} {needs : α → α → Prop}

/-- Members are known and not given, and need what is given or members only. -/
def Supported (given known : Set α) (needs : α → α → Prop) (s : Set α) : Prop :=
  ∀ x ∈ s, x ∈ known ∧ x ∉ given ∧ ∀ y, needs x y → y ∈ given ∨ y ∈ s

/-- The rule for the largest supported set. -/
theorem isGreatest_of_lacking (hfinite : known.Finite)
    (hacyclic : ∀ x, ¬ Relation.TransGen needs x x) (hs : Supported given known needs s)
    (hlacking : ∀ x ∈ known, x ∉ given → x ∉ s → ∃ y, needs x y ∧ y ∉ given ∧ y ∉ s) :
    IsGreatest {t | Supported given known needs t} s := by
  refine ⟨hs, fun t ht x hx => by_contra fun hxs => ?_⟩
  let needed : α → α → Prop := fun y x => Relation.TransGen needs x y
  have : IsStrictOrder α needed :=
    { irrefl := hacyclic, trans := fun a b c hab hbc => hbc.trans hab }
  have hsub : t \ s ⊆ known := fun y hy => (ht y hy.1).1
  have hwell : (t \ s).WellFoundedOn needed := (hfinite.subset hsub).wellFoundedOn
  refine hwell.induction (P := fun _ => False) ⟨hx, hxs⟩ fun y hy ih => ?_
  obtain ⟨hknown, hgiven, hneeds⟩ := ht y hy.1
  obtain ⟨z, hyz, hz, hzs⟩ := hlacking y hknown hgiven hy.2
  exact ih z ⟨(hneeds z hyz).resolve_left hz, hzs⟩ (.single hyz)

end Blockmania.Math
