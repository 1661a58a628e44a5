import Mathlib.Algebra.BigOperators.Group.Finset.Basic
import Mathlib.Algebra.BigOperators.Ring.Finset
import Mathlib.Logic.Function.Basic

/-! # Counting the members of a family that have a property

One member moves at a time, so the count changes by what that member
contributes before and after.
-/

namespace CcCommon.Lib.Count

set_option autoImplicit false

universe u v

variable {ι : Type u} {β : Type v}

/-- The members of `s` whose value has the property `p`. -/
def count (s : Finset ι) (p : β → Prop) [DecidablePred p] (f : ι → β) : Int :=
  (s.filter fun i => p (f i)).card

/-- What one value contributes. -/
def weight (p : β → Prop) [DecidablePred p] (b : β) : Int := if p b then 1 else 0

variable {s : Finset ι} {p : β → Prop} [DecidablePred p] {f : ι → β}

theorem count_nonneg : 0 ≤ count s p f := Int.natCast_nonneg _

theorem count_eq_sum : count s p f = ∑ i ∈ s, weight p (f i) := by
  rw [count, Finset.card_filter]
  push_cast
  rfl

theorem count_update [DecidableEq ι] {c : ι} (hc : c ∈ s) (b : β) :
    count s p (Function.update f c b) = count s p f + (weight p b - weight p (f c)) := by
  rw [count_eq_sum, count_eq_sum, ← Finset.add_sum_erase s _ hc, ← Finset.add_sum_erase s _ hc,
    Function.update_self]
  have hOthers : ∑ i ∈ s.erase c, weight p (Function.update f c b i) =
      ∑ i ∈ s.erase c, weight p (f i) := by
    apply Finset.sum_congr rfl
    intro i hi
    rw [Function.update_of_ne (Finset.ne_of_mem_erase hi)]
  rw [hOthers]
  omega

theorem count_eq_zero (h : ∀ i ∈ s, ¬ p (f i)) : count s p f = 0 := by
  rw [count, Finset.filter_false_of_mem h]
  rfl

theorem count_eq_card (h : ∀ i ∈ s, p (f i)) : count s p f = s.card := by
  rw [count, Finset.filter_true_of_mem h]

theorem count_le_card : count s p f ≤ s.card := by
  rw [count]
  exact_mod_cast Finset.card_filter_le s _

theorem weight_same {b b' : β} (h : p b ↔ p b') : weight p b - weight p b' = 0 := by
  simp only [weight, h, Int.sub_self]

theorem weight_of {b : β} (h : p b) : weight p b = 1 := if_pos h

theorem weight_of_not {b : β} (h : ¬ p b) : weight p b = 0 := if_neg h

end CcCommon.Lib.Count
