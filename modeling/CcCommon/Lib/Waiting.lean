import Mathlib.Data.Set.Finite.Lattice
import Mathlib.Order.Preorder.Finite

/-! # Waiting for what others hold

Processes wait for resources that other processes hold. Where each of them
waits only for a resource above all those it holds, the process that waits for
the largest one waits for nobody who waits.
-/

namespace CcCommon.Lib.Waiting

set_option autoImplicit false

universe u v

variable {ι : Type u} {κ : Type v} [LinearOrder κ]

/-- What a process holds lies below what it waits for. -/
def Ascending (holds : ι → κ → Prop) (wants : ι → Option κ) : Prop :=
  ∀ i k, holds i k → ∀ k', wants i = some k' → k < k'

/-- Some process waits for nothing, or for something nobody holds. -/
theorem Ascending.exists_free [Finite ι] {holds : ι → κ → Prop} {wants : ι → Option κ}
    (h : Ascending holds wants) {live : ι → Prop} (hLive : ∀ i k, holds i k → live i)
    (hSome : ∃ i, live i) :
    ∃ i, live i ∧ ∀ k, wants i = some k → ∀ j, ¬ holds j k := by
  by_cases hAll : ∀ i, live i → ∃ k, wants i = some k
  · obtain ⟨i₀, hi₀⟩ := hSome
    have hFinite : {k | ∃ i, live i ∧ wants i = some k}.Finite := by
      apply (Set.finite_range fun i => (wants i).getD ((wants i₀).get
        (Option.isSome_iff_exists.mpr (hAll i₀ hi₀)))).subset
      rintro k ⟨i, _, hk⟩
      exact ⟨i, by simp [hk]⟩
    obtain ⟨k₀, hk₀⟩ := hAll i₀ hi₀
    obtain ⟨k, ⟨i, hi, hk⟩, hMax⟩ :=
      hFinite.exists_maximal ⟨k₀, i₀, hi₀, hk₀⟩
    refine ⟨i, hi, ?_⟩
    intro k' hk' j hHeld
    obtain rfl : k = k' := Option.some.inj (hk.symm.trans hk')
    -- the holder waits for something larger still
    obtain ⟨m, hm⟩ := hAll j (hLive j k hHeld)
    have hLess := h j k hHeld m hm
    exact absurd (hMax ⟨j, hLive j k hHeld, hm⟩ hLess.le) (not_le.mpr hLess)
  · push Not at hAll
    obtain ⟨i, hi, hNone⟩ := hAll
    exact ⟨i, hi, fun k hk => absurd hk (hNone k)⟩

end CcCommon.Lib.Waiting
