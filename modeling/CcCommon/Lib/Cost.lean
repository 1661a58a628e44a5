import CcCommon.Lib.Machine

/-! # What a run costs

A step costs what its two states say. The rules here are those of the potential
method.
-/

namespace CcCommon.Lib.Machine

set_option autoImplicit false

universe u v

variable {σ : Type u} {α : Type v} (M : Machine σ α) (c : σ → σ → Nat)

def cost (s : σ) : List α → Nat
  | [] => 0
  | a :: as =>
    match M.step s a with
    | some s' => c s s' + cost s' as
    | none => 0

variable {M c} {s t u : σ} {a : α} {as bs : List α}

theorem cost_cons (h : M.step s a = some t) : M.cost c s (a :: as) = c s t + M.cost c t as := by
  simp only [cost, h]

theorem cost_append (h : M.run s as = some t) :
    M.cost c s (as ++ bs) = M.cost c s as + M.cost c t bs := by
  induction as generalizing s with
  | nil =>
    cases h
    exact (Nat.zero_add _).symm
  | cons a as ih =>
    simp only [run] at h
    split at h
    · rename_i s' hStep
      rw [List.cons_append, cost_cons hStep, cost_cons hStep, ih h, Nat.add_assoc]
    · cases h

theorem cost_concat (hRun : M.run s as = some u) (hStep : M.step u a = some t) :
    M.cost c s (as ++ [a]) = M.cost c s as + c u t := by
  rw [cost_append hRun, cost_cons hStep]
  rfl

/-- What each step preserves of the cost so far and the state, a run preserves. -/
theorem cost_induct {P : Nat → σ → Prop}
    (hStep : ∀ n u a u', P n u → M.step u a = some u' → P (n + c u u') u') (hStart : P 0 s)
    (hRun : M.run s as = some t) : P (M.cost c s as) t := by
  induction as using List.reverseRecOn generalizing t with
  | nil =>
    cases hRun
    exact hStart
  | append_singleton as a ih =>
    obtain ⟨u, hu, hLast⟩ := run_concat_some hRun
    rw [cost_concat hu hLast]
    exact hStep _ u a t (ih hu) hLast

/-- A run costs no more than a potential that pays for every step has risen. -/
theorem cost_le {I : σ → Prop} (Φ : σ → Nat)
    (hStep : ∀ u a u', I u → M.step u a = some u' → I u' ∧ c u u' + Φ u ≤ Φ u') (hStart : I s)
    (hRun : M.run s as = some t) : M.cost c s as + Φ s ≤ Φ t := by
  have hBoth : I t ∧ M.cost c s as + Φ s ≤ Φ t := by
    refine cost_induct (P := fun n u => I u ∧ n + Φ s ≤ Φ u) ?_ ⟨hStart, (Nat.zero_add _).le⟩ hRun
    rintro n u a u' ⟨hI, hPaid⟩ hTaken
    obtain ⟨hI', hPays⟩ := hStep u a u' hI hTaken
    exact ⟨hI', by omega⟩
  exact hBoth.2

end CcCommon.Lib.Machine
