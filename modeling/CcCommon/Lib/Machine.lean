import Mathlib.Data.List.Infix

/-! # Machines that take one action after the other

An action that cannot be taken in a state has no successor there. A property
of a run is a property of every state that the run goes through, so it is
stated over the prefixes of the run.
-/

namespace CcCommon.Lib

set_option autoImplicit false

universe u v

structure Machine (σ : Type u) (α : Type v) where
  init : σ → Prop
  step : σ → α → Option σ

namespace Machine

variable {σ : Type u} {α : Type v} (M : Machine σ α)

def run (s : σ) : List α → Option σ
  | [] => some s
  | a :: as =>
    match M.step s a with
    | some s' => run s' as
    | none => none

def Reachable (s : σ) : Prop := ∃ s₀ as, M.init s₀ ∧ M.run s₀ as = some s

/-- A run that has come to `s` can go on to `t`. -/
def Leads (s t : σ) : Prop := ∃ as, M.run s as = some t

/-- Every state of the run satisfies `P`. -/
def Throughout (P : σ → Prop) (s : σ) (as : List α) : Prop :=
  ∀ done, done <+: as → ∀ t, M.run s done = some t → P t

/-- Every action of the run satisfies `C` in the state in which it is taken. -/
def EachStep (C : σ → α → Prop) (s : σ) (as : List α) : Prop :=
  ∀ done a, done ++ [a] <+: as → ∀ t, M.run s done = some t → C t a

variable {M} {s t : σ} {a : α} {as bs : List α}

theorem run_cons {s' : σ} (h : M.step s a = some s') : M.run s (a :: as) = M.run s' as := by
  simp only [run, h]

theorem run_append : M.run s (as ++ bs) = (M.run s as).bind fun t => M.run t bs := by
  induction as generalizing s with
  | nil => rfl
  | cons a as ih =>
    simp only [List.cons_append, run]
    cases M.step s a with
    | none => rfl
    | some s' => exact ih

theorem run_concat : M.run s (as ++ [a]) = (M.run s as).bind fun t => M.step t a := by
  rw [run_append]
  congr 1
  funext t
  simp only [run]
  cases M.step t a <;> rfl

theorem run_concat_some (h : M.run s (as ++ [a]) = some t) :
    ∃ u, M.run s as = some u ∧ M.step u a = some t := by
  rw [run_concat] at h
  exact Option.bind_eq_some_iff.mp h

theorem run_singleton : M.run s [a] = M.step s a := by
  simp only [run]
  cases M.step s a <;> rfl

/-- A run goes through every part of it. -/
theorem run_prefix (h : M.run s as = some t) (hPre : bs <+: as) : ∃ u, M.run s bs = some u := by
  obtain ⟨rest, rfl⟩ := hPre
  rw [run_append] at h
  obtain ⟨u, hu, -⟩ := Option.bind_eq_some_iff.mp h
  exact ⟨u, hu⟩

theorem run_trans (h : M.run s as = some t) : M.run s (as ++ bs) = M.run t bs := by
  rw [run_append, h]
  rfl

namespace Reachable

theorem start (h : M.init s) : M.Reachable s := ⟨s, [], h, rfl⟩

theorem run (h : M.Reachable s) (hRun : M.run s as = some t) : M.Reachable t := by
  obtain ⟨s₀, bs, hInit, hBs⟩ := h
  exact ⟨s₀, bs ++ as, hInit, (run_trans hBs).trans hRun⟩

theorem step (h : M.Reachable s) (hStep : M.step s a = some t) : M.Reachable t := by
  have hRun : M.run s [a] = some t := by
    rw [run_cons hStep]
    rfl
  exact h.run hRun

end Reachable

namespace Leads

variable {u : σ}

theorem refl (s : σ) : M.Leads s s := ⟨[], rfl⟩

theorem trans (h : M.Leads s t) (hNext : M.Leads t u) : M.Leads s u := by
  obtain ⟨as, hAs⟩ := h
  obtain ⟨bs, hBs⟩ := hNext
  exact ⟨as ++ bs, (run_trans hAs).trans hBs⟩

theorem head (hStep : M.step s a = some t) (h : M.Leads t u) : M.Leads s u := by
  obtain ⟨as, hAs⟩ := h
  exact ⟨a :: as, (run_cons hStep).trans hAs⟩

theorem single (hStep : M.step s a = some t) : M.Leads s t := head hStep (refl t)

theorem exists_head {P : σ → Prop} (hStep : M.step s a = some t) (h : ∃ u, M.Leads t u ∧ P u) :
    ∃ u, M.Leads s u ∧ P u := by
  obtain ⟨u, hLeads, hP⟩ := h
  exact ⟨u, head hStep hLeads, hP⟩

theorem exists_trans {P : σ → Prop} (hLeads : M.Leads s t) (h : ∃ u, M.Leads t u ∧ P u) :
    ∃ u, M.Leads s u ∧ P u := by
  obtain ⟨u, hNext, hP⟩ := h
  exact ⟨u, hLeads.trans hNext, hP⟩

end Leads

/-- If every step makes a measure smaller, a run comes to a state that has no step. -/
theorem exists_stuck {μ : σ → Nat} (hLess : ∀ s a t, M.step s a = some t → μ t < μ s) (s : σ) :
    ∃ t, M.Leads s t ∧ ∀ a, M.step t a = none := by
  induction hμ : μ s using Nat.strong_induction_on generalizing s with
  | _ n ih =>
    by_cases hStuck : ∀ a, M.step s a = none
    · exact ⟨s, .refl s, hStuck⟩
    · push Not at hStuck
      obtain ⟨a, ha⟩ := hStuck
      obtain ⟨t, hStep⟩ := Option.ne_none_iff_exists'.mp ha
      exact Leads.exists_head hStep (ih (μ t) (hμ ▸ hLess s a t hStep) t rfl)

/-! ## What one step preserves, a run preserves -/

theorem run_induct {I : σ → Prop} (hStep : ∀ u a u', I u → M.step u a = some u' → I u')
    (hStart : I s) (hRun : M.run s as = some t) : I t := by
  induction as using List.reverseRecOn generalizing t with
  | nil =>
    cases hRun
    exact hStart
  | append_singleton as a ih =>
    obtain ⟨u, hu, hLast⟩ := run_concat_some hRun
    exact hStep u a t (ih hu) hLast

theorem Reachable.induct {I : σ → Prop} (hInit : ∀ s, M.init s → I s)
    (hStep : ∀ u a u', I u → M.step u a = some u' → I u') (h : M.Reachable s) : I s := by
  obtain ⟨s₀, as, hStart, hRun⟩ := h
  exact run_induct hStep (hInit s₀ hStart) hRun

/-! ## Counting steps -/

/-- If every step does not make a measure larger, and those of a kind make it smaller, then a run
has no more steps of that kind than the measure was at its start. -/
theorem countP_le {I : σ → Prop} {kind : α → Bool} (μ : σ → Nat)
    (hStep : ∀ u a u', I u → M.step u a = some u' →
      I u' ∧ μ u' + (if kind a = true then 1 else 0) ≤ μ u)
    (hStart : I s) (hRun : M.run s as = some t) : as.countP kind + μ t ≤ μ s := by
  have hBoth : I t ∧ as.countP kind + μ t ≤ μ s := by
    induction as using List.reverseRecOn generalizing t with
    | nil =>
      cases hRun
      exact ⟨hStart, (Nat.zero_add _).le⟩
    | append_singleton as a ih =>
      obtain ⟨u, hu, hLast⟩ := run_concat_some hRun
      obtain ⟨hI, hCount⟩ := ih hu
      obtain ⟨hI', hLess⟩ := hStep u a t hI hLast
      refine ⟨hI', ?_⟩
      rw [List.countP_append, List.countP_singleton]
      omega
  exact hBoth.2

/-- If each action brings its own count down by one and leaves the other counts alone, then a run
has as many steps of an action as its count has come down. -/
theorem count_add [BEq α] [LawfulBEq α] {I : σ → Prop} (μ : σ → α → Nat)
    (hStep : ∀ u a u', I u → M.step u a = some u' →
      I u' ∧ μ u' a + 1 = μ u a ∧ ∀ b, b ≠ a → μ u' b = μ u b)
    (hStart : I s) (hRun : M.run s as = some t) (b : α) : as.count b + μ t b = μ s b := by
  have hBoth : I t ∧ as.count b + μ t b = μ s b := by
    induction as using List.reverseRecOn generalizing t with
    | nil =>
      cases hRun
      exact ⟨hStart, Nat.zero_add _⟩
    | append_singleton as a ih =>
      obtain ⟨u, hu, hLast⟩ := run_concat_some hRun
      obtain ⟨hI, hCount⟩ := ih hu
      obtain ⟨hI', hHere, hElse⟩ := hStep u a t hI hLast
      refine ⟨hI', ?_⟩
      rw [List.count_append]
      by_cases hb : b = a
      · rw [hb, List.count_singleton_self]
        rw [hb] at hCount
        omega
      · have hNone : [a].count b = 0 := List.count_eq_zero.mpr (by simpa using hb)
        rw [hNone, hElse b hb]
        exact hCount
  exact hBoth.2

/-! ## Runs whose every step meets a condition -/

variable {I P : σ → Prop} {C : σ → α → Prop}

theorem Throughout.concat_iff : M.Throughout P s (as ++ [a]) ↔
    M.Throughout P s as ∧ ∀ t, M.run s (as ++ [a]) = some t → P t := by
  constructor
  · intro h
    exact ⟨fun done hDone => h done (hDone.trans (List.prefix_append as [a])),
      h _ (List.prefix_refl _)⟩
  · rintro ⟨hBefore, hLast⟩ done hDone
    rcases List.prefix_concat_iff.mp hDone with rfl | hDone
    · exact hLast
    · exact hBefore done hDone

theorem EachStep.concat_iff : M.EachStep C s (as ++ [a]) ↔
    M.EachStep C s as ∧ ∀ t, M.run s as = some t → C t a := by
  constructor
  · intro h
    exact ⟨fun done b hDone => h done b (hDone.trans (List.prefix_append as [a])),
      h as a (List.prefix_refl _)⟩
  · rintro ⟨hBefore, hLast⟩ done b hDone
    rcases List.prefix_concat_iff.mp hDone with hEq | hDone
    · obtain ⟨rfl, rfl⟩ := List.append_singleton_inj.mp hEq
      exact hLast
    · exact hBefore done b hDone

theorem EachStep.congr {D : σ → α → Prop}
    (h : ∀ done t, M.run s done = some t → ∀ a, C t a ↔ D t a) :
    M.EachStep C s as ↔ M.EachStep D s as := by
  constructor
  · intro hEach done a hDone t ht
    exact (h done t ht a).mp (hEach done a hDone t ht)
  · intro hEach done a hDone t ht
    exact (h done t ht a).mpr (hEach done a hDone t ht)

theorem EachStep.nil : M.EachStep C s [] := by
  intro done a hDone
  exact absurd (List.prefix_nil.mp hDone) (by simp)

theorem EachStep.cons_iff : M.EachStep C s (a :: as) ↔
    C s a ∧ ∀ s' ∈ M.step s a, M.EachStep C s' as := by
  constructor
  · intro h
    refine ⟨h [] a (by simp) s rfl, ?_⟩
    intro s' hStep done b hDone t ht
    apply h (a :: done) b (by simpa using hDone) t
    rw [run_cons hStep]
    exact ht
  · rintro ⟨hFirst, hRest⟩ done b hDone t ht
    cases done with
    | nil =>
      obtain ⟨rfl, -⟩ := List.cons_prefix_cons.mp hDone
      cases ht
      exact hFirst
    | cons b' done =>
      obtain ⟨rfl, hTail⟩ := List.cons_prefix_cons.mp hDone
      obtain ⟨s', hStep, hRun⟩ : ∃ s', M.step s b' = some s' ∧ M.run s' done = some t := by
        simp only [run] at ht
        cases hStep : M.step s b' with
        | none =>
          rw [hStep] at ht
          cases ht
        | some s' =>
          rw [hStep] at ht
          exact ⟨s', rfl, ht⟩
      exact hRest s' hStep done b hTail t hRun

theorem exists_step {u : σ} {done : List α} {a : α} (hRun : M.run s as = some t)
    (hDone : done ++ [a] <+: as) (hu : M.run s done = some u) : ∃ v, M.step u a = some v := by
  obtain ⟨v, hv⟩ := run_prefix hRun hDone
  obtain ⟨u', hu', hStep⟩ := run_concat_some hv
  rw [hu] at hu'
  cases hu'
  exact ⟨v, hStep⟩

instance EachStep.decidable [∀ s a, Decidable (C s a)] : ∀ s as, Decidable (M.EachStep C s as)
  | _, [] => isTrue nil
  | s, a :: as =>
    have := fun s' => EachStep.decidable s' as
    decidable_of_iff (C s a ∧ ∀ s' ∈ M.step s a, M.EachStep C s' as) cons_iff.symm

theorem Throughout.last (h : M.Throughout P s as) (hRun : M.run s as = some t) : P t :=
  h as (List.prefix_refl _) t hRun

/-- The invariant of the runs in which every step meets the condition. -/
theorem EachStep.induct (hStep : ∀ u a u', I u → C u a → M.step u a = some u' → I u')
    (hStart : I s) (h : M.EachStep C s as) (hRun : M.run s as = some t) : I t := by
  induction as using List.reverseRecOn generalizing t with
  | nil =>
    cases hRun
    exact hStart
  | append_singleton as a ih =>
    obtain ⟨hBefore, hLast⟩ := EachStep.concat_iff.mp h
    obtain ⟨u, hu, hTaken⟩ := run_concat_some hRun
    exact hStep u a t (ih hBefore hu) (hLast u hu) hTaken

theorem EachStep.throughout (hStep : ∀ u a u', I u → C u a → M.step u a = some u' → I u')
    (hStart : I s) (h : M.EachStep C s as) : M.Throughout I s as := by
  intro done hDone t hRun
  have hPart : M.EachStep C s done := fun pre b hPre => h pre b (hPre.trans hDone)
  exact hPart.induct hStep hStart hRun

/-- If the condition is what a step needs to keep `P`, then `P` holds throughout exactly the runs
that meet it. -/
theorem throughout_iff_eachStep
    (hStep : ∀ u a u', I u → P u → M.step u a = some u' → (C u a ↔ P u') ∧ (C u a → I u'))
    (hStart : I s ∧ P s) (hRun : M.run s as = some t) :
    M.Throughout P s as ↔ M.EachStep C s as := by
  constructor
  · intro h
    suffices hBoth : M.EachStep C s as ∧ I t from hBoth.1
    induction as using List.reverseRecOn generalizing t with
    | nil =>
      cases hRun
      refine ⟨?_, hStart.1⟩
      intro done a hDone
      cases done <;> simp at hDone
    | append_singleton as a ih =>
      obtain ⟨hBefore, hLast⟩ := Throughout.concat_iff.mp h
      obtain ⟨u, hu, hTaken⟩ := run_concat_some hRun
      obtain ⟨hConds, hInv⟩ := ih hu hBefore
      obtain ⟨hIff, hKeep⟩ := hStep u a t hInv (hBefore.last hu) hTaken
      have hMet := hIff.mpr (hLast t hRun)
      refine ⟨EachStep.concat_iff.mpr ⟨hConds, ?_⟩, hKeep hMet⟩
      intro u' hu'
      rw [hu] at hu'
      cases hu'
      exact hMet
  · intro h
    have hBoth : M.Throughout (fun u => I u ∧ P u) s as := by
      refine EachStep.throughout (I := fun u => I u ∧ P u) ?_ hStart h
      rintro u b u' ⟨hI, hP⟩ hC hTaken
      obtain ⟨hIff, hKeep⟩ := hStep u b u' hI hP hTaken
      exact ⟨hKeep hC, hIff.mp hC⟩
    exact fun done hDone u hu => (hBoth done hDone u hu).2

/-! ## A machine seen as another -/

section Refines

variable {τ : Type u} {β : Type v} {N : Machine τ β} {f : σ → τ}

/-- Through `f`, what `M` does in one step is what `N` can do in some steps. -/
structure Refines (M : Machine σ α) (N : Machine τ β) (f : σ → τ) : Prop where
  init : ∀ s, M.init s → N.init (f s)
  step : ∀ s a s', M.step s a = some s' → N.Leads (f s) (f s')

theorem Refines.leads (h : M.Refines N f) (hLeads : M.Leads s t) : N.Leads (f s) (f t) := by
  obtain ⟨as, hAs⟩ := hLeads
  exact run_induct (I := fun u => N.Leads (f s) (f u))
    (fun u a u' hu hStep => hu.trans (h.step u a u' hStep)) (.refl _) hAs

theorem Refines.reachable (h : M.Refines N f) (hReach : M.Reachable s) : N.Reachable (f s) := by
  obtain ⟨s₀, as, hInit, hAs⟩ := hReach
  obtain ⟨bs, hBs⟩ := h.leads ⟨as, hAs⟩
  exact ⟨f s₀, bs, h.init s₀ hInit, hBs⟩

end Refines

end Machine

end CcCommon.Lib
