import Mathlib.Data.List.Infix

/-! # Codes whose words can be told apart inside a longer text

A list of code words followed by anything falls apart in one way only, as
soon as that is so for each of its words.

For a word that a writer did not get right the question is how far a reader
strays that looks for a second word. `Drifts` says that it never falls behind
the writer, and that it catches up only by reading what was written.
-/

namespace CcCommon.Lib.PrefixCode

set_option autoImplicit false

variable {α β γ : Type}

/-- Two lists of equal length are told apart if their members are. -/
theorem flatMap_append_inj {enc : α → List β} {f : α → γ} (xs ys : List α)
    (h : ∀ x ∈ xs, ∀ y ∈ ys, ∀ r s, enc x ++ r = enc y ++ s → f x = f y ∧ r = s)
    {r s : List β} (hLength : xs.length = ys.length)
    (hEq : xs.flatMap enc ++ r = ys.flatMap enc ++ s) : xs.map f = ys.map f ∧ r = s := by
  induction xs generalizing ys with
  | nil =>
    rw [List.length_eq_zero_iff.mp hLength.symm] at hEq ⊢
    exact ⟨rfl, hEq⟩
  | cons x xs ih =>
    cases ys with
    | nil => cases hLength
    | cons y ys =>
      simp only [List.flatMap_cons, List.append_assoc] at hEq
      obtain ⟨hHead, hTail⟩ := h x List.mem_cons_self y List.mem_cons_self _ _ hEq
      obtain ⟨hMap, hRest⟩ := ih ys
        (fun x hx y hy => h x (List.mem_cons_of_mem _ hx) y (List.mem_cons_of_mem _ hy))
        (Nat.succ.inj hLength) hTail
      exact ⟨by rw [List.map_cons, List.map_cons, hHead, hMap], hRest⟩

/-! ## Readers that stray -/

/-- Looking for `d` in a text that starts with `e`, a reader that is `t` ahead of the writer stays
ahead, unless it was in step and `d` is `e`. That happens only if `good`. -/
def Drifts (good : Prop) (e d : List β) : Prop :=
  ∀ t x y, e ++ x = t ++ (d ++ y) →
    e.length < t.length + d.length ∨ (t = [] ∧ d = e ∧ good)

namespace Drifts

variable {p q : Prop} {e e' d d' : List β}

theorem imp (h : Drifts p e d) (hpq : p → q) : Drifts q e d := by
  intro t x y hEq
  rcases h t x y hEq with hAhead | ⟨hStep, hSame, hp⟩
  · exact Or.inl hAhead
  · exact Or.inr ⟨hStep, hSame, hpq hp⟩

theorem of_le (hLength : e.length ≤ d.length) (hp : d = e → p) : Drifts p e d := by
  intro t x y hEq
  cases t with
  | nil =>
    rcases Nat.lt_or_eq_of_le hLength with hLess | hSame
    · exact Or.inl (by simpa using hLess)
    · rw [List.nil_append] at hEq
      have hWord := (List.append_inj hEq hSame).1.symm
      exact Or.inr ⟨rfl, hWord, hp hWord⟩
  | cons a t =>
    left
    rw [List.length_cons]
    omega

theorem of_absent (h : ∀ t u, e ≠ t ++ (d ++ u)) : Drifts p e d := by
  intro t x y hEq
  left
  by_contra hBehind
  rw [← List.append_assoc] at hEq
  have hPrefix : t ++ d <+: e := by
    apply List.prefix_of_prefix_length_le (List.prefix_append (t ++ d) y)
    · rw [← hEq]
      exact List.prefix_append e x
    · rw [List.length_append]
      omega
  obtain ⟨u, hu⟩ := hPrefix
  exact h t u (by rw [← List.append_assoc, hu])

theorem append (h : Drifts p e d) (h' : Drifts q e' d') : Drifts (p ∧ q) (e ++ e') (d ++ d') := by
  intro t x y hEq
  have hEq : e ++ (e' ++ x) = t ++ (d ++ (d' ++ y)) := by simpa using hEq
  rw [List.length_append, List.length_append]
  rcases h t (e' ++ x) (d' ++ y) hEq with hAhead | ⟨rfl, rfl, hp⟩
  · have hPrefix : e <+: t ++ d := by
      apply List.prefix_of_prefix_length_le (List.prefix_append e (e' ++ x))
      · rw [hEq, ← List.append_assoc]
        exact List.prefix_append (t ++ d) (d' ++ y)
      · rw [List.length_append]
        omega
    obtain ⟨u, hu⟩ := hPrefix
    have hTotal := congrArg List.length hu
    rw [← List.append_assoc t, ← hu, List.append_assoc] at hEq
    rw [List.length_append, List.length_append] at hTotal
    rcases h' u x y (List.append_cancel_left hEq) with hAhead' | ⟨rfl, _, _⟩
    · left
      omega
    · left
      rw [List.length_nil] at hTotal
      omega
  · rcases h' [] x y (List.append_cancel_left hEq) with hAhead' | ⟨_, rfl, hq⟩
    · left
      rw [List.length_nil] at hAhead' ⊢
      omega
    · exact Or.inr ⟨rfl, rfl, hp, hq⟩

end Drifts

end CcCommon.Lib.PrefixCode
