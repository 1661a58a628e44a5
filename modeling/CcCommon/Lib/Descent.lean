import Mathlib.Data.List.Basic

/-! # Recursive descent driven by one step function

A descent reads a tree from a mutable state. The scheme says what a single
call does before it recurses: it either finishes a leaf, or opens a branch
with a number of children that are read one after the other into blank
nodes. A child that fails stops the loop it was started from. The loop
counter is a bounded machine integer: the run has no meaning past `limit`.

Fuel bounds the nesting of calls, so a run that does not return halts at
every fuel, in the state it had reached.
-/

namespace CcCommon.Lib.Descent

set_option autoImplicit false

/-- What one call does before it recurses. -/
inductive Step (σ ν : Type) where
  | leaf (s : σ) (v : ν)
  | branch (s : σ) (count limit : Nat) (close : List ν → ν)

/-- A run that returned, or one that was cut short in the given state. -/
inductive Outcome (σ α : Type) where
  | done (s : σ) (a : α)
  | halt (s : σ)

def Step.state {σ ν : Type} : Step σ ν → σ
  | .leaf s _ => s
  | .branch s _ _ _ => s

def Outcome.state {σ α : Type} : Outcome σ α → σ
  | .done s _ => s
  | .halt s => s

structure Scheme (σ ν : Type) where
  head : σ → ν → Step σ ν
  failed : σ → Bool
  leave : σ → σ → σ
  blank : ν

variable {σ ν : Type} (D : Scheme σ ν)

mutual
def node : Nat → σ → ν → Outcome σ ν
  | 0, s, _ => .halt s
  | f + 1, s, v =>
    match D.head s v with
    | .leaf s' v' => .done (D.leave s s') v'
    | .branch s' count limit close =>
      match kids f s' count limit 0 [] with
      | .done s'' vs => .done (D.leave s s'') (close vs)
      | .halt s'' => .halt s''

def kids : Nat → σ → Nat → Nat → Nat → List ν → Outcome σ (List ν)
  | 0, s, _, _, _, _ => .halt s
  | f + 1, s, count, limit, i, acc =>
    if i < count then
      match node f s D.blank with
      | .halt s' => .halt s'
      | .done s' c =>
        if D.failed s' then .done s' (acc ++ [c])
        else if i + 1 = limit then .halt s'
        else kids f s' count limit (i + 1) (acc ++ [c])
    else .done s acc
end

variable {D}

theorem node_leaf {s s' : σ} {v v' : ν} (h : D.head s v = .leaf s' v') (f : Nat) :
    node D (f + 1) s v = .done (D.leave s s') v' := by
  simp only [node, h]

theorem node_branch {s s' : σ} {v : ν} {count limit : Nat} {close : List ν → ν}
    (h : D.head s v = .branch s' count limit close) (f : Nat) :
    node D (f + 1) s v = match kids D f s' count limit 0 [] with
      | .done s'' vs => .done (D.leave s s'') (close vs)
      | .halt s'' => .halt s'' := by
  simp only [node, h]

/-! ## Soundness of a scheme

`I` holds where a call is entered and `J` wherever a run may stop. `R`
relates the ends of a call that returned, `S` the ends of a loop. -/

structure Sound (D : Scheme σ ν) (I J : σ → Prop) (R : σ → ν → σ → ν → Prop)
    (S : σ → σ → List ν → Prop) : Prop where
  enter : ∀ s, I s → J s
  leaf : ∀ s v s' v', I s → D.head s v = .leaf s' v' →
    R s v (D.leave s s') v' ∧ J (D.leave s s')
  branch : ∀ s v s' n l c, I s → D.head s v = .branch s' n l c → I s'
  none : ∀ s, I s → S s s []
  snoc : ∀ s s₁ s₂ vs v, S s s₁ vs → R s₁ D.blank s₂ v → S s s₂ (vs ++ [v])
  next : ∀ s, J s → D.failed s = false → I s
  close : ∀ s v s₁ n l c s₂ vs, I s → D.head s v = .branch s₁ n l c → S s₁ s₂ vs → J s₂ →
    (vs.length = n ∨ D.failed s₂ = true) →
    R s v (D.leave s s₂) (c vs) ∧ J (D.leave s s₂)

section Soundness

variable {I J : σ → Prop} {R : σ → ν → σ → ν → Prop} {S : σ → σ → List ν → Prop}

mutual
theorem Sound.node_spec (h : Sound D I J R S) (f : Nat) (s : σ) (v : ν) (hI : I s) :
    J (node D f s v).state ∧ ∀ s' v', node D f s v = .done s' v' → R s v s' v' := by
  cases f with
  | zero => exact ⟨h.enter s hI, fun _ _ hDone => by cases hDone⟩
  | succ f =>
    cases hHead : D.head s v with
    | leaf s' v' =>
      rw [node_leaf hHead]
      have hLeaf := h.leaf s v s' v' hI hHead
      exact ⟨hLeaf.2, fun _ _ hDone => by cases hDone; exact hLeaf.1⟩
    | branch s₁ n l c =>
      rw [node_branch hHead]
      have hI₁ := h.branch s v s₁ n l c hI hHead
      have hKids := h.kids_spec f s₁ s₁ n l 0 [] hI₁ (h.none s₁ hI₁) rfl (Nat.zero_le n)
      cases hRun : kids D f s₁ n l 0 [] with
      | halt s₂ =>
        rw [hRun] at hKids
        exact ⟨hKids.1, fun _ _ hDone => by cases hDone⟩
      | done s₂ vs =>
        rw [hRun] at hKids
        obtain ⟨hS, hCount⟩ := hKids.2 s₂ vs rfl
        have hClose := h.close s v s₁ n l c s₂ vs hI hHead hS hKids.1 hCount
        exact ⟨hClose.2, fun _ _ hDone => by cases hDone; exact hClose.1⟩

theorem Sound.kids_spec (h : Sound D I J R S) (f : Nat) (s₀ s : σ) (n l i : Nat) (acc : List ν)
    (hI : I s) (hS : S s₀ s acc) (hAcc : acc.length = i) (hi : i ≤ n) :
    J (kids D f s n l i acc).state ∧ ∀ s' vs, kids D f s n l i acc = .done s' vs →
      S s₀ s' vs ∧ (vs.length = n ∨ D.failed s' = true) := by
  cases f with
  | zero => exact ⟨h.enter s hI, fun _ _ hDone => by cases hDone⟩
  | succ f =>
    rw [kids]
    split
    · rename_i hLt
      have hNode := h.node_spec f s D.blank hI
      cases hRun : node D f s D.blank with
      | halt s' =>
        rw [hRun] at hNode
        exact ⟨hNode.1, fun _ _ hDone => by cases hDone⟩
      | done s' c =>
        rw [hRun] at hNode
        have hS' := h.snoc s₀ s s' acc c hS (hNode.2 s' c rfl)
        dsimp only
        split
        · rename_i hFailed
          exact ⟨hNode.1, fun _ _ hDone => by cases hDone; exact ⟨hS', Or.inr hFailed⟩⟩
        · rename_i hOk
          split
          · exact ⟨hNode.1, fun _ _ hDone => by cases hDone⟩
          · have hI' := h.next s' hNode.1 (Bool.eq_false_iff.mpr hOk)
            exact h.kids_spec f s₀ s' n l (i + 1) (acc ++ [c]) hI' hS' (by simp [hAcc]) hLt
    · rename_i hGe
      refine ⟨h.enter s hI, fun _ _ hDone => ?_⟩
      cases hDone
      exact ⟨hS, Or.inl (by omega)⟩
end

end Soundness

/-! ## Runs that ended and runs that were cut short

`I` holds where a call is entered and `E` where one has returned. `K` holds in
a loop, and is told whether another child is to come. -/

/-- `E` holds at the end of a run that returned, `I` where one was cut short. -/
def Outcome.Ends {α : Type} (E I : σ → Prop) : Outcome σ α → Prop
  | .done s _ => E s
  | .halt s => I s

structure Phases (D : Scheme σ ν) (I E : σ → Prop) (K : Bool → σ → Prop) : Prop where
  leaf : ∀ s v s' v', I s → D.head s v = .leaf s' v' → E (D.leave s s')
  branch : ∀ s v s' n l c, I s → D.head s v = .branch s' n l c → K (decide (0 < n)) s'
  live : ∀ s more, K more s → I s
  stop : ∀ s, K false s → E s
  next : ∀ s more, E s → D.failed s = false → K more s
  close : ∀ s s', E s' → E (D.leave s s')

section Phases

variable {I E : σ → Prop} {K : Bool → σ → Prop}

mutual
theorem Phases.node_ends (h : Phases D I E K) (f : Nat) (s : σ) (v : ν) (hI : I s) :
    (node D f s v).Ends E I := by
  cases f with
  | zero => exact hI
  | succ f =>
    cases hHead : D.head s v with
    | leaf s' v' =>
      rw [node_leaf hHead]
      exact h.leaf s v s' v' hI hHead
    | branch s₁ n l c =>
      rw [node_branch hHead]
      have hKids := h.kids_ends f s₁ n l 0 [] (h.branch s v s₁ n l c hI hHead)
      cases hRun : kids D f s₁ n l 0 [] with
      | halt s₂ =>
        rw [hRun] at hKids
        exact hKids
      | done s₂ vs =>
        rw [hRun] at hKids
        exact h.close s s₂ hKids

theorem Phases.kids_ends (h : Phases D I E K) (f : Nat) (s : σ) (n l i : Nat) (acc : List ν)
    (hK : K (decide (i < n)) s) : (kids D f s n l i acc).Ends E I := by
  cases f with
  | zero => exact h.live s _ hK
  | succ f =>
    rw [kids]
    split
    · have hNode := h.node_ends f s D.blank (h.live s _ hK)
      cases hRun : node D f s D.blank with
      | halt s' =>
        rw [hRun] at hNode
        exact hNode
      | done s' c =>
        rw [hRun] at hNode
        have hEnd : E s' := hNode
        dsimp only
        split
        · exact hEnd
        · rename_i hOk
          have hOk := Bool.eq_false_iff.mpr hOk
          split
          · exact h.live s' true (h.next s' true hEnd hOk)
          · exact h.kids_ends f s' n l (i + 1) (acc ++ [c]) (h.next s' _ hEnd hOk)
    · rename_i hNot
      rw [decide_eq_false hNot] at hK
      exact h.stop s hK
end

end Phases

/-! ## Termination

`m` decreases from one call to the next unless the run has failed. `G` is a
condition on the whole run: what it says of a later state holds earlier. -/

structure Decreasing (D : Scheme σ ν) (I G : σ → Prop) (m : σ → Nat) : Prop where
  back_head : ∀ s v, G (D.head s v).state → G s
  back_leave : ∀ s s', G (D.leave s s') → G s'
  failed_leave : ∀ s s', D.failed (D.leave s s') = D.failed s'
  measure_leave : ∀ s s', m (D.leave s s') = m s'
  keep_leave : ∀ s s', I s' → I (D.leave s s')
  leaf : ∀ s v s' v', I s → D.head s v = .leaf s' v' → G s' → D.failed s' = false →
    I s' ∧ m s' < m s
  branch : ∀ s v s' n l c, I s → D.head s v = .branch s' n l c → G s' →
    I s' ∧ m s' < m s ∧ m s' < l

section Termination

variable {I G : σ → Prop} {m : σ → Nat}

mutual
theorem Decreasing.node_back (h : Decreasing D I G m) (f : Nat) (s : σ) (v : ν)
    (hG : G (node D f s v).state) : G s := by
  cases f with
  | zero => exact hG
  | succ f =>
    apply h.back_head s v
    cases hHead : D.head s v with
    | leaf s' v' =>
      rw [node_leaf hHead] at hG
      exact h.back_leave s s' hG
    | branch s₁ n l c =>
      rw [node_branch hHead] at hG
      apply h.kids_back f s₁ n l 0 []
      cases hRun : kids D f s₁ n l 0 [] with
      | halt s₂ => rwa [hRun] at hG
      | done s₂ vs =>
        rw [hRun] at hG
        exact h.back_leave s s₂ hG

theorem Decreasing.kids_back (h : Decreasing D I G m) (f : Nat) (s : σ) (n l i : Nat)
    (acc : List ν) (hG : G (kids D f s n l i acc).state) : G s := by
  cases f with
  | zero => exact hG
  | succ f =>
    rw [kids] at hG
    split at hG
    · apply h.node_back f s D.blank
      cases hRun : node D f s D.blank with
      | halt s' => rwa [hRun] at hG
      | done s' c =>
        rw [hRun] at hG
        dsimp only at hG
        split at hG
        · exact hG
        · split at hG
          · exact hG
          · exact h.kids_back f s' n l (i + 1) (acc ++ [c]) hG
    · exact hG
end

mutual
/-- With fuel proportional to the measure every call returns. -/
theorem Decreasing.node_done (h : Decreasing D I G m) (f : Nat) (s : σ) (v : ν)
    (hFuel : 2 * m s + 1 ≤ f) (hI : I s) (hG : G (node D f s v).state) :
    ∃ s' v', node D f s v = .done s' v' ∧ (D.failed s' = false → I s' ∧ m s' < m s) := by
  cases f with
  | zero => omega
  | succ f =>
    cases hHead : D.head s v with
    | leaf s' v' =>
      rw [node_leaf hHead] at hG ⊢
      refine ⟨_, _, rfl, fun hOk => ?_⟩
      rw [h.failed_leave] at hOk
      rw [h.measure_leave]
      have hLeaf := h.leaf s v s' v' hI hHead (h.back_leave s s' hG) hOk
      exact ⟨h.keep_leave s s' hLeaf.1, hLeaf.2⟩
    | branch s₁ n l c =>
      rw [node_branch hHead] at hG ⊢
      have hKidsG : G (kids D f s₁ n l 0 []).state := by
        cases hRun : kids D f s₁ n l 0 [] with
        | halt s₂ => rwa [hRun] at hG
        | done s₂ vs =>
          rw [hRun] at hG
          exact h.back_leave s s₂ hG
      have hG₁ := h.kids_back f s₁ n l 0 [] hKidsG
      obtain ⟨hI₁, hLess, hLimit⟩ := h.branch s v s₁ n l c hI hHead hG₁
      obtain ⟨s₂, vs, hRun, hEnd⟩ :=
        h.kids_done f s₁ n l 0 [] (by omega) hI₁ (by omega) hKidsG
      rw [hRun]
      refine ⟨_, _, rfl, fun hOk => ?_⟩
      rw [h.failed_leave] at hOk
      rw [h.measure_leave]
      have hEnd := hEnd hOk
      exact ⟨h.keep_leave s s₂ hEnd.1, by omega⟩

theorem Decreasing.kids_done (h : Decreasing D I G m) (f : Nat) (s : σ) (n l i : Nat)
    (acc : List ν) (hFuel : 2 * m s + 2 ≤ f) (hI : I s) (hLimit : i + m s < l)
    (hG : G (kids D f s n l i acc).state) :
    ∃ s' vs, kids D f s n l i acc = .done s' vs ∧ (D.failed s' = false → I s' ∧ m s' ≤ m s) := by
  cases f with
  | zero => omega
  | succ f =>
    by_cases hLt : i < n
    · rw [kids, if_pos hLt] at hG ⊢
      have hNodeG : G (node D f s D.blank).state := by
        cases hRun : node D f s D.blank with
        | halt s' => rwa [hRun] at hG
        | done s' c =>
          rw [hRun] at hG
          dsimp only at hG
          split at hG
          · exact hG
          · split at hG
            · exact hG
            · exact h.kids_back f s' n l (i + 1) (acc ++ [c]) hG
      obtain ⟨s', c, hRun, hChild⟩ := h.node_done f s D.blank (by omega) hI hNodeG
      rw [hRun] at hG ⊢
      dsimp only at hG ⊢
      split
      · rename_i hFailed
        exact ⟨_, _, rfl, fun hOk => by rw [hFailed] at hOk; cases hOk⟩
      · rename_i hOk
        have hOk := Bool.eq_false_iff.mpr hOk
        obtain ⟨hI', hLess⟩ := hChild hOk
        have hNe : i + 1 ≠ l := by omega
        rw [hOk, if_neg (by decide), if_neg hNe] at hG
        rw [if_neg hNe]
        obtain ⟨s₂, vs, hKids, hEnd⟩ :=
          h.kids_done f s' n l (i + 1) (acc ++ [c]) (by omega) hI' (by omega) hG
        exact ⟨s₂, vs, hKids, fun hOk₂ => ⟨(hEnd hOk₂).1, by have := (hEnd hOk₂).2; omega⟩⟩
    · rw [kids, if_neg hLt]
      exact ⟨_, _, rfl, fun _ => ⟨hI, Nat.le_refl _⟩⟩
end

end Termination

/-! ## Calls that return

More fuel does not change a run that returned, so a call that returns at some
fuel returns the same at every larger one, and a call is built from, and falls
apart into, the calls of its children. -/

mutual
theorem node_succ (f : Nat) {s s' : σ} {v v' : ν} (h : node D f s v = .done s' v') :
    node D (f + 1) s v = .done s' v' := by
  cases f with
  | zero => cases h
  | succ f =>
    cases hHead : D.head s v with
    | leaf s₁ v₁ => rwa [node_leaf hHead] at h ⊢
    | branch s₁ n l c =>
      rw [node_branch hHead] at h ⊢
      cases hRun : kids D f s₁ n l 0 [] with
      | halt s₂ => rw [hRun] at h; cases h
      | done s₂ vs =>
        rw [hRun] at h
        rw [kids_succ f hRun]
        exact h

theorem kids_succ (f : Nat) {s s' : σ} {n l i : Nat} {acc vs : List ν}
    (h : kids D f s n l i acc = .done s' vs) : kids D (f + 1) s n l i acc = .done s' vs := by
  cases f with
  | zero => cases h
  | succ f =>
    by_cases hLt : i < n
    · rw [kids, if_pos hLt] at h ⊢
      cases hRun : node D f s D.blank with
      | halt s₁ => rw [hRun] at h; cases h
      | done s₁ c =>
        rw [hRun] at h
        rw [node_succ f hRun]
        dsimp only at h ⊢
        split at h
        · rename_i hFailed
          rwa [if_pos hFailed]
        · rename_i hOk
          rw [if_neg hOk]
          split at h
          · cases h
          · rename_i hLimit
            rw [if_neg hLimit]
            exact kids_succ f h
    · rw [kids, if_neg hLt] at h ⊢
      exact h
end

theorem node_mono {f g : Nat} (hfg : f ≤ g) {s s' : σ} {v v' : ν}
    (h : node D f s v = .done s' v') : node D g s v = .done s' v' := by
  induction hfg with
  | refl => exact h
  | step _ ih => exact node_succ _ ih

theorem kids_mono {f g : Nat} (hfg : f ≤ g) {s s' : σ} {n l i : Nat} {acc vs : List ν}
    (h : kids D f s n l i acc = .done s' vs) : kids D g s n l i acc = .done s' vs := by
  induction hfg with
  | refl => exact h
  | step _ ih => exact kids_succ _ ih

def Returns (D : Scheme σ ν) (s : σ) (v : ν) (s' : σ) (v' : ν) : Prop :=
  ∃ f, node D f s v = .done s' v'

/-- The children read from `s` one after the other without a failure. -/
def Chain (D : Scheme σ ν) : σ → List ν → σ → Prop
  | s, [], s' => s = s'
  | s, c :: cs, s' => ∃ s₁, Returns D s D.blank s₁ c ∧ D.failed s₁ = false ∧ Chain D s₁ cs s'

theorem Returns.unique {s s₁ s₂ : σ} {v v₁ v₂ : ν} (h₁ : Returns D s v s₁ v₁)
    (h₂ : Returns D s v s₂ v₂) : s₁ = s₂ ∧ v₁ = v₂ := by
  obtain ⟨f, hf⟩ := h₁
  obtain ⟨g, hg⟩ := h₂
  have hf := node_mono (Nat.le_max_left f g) hf
  rw [node_mono (Nat.le_max_right f g) hg] at hf
  cases hf
  exact ⟨rfl, rfl⟩

theorem returns_leaf {s s₁ : σ} {v v₁ : ν} (h : D.head s v = .leaf s₁ v₁) :
    Returns D s v (D.leave s s₁) v₁ :=
  ⟨1, node_leaf h 0⟩

theorem returns_leaf_inv {s s₁ s' : σ} {v v₁ v' : ν} (h : D.head s v = .leaf s₁ v₁)
    (hRet : Returns D s v s' v') : s' = D.leave s s₁ ∧ v' = v₁ :=
  hRet.unique (returns_leaf h)

theorem kids_of_chain {s s' : σ} {vs : List ν} (h : Chain D s vs s') (n l i : Nat)
    (acc : List ν) (hn : i + vs.length = n) (hl : n < l) :
    ∃ f, kids D f s n l i acc = .done s' (acc ++ vs) := by
  induction vs generalizing s i acc with
  | nil =>
    have hEnd : ¬ i < n := by simp at hn; omega
    refine ⟨1, ?_⟩
    rw [kids, if_neg hEnd, show s = s' from h, List.append_nil]
  | cons c cs ih =>
    obtain ⟨s₁, ⟨f, hChild⟩, hOk, hRest⟩ := h
    simp only [List.length_cons] at hn
    obtain ⟨g, hKids⟩ := ih hRest (i + 1) (acc ++ [c]) (by omega)
    refine ⟨max f g + 1, ?_⟩
    rw [kids, if_pos (by omega), node_mono (Nat.le_max_left f g) hChild]
    dsimp only
    rw [hOk, if_neg (by decide), if_neg (by omega), kids_mono (Nat.le_max_right f g) hKids]
    simp

theorem chain_of_kids (f : Nat) {s s' : σ} {n l i : Nat} {acc ws : List ν}
    (h : kids D f s n l i acc = .done s' ws) (hOk : D.failed s' = false) (hi : i ≤ n) :
    ∃ vs, ws = acc ++ vs ∧ i + vs.length = n ∧ Chain D s vs s' := by
  induction f generalizing s i acc with
  | zero => cases h
  | succ f ih =>
    by_cases hLt : i < n
    · rw [kids, if_pos hLt] at h
      cases hRun : node D f s D.blank with
      | halt s₁ => rw [hRun] at h; cases h
      | done s₁ c =>
        rw [hRun] at h
        dsimp only at h
        split at h
        · rename_i hFailed
          cases h
          rw [hOk] at hFailed
          cases hFailed
        · rename_i hOk₁
          split at h
          · cases h
          · obtain ⟨vs, rfl, hCount, hRest⟩ := ih h hLt
            exact ⟨c :: vs, by simp, by simp; omega,
              ⟨s₁, ⟨f, hRun⟩, Bool.eq_false_iff.mpr hOk₁, hRest⟩⟩
    · rw [kids, if_neg hLt] at h
      cases h
      exact ⟨[], by simp, by simp; omega, rfl⟩

theorem returns_branch {s s₁ s₂ : σ} {v : ν} {n l : Nat} {c : List ν → ν} {vs : List ν}
    (hHead : D.head s v = .branch s₁ n l c) (h : Chain D s₁ vs s₂) (hn : vs.length = n)
    (hl : n < l) : Returns D s v (D.leave s s₂) (c vs) := by
  obtain ⟨f, hKids⟩ := kids_of_chain h n l 0 [] (by omega) hl
  refine ⟨f + 1, ?_⟩
  rw [node_branch hHead, hKids]
  simp

theorem returns_branch_inv {s s₁ s' : σ} {v v' : ν} {n l : Nat} {c : List ν → ν}
    (hHead : D.head s v = .branch s₁ n l c)
    (hLeave : ∀ s₂, D.failed (D.leave s s₂) = D.failed s₂)
    (h : Returns D s v s' v') (hOk : D.failed s' = false) :
    ∃ s₂ vs, s' = D.leave s s₂ ∧ v' = c vs ∧ vs.length = n ∧ Chain D s₁ vs s₂ := by
  obtain ⟨f, hRun⟩ := h
  cases f with
  | zero => cases hRun
  | succ f =>
    rw [node_branch hHead] at hRun
    cases hKids : kids D f s₁ n l 0 [] with
    | halt s₂ => rw [hKids] at hRun; cases hRun
    | done s₂ ws =>
      rw [hKids] at hRun
      cases hRun
      rw [hLeave] at hOk
      obtain ⟨vs, rfl, hCount, hChain⟩ := chain_of_kids f hKids hOk (Nat.zero_le n)
      exact ⟨s₂, _, rfl, rfl, by omega, hChain⟩

/-! ## Calls that succeed

What is said of the calls that return without a failure follows from what is
said of a leaf and of a loop whose children have it. -/

/-- From `s` to `s'` by one child after the other, each with `P`. -/
def Links (P : σ → σ → ν → Prop) : σ → List ν → σ → Prop
  | s, [], s' => s = s'
  | s, v :: vs, s' => ∃ s₁, P s s₁ v ∧ Links P s₁ vs s'

theorem Links.snoc {P : σ → σ → ν → Prop} {s s₁ s₂ : σ} {vs : List ν} {v : ν}
    (h : Links P s vs s₁) (hLast : P s₁ s₂ v) : Links P s (vs ++ [v]) s₂ := by
  induction vs generalizing s with
  | nil =>
    have hSame : s = s₁ := h
    subst hSame
    exact ⟨s₂, hLast, rfl⟩
  | cons w ws ih =>
    obtain ⟨t, hFirst, hRest⟩ := h
    exact ⟨t, hFirst, ih hRest⟩

structure Builds (D : Scheme σ ν) (P : σ → σ → ν → Prop) : Prop where
  leave : ∀ s s', D.failed (D.leave s s') = D.failed s'
  leaf : ∀ s s' v, D.head s D.blank = .leaf s' v → D.failed s' = false → P s (D.leave s s') v
  branch : ∀ s s₁ n l c s₂ vs, D.head s D.blank = .branch s₁ n l c → vs.length = n →
    (0 < l → n < l) → Links P s₁ vs s₂ → D.failed s₂ = false → P s (D.leave s s₂) (c vs)

section Building

variable {P : σ → σ → ν → Prop}

mutual
theorem Builds.node_spec (h : Builds D P) (f : Nat) {s s' : σ} {v : ν}
    (hRun : node D f s D.blank = .done s' v) (hOk : D.failed s' = false) : P s s' v := by
  cases f with
  | zero => cases hRun
  | succ f =>
    cases hHead : D.head s D.blank with
    | leaf s₁ v₁ =>
      rw [node_leaf hHead] at hRun
      cases hRun
      rw [h.leave] at hOk
      exact h.leaf s s₁ v hHead hOk
    | branch s₁ n l c =>
      rw [node_branch hHead] at hRun
      cases hKids : kids D f s₁ n l 0 [] with
      | halt s₂ => rw [hKids] at hRun; cases hRun
      | done s₂ vs =>
        rw [hKids] at hRun
        cases hRun
        rw [h.leave] at hOk
        have hNone : Links P s₁ [] s₁ := rfl
        obtain ⟨hCount, hLimit, hLinks⟩ :=
          h.kids_spec f hKids hNone rfl (Nat.zero_le n) id hOk
        exact h.branch s s₁ n l c s₂ vs hHead hCount hLimit hLinks hOk

theorem Builds.kids_spec (h : Builds D P) (f : Nat) {s₀ s s' : σ} {n l i : Nat} {acc vs : List ν}
    (hRun : kids D f s n l i acc = .done s' vs) (hLinks : Links P s₀ acc s) (hAcc : acc.length = i)
    (hi : i ≤ n) (hLimit : 0 < l → i < l) (hOk : D.failed s' = false) :
    vs.length = n ∧ (0 < l → n < l) ∧ Links P s₀ vs s' := by
  cases f with
  | zero => cases hRun
  | succ f =>
    by_cases hLt : i < n
    · rw [kids, if_pos hLt] at hRun
      cases hNode : node D f s D.blank with
      | halt s₁ => rw [hNode] at hRun; cases hRun
      | done s₁ v =>
        rw [hNode] at hRun
        dsimp only at hRun
        split at hRun
        · rename_i hFailed
          cases hRun
          rw [hOk] at hFailed
          cases hFailed
        · rename_i hGoes
          split at hRun
          · cases hRun
          · have hNext := hLinks.snoc (h.node_spec f hNode (Bool.eq_false_iff.mpr hGoes))
            exact h.kids_spec f hRun hNext (by simp [hAcc]) hLt (by omega) hOk
    · rw [kids, if_neg hLt] at hRun
      cases hRun
      exact ⟨by omega, fun hl => by have := hLimit hl; omega, hLinks⟩
end

theorem Builds.returns (h : Builds D P) {s s' : σ} {v : ν} (hRet : Returns D s D.blank s' v)
    (hOk : D.failed s' = false) : P s s' v := by
  obtain ⟨f, hRun⟩ := hRet
  exact h.node_spec f hRun hOk

end Building

/-! ## A scheme seen as another

`E` does what `D` does, and keeps more besides. -/

section Forgets

variable {τ μ : Type} {E : Scheme τ μ} {p : τ → σ} {g : μ → ν}

def Outcome.map {α β : Type} (p : τ → σ) (g : α → β) : Outcome τ α → Outcome σ β
  | .done t a => .done (p t) (g a)
  | .halt t => .halt (p t)

structure Forgets (E : Scheme τ μ) (D : Scheme σ ν) (p : τ → σ) (g : μ → ν) : Prop where
  blank : g E.blank = D.blank
  failed : ∀ t, D.failed (p t) = E.failed t
  leave : ∀ t t', p (E.leave t t') = D.leave (p t) (p t')
  leaf : ∀ t t' w, E.head t E.blank = .leaf t' w → D.head (p t) D.blank = .leaf (p t') (g w)
  branch : ∀ t t' n l c, E.head t E.blank = .branch t' n l c →
    ∃ c', D.head (p t) D.blank = .branch (p t') n l c' ∧ ∀ ws, g (c ws) = c' (ws.map g)

mutual
theorem Forgets.node_eq (h : Forgets E D p g) (f : Nat) (t : τ) :
    node D f (p t) D.blank = (node E f t E.blank).map p g := by
  cases f with
  | zero => rfl
  | succ f =>
    cases hHead : E.head t E.blank with
    | leaf t' w =>
      rw [node_leaf hHead, node_leaf (h.leaf t t' w hHead), ← h.leave]
      rfl
    | branch t' n l c =>
      obtain ⟨c', hHead', hClose⟩ := h.branch t t' n l c hHead
      have hKids := h.kids_eq f t' n l 0 []
      rw [node_branch hHead, node_branch hHead']
      rw [List.map_nil] at hKids
      rw [hKids]
      cases kids E f t' n l 0 [] with
      | halt t'' => rfl
      | done t'' ws => simp only [Outcome.map, h.leave, hClose]

theorem Forgets.kids_eq (h : Forgets E D p g) (f : Nat) (t : τ) (n l i : Nat) (acc : List μ) :
    kids D f (p t) n l i (acc.map g) = (kids E f t n l i acc).map p (List.map g) := by
  cases f with
  | zero => rfl
  | succ f =>
    rw [kids, kids]
    by_cases hLt : i < n
    · rw [if_pos hLt, if_pos hLt, h.node_eq f t]
      cases node E f t E.blank with
      | halt t' => rfl
      | done t' w =>
        simp only [Outcome.map]
        rw [h.failed]
        by_cases hFailed : E.failed t' = true
        · rw [if_pos hFailed, if_pos hFailed]
          simp
        · rw [if_neg hFailed, if_neg hFailed]
          by_cases hLimit : i + 1 = l
          · rw [if_pos hLimit, if_pos hLimit]
          · have hRest := h.kids_eq f t' n l (i + 1) (acc ++ [w])
            rw [List.map_append, List.map_singleton] at hRest
            rw [if_neg hLimit, if_neg hLimit, hRest]
            rfl
    · rw [if_neg hLt, if_neg hLt]
      rfl
end

end Forgets

end CcCommon.Lib.Descent
