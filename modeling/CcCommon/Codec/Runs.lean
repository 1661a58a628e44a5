import CcCommon.Codec.Trace

/-! # Decoders that advance

A decoder whose calls move forward unless they fail takes at most one call
for each byte of the input and one more, and returns. `Bad` are the positions
where a call that does not fail may stay behind, `Inv` is what is known of
the position throughout. -/

namespace CcCommon.Codec

open Util Lib.Descent

set_option autoImplicit false

variable {b : Input} {head : CodecDecodeState → Decoded → Step CodecDecodeState Decoded}
  {Bad Inv : Nat → Prop}

/-- No call entered without an error at a bad position. -/
def Clean (Bad : Nat → Prop) (tr : List Event) : Prop := ∀ p, .call p false ∈ tr → ¬ Bad p

/-- Every call that returned without an error moved forward. -/
def RetsAdvance (tr : List Event) : Prop := ∀ p q, .ret p q false ∈ tr → p < q

structure Advances (b : Input)
    (head : CodecDecodeState → Decoded → Step CodecDecodeState Decoded)
    (Bad Inv : Nat → Prop) : Prop where
  trace : ∀ s v, Inv s.pos →
    ∃ ev, (head s v).state.trace = ev ++ .call s.pos s.failed :: s.trace ∧ Quiet ev
  back : ∀ s v, Clean Bad (head s v).state.trace → Clean Bad s.trace
  err : ∀ s v, Inv s.pos → (head s v).state.err = none → s.err = none
  inv : ∀ s v, Inv s.pos → Inv (head s v).state.pos
  leaf : ∀ s v s' v', Inv s.pos → head s v = .leaf s' v' → s'.err = none →
    s.pos < b.len ∧ (¬ Bad s.pos → s.pos < s'.pos)
  branch : ∀ s v s' n l c, Inv s.pos → head s v = .branch s' n l c →
    s.pos < b.len ∧ s.pos < s'.pos ∧ intLimit ≤ l

theorem clean_append {ev tr : List Event} (h : Clean Bad (ev ++ tr)) : Clean Bad tr :=
  fun p hp => h p (List.mem_append_right _ hp)

theorem clean_ret {tr : List Event} {p q : Nat} {f : Bool} :
    Clean Bad (.ret p q f :: tr) ↔ Clean Bad tr := by
  simp [Clean]

namespace Advances

/-! ## Steps -/

theorem clean_head (h : Advances b head Bad Inv) {s : CodecDecodeState} {v : Decoded}
    (hInv : Inv s.pos) (hClean : Clean Bad (head s v).state.trace) :
    Clean Bad s.trace ∧ (s.failed = false → ¬ Bad s.pos) := by
  obtain ⟨ev, hTrace, _⟩ := h.trace s v hInv
  rw [hTrace] at hClean
  have hCall := clean_append hClean
  refine ⟨fun p hp => hCall p (List.mem_cons_of_mem _ hp), fun hOk => hCall s.pos ?_⟩
  rw [hOk]
  exact List.mem_cons_self

theorem leaf_advances (h : Advances b head Bad Inv) {s s' : CodecDecodeState} {v v' : Decoded}
    (hInv : Inv s.pos) (hHead : head s v = .leaf s' v') (hClean : Clean Bad s'.trace)
    (hOk : s'.err = none) : s.pos < b.len ∧ s.pos < s'.pos := by
  have hErr := h.err s v hInv
  have hStep := h.clean_head (s := s) (v := v) hInv
  rw [hHead] at hErr hStep
  obtain ⟨hLt, hMove⟩ := h.leaf s v s' v' hInv hHead hOk
  exact ⟨hLt, hMove ((hStep hClean).2 (s.failed_eq_false_iff.mpr (hErr hOk)))⟩

theorem calls_head (h : Advances b head Bad Inv) {s : CodecDecodeState} (v : Decoded)
    (hInv : Inv s.pos) :
    calls (head s v).state.trace = calls s.trace + 1 := by
  obtain ⟨ev, hTrace, hQuiet⟩ := h.trace s v hInv
  rw [hTrace, hQuiet.calls, calls_call]

theorem rets_head (h : Advances b head Bad Inv) {s : CodecDecodeState} {v : Decoded}
    (hInv : Inv s.pos) (hRets : RetsAdvance s.trace) : RetsAdvance (head s v).state.trace := by
  obtain ⟨ev, hTrace, hQuiet⟩ := h.trace s v hInv
  intro p q hp
  rw [hTrace, hQuiet.mem_ret] at hp
  rcases List.mem_cons.mp hp with hp | hp
  · cases hp
  · exact hRets p q hp

theorem rets_leave {s s' : CodecDecodeState} (hRets : RetsAdvance s'.trace)
    (hMove : s'.err = none → s.pos < s'.pos) : RetsAdvance (s.leave s').trace := by
  intro p q hp
  rw [CodecDecodeState.leave_trace] at hp
  rcases List.mem_cons.mp hp with hp | hp
  · obtain ⟨rfl, rfl, hOk⟩ := Event.ret.inj hp
    exact hMove (s'.failed_eq_false_iff.mp hOk.symm)
  · exact hRets p q hp

/-! ## Whole runs -/

/-- With an input below the range of an `int` every clean run returns. -/
theorem decreasing (h : Advances b head Bad Inv) (hLen : b.len < intLimit) :
    Decreasing (decodeScheme head) (fun s => Inv s.pos) (fun s => Clean Bad s.trace)
      (fun s => b.len - s.pos) where
  back_head := h.back
  back_leave := by
    intro s s' hClean
    exact clean_ret.mp hClean
  failed_leave _ _ := rfl
  measure_leave _ _ := rfl
  keep_leave _ _ hInv := hInv
  leaf := by
    intro s v s' v' hInv hHead hClean hOk
    have hHead : head s v = .leaf s' v' := hHead
    obtain ⟨hLt, hMove⟩ := h.leaf_advances hInv hHead hClean (s'.failed_eq_false_iff.mp hOk)
    have hInv' := h.inv s v hInv
    rw [hHead] at hInv'
    exact ⟨hInv', by omega⟩
  branch := by
    intro s v s' n l c hInv hHead _
    have hHead : head s v = .branch s' n l c := hHead
    obtain ⟨hLt, hMove, hLimit⟩ := h.branch s v s' n l c hInv hHead
    have hInv' := h.inv s v hInv
    rw [hHead] at hInv'
    exact ⟨hInv', by omega, by omega⟩

theorem returns (h : Advances b head Bad Inv) (hLen : b.len < intLimit) (hInit : Inv 0)
    (v : Decoded)
    (hClean : ∀ fuel, Clean Bad (node (decodeScheme head) fuel .init v).state.trace) :
    ∃ fuel s d, node (decodeScheme head) fuel .init v = .done s d := by
  obtain ⟨s, d, hRun, _⟩ := (h.decreasing hLen).node_done (2 * b.len + 1) .init v
    (by simp [CodecDecodeState.init]) hInit (hClean _)
  exact ⟨_, s, d, hRun⟩

/-- Where a clean run may enter a call: one call for each byte passed, at most. -/
def Entered (b : Input) (Bad Inv : Nat → Prop) (s : CodecDecodeState) : Prop :=
  Inv s.pos ∧ (Clean Bad s.trace →
    RetsAdvance s.trace ∧ calls s.trace + (b.len - s.pos) ≤ b.len)

def Stopped (b : Input) (Bad Inv : Nat → Prop) (s : CodecDecodeState) : Prop :=
  Inv s.pos ∧ (Clean Bad s.trace → RetsAdvance s.trace ∧ calls s.trace ≤ b.len + 1 ∧
    (s.err = none → calls s.trace + (b.len - s.pos) ≤ b.len))

/-- From `s` to `s'` by `k` calls or more, if there was no error. -/
def Forward (Bad : Nat → Prop) (k : Nat) (s s' : CodecDecodeState) : Prop :=
  (∃ ev, s'.trace = ev ++ s.trace) ∧
    (s'.err = none → s.err = none ∧ (Clean Bad s'.trace → s.pos + k ≤ s'.pos))

section Moves

variable {s s₁ s₂ : CodecDecodeState} {j k : Nat}

theorem Forward.weaken (h : Forward Bad k s s₁) (hLe : j ≤ k) : Forward Bad j s s₁ := by
  refine ⟨h.1, fun hOk => ⟨(h.2 hOk).1, fun hClean => ?_⟩⟩
  have hMove := (h.2 hOk).2 hClean
  omega

theorem Forward.trans (h : Forward Bad j s s₁) (h' : Forward Bad k s₁ s₂) :
    Forward Bad (j + k) s s₂ := by
  obtain ⟨⟨ev, hTrace⟩, hFirst⟩ := h
  obtain ⟨⟨ev', hTrace'⟩, hSecond⟩ := h'
  refine ⟨⟨ev' ++ ev, by rw [hTrace', hTrace, List.append_assoc]⟩, fun hOk => ?_⟩
  obtain ⟨hOk₁, hMove₁⟩ := hSecond hOk
  obtain ⟨hOk₀, hMove₀⟩ := hFirst hOk₁
  refine ⟨hOk₀, fun hClean => ?_⟩
  have hClean₁ : Clean Bad s₁.trace := clean_append (by rwa [hTrace'] at hClean)
  have := hMove₁ hClean
  have := hMove₀ hClean₁
  omega

theorem Forward.leave (h : Forward Bad k s s₁) : Forward Bad k s (s.leave s₁) := by
  obtain ⟨⟨ev, hTrace⟩, hMove⟩ := h
  refine ⟨⟨.ret s.pos s₁.pos s₁.failed :: ev, ?_⟩, fun hOk => ⟨(hMove hOk).1, fun hClean => ?_⟩⟩
  · rw [CodecDecodeState.leave_trace, hTrace]
    rfl
  · exact (hMove hOk).2 (clean_ret.mp hClean)

theorem Stopped.leave (h : Stopped b Bad Inv s₁) (hMove : Forward Bad 1 s s₁) :
    Stopped b Bad Inv (s.leave s₁) := by
  refine ⟨h.1, fun hClean => ?_⟩
  have hClean : Clean Bad s₁.trace := clean_ret.mp hClean
  obtain ⟨hRets, hCalls, hOkCalls⟩ := h.2 hClean
  rw [CodecDecodeState.leave_trace, calls_ret]
  exact ⟨rets_leave hRets fun hOk => (hMove.2 hOk).2 hClean, hCalls, hOkCalls⟩

end Moves

section Heads

variable {s s' : CodecDecodeState} {v v' : Decoded} {n l : Nat} {c : List Decoded → Decoded}

theorem leaf_forward (h : Advances b head Bad Inv) (hInv : Inv s.pos)
    (hHead : head s v = .leaf s' v') : Forward Bad 1 s s' := by
  obtain ⟨ev, hTrace, _⟩ := h.trace s v hInv
  have hErr := h.err s v hInv
  rw [hHead] at hTrace hErr
  refine ⟨⟨ev ++ [.call s.pos s.failed], ?_⟩, fun hOk => ⟨hErr hOk, fun hClean => ?_⟩⟩
  · rw [List.append_assoc]
    exact hTrace
  · exact (h.leaf_advances hInv hHead hClean hOk).2

theorem branch_forward (h : Advances b head Bad Inv) (hInv : Inv s.pos)
    (hHead : head s v = .branch s' n l c) : Forward Bad 1 s s' := by
  obtain ⟨ev, hTrace, _⟩ := h.trace s v hInv
  obtain ⟨_, hMove, _⟩ := h.branch s v s' n l c hInv hHead
  have hErr := h.err s v hInv
  rw [hHead] at hTrace hErr
  refine ⟨⟨ev ++ [.call s.pos s.failed], ?_⟩, fun hOk => ⟨hErr hOk, fun _ => hMove⟩⟩
  rw [List.append_assoc]
  exact hTrace

theorem leaf_stopped (h : Advances b head Bad Inv) (hEnter : Entered b Bad Inv s)
    (hHead : head s v = .leaf s' v') : Stopped b Bad Inv s' := by
  obtain ⟨hInv, hBudget⟩ := hEnter
  have hMove := fun hClean hOk => h.leaf_advances hInv hHead hClean hOk
  have hInv' := h.inv s v hInv
  have hCalls := h.calls_head v hInv
  have hRets := h.rets_head (s := s) (v := v) hInv
  have hStep := h.clean_head (s := s) (v := v) hInv
  rw [hHead] at hInv' hCalls hRets hStep
  simp only [Step.state] at hInv' hCalls hRets hStep
  refine ⟨hInv', fun hClean => ?_⟩
  obtain ⟨hRets₀, hCalls₀⟩ := hBudget (hStep hClean).1
  refine ⟨hRets hRets₀, by omega, fun hOk => ?_⟩
  have hStrict := hMove hClean hOk
  omega

theorem branch_entered (h : Advances b head Bad Inv) (hEnter : Entered b Bad Inv s)
    (hHead : head s v = .branch s' n l c) : Entered b Bad Inv s' := by
  obtain ⟨hInv, hBudget⟩ := hEnter
  obtain ⟨hLt, hMove, _⟩ := h.branch s v s' n l c hInv hHead
  have hInv' := h.inv s v hInv
  have hCalls := h.calls_head v hInv
  have hRets := h.rets_head (s := s) (v := v) hInv
  have hStep := h.clean_head (s := s) (v := v) hInv
  rw [hHead] at hInv' hCalls hRets hStep
  simp only [Step.state] at hInv' hCalls hRets hStep
  refine ⟨hInv', fun hClean => ?_⟩
  obtain ⟨hRets₀, hCalls₀⟩ := hBudget (hStep hClean).1
  exact ⟨hRets hRets₀, by omega⟩

end Heads

theorem sound (h : Advances b head Bad Inv) :
    Sound (decodeScheme head) (Entered b Bad Inv) (Stopped b Bad Inv)
      (fun s _ s' _ => Forward Bad 1 s s') (fun s s' _ => Forward Bad 0 s s') where
  enter := by
    rintro s ⟨hInv, hBudget⟩
    refine ⟨hInv, fun hClean => ?_⟩
    obtain ⟨hRets, hCalls⟩ := hBudget hClean
    exact ⟨hRets, by omega, fun _ => hCalls⟩
  leaf := by
    intro s v s' v' hEnter hHead
    have hForward := h.leaf_forward hEnter.1 hHead
    exact ⟨hForward.leave, (h.leaf_stopped hEnter hHead).leave hForward⟩
  branch s v s' n l c hEnter hHead := h.branch_entered hEnter hHead
  none s _ := ⟨⟨[], rfl⟩, fun hOk => ⟨hOk, fun _ => Nat.le_refl _⟩⟩
  snoc := by
    intro s s₁ s₂ vs v hS hR
    exact (hS.trans hR).weaken (Nat.zero_le _)
  next := by
    rintro s ⟨hInv, hBudget⟩ hOk
    refine ⟨hInv, fun hClean => ?_⟩
    obtain ⟨hRets, _, hCalls⟩ := hBudget hClean
    exact ⟨hRets, hCalls (s.failed_eq_false_iff.mp hOk)⟩
  close := by
    intro s v s₁ n l c s₂ vs hEnter hHead hS hStop _
    have hForward := (h.branch_forward hEnter.1 hHead).trans hS
    exact ⟨hForward.leave, hStop.leave hForward⟩

theorem run (h : Advances b head Bad Inv) (hInit : Inv 0) (fuel : Nat) (v : Decoded) :
    Stopped b Bad Inv (node (decodeScheme head) fuel .init v).state := by
  have hNone : RetsAdvance CodecDecodeState.init.trace := by
    intro p q hp
    cases hp
  have hStart : Entered b Bad Inv .init :=
    ⟨hInit, fun _ => ⟨hNone, by simp [CodecDecodeState.init, calls]⟩⟩
  exact (h.sound.node_spec fuel .init v hStart).1

end Advances

end CcCommon.Codec
