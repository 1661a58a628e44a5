import CcCommon.Codec.Runs
import CcCommon.Codec.Simple.Head

/-! # Which runs of codec_simple_decode make progress

A wrapped length moves `pos` back, by up to 128 bytes. Without such a jump
the remaining input decreases with every call. -/

namespace CcCommon.Codec.Simple

open Util Lib.Descent

set_option autoImplicit false

/-- Every call that returns without an error moves forward, and the decoder returns after at
most one call for each byte and one more. -/
def MakesProgress (b : Input) (v : Decoded) : Prop :=
  (∀ fuel, RetsAdvance (codecSimpleDecode b fuel v).state.trace) ∧
    ∃ fuel s d, codecSimpleDecode b fuel v = .done s d ∧ calls s.trace ≤ b.len + 1

section Run

variable {b : Input}

theorem codecSimpleDecodeHead_trace (b : Input) (s : CodecDecodeState) (v : Decoded) :
    ∃ ev, (codecSimpleDecodeHead b s v).state.trace = ev ++ .call s.pos s.failed :: s.trace ∧
      Quiet ev := by
  rcases Nat.le_total s.pos b.len with hInside | hEnd
  · obtain ⟨ev, hTrace, hQuiet, _⟩ := (headSpec b s v hInside).trace
    exact ⟨ev, hTrace, hQuiet⟩
  · rw [codecSimpleDecodeHead_of_le v hEnd]
    refine ⟨[.fail _], rfl, ?_⟩
    intro e he
    exact Or.inr ⟨_, List.mem_singleton.mp he⟩

theorem lt_of_head {s : CodecDecodeState} {v : Decoded} {step : Step CodecDecodeState Decoded}
    (hHead : codecSimpleDecodeHead b s v = step)
    (h : step.state.err = none ∨ ∃ s' n l c, step = .branch s' n l c) : s.pos < b.len := by
  by_contra hEnd
  rw [codecSimpleDecodeHead_of_le v (Nat.not_lt.mp hEnd)] at hHead
  subst hHead
  rcases h with hOk | ⟨s', n, l, c, hStep⟩
  · cases hOk
  · cases hStep

theorem advances (b : Input) :
    Advances b (codecSimpleDecodeHead b) (BackJump b) (fun p => p ≤ b.len) where
  trace s v _ := codecSimpleDecodeHead_trace b s v
  back := by
    intro s v hClean p hp
    obtain ⟨ev, hTrace, _⟩ := codecSimpleDecodeHead_trace b s v
    rw [hTrace] at hClean
    exact clean_append hClean p (List.mem_cons_of_mem _ hp)
  err s v hInside := (headSpec b s v hInside).err
  inv s v hInside := (headSpec b s v hInside).inside
  leaf := by
    intro s v s' v' hInside hHead hOk
    have hSpec := headSpec b s v hInside
    rw [hHead] at hSpec
    exact ⟨lt_of_head hHead (Or.inl hOk), (hSpec.leaf s' v' rfl hOk).2.mpr⟩
  branch := by
    intro s v s' n l c hInside hHead
    have hSpec := headSpec b s v hInside
    rw [hHead] at hSpec
    obtain ⟨hMove, hLimit, _⟩ := hSpec.branch s' n l c rfl
    exact ⟨lt_of_head hHead (Or.inr ⟨s', n, l, c, rfl⟩), hMove, hLimit⟩

/-- Each backward jump entered without an error has returned where it jumped to. -/
def JumpsReturned (b : Input) (s : CodecDecodeState) : Prop :=
  s.pos ≤ b.len ∧ ∀ p, .call p false ∈ s.trace → BackJump b p →
    ∃ q, q ≤ p ∧ .ret p q false ∈ s.trace

theorem jumpsReturned_sound (b : Input) :
    Sound (codecSimpleScheme b) (JumpsReturned b) (JumpsReturned b)
      (fun _ _ _ _ => True) (fun _ _ _ => True) where
  enter _ h := h
  leaf := by
    rintro s v s' v' ⟨hInside, hJumps⟩ hHead
    have hHead : codecSimpleDecodeHead b s v = .leaf s' v' := hHead
    have hSpec := headSpec b s v hInside
    rw [hHead] at hSpec
    obtain ⟨ev, hTrace, hQuiet, _⟩ := hSpec.trace
    refine ⟨trivial, hSpec.inside, fun p hp hJump => ?_⟩
    simp only [codecSimpleScheme, decodeScheme, CodecDecodeState.leave_trace] at hp ⊢
    have hTrace : s'.trace = ev ++ .call s.pos s.failed :: s.trace := hTrace
    rcases List.mem_cons.mp hp with hp | hp
    · cases hp
    · rw [hTrace] at hp ⊢
      rcases List.mem_append.mp hp with hp | hp
      · exact absurd hp hQuiet.no_call
      · rcases List.mem_cons.mp hp with hp | hp
        · -- the call that returns here
          obtain ⟨rfl, hFailed⟩ := Event.call.inj hp
          obtain ⟨_, _, hLeaf, hOk⟩ :=
            hSpec.back hJump (s.failed_eq_false_iff.mp hFailed.symm)
          cases hLeaf
          refine ⟨s'.pos, ?_, ?_⟩
          · exact Nat.not_lt.mp fun hMove => (hSpec.leaf s' v' rfl hOk).2.mp hMove hJump
          · rw [s'.failed_eq_false_iff.mpr hOk]
            exact List.mem_cons_self
        · obtain ⟨q, hq, hRet⟩ := hJumps p hp hJump
          exact ⟨q, hq, List.mem_cons_of_mem _
            (List.mem_append_right _ (List.mem_cons_of_mem _ hRet))⟩
  branch := by
    rintro s v s' n l c ⟨hInside, hJumps⟩ hHead
    have hHead : codecSimpleDecodeHead b s v = .branch s' n l c := hHead
    have hSpec := headSpec b s v hInside
    rw [hHead] at hSpec
    obtain ⟨ev, hTrace, hQuiet, _⟩ := hSpec.trace
    have hTrace : s'.trace = ev ++ .call s.pos s.failed :: s.trace := hTrace
    refine ⟨hSpec.inside, fun p hp hJump => ?_⟩
    rw [hTrace] at hp ⊢
    rcases List.mem_append.mp hp with hp | hp
    · exact absurd hp hQuiet.no_call
    · rcases List.mem_cons.mp hp with hp | hp
      · obtain ⟨rfl, _⟩ := Event.call.inj hp
        exact absurd hJump.wrapped (hSpec.branch s' n l c rfl).2.2.1
      · obtain ⟨q, hq, hRet⟩ := hJumps p hp hJump
        exact ⟨q, hq, List.mem_append_right _ (List.mem_cons_of_mem _ hRet)⟩
  none _ _ := trivial
  snoc _ _ _ _ _ _ _ := trivial
  next _ h _ := h
  close := by
    rintro s v s₁ n l c s₂ vs _ _ _ ⟨hInside, hJumps⟩ _
    refine ⟨trivial, hInside, fun p hp hJump => ?_⟩
    simp only [codecSimpleScheme, decodeScheme, CodecDecodeState.leave_trace] at hp ⊢
    rcases List.mem_cons.mp hp with hp | hp
    · cases hp
    · obtain ⟨q, hq, hRet⟩ := hJumps p hp hJump
      exact ⟨q, hq, List.mem_cons_of_mem _ hRet⟩

theorem clean_of_retsAdvance {fuel : Nat} {v : Decoded}
    (h : RetsAdvance (codecSimpleDecode b fuel v).state.trace) :
    Clean (BackJump b) (codecSimpleDecode b fuel v).state.trace := by
  have hStart : JumpsReturned b .init := by
    refine ⟨Nat.zero_le _, fun p hp => ?_⟩
    cases hp
  have hEnd := ((jumpsReturned_sound b).node_spec fuel .init v hStart).1
  intro p hp hJump
  obtain ⟨q, hq, hRet⟩ := hEnd.2 p hp hJump
  have := h p q hRet
  omega

end Run

/-- The decoder makes progress if and only if no call is entered at a backward jump. -/
theorem codecSimpleDecode_progress_iff (b : Input) (v : Decoded) (hLen : b.len < intLimit) :
    MakesProgress b v ↔ ∀ fuel, Clean (BackJump b) (codecSimpleDecode b fuel v).state.trace := by
  constructor
  · rintro ⟨hRets, _⟩ fuel
    exact clean_of_retsAdvance (hRets fuel)
  · intro hClean
    have hRun := fun fuel => (advances b).run (Nat.zero_le _) fuel v
    obtain ⟨fuel, s, d, hDone⟩ := (advances b).returns hLen (Nat.zero_le _) v hClean
    refine ⟨fun fuel => ((hRun fuel).2 (hClean fuel)).1, fuel, s, d, hDone, ?_⟩
    have hCalls := ((hRun fuel).2 (hClean fuel)).2.1
    have hState : node (decodeScheme (codecSimpleDecodeHead b)) fuel .init v = .done s d := hDone
    rwa [hState] at hCalls

/-- An array whose first element is a string of length `2 ^ 64 - 12`, which does not wrap around. -/
theorem codecSimpleDecode_progress_iff_nested :
    MakesProgress ⟨[0xE9, 2, 0xDC, 0xF4, 0, 0, 0, 0, 0, 0, 0], fun _ => 0, by decide⟩ .zero := by
  refine (codecSimpleDecode_progress_iff _ _ (by decide)).mpr fun fuel p _ hJump => ?_
  have hLen : p + 9 ≤ 11 := by
    rcases hJump with ⟨⟨_, hLen, _⟩, _⟩ | ⟨⟨_, hLen, _⟩, _⟩
    · exact hLen.1
    · exact hLen.1
  have hDesc := hJump.wrapped.imp And.left And.left
  obtain rfl | rfl | rfl : p = 0 ∨ p = 1 ∨ p = 2 := by omega
  · exact absurd hDesc (by decide)
  · exact absurd hDesc (by decide)
  · rcases hJump with ⟨⟨_, _, hBack⟩, _⟩ | ⟨⟨hExt, _⟩, _⟩
    · exact absurd hBack (by decide)
    · exact absurd hExt (by decide)

/-- An array whose first element is a string of length `2 ^ 64 - 11`: the second is read at 0. -/
theorem not_makesProgress_jump :
    ¬ MakesProgress ⟨[0xE9, 2, 0xDC, 0xF5, 0, 0, 0, 0, 0, 0, 0], fun _ => 0, by decide⟩ .zero := by
  rintro ⟨hRets, _⟩
  exact absurd (hRets 4 2 0 (by decide)) (by decide)

end CcCommon.Codec.Simple
