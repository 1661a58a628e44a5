import CcCommon.Codec.Runs
import CcCommon.Codec.Binc.Head

/-! # codec_binc_decode makes progress

No length moves `pos` back, so every call that does not fail consumes its
descriptor and the run is bounded by the buffer. -/

namespace CcCommon.Codec.Binc

open Util Lib.Descent

set_option autoImplicit false

variable {b : Input}

/-- How far `pos` gets: one payload and the bytes before it behind the last descriptor. -/
def InReach (b : Input) (p : Nat) : Prop := p ≤ b.len + 2 ^ 32 + 16

theorem codecBincDecodeHead_of_le {s : CodecDecodeState} (v : Decoded) (hEnd : b.len ≤ s.pos)
    (hReach : InReach b s.pos) :
    ∃ msg, codecBincDecodeHead b s v = .leaf (s.enter.fail msg) v := by
  have hLen := b.len_lt
  rw [InReach] at hReach
  have hStop : b.len < 1 + s.enter.pos := by
    rw [CodecDecodeState.enter_pos]
    omega
  have hSize : 1 + s.enter.pos < 2 ^ 64 := by
    rw [CodecDecodeState.enter_pos]
    omega
  exact ⟨_, by rw [codecBincDecodeHead, codecDecodeStateChk_stop hStop hSize]⟩

theorem lt_of_head {s : CodecDecodeState} {v : Decoded} {step : Step CodecDecodeState Decoded}
    (hReach : InReach b s.pos) (hHead : codecBincDecodeHead b s v = step)
    (h : step.state.err = none) : s.pos < b.len := by
  by_contra hEnd
  obtain ⟨msg, hStop⟩ := codecBincDecodeHead_of_le v (Nat.not_lt.mp hEnd) hReach
  rw [← hHead, hStop] at h
  cases h

theorem headSpec_of_ok {s : CodecDecodeState} {v : Decoded}
    {step : Step CodecDecodeState Decoded} (hReach : InReach b s.pos)
    (hHead : codecBincDecodeHead b s v = step) (h : step.state.err = none) :
    s.pos < b.len ∧ HeadSpec b s v step := by
  have hLt := lt_of_head hReach hHead h
  exact ⟨hLt, hHead ▸ headSpec b s v hLt⟩

theorem headSpec_of_branch {s s' : CodecDecodeState} {v : Decoded} {n l : Nat}
    {c : List Decoded → Decoded} (hReach : InReach b s.pos)
    (hHead : codecBincDecodeHead b s v = .branch s' n l c) :
    s.pos < b.len ∧ HeadSpec b s v (.branch s' n l c) := by
  rcases Nat.lt_or_ge s.pos b.len with hLt | hEnd
  · exact ⟨hLt, hHead ▸ headSpec b s v hLt⟩
  · obtain ⟨msg, hStop⟩ := codecBincDecodeHead_of_le v hEnd hReach
    rw [hStop] at hHead
    cases hHead

theorem codecBincDecodeHead_trace {s : CodecDecodeState} (v : Decoded) (hReach : InReach b s.pos) :
    ∃ ev, (codecBincDecodeHead b s v).state.trace = ev ++ .call s.pos s.failed :: s.trace ∧
      Quiet ev := by
  rcases Nat.lt_or_ge s.pos b.len with hLt | hEnd
  · obtain ⟨ev, hTrace, hQuiet, _⟩ := (headSpec b s v hLt).trace
    exact ⟨ev, hTrace, hQuiet⟩
  · obtain ⟨msg, hStop⟩ := codecBincDecodeHead_of_le v hEnd hReach
    rw [hStop]
    refine ⟨[.fail msg], rfl, ?_⟩
    intro e he
    exact Or.inr ⟨msg, List.mem_singleton.mp he⟩

theorem codecBincDecodeHead_reach {s : CodecDecodeState} (v : Decoded) (hReach : InReach b s.pos) :
    InReach b (codecBincDecodeHead b s v).state.pos := by
  rcases Nat.lt_or_ge s.pos b.len with hLt | hEnd
  · have hPos := (headSpec b s v hLt).pos.2
    have hBounds := payloadEnd_bounds b s.pos
    rw [InReach]
    omega
  · obtain ⟨msg, hStop⟩ := codecBincDecodeHead_of_le v hEnd hReach
    rw [hStop]
    exact hReach

theorem advances (b : Input) :
    Advances b (codecBincDecodeHead b) (fun _ => False) (InReach b) where
  trace s v hReach := codecBincDecodeHead_trace v hReach
  back := by
    intro s v _ p _ hBad
    exact hBad
  err := by
    intro s v hReach hOk
    exact ((headSpec_of_ok hReach rfl hOk).2.ok hOk).1
  inv s v hReach := codecBincDecodeHead_reach v hReach
  leaf := by
    intro s v s' v' hReach hHead hOk
    obtain ⟨hLt, hSpec⟩ := headSpec_of_ok hReach hHead hOk
    exact ⟨hLt, fun _ => hSpec.pos.1⟩
  branch := by
    intro s v s' n l c hReach hHead
    obtain ⟨hLt, hSpec⟩ := headSpec_of_branch hReach hHead
    obtain ⟨_, _, hLimit, _⟩ := hSpec.branch s' n l c rfl
    exact ⟨hLt, hSpec.pos.1, hLimit⟩

/-! ## The size of the tree -/

/-- From `s` to `s'` one call was entered for each of the `k` values stored. -/
def Stored (k : Nat) (s s' : CodecDecodeState) : Prop :=
  s'.err = none → s.err = none ∧ calls s'.trace = calls s.trace + k

theorem stored_sound (b : Input) :
    Sound (codecBincScheme b) (fun s => InReach b s.pos) (fun s => InReach b s.pos)
      (fun s v s' d => v.elems = [] → Stored d.nodes s s')
      (fun s s' ds => Stored (Decoded.nodesList ds) s s') where
  enter _ h := h
  leaf := by
    intro s v s' v' hReach hHead
    have hHead : codecBincDecodeHead b s v = .leaf s' v' := hHead
    have hReach' := codecBincDecodeHead_reach v hReach
    have hCalls := (advances b).calls_head v hReach
    rw [hHead] at hReach' hCalls
    refine ⟨fun hNone hOk => ?_, hReach'⟩
    obtain ⟨_, hSpec⟩ := headSpec_of_ok hReach hHead hOk
    have hElems := (hSpec.leaf s' v' rfl hOk).2.2 hNone
    refine ⟨(hSpec.ok hOk).1, ?_⟩
    rw [Decoded.nodes_eq, hElems, Decoded.nodesList]
    exact calls_ret.trans hCalls
  branch := by
    intro s v s' n l c hReach hHead
    have hHead : codecBincDecodeHead b s v = .branch s' n l c := hHead
    have hReach' := codecBincDecodeHead_reach v hReach
    rwa [hHead] at hReach'
  none _ _ hOk := ⟨hOk, rfl⟩
  snoc := by
    intro s s₁ s₂ ds d hS hR hOk
    obtain ⟨hOk₁, hCalls₁⟩ := hR rfl hOk
    obtain ⟨hOk₀, hCalls₀⟩ := hS hOk₁
    refine ⟨hOk₀, ?_⟩
    rw [hCalls₁, hCalls₀, Decoded.nodesList_append, Decoded.nodesList, Decoded.nodesList,
      Nat.add_zero, Nat.add_assoc]
  next _ h _ := h
  close := by
    intro s v s₁ n l c s₂ ds hReach hHead hS hReach₂ _
    have hHead : codecBincDecodeHead b s v = .branch s₁ n l c := hHead
    have hCalls := (advances b).calls_head v hReach
    obtain ⟨_, hSpec⟩ := headSpec_of_branch hReach hHead
    obtain ⟨_, _, _, hClose⟩ := hSpec.branch s₁ n l c rfl
    rw [hHead] at hCalls
    simp only [Step.state] at hCalls
    refine ⟨fun _ hOk => ?_, hReach₂⟩
    obtain ⟨hOk₁, hElems⟩ := hS hOk
    refine ⟨(hSpec.ok hOk₁).1, ?_⟩
    rw [Decoded.nodes_eq, (hClose ds).2]
    simp only [codecBincScheme, decodeScheme, CodecDecodeState.leave_trace, calls_ret]
    omega

/-! ## Whole runs -/

/-- The decoder returns on every input. Each call that does not fail moves forward, at most one
call is made for each byte and one more, and a tree is no larger than its document. -/
theorem codecBincDecode_progress (b : Input) (type : CodecValueType) (hLen : b.len < intLimit) :
    (∀ fuel, RetsAdvance (codecBincDecode b fuel (.blank type)).state.trace) ∧
      ∃ fuel s d, codecBincDecode b fuel (.blank type) = .done s d ∧ calls s.trace ≤ b.len + 1 ∧
        s.pos ≤ b.len + 2 ^ 32 + 16 ∧ (s.err = none → d.nodes ≤ b.len) := by
  have hInit : InReach b 0 := Nat.zero_le _
  have hClean (tr : List Event) : Clean (fun _ => False) tr := fun _ _ hBad => hBad
  have hRun := fun fuel => (advances b).run hInit fuel (.blank type)
  obtain ⟨fuel, s, d, hDone⟩ :=
    (advances b).returns hLen hInit (.blank type) fun fuel => hClean _
  refine ⟨fun fuel => ((hRun fuel).2 (hClean _)).1, fuel, s, d, hDone, ?_⟩
  obtain ⟨hReach, hEnd⟩ := hRun fuel
  rw [hDone] at hReach hEnd
  obtain ⟨_, hCalls, hOkCalls⟩ := hEnd (hClean _)
  refine ⟨hCalls, hReach, fun hOk => ?_⟩
  have hNodes := (((stored_sound b).node_spec fuel .init (.blank type) hInit).2 s d hDone rfl hOk).2
  have hOkCalls := hOkCalls hOk
  simp only [Outcome.state, CodecDecodeState.init, calls, List.countP_nil] at hNodes hOkCalls
  omega

/-- An array of a map and a string, of which the last byte is missing. -/
theorem codecBincDecode_progress_cut :
    (∀ fuel, RetsAdvance (codecBincDecode
      ⟨[0x66, 0x75, 0x01, 0x65, 0x00, 0x46, 0x61], fun _ => 0, by decide⟩ fuel
      (.blank .unset)).state.trace) ∧
      ∃ fuel s d, codecBincDecode
        ⟨[0x66, 0x75, 0x01, 0x65, 0x00, 0x46, 0x61], fun _ => 0, by decide⟩ fuel
        (.blank .unset) = .done s d ∧
        calls s.trace ≤ 7 + 1 ∧ s.pos ≤ 7 + 2 ^ 32 + 16 ∧ (s.err = none → d.nodes ≤ 7) :=
  codecBincDecode_progress ⟨[0x66, 0x75, 0x01, 0x65, 0x00, 0x46, 0x61], fun _ => 0, by decide⟩
    .unset (by decide)

end CcCommon.Codec.Binc
