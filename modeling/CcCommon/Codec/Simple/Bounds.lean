import CcCommon.Codec.Simple.Head

/-! # Which runs of codec_simple_decode stay inside the input

Every byte outside the buffer that a run reads, and every payload outside it
that a run returns, comes from a call at an exceptional position. -/

namespace CcCommon.Codec.Simple

open Util Lib.Descent

set_option autoImplicit false

/-- Every byte read, and at the end of a run without an error every payload and the
position, lies in the buffer. -/
def InBounds (b : Input) (run : Outcome CodecDecodeState Decoded) : Prop :=
  ReadsIn b.len run.state.trace ∧
    ∀ s d, run = .done s d → s.err = none → d.SlicesIn b.len ∧ s.pos ≤ b.len

/-- No call entered an extension whose tag is past the end, and no call of a run
that ended without an error a descriptor whose length wraps around. -/
def AvoidsExceptions (b : Input) (run : Outcome CodecDecodeState Decoded) : Prop :=
  NoCallAt (ExtTagPastEnd b) run.state.trace ∧
    ∀ s d, run = .done s d → s.err = none → NoCallAt (Wrapped b) s.trace

section Run

variable {b : Input}

/-- So far the bytes outside the buffer were read at exceptional calls. -/
def ReadsAtTags (b : Input) (s : CodecDecodeState) : Prop :=
  s.pos ≤ b.len ∧ (ReadsIn b.len s.trace ↔ NoCallAt (ExtTagPastEnd b) s.trace)

/-- The payloads `rs` were stored between `s` and `s'`. -/
def SlicesAtWraps (b : Input) (s s' : CodecDecodeState) (rs : List SliceRef) : Prop :=
  s'.err = none → s.err = none ∧ ∃ ev, s'.trace = ev ++ s.trace ∧
    ((∀ r ∈ rs, r.In b.len) ↔ NoCallAt (Wrapped b) ev)

theorem ReadsAtTags.head {s : CodecDecodeState} {step : Step CodecDecodeState Decoded}
    (h : ReadsAtTags b s) (hSpec : HeadSpec b s step) : ReadsAtTags b step.state := by
  obtain ⟨ev, hTrace, hQuiet, hReads⟩ := hSpec.trace
  refine ⟨hSpec.inside, ?_⟩
  rw [hTrace, readsIn_append, readsIn_call, hQuiet.noCallAt, noCallAt_call, hReads, h.2]

theorem ReadsAtTags.leave {s s' : CodecDecodeState} (h : ReadsAtTags b s') :
    ReadsAtTags b (s.leave s') := by
  refine ⟨h.1, ?_⟩
  rw [CodecDecodeState.leave_trace, readsIn_ret, noCallAt_ret]
  exact h.2

theorem SlicesAtWraps.snoc {s s₁ s₂ : CodecDecodeState} {rs ts : List SliceRef}
    (h : SlicesAtWraps b s s₁ rs) (h' : SlicesAtWraps b s₁ s₂ ts) :
    SlicesAtWraps b s s₂ (rs ++ ts) := by
  intro hOk
  obtain ⟨hOk₁, ev', hTrace', hIff'⟩ := h' hOk
  obtain ⟨hOk₀, ev, hTrace, hIff⟩ := h hOk₁
  refine ⟨hOk₀, ev' ++ ev, by rw [hTrace', hTrace, List.append_assoc], ?_⟩
  rw [noCallAt_append, ← hIff, ← hIff', List.forall_mem_append, and_comm]

theorem SlicesAtWraps.call {s s₁ s₂ : CodecDecodeState} {rs ts : List SliceRef}
    {step : Step CodecDecodeState Decoded} (hSpec : HeadSpec b s step) (hState : step.state = s₁)
    (hHere : s₁.err = none → ((∀ r ∈ rs, r.In b.len) ↔ ¬ Wrapped b s.pos))
    (h : SlicesAtWraps b s₁ s₂ ts) : SlicesAtWraps b s (s.leave s₂) (rs ++ ts) := by
  intro hOk
  obtain ⟨hOk₁, ev', hTrace', hIff'⟩ := h hOk
  obtain ⟨ev, hTrace, hQuiet, _⟩ := hSpec.trace
  have hErr := hSpec.err
  rw [hState] at hTrace hErr
  refine ⟨hErr hOk₁, .ret s.pos s₂.pos s₂.failed :: (ev' ++ (ev ++ [.call s.pos s.failed])), ?_, ?_⟩
  · rw [CodecDecodeState.leave_trace, hTrace', hTrace]
    simp
  · rw [noCallAt_ret, noCallAt_append, hQuiet.noCallAt, noCallAt_call, ← hIff',
      List.forall_mem_append, hHere hOk₁]
    simp [and_comm]

theorem sound (b : Input) : Sound (codecSimpleScheme b) (ReadsAtTags b) (ReadsAtTags b)
    (fun s _ s' d => SlicesAtWraps b s s' d.slices)
    (fun s s' ds => SlicesAtWraps b s s' (Decoded.slicesList ds)) where
  enter _ h := h
  leaf := by
    intro s v s' v' h hHead
    have hSpec := headSpec b s v h.1
    have hHead : codecSimpleDecodeHead b s v = .leaf s' v' := hHead
    rw [hHead] at hSpec
    have hSame : SlicesAtWraps b s' s' [] := fun hOk => ⟨hOk, [], rfl, by simp⟩
    refine ⟨?_, (h.head hSpec).leave⟩
    have hCall := hSame.call hSpec rfl fun hOk => (hSpec.leaf s' v' rfl hOk).1
    rwa [List.append_nil] at hCall
  branch := by
    intro s v s' n l c h hHead
    have hSpec := headSpec b s v h.1
    have hHead : codecSimpleDecodeHead b s v = .branch s' n l c := hHead
    rw [hHead] at hSpec
    exact h.head hSpec
  none := by
    intro s h hOk
    exact ⟨hOk, [], rfl, by simp [Decoded.slicesList]⟩
  snoc := by
    intro s s₁ s₂ ds d hS hR
    have hBoth := hS.snoc hR
    rwa [← List.append_nil d.slices, ← Decoded.slicesList, ← Decoded.slicesList,
      ← Decoded.slicesList_append] at hBoth
  next _ h _ := h
  close := by
    intro s v s₁ n l c s₂ ds h hHead hS hJ _
    have hSpec := headSpec b s v h.1
    have hHead : codecSimpleDecodeHead b s v = .branch s₁ n l c := hHead
    rw [hHead] at hSpec
    obtain ⟨_, _, hWrap, hClose⟩ := hSpec.branch s₁ n l c rfl
    refine ⟨?_, hJ.leave⟩
    have hCall : SlicesAtWraps b s (s.leave s₂) ([] ++ Decoded.slicesList ds) :=
      hS.call hSpec rfl fun _ => by simp [hWrap]
    rwa [List.nil_append, ← hClose] at hCall

end Run

/-- A run stays inside the buffer if and only if it avoids the exceptional positions. -/
theorem codecSimpleDecode_inBounds_iff (b : Input) (fuel : Nat) (v : Decoded) :
    InBounds b (codecSimpleDecode b fuel v) ↔ AvoidsExceptions b (codecSimpleDecode b fuel v) := by
  have hStart : ReadsAtTags b .init := ⟨Nat.zero_le _, by simp [CodecDecodeState.init]⟩
  obtain ⟨⟨_, hReads⟩, hDone⟩ := (sound b).node_spec fuel .init v hStart
  have hEnd (s : CodecDecodeState) (d : Decoded) (hRun : codecSimpleDecode b fuel v = .done s d)
      (hOk : s.err = none) :
      s.pos ≤ b.len ∧ (d.SlicesIn b.len ↔ NoCallAt (Wrapped b) s.trace) := by
    obtain ⟨_, ev, hTrace, hIff⟩ := hDone s d hRun hOk
    have hInside := ((sound b).node_spec fuel .init v hStart).1.1
    have hState : (node (codecSimpleScheme b) fuel .init v).state = s := by
      rw [show node (codecSimpleScheme b) fuel .init v = .done s d from hRun]
      rfl
    rw [hState] at hInside
    rw [CodecDecodeState.init, List.append_nil] at hTrace
    rw [hTrace]
    exact ⟨hInside, hIff⟩
  constructor
  · rintro ⟨hIn, hSlices⟩
    exact ⟨hReads.mp hIn, fun s d hRun hOk => (hEnd s d hRun hOk).2.mp (hSlices s d hRun hOk).1⟩
  · rintro ⟨hTags, hWraps⟩
    exact ⟨hReads.mpr hTags, fun s d hRun hOk =>
      ⟨(hEnd s d hRun hOk).2.mpr (hWraps s d hRun hOk), (hEnd s d hRun hOk).1⟩⟩

/-- A lone extension descriptor has the tag read behind the buffer; a string length of eight
bytes that starts with 255 is taken for `2 ^ 64 - 1`. -/
theorem not_inBounds_extension :
    (¬ InBounds ⟨[249], fun _ => 0, by decide⟩
      (codecSimpleDecode ⟨[249], fun _ => 0, by decide⟩ 1 .zero)) ∧
    ¬ InBounds ⟨[220, 255, 0, 0, 0, 0, 0, 0, 0], fun _ => 0, by decide⟩
      (codecSimpleDecode ⟨[220, 255, 0, 0, 0, 0, 0, 0, 0], fun _ => 0, by decide⟩ 1 .zero) := by
  constructor
  · rintro ⟨hReads, _⟩
    exact absurd (hReads 1 (by decide)) (by decide)
  · rintro ⟨_, hEnd⟩
    obtain ⟨hSlices, _⟩ := hEnd _ _ rfl rfl
    obtain ⟨off, hOff, hLe⟩ := hSlices _ List.mem_cons_self
    cases hOff
    exact absurd hLe (by decide)

end CcCommon.Codec.Simple
