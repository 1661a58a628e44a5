import CcCommon.Codec.Binc.Progress

/-! # Which runs of codec_binc_decode stay inside the input

Only the descriptor of a call is checked, so a call leaves the buffer where
the bytes behind its descriptor are not all there. A payload that is not
there is found out by the next call, and the last call has none. -/

namespace CcCommon.Codec.Binc

open Util Lib.Descent

set_option autoImplicit false

/-- The call at `p` reads bytes behind the buffer. -/
def ReadsPast (b : Input) (p : Nat) : Prop := p < b.len ∧ b.len < p + fixedBytes b p

/-- The payload of the call at `p` is not all in the buffer. -/
def PayloadPast (b : Input) (p : Nat) : Prop := p < b.len ∧ b.len < payloadEnd b p

/-- The call at `p` claims more bytes than remain, each element of a container being one or more. -/
def Overclaims (b : Input) (p : Nat) : Prop :=
  p < b.len ∧ b.len < payloadEnd b p + elemCount b p

/-- Every byte read lies in the buffer, a claim on more bytes than remain is reported, and at the
end of a run without an error every payload and the position lie in the buffer. -/
def InBounds (b : Input) (run : Outcome CodecDecodeState Decoded) : Prop :=
  ReadsIn b.len run.state.trace ∧
    (∀ s d, run = .done s d → ¬ NoCallAt (Overclaims b) s.trace → s.err ≠ none) ∧
    ∀ s d, run = .done s d → s.err = none → d.SlicesIn b.len ∧ s.pos ≤ b.len

/-- Where the newest call of a run was entered. -/
def lastCall : List Event → Option Nat
  | [] => none
  | .call p _ :: _ => some p
  | _ :: tr => lastCall tr

/-- No call reads past the end, and if the run returned its last call has its payload. -/
def StaysInside (b : Input) (run : Outcome CodecDecodeState Decoded) : Prop :=
  NoCallAt (ReadsPast b) run.state.trace ∧
    ∀ s d p, run = .done s d → lastCall s.trace = some p → ¬ PayloadPast b p

section Trace

variable {p q : Nat} {f : Bool} {ev tr : List Event}

theorem Quiet.lastCall (h : Quiet ev) : lastCall (ev ++ tr) = Binc.lastCall tr := by
  induction ev with
  | nil => rfl
  | cons e ev ih =>
    have hRest : Quiet ev := fun e he => h e (List.mem_cons_of_mem _ he)
    rcases h e List.mem_cons_self with ⟨i, rfl⟩ | ⟨msg, rfl⟩
    · exact ih hRest
    · exact ih hRest

theorem mem_of_lastCall (h : lastCall tr = some p) : ∃ f, .call p f ∈ tr := by
  induction tr with
  | nil => cases h
  | cons e tr ih =>
    cases e with
    | call q f =>
      cases h
      exact ⟨f, List.mem_cons_self⟩
    | read i => exact (ih h).imp fun f hf => List.mem_cons_of_mem _ hf
    | fail msg => exact (ih h).imp fun f hf => List.mem_cons_of_mem _ hf
    | ret q r f => exact (ih h).imp fun f hf => List.mem_cons_of_mem _ hf

end Trace

section Run

variable {b : Input}

/-! ## The reads and the position -/

/-- What holds at any stop of a run: `pos` is where the last call left it. -/
structure Walked (b : Input) (s : CodecDecodeState) : Prop where
  reach : InReach b s.pos
  reads : ReadsIn b.len s.trace ↔ NoCallAt (ReadsPast b) s.trace
  passed : s.err = none → ∀ p f, .call p f ∈ s.trace → p < b.len ∧ payloadEnd b p ≤ s.pos
  first : lastCall s.trace = none → s.pos = 0
  ok : ∀ p, lastCall s.trace = some p → s.err = none → s.pos = payloadEnd b p
  failed : ∀ p, lastCall s.trace = some p → s.err ≠ none → p < b.len → payloadLen b p = 0

theorem readsIn_head {p : Nat} {ev : List Event} (hPos : p < b.len)
    (h : ∀ i, .read i ∈ ev ↔ p ≤ i ∧ i < p + fixedBytes b p) :
    ReadsIn b.len ev ↔ ¬ ReadsPast b p := by
  have hFixed := fixedBytes_bounds b p
  rw [ReadsPast]
  constructor
  · rintro hReads ⟨_, hPast⟩
    have := hReads (p + fixedBytes b p - 1) ((h _).mpr (by omega))
    omega
  · intro hNot i hi
    have := (h i).mp hi
    omega

theorem Walked.stop {s : CodecDecodeState} (h : Walked b s)
    (hEnd : b.len ≤ s.pos) (msg : String) : Walked b (s.enter.fail msg) where
  reach := h.reach
  reads := by
    have hNot : ¬ ReadsPast b s.pos := by
      rintro ⟨hLt, _⟩
      omega
    simp only [CodecDecodeState.fail_trace, CodecDecodeState.enter_trace, readsIn_fail,
      readsIn_call, h.reads]
    constructor
    · intro hTrace p f hp
      rcases List.mem_cons.mp hp with hp | hp
      · cases hp
      · exact (noCallAt_call.mpr ⟨hNot, hTrace⟩) p f hp
    · intro hTrace p f hp
      exact hTrace p f (List.mem_cons_of_mem _ (List.mem_cons_of_mem _ hp))
  passed hErr := by
    cases hErr
  first hNone := by
    cases hNone
  ok _ _ hErr := by
    cases hErr
  failed := by
    rintro p ⟨⟩ _ hLt
    omega

theorem Walked.step {s : CodecDecodeState} {v : Decoded}
    {step : Step CodecDecodeState Decoded} (h : Walked b s) (hOk : s.err = none)
    (hPos : s.pos < b.len) (hSpec : HeadSpec b s v step) : Walked b step.state := by
  obtain ⟨ev, hTrace, hQuiet, hReads⟩ := hSpec.trace
  have hLast : lastCall step.state.trace = some s.pos := by
    rw [hTrace, Quiet.lastCall hQuiet]
    rfl
  constructor
  · have hReach := hSpec.pos.2
    have hBounds := payloadEnd_bounds b s.pos
    rw [InReach]
    omega
  · rw [hTrace, readsIn_append, readsIn_call, hQuiet.noCallAt, noCallAt_call,
      readsIn_head hPos (hReads hOk), h.reads]
  · intro hErr p f hp
    rw [(hSpec.ok hErr).2]
    have hBounds := payloadEnd_bounds b s.pos
    rw [hTrace] at hp
    rcases List.mem_append.mp hp with hp | hp
    · exact absurd hp hQuiet.no_call
    · rcases List.mem_cons.mp hp with hp | hp
      · obtain ⟨rfl, _⟩ := Event.call.inj hp
        exact ⟨hPos, Nat.le_refl _⟩
      · obtain ⟨hLt, hEnd⟩ := h.passed hOk p f hp
        exact ⟨hLt, by omega⟩
  · intro hNone
    rw [hLast] at hNone
    cases hNone
  · intro p hp hErr
    rw [hLast] at hp
    cases hp
    exact (hSpec.ok hErr).2
  · intro p hp hErr _
    rw [hLast] at hp
    cases hp
    exact hSpec.failed hErr hOk

theorem Walked.head {s : CodecDecodeState} (h : Walked b s) (hOk : s.err = none) (v : Decoded) :
    Walked b (codecBincDecodeHead b s v).state := by
  rcases Nat.lt_or_ge s.pos b.len with hPos | hEnd
  · exact h.step hOk hPos (headSpec b s v hPos)
  · obtain ⟨msg, hStop⟩ := codecBincDecodeHead_of_le v hEnd h.reach
    rw [hStop]
    exact h.stop hEnd msg

theorem Walked.leave {s s' : CodecDecodeState} (h : Walked b s') : Walked b (s.leave s') where
  reach := h.reach
  reads := by
    rw [CodecDecodeState.leave_trace, readsIn_ret, noCallAt_ret]
    exact h.reads
  passed := by
    intro hErr p f hp
    rw [CodecDecodeState.leave_trace] at hp
    rcases List.mem_cons.mp hp with hp | hp
    · cases hp
    · exact h.passed hErr p f hp
  first := h.first
  ok := h.ok
  failed := h.failed

/-! ## The tree -/

def CountPast (b : Input) (p : Nat) : Prop :=
  elemCount b p ≠ 0 ∧ b.len < payloadEnd b p + elemCount b p

/-- From `s` to `s'` the payloads `rs` were stored by `k` calls one after the other. -/
structure Segment (b : Input) (rs : List SliceRef) (k : Nat) (s s' : CodecDecodeState) : Prop where
  ok : s.err = none
  slices : ∀ r ∈ rs, r.In s'.pos
  move : s.pos + k ≤ s'.pos
  room : k ≠ 0 → s.pos + k ≤ b.len
  trace : ∃ ev, s'.trace = ev ++ s.trace ∧ NoCallAt (CountPast b) ev

theorem SliceRef.In.mono {m n : Nat} {r : SliceRef} (h : r.In m) (hmn : m ≤ n) : r.In n := by
  obtain ⟨off, hOff, hLe⟩ := h
  exact ⟨off, hOff, Nat.le_trans hLe hmn⟩

theorem Segment.nil {s : CodecDecodeState} (hOk : s.err = none) : Segment b [] 0 s s where
  ok := hOk
  slices := by
    intro r hr
    cases hr
  move := Nat.le_refl _
  room hk := absurd rfl hk
  trace := ⟨[], rfl, noCallAt_nil⟩

theorem Segment.append {s s₁ s₂ : CodecDecodeState} {rs ts : List SliceRef} {j k : Nat}
    (h : Segment b rs j s s₁) (h' : Segment b ts k s₁ s₂) : Segment b (rs ++ ts) (j + k) s s₂ where
  ok := h.ok
  slices := by
    have hMove := h'.move
    intro r hr
    rcases List.mem_append.mp hr with hr | hr
    · exact SliceRef.In.mono (h.slices r hr) (by omega)
    · exact h'.slices r hr
  move := by
    have hMove := h.move
    have hMove' := h'.move
    omega
  room := by
    intro _
    have hMove := h.move
    rcases Nat.eq_zero_or_pos k with rfl | hk
    · exact h.room (by omega)
    · have hRoom := h'.room (by omega)
      omega
  trace := by
    obtain ⟨ev, hTrace, hNone⟩ := h.trace
    obtain ⟨ev', hTrace', hNone'⟩ := h'.trace
    exact ⟨ev' ++ ev, by rw [hTrace', hTrace, List.append_assoc], noCallAt_append.mpr ⟨hNone', hNone⟩⟩

theorem Segment.call {s s₁ s₂ : CodecDecodeState} {v : Decoded} {rs ts : List SliceRef} {k : Nat}
    {step : Step CodecDecodeState Decoded} (hSpec : HeadSpec b s v step) (hState : step.state = s₁)
    (hPos : s.pos < b.len) (hCount : elemCount b s.pos = k)
    (hSlices : ∀ r ∈ rs, r.In (payloadEnd b s.pos)) (h : Segment b ts k s₁ s₂) :
    Segment b (rs ++ ts) 1 s (s.leave s₂) := by
  obtain ⟨ev, hTrace, hQuiet, _⟩ := hSpec.trace
  obtain ⟨ev', hTrace', hNone⟩ := h.trace
  obtain ⟨hOk, hEnd⟩ := hSpec.ok (hState ▸ h.ok)
  have hStrict := hSpec.pos.1
  have hMove := h.move
  rw [hState] at hTrace hEnd hStrict
  have hHere : ¬ CountPast b s.pos := by
    rintro ⟨hMany, hPast⟩
    have hRoom := h.room (hCount ▸ hMany)
    omega
  constructor
  · exact hOk
  · intro r hr
    rcases List.mem_append.mp hr with hr | hr
    · exact SliceRef.In.mono (hSlices r hr) (by simp only [CodecDecodeState.leave_pos]; omega)
    · exact h.slices r hr
  · simp only [CodecDecodeState.leave_pos]
    omega
  · intro _
    omega
  · refine ⟨.ret s.pos s₂.pos s₂.failed :: (ev' ++ (ev ++ [.call s.pos s.failed])), ?_, ?_⟩
    · rw [CodecDecodeState.leave_trace, hTrace', hTrace]
      simp
    · rw [noCallAt_ret, noCallAt_append, hQuiet.noCallAt, noCallAt_call]
      exact ⟨hNone, hHere, noCallAt_nil⟩

theorem sound (b : Input) : Sound (codecBincScheme b) (fun s => s.err = none ∧ Walked b s)
    (Walked b)
    (fun s v s' d => v.slices = [] → s'.err = none → Segment b d.slices 1 s s')
    (fun s s' ds => s'.err = none → Segment b (Decoded.slicesList ds) ds.length s s') where
  enter _ h := h.2
  leaf := by
    rintro s v s' v' ⟨hOk, hWalked⟩ hHead
    have hHead : codecBincDecodeHead b s v = .leaf s' v' := hHead
    have hAfter := hWalked.head hOk v
    rw [hHead] at hAfter
    refine ⟨fun hNone hOk' => ?_, hAfter.leave⟩
    obtain ⟨hPos, hSpec⟩ := headSpec_of_ok hWalked.reach hHead hOk'
    obtain ⟨hCount, hStores, _⟩ := hSpec.leaf s' v' rfl hOk'
    have hCall := Segment.call hSpec rfl hPos hCount (hStores hNone) (Segment.nil hOk')
    rwa [List.append_nil] at hCall
  branch := by
    rintro s v s' n l c ⟨hOk, hWalked⟩ hHead
    have hHead : codecBincDecodeHead b s v = .branch s' n l c := hHead
    have hAfter := hWalked.head hOk v
    obtain ⟨_, hSpec⟩ := headSpec_of_branch hWalked.reach hHead
    rw [hHead] at hAfter
    exact ⟨(hSpec.branch s' n l c rfl).1, hAfter⟩
  none _ _ hOk := Segment.nil hOk
  snoc := by
    intro s s₁ s₂ ds d hS hR hOk
    have hLast := hR rfl hOk
    have hBoth := (hS hLast.ok).append hLast
    rwa [← List.append_nil d.slices, ← Decoded.slicesList, ← Decoded.slicesList,
      ← Decoded.slicesList_append, ← List.length_singleton (a := d), ← List.length_append] at hBoth
  next s hWalked hOk := ⟨s.failed_eq_false_iff.mp hOk, hWalked⟩
  close := by
    rintro s v s₁ n l c s₂ ds ⟨_, hWalked⟩ hHead hS hJ hCount
    have hHead : codecBincDecodeHead b s v = .branch s₁ n l c := hHead
    obtain ⟨hPos, hSpec⟩ := headSpec_of_branch hWalked.reach hHead
    obtain ⟨_, hElems, _, hClose⟩ := hSpec.branch s₁ n l c rfl
    refine ⟨fun _ hOk => ?_, hJ.leave⟩
    have hLength : elemCount b s.pos = ds.length := by
      rcases hCount with hCount | hFailed
      · rw [← hElems, hCount]
      · exact absurd hOk (CodecDecodeState.err_of_failed hFailed)
    have hCall : Segment b ([] ++ Decoded.slicesList ds) 1 s (s.leave s₂) :=
      Segment.call hSpec rfl hPos hLength (by simp) (hS hOk)
    rwa [(hClose ds).1]

/-! ## Whole runs -/

variable {fuel : Nat} {type : CodecValueType} {s : CodecDecodeState} {d : Decoded}

theorem entered_init (b : Input) : CodecDecodeState.init.err = none ∧ Walked b .init := by
  refine ⟨rfl, Nat.zero_le _, by simp [CodecDecodeState.init], ?_, fun _ => rfl, ?_, ?_⟩
  · intro _ p f hp
    cases hp
  · intro p hp
    cases hp
  · intro p hp
    cases hp

theorem walked_run (b : Input) (fuel : Nat) (v : Decoded) :
    Walked b (codecBincDecode b fuel v).state :=
  ((sound b).node_spec fuel .init v (entered_init b)).1

theorem walked_done (hRun : codecBincDecode b fuel (.blank type) = .done s d) : Walked b s := by
  have hWalked := walked_run b fuel (.blank type)
  rwa [hRun] at hWalked

theorem segment_done (hRun : codecBincDecode b fuel (.blank type) = .done s d)
    (hOk : s.err = none) : Segment b d.slices 1 .init s :=
  ((sound b).node_spec fuel .init (.blank type) (entered_init b)).2 s d hRun rfl hOk

/-- Where the last call has its payload, a run ends inside the buffer. -/
theorem pos_le_of_last (hRun : codecBincDecode b fuel (.blank type) = .done s d)
    (hOk : s.err = none) (hLast : ∀ p, lastCall s.trace = some p → ¬ PayloadPast b p) :
    s.pos ≤ b.len := by
  have hWalked := walked_done hRun
  cases hCall : lastCall s.trace with
  | none =>
    rw [hWalked.first hCall]
    exact Nat.zero_le _
  | some p =>
    obtain ⟨f, hMem⟩ := mem_of_lastCall hCall
    have hPos := hWalked.ok p hCall hOk
    have hLt := (hWalked.passed hOk p f hMem).1
    exact Nat.not_lt.mp fun hPast => hLast p hCall ⟨hLt, hPos ▸ hPast⟩

theorem inBounds_of_staysInside (h : StaysInside b (codecBincDecode b fuel (.blank type))) :
    InBounds b (codecBincDecode b fuel (.blank type)) := by
  obtain ⟨hNone, hLast⟩ := h
  refine ⟨(walked_run b fuel _).reads.mpr hNone, fun s d hRun hOver hOk => ?_, fun s d hRun hOk => ?_⟩
  · have hLe := pos_le_of_last hRun hOk fun p => hLast s d p hRun
    obtain ⟨ev, hTrace, hCounts⟩ := (segment_done hRun hOk).trace
    rw [CodecDecodeState.init, List.append_nil] at hTrace
    apply hOver
    rintro p f hCall ⟨hLt, hPast⟩
    have hPassed := ((walked_done hRun).passed hOk p f hCall).2
    exact hCounts p f (hTrace ▸ hCall) ⟨by omega, hPast⟩
  · have hLe := pos_le_of_last hRun hOk fun p => hLast s d p hRun
    exact ⟨fun r hr => SliceRef.In.mono ((segment_done hRun hOk).slices r hr) hLe, hLe⟩

theorem staysInside_of_inBounds (h : InBounds b (codecBincDecode b fuel (.blank type))) :
    StaysInside b (codecBincDecode b fuel (.blank type)) := by
  obtain ⟨hReads, _, hSlices⟩ := h
  have hNone := (walked_run b fuel _).reads.mp hReads
  refine ⟨hNone, fun s d p hRun hLast hPast => ?_⟩
  obtain ⟨hLt, hPast⟩ := hPast
  by_cases hOk : s.err = none
  · have hInside := (hSlices s d hRun hOk).2
    have hPos := (walked_done hRun).ok p hLast hOk
    omega
  · -- the last call failed, so what is past the end are the bytes it read
    have hEmpty := (walked_done hRun).failed p hLast hOk hLt
    obtain ⟨f, hCall⟩ := mem_of_lastCall hLast
    rw [payloadEnd, hEmpty] at hPast
    rw [hRun] at hNone
    exact hNone p f hCall ⟨hLt, hPast⟩

end Run

/-- A run stays inside the buffer if and only if no call reads past the end and the last call
has its payload. -/
theorem codecBincDecode_inBounds_iff (b : Input) (fuel : Nat) (type : CodecValueType) :
    InBounds b (codecBincDecode b fuel (.blank type)) ↔
      StaysInside b (codecBincDecode b fuel (.blank type)) :=
  ⟨staysInside_of_inBounds, inBounds_of_staysInside⟩

/-- An integer whose digit is the byte behind the buffer; a string of eleven bytes of which
none is there. -/
theorem not_inBounds_string :
    (¬ InBounds ⟨[0x10], fun _ => 0, by decide⟩
      (codecBincDecode ⟨[0x10], fun _ => 0, by decide⟩ 1 (.blank .unset))) ∧
    ¬ InBounds ⟨[0x4F], fun _ => 0, by decide⟩
      (codecBincDecode ⟨[0x4F], fun _ => 0, by decide⟩ 1 (.blank .unset)) := by
  constructor
  · rintro ⟨hReads, _⟩
    exact absurd (hReads 1 (by decide)) (by decide)
  · rintro ⟨_, _, hEnd⟩
    obtain ⟨_, hPos⟩ := hEnd _ _ rfl rfl
    exact absurd hPos (by decide)

end CcCommon.Codec.Binc
