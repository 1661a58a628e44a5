import CcCommon.Codec.Binc.DecodeSteps
import CcCommon.Codec.Trace

/-! # What the head of codec_binc_decode_r can do

The bytes a call reads are fixed by its descriptor and, for a pruned float,
by the byte behind it. No bound is checked for them, and none for a payload,
which `pos` is moved past. -/

namespace CcCommon.Codec.Binc

open Util Lib.Bytes Lib.Descent

set_option autoImplicit false

/-! ## The extent of a call -/

def intBytes (vs : Nat) : Nat := if vs ≤ 7 then vs + 1 else 0

def lenBytes (vs : Nat) : Nat := if vs ≤ 3 then vs + 1 else 0

def floatPreBytes (b : Input) (q vs defLen : Nat) : Nat :=
  if vs &&& 0x8 = 0 then defLen
  else if (b.get q).toNat > 8 then 1 else 1 + (b.get q).toNat

def floatBytes (b : Input) (q vs : Nat) : Nat :=
  match vs &&& 0x7 with
  | 1 => floatPreBytes b q vs 4
  | 2 => floatPreBytes b q vs 8
  | _ => 0

/-- How many bytes a branch of the switch reads at `q`. -/
def branchBytes (b : Input) (q vs : Nat) : CodecBincDescType → Nat
  | .posint | .negint => intBytes vs
  | .float => floatBytes b q vs
  | .string | .symbol | .bytearray | .array | .map => lenBytes vs
  | .customext => lenBytes vs + 1
  | _ => 0

def branchPayload (b : Input) (q vs : Nat) : CodecBincDescType → Nat
  | .string | .symbol | .bytearray | .customext => lenAt b q vs
  | _ => 0

def branchCount (b : Input) (q vs : Nat) : CodecBincDescType → Nat
  | .array => lenAt b q vs
  | .map => 2 * lenAt b q vs
  | _ => 0

/-- How many bytes the call at `p` reads. -/
def fixedBytes (b : Input) (p : Nat) : Nat :=
  1 + branchBytes b (p + 1) (nibble (b.get p)) (family (b.get p))

def payloadLen (b : Input) (p : Nat) : Nat :=
  branchPayload b (p + 1) (nibble (b.get p)) (family (b.get p))

def payloadEnd (b : Input) (p : Nat) : Nat := p + fixedBytes b p + payloadLen b p

/-- How many calls follow inside the call at `p`. -/
def elemCount (b : Input) (p : Nat) : Nat :=
  branchCount b (p + 1) (nibble (b.get p)) (family (b.get p))

theorem floatPreBytes_le (b : Input) (q vs : Nat) {defLen : Nat} (h : defLen ≤ 8) :
    floatPreBytes b q vs defLen ≤ 9 := by
  rw [floatPreBytes]
  split
  · omega
  · split <;> omega

theorem floatBytes_one (b : Input) (q : Nat) {vs : Nat} (h : vs &&& 0x7 = 1) :
    floatBytes b q vs = floatPreBytes b q vs 4 := by
  simp only [floatBytes, h]

theorem floatBytes_two (b : Input) (q : Nat) {vs : Nat} (h : vs &&& 0x7 = 2) :
    floatBytes b q vs = floatPreBytes b q vs 8 := by
  simp only [floatBytes, h]

theorem floatBytes_other (b : Input) (q : Nat) {vs : Nat} (hOne : vs &&& 0x7 ≠ 1)
    (hTwo : vs &&& 0x7 ≠ 2) : floatBytes b q vs = 0 := by
  rw [floatBytes]
  split
  · exact absurd ‹_› hOne
  · exact absurd ‹_› hTwo
  · rfl

theorem floatBytes_le (b : Input) (q vs : Nat) : floatBytes b q vs ≤ 9 := by
  rw [floatBytes]
  split
  · exact floatPreBytes_le b q vs (by decide)
  · exact floatPreBytes_le b q vs (by decide)
  · omega

theorem branchBytes_le (b : Input) (q vs : Nat) (vd : CodecBincDescType) :
    branchBytes b q vs vd ≤ 9 := by
  have hFloat := floatBytes_le b q vs
  have hInt : intBytes vs ≤ 8 := by rw [intBytes]; split <;> omega
  have hLen : lenBytes vs ≤ 4 := by rw [lenBytes]; split <;> omega
  cases vd <;> simp only [branchBytes] <;> omega

theorem fixedBytes_bounds (b : Input) (p : Nat) : 1 ≤ fixedBytes b p ∧ fixedBytes b p ≤ 10 := by
  have hBranch := branchBytes_le b (p + 1) (nibble (b.get p)) (family (b.get p))
  rw [fixedBytes]
  omega

theorem payloadLen_lt (b : Input) (p : Nat) : payloadLen b p < 2 ^ 32 := by
  have hLen := lenAt_lt (b := b) (nibble_lt (b.get p)) (p + 1)
  rw [payloadLen]
  cases family (b.get p) <;> simp only [branchPayload] <;> omega

theorem payloadEnd_bounds (b : Input) (p : Nat) :
    p + fixedBytes b p ≤ payloadEnd b p ∧ payloadEnd b p < p + 2 ^ 32 + 10 := by
  have hFixed := fixedBytes_bounds b p
  have hPayload := payloadLen_lt b p
  rw [payloadEnd]
  omega

/-! ## Scans -/

section Scans

variable {b : Input} {s : CodecDecodeState}

theorem copyToX_scan {limit k : Nat} (h : s.pos + k < 2 ^ 64) : Scan s (copyToX b s limit k) k :=
  ⟨(Scan.touch_advance h).trace, (Scan.touch_advance h).pos, id⟩

theorem codecBincDecodeUint64_scan (h : s.pos + 8 < 2 ^ 64) (vs : Nat) :
    Scan s (codecBincDecodeUint64 b s vs).1 (intBytes vs) := by
  rw [intBytes]
  split
  · rename_i hWidth
    rw [codecBincDecodeUint64_eq hWidth]
    exact copyToX_scan (by omega)
  · rename_i hWide
    rw [codecBincDecodeUint64, if_pos (by omega)]
    exact (Scan.refl s).fail _

theorem codecBincDecodeLen_scan (h : s.pos + 8 < 2 ^ 64) (vs : Nat) :
    ∃ s', codecBincDecodeLen b s vs = (s', lenAt b s.pos vs) ∧ Scan s s' (lenBytes vs) ∧
      s'.err = s.err := by
  rw [lenBytes]
  split
  · rename_i hWide
    rw [codecBincDecodeLen_wide hWide]
    exact ⟨_, rfl, copyToX_scan (by omega), rfl⟩
  · rename_i hInline
    rw [codecBincDecodeLen_inline (by omega)]
    exact ⟨s, rfl, Scan.refl s, rfl⟩

theorem codecBincDecodeFloatPre_scan (h : s.pos + 9 < 2 ^ 64) (vs : Nat) {defLen : Nat}
    (hLen : defLen ≤ 8) :
    Scan s (codecBincDecodeFloatPre b s vs defLen) (floatPreBytes b s.pos vs defLen) := by
  let t : CodecDecodeState := { s with x := List.replicate 8 0 }
  have hNext : Scan t t.next 1 := Scan.next (show s.pos + 1 < 2 ^ 64 by omega)
  have hPos : t.next.pos = s.pos + 1 := hNext.pos
  -- the scratch is no part of what a scan says
  suffices hScan : Scan t (codecBincDecodeFloatPre b s vs defLen) (floatPreBytes b s.pos vs defLen)
    from ⟨hScan.trace, hScan.pos, hScan.err⟩
  rw [codecBincDecodeFloatPre, floatPreBytes]
  split
  · exact copyToX_scan (show s.pos + defLen < 2 ^ 64 by omega)
  · dsimp only
    split
    · exact hNext.fail _
    · exact hNext.trans (copyToX_scan (by omega))

theorem codecBincDecodeFloat_scan (h : s.pos + 9 < 2 ^ 64) (vs : Nat) :
    Scan s (codecBincDecodeFloat b s vs).1 (floatBytes b s.pos vs) := by
  have hPre (defLen : Nat) (hLen : defLen ≤ 8) := codecBincDecodeFloatPre_scan (b := b) h vs hLen
  unfold codecBincDecodeFloat
  split
  · rename_i hKind
    rw [floatBytes_one b s.pos hKind]
    dsimp only
    split <;> exact hPre 4 (by decide)
  · rename_i hKind
    rw [floatBytes_two b s.pos hKind]
    dsimp only
    split <;> exact hPre 8 (by decide)
  · rename_i hFirst hSecond
    rw [floatBytes_other b s.pos hFirst hSecond]
    exact (Scan.refl s).fail _

end Scans

/-! ## The effect of a head -/

/-- What a leaf stores where nothing was stored before: its own payload at most. -/
def Stores (v v' : Decoded) (stop : Nat) : Prop :=
  (v.slices = [] → ∀ r ∈ v'.slices, r.In stop) ∧ (v.elems = [] → v'.elems = [])

structure HeadSpec (b : Input) (s : CodecDecodeState) (v : Decoded)
    (step : Step CodecDecodeState Decoded) : Prop where
  trace : ∃ ev, step.state.trace = ev ++ .call s.pos s.failed :: s.trace ∧ Quiet ev ∧
    (s.err = none → ∀ i, .read i ∈ ev ↔ s.pos ≤ i ∧ i < s.pos + fixedBytes b s.pos)
  pos : s.pos < step.state.pos ∧ step.state.pos ≤ payloadEnd b s.pos
  ok : step.state.err = none → s.err = none ∧ step.state.pos = payloadEnd b s.pos
  failed : step.state.err ≠ none → s.err = none → payloadLen b s.pos = 0
  leaf : ∀ s' v', step = .leaf s' v' → s'.err = none →
    elemCount b s.pos = 0 ∧ Stores v v' (payloadEnd b s.pos)
  branch : ∀ s' n l c, step = .branch s' n l c → s'.err = none ∧ n = elemCount b s.pos ∧
    intLimit ≤ l ∧ ∀ vs, (c vs).slices = Decoded.slicesList vs ∧ (c vs).elems = vs

namespace HeadSpec

variable {b : Input} {s s₁ : CodecDecodeState} {v v' : Decoded}

theorem trace_of_scan (hScan : Scan s.enter s₁ (fixedBytes b s.pos)) :
    ∃ ev, s₁.trace = ev ++ .call s.pos s.failed :: s.trace ∧ Quiet ev ∧
      (s.err = none → ∀ i, .read i ∈ ev ↔ s.pos ≤ i ∧ i < s.pos + fixedBytes b s.pos) := by
  obtain ⟨ev, hTrace, hQuiet, hReads⟩ := hScan.trace
  exact ⟨ev, hTrace, hQuiet, fun _ => hReads⟩

theorem pos_of_scan (hScan : Scan s.enter s₁ (fixedBytes b s.pos)) :
    s.pos < s₁.pos ∧ s₁.pos ≤ payloadEnd b s.pos := by
  have hFixed := fixedBytes_bounds b s.pos
  have hPos : s₁.pos = s.pos + fixedBytes b s.pos := hScan.pos
  rw [payloadEnd]
  omega

/-- A call that was entered with an error returns behind the length. -/
theorem of_failed {k : Nat} (hScan : Scan s.enter s₁ k) (hLow : 0 < k)
    (hHigh : k ≤ fixedBytes b s.pos) (hErr : s.err ≠ none) (hErr₁ : s₁.err ≠ none) :
    HeadSpec b s v (.leaf s₁ v') where
  trace := by
    obtain ⟨ev, hTrace, hQuiet, _⟩ := hScan.trace
    exact ⟨ev, hTrace, hQuiet, fun hOk => absurd hOk hErr⟩
  pos := by
    have hPos : s₁.pos = s.pos + k := hScan.pos
    rw [payloadEnd]
    constructor
    · exact hPos.symm ▸ Nat.lt_add_of_pos_right hLow
    · simp only [Step.state]
      omega
  ok hOk := absurd hOk hErr₁
  failed _ hOk := absurd hOk hErr
  leaf := by
    rintro s' v' ⟨⟩ hOk
    exact absurd hOk hErr₁
  branch := by
    rintro s' n l c ⟨⟩

theorem of_payload (hScan : Scan s.enter s₁ (fixedBytes b s.pos))
    (hFailed : s₁.err ≠ none → payloadLen b s.pos = 0) (hPos : s.pos < b.len)
    (hCount : elemCount b s.pos = 0) (hStores : Stores v v' (payloadEnd b s.pos)) :
    HeadSpec b s v (.leaf (s₁.advance (payloadLen b s.pos)) v') := by
  have hLen := b.len_lt
  have hBounds := payloadEnd_bounds b s.pos
  have hFixed := fixedBytes_bounds b s.pos
  have hScanPos : s₁.pos = s.pos + fixedBytes b s.pos := hScan.pos
  have hEnd : (s₁.advance (payloadLen b s.pos)).pos = payloadEnd b s.pos := by
    rw [payloadEnd] at hBounds ⊢
    rw [CodecDecodeState.advance_pos_of_lt _ (by omega), hScanPos]
  constructor
  · have hTrace := trace_of_scan hScan
    exact hTrace
  · exact ⟨Nat.lt_of_lt_of_le (by omega) hEnd.ge, hEnd.le⟩
  · intro hOk
    exact ⟨hScan.err hOk, hEnd⟩
  · intro hErr _
    exact hFailed hErr
  · rintro s' v' ⟨⟩ _
    exact ⟨hCount, hStores⟩
  · rintro s' n l c ⟨⟩

theorem of_leaf (hScan : Scan s.enter s₁ (fixedBytes b s.pos)) (hPos : s.pos < b.len)
    (hPayload : payloadLen b s.pos = 0) (hCount : elemCount b s.pos = 0)
    (hStores : Stores v v' (payloadEnd b s.pos)) : HeadSpec b s v (.leaf s₁ v') := by
  have hLen := b.len_lt
  have hFixed := fixedBytes_bounds b s.pos
  have hScanPos : s₁.pos = s.pos + fixedBytes b s.pos := hScan.pos
  have hSame : s₁.advance 0 = s₁ := by
    rw [CodecDecodeState.advance, Nat.add_zero, sizeT, Nat.mod_eq_of_lt (by omega)]
  have hSpec := of_payload hScan (fun _ => hPayload) hPos hCount hStores
  rwa [hPayload, hSame] at hSpec

theorem of_branch {n l : Nat} {c : List Decoded → Decoded}
    (hScan : Scan s.enter s₁ (fixedBytes b s.pos)) (hOk : s₁.err = none)
    (hPayload : payloadLen b s.pos = 0) (hCount : n = elemCount b s.pos) (hLimit : intLimit ≤ l)
    (hClose : ∀ vs, (c vs).slices = Decoded.slicesList vs ∧ (c vs).elems = vs) :
    HeadSpec b s v (.branch s₁ n l c) where
  trace := trace_of_scan hScan
  pos := pos_of_scan hScan
  ok _ := by
    refine ⟨hScan.err hOk, ?_⟩
    rw [payloadEnd, hPayload]
    exact hScan.pos
  failed hErr := absurd hOk hErr
  leaf := by
    rintro s' v' ⟨⟩
  branch := by
    rintro s' n l c ⟨⟩
    exact ⟨hOk, hCount, hLimit, hClose⟩

end HeadSpec

/-! ## The branches of the switch -/

section Branches

variable {b : Input} {s : CodecDecodeState} {v : Decoded} {type : CodecValueType}

theorem stores_self (v : Decoded) (stop : Nat) : Stores v v stop := by
  refine ⟨fun hNone r hr => ?_, id⟩
  rw [hNone] at hr
  cases hr

theorem stores_plain {stop : Nat} {x : CodecValueDiscrim} (h : x.slices = []) :
    Stores v (.mk type x []) stop := by
  refine ⟨fun _ r hr => ?_, fun _ => rfl⟩
  simp [Decoded.slices, Decoded.slicesList, h] at hr

theorem stores_payload {stop off len : Nat} {cap : Option Nat} {x : CodecValueDiscrim}
    (h : x.slices = [⟨some off, len, cap⟩]) (hStop : off + len ≤ stop) :
    Stores v (.mk type x []) stop := by
  refine ⟨fun _ r hr => ?_, fun _ => rfl⟩
  simp only [Decoded.slices, Decoded.slicesList, h, List.append_nil, List.mem_singleton] at hr
  subst hr
  exact ⟨off, rfl, hStop⟩

theorem codecBincDecodeSpecial_leaf (s : CodecDecodeState) (v : Decoded) (vs stop : Nat) :
    ∃ v', codecBincDecodeSpecial s v vs = .leaf s v' ∧ Stores v v' stop := by
  rw [codecBincDecodeSpecial]
  split
  case h_10 => exact ⟨v, rfl, stores_self v stop⟩
  all_goals exact ⟨_, rfl, stores_plain rfl⟩

theorem codecBincDecodeLen_head (h : s.pos < b.len) (vs : Nat) :
    ∃ s₁, codecBincDecodeLen b s.enter.next vs = (s₁, lenAt b (s.pos + 1) vs) ∧
      Scan s.enter s₁ (1 + lenBytes vs) ∧ s₁.err = s.err := by
  have hLen := b.len_lt
  have hNext : Scan s.enter s.enter.next 1 := Scan.next (by simp; omega)
  have hPos : s.enter.next.pos = s.pos + 1 := hNext.pos
  obtain ⟨s₁, hRead, hScan, hErr⟩ :=
    codecBincDecodeLen_scan (b := b) (show s.enter.next.pos + 8 < 2 ^ 64 by omega) vs
  rw [hPos] at hRead
  exact ⟨s₁, hRead, hNext.trans hScan, hErr⟩

theorem headSpec_bytes (h : s.pos < b.len)
    (hFixed : fixedBytes b s.pos = 1 + lenBytes (nibble (b.get s.pos)))
    (hPayload : payloadLen b s.pos = lenAt b (s.pos + 1) (nibble (b.get s.pos)))
    (hCount : elemCount b s.pos = 0) :
    HeadSpec b s v (codecBincDecodeBytes b s.enter.next (nibble (b.get s.pos)) type) := by
  obtain ⟨s₁, hRead, hScan, hErr⟩ := codecBincDecodeLen_head h (nibble (b.get s.pos))
  rw [← hFixed] at hScan
  rw [codecBincDecodeBytes, hRead, ← hPayload]
  dsimp only
  split
  · rename_i hFailed
    exact .of_failed hScan (fixedBytes_bounds b s.pos).1 (Nat.le_refl _)
      (hErr ▸ CodecDecodeState.err_of_failed hFailed) (CodecDecodeState.err_of_failed hFailed)
  · rename_i hOk
    have hErr₁ := CodecDecodeState.err_of_not_failed hOk
    refine .of_payload hScan (fun hErr => absurd hErr₁ hErr) h hCount ?_
    refine stores_payload rfl ?_
    rw [payloadEnd]
    exact Nat.add_le_add_right hScan.pos.le _

theorem headSpec_ext (h : s.pos < b.len)
    (hFixed : fixedBytes b s.pos = 1 + lenBytes (nibble (b.get s.pos)) + 1)
    (hPayload : payloadLen b s.pos = lenAt b (s.pos + 1) (nibble (b.get s.pos)))
    (hCount : elemCount b s.pos = 0) :
    HeadSpec b s v (codecBincDecodeExt b s.enter.next (nibble (b.get s.pos))) := by
  have hLen := b.len_lt
  have hBounds := fixedBytes_bounds b s.pos
  obtain ⟨s₁, hRead, hScan, hErr⟩ := codecBincDecodeLen_head h (nibble (b.get s.pos))
  rw [codecBincDecodeExt, hRead, ← hPayload]
  dsimp only
  split
  · rename_i hFailed
    exact .of_failed hScan (by omega) (by omega) (hErr ▸ CodecDecodeState.err_of_failed hFailed)
      (CodecDecodeState.err_of_failed hFailed)
  · rename_i hOk
    have hPos : s₁.pos = s.pos + (1 + lenBytes (nibble (b.get s.pos))) := hScan.pos
    have hTag := hScan.trans (Scan.next (s := s₁) (by omega))
    rw [← hFixed] at hTag
    have hErr₁ := CodecDecodeState.err_of_not_failed hOk
    refine .of_payload hTag (fun hErr => absurd hErr₁ hErr) h hCount ?_
    refine stores_payload rfl ?_
    rw [payloadEnd]
    exact Nat.add_le_add_right hTag.pos.le _

theorem headSpec_loop {n l : Nat} {c : List Decoded → Decoded} {v' : Decoded}
    {s₁ : CodecDecodeState} (hScan : Scan s.enter s₁ (1 + lenBytes (nibble (b.get s.pos))))
    (hErr : s₁.err = s.err) (hFixed : fixedBytes b s.pos = 1 + lenBytes (nibble (b.get s.pos)))
    (hPayload : payloadLen b s.pos = 0) (hCount : n = elemCount b s.pos) (hLimit : intLimit ≤ l)
    (hClose : ∀ vs, (c vs).slices = Decoded.slicesList vs ∧ (c vs).elems = vs) :
    HeadSpec b s v (if s₁.failed then .leaf s₁ v' else .branch s₁ n l c) := by
  rw [← hFixed] at hScan
  split
  · rename_i hFailed
    exact .of_failed hScan (fixedBytes_bounds b s.pos).1 (Nat.le_refl _)
      (hErr ▸ CodecDecodeState.err_of_failed hFailed) (CodecDecodeState.err_of_failed hFailed)
  · rename_i hOk
    exact .of_branch hScan (CodecDecodeState.err_of_not_failed hOk) hPayload hCount hLimit hClose

theorem headSpec_switch (h : s.pos < b.len) (v : Decoded) {vd : CodecBincDescType}
    (hFam : family (b.get s.pos) = vd) :
    HeadSpec b s v (codecBincDecodeSwitch b s.enter.next v vd (nibble (b.get s.pos))) := by
  have hLen := b.len_lt
  have hNext : Scan s.enter s.enter.next 1 := Scan.next (by simp; omega)
  have hPos : s.enter.next.pos = s.pos + 1 := hNext.pos
  have hInt := hNext.trans (codecBincDecodeUint64_scan (b := b) (s := s.enter.next) (by omega)
    (nibble (b.get s.pos)))
  have hFloat := hNext.trans (codecBincDecodeFloat_scan (b := b) (s := s.enter.next) (by omega)
    (nibble (b.get s.pos)))
  obtain ⟨s₁, hRead, hScan, hErr⟩ := codecBincDecodeLen_head h (nibble (b.get s.pos))
  have hFixed : fixedBytes b s.pos = 1 + branchBytes b (s.pos + 1) (nibble (b.get s.pos)) vd := by
    rw [fixedBytes, hFam]
  have hPayload : payloadLen b s.pos = branchPayload b (s.pos + 1) (nibble (b.get s.pos)) vd := by
    rw [payloadLen, hFam]
  have hCount : elemCount b s.pos = branchCount b (s.pos + 1) (nibble (b.get s.pos)) vd := by
    rw [elemCount, hFam]
  cases vd with
  | special =>
    obtain ⟨v', hLeaf, hStores⟩ := codecBincDecodeSpecial_leaf s.enter.next v
      (nibble (b.get s.pos)) (payloadEnd b s.pos)
    rw [codecBincDecodeSwitch, hLeaf]
    exact .of_leaf (hFixed ▸ hNext) h hPayload hCount hStores
  | smallint => exact .of_leaf (hFixed ▸ hNext) h hPayload hCount (stores_plain rfl)
  | posint => exact .of_leaf (hFixed ▸ hInt) h hPayload hCount (stores_plain rfl)
  | negint => exact .of_leaf (hFixed ▸ hInt) h hPayload hCount (stores_plain rfl)
  | float =>
    rw [hPos] at hFloat
    exact .of_leaf (hFixed ▸ hFloat) h hPayload hCount (stores_plain rfl)
  | symbol => exact headSpec_bytes h hFixed hPayload hCount
  | string => exact headSpec_bytes h hFixed hPayload hCount
  | bytearray => exact headSpec_bytes h hFixed hPayload hCount
  | timestamp => exact .of_leaf (hFixed ▸ hNext.fail _) h hPayload hCount (stores_self v _)
  | customext => exact headSpec_ext h hFixed hPayload hCount
  | array =>
    rw [codecBincDecodeSwitch, codecBincDecodeArray, hRead]
    exact headSpec_loop hScan hErr hFixed hPayload hCount.symm (Nat.le_refl _) fun vs => ⟨rfl, rfl⟩
  | map =>
    rw [codecBincDecodeSwitch, codecBincDecodeMap, hRead]
    exact headSpec_loop hScan hErr hFixed hPayload hCount.symm (by omega) fun vs => ⟨rfl, rfl⟩
  | unicodeother => exact .of_leaf (hFixed ▸ hNext) h hPayload hCount (stores_self v _)
  | decimal => exact .of_leaf (hFixed ▸ hNext) h hPayload hCount (stores_self v _)
  | openslot1 => exact .of_leaf (hFixed ▸ hNext) h hPayload hCount (stores_self v _)
  | openslot2 => exact .of_leaf (hFixed ▸ hNext) h hPayload hCount (stores_self v _)

theorem branch_cases {s₁ : CodecDecodeState} {vs n l : Nat}
    {c : List Decoded → Decoded} {vd : CodecBincDescType} (hPos : s.pos < b.len)
    (hStep : codecBincDecodeSwitch b s.enter.next v vd vs = .branch s₁ n l c) :
    s₁.pos = s.pos + (1 + lenBytes vs) ∧
      ((vd = .array ∧ n = lenAt b (s.pos + 1) vs ∧ c = .mk .array (.vArray n)) ∨
        vd = .map ∧ n = 2 * lenAt b (s.pos + 1) vs ∧
          c = .mk .map (.vMap (lenAt b (s.pos + 1) vs))) := by
  obtain ⟨s₂, hRead, hScan, _⟩ := codecBincDecodeLen_head hPos vs
  have hNext : s₂.pos = s.pos + (1 + lenBytes vs) := hScan.pos
  cases vd with
  | special =>
    obtain ⟨v', hLeaf, _⟩ := codecBincDecodeSpecial_leaf s.enter.next v vs 0
    rw [codecBincDecodeSwitch, hLeaf] at hStep
    cases hStep
  | symbol | string | bytearray =>
    simp only [codecBincDecodeSwitch, codecBincDecodeBytes] at hStep
    split at hStep <;> cases hStep
  | customext =>
    simp only [codecBincDecodeSwitch, codecBincDecodeExt] at hStep
    split at hStep <;> cases hStep
  | array =>
    rw [codecBincDecodeSwitch, codecBincDecodeArray, hRead] at hStep
    dsimp only at hStep
    split at hStep
    · cases hStep
    · cases hStep
      exact ⟨hNext, Or.inl ⟨rfl, rfl, rfl⟩⟩
  | map =>
    rw [codecBincDecodeSwitch, codecBincDecodeMap, hRead] at hStep
    dsimp only at hStep
    split at hStep
    · cases hStep
    · cases hStep
      exact ⟨hNext, Or.inr ⟨rfl, rfl, rfl⟩⟩
  | _ => cases hStep

theorem branch_limit {s₁ : CodecDecodeState} {v : Decoded} {vs n l : Nat}
    {c : List Decoded → Decoded} {vd : CodecBincDescType}
    (hStep : codecBincDecodeSwitch b s v vd vs = .branch s₁ n l c) :
    (vd = .array → l = intLimit) ∧ (vd = .map → l = 2 * intLimit) := by
  constructor
  · rintro rfl
    simp only [codecBincDecodeSwitch, codecBincDecodeArray] at hStep
    split at hStep
    · cases hStep
    · cases hStep
      rfl
  · rintro rfl
    simp only [codecBincDecodeSwitch, codecBincDecodeMap] at hStep
    split at hStep
    · cases hStep
    · cases hStep
      rfl

/-- Every head has the extent that its descriptor gives. -/
theorem headSpec (b : Input) (s : CodecDecodeState) (v : Decoded) (h : s.pos < b.len) :
    HeadSpec b s v (codecBincDecodeHead b s v) := by
  rw [codecBincDecodeHead_of_lt v h]
  exact headSpec_switch h v rfl

end Branches

end CcCommon.Codec.Binc
