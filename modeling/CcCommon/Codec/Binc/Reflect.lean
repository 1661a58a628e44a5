import CcCommon.Codec.Binc.Documents
import CcCommon.Codec.Binc.Progress

/-! # Only documents are read as values

Where the decoder ends inside the buffer without an error, and returns a
value without floats, a document for that value is what it has read. -/

namespace CcCommon.Codec.Binc

open Util Lib.Bytes Lib.Descent CodecValue

set_option autoImplicit false

section Forms

variable {b : Input}

theorem lenForm_slice (vd : CodecBincDescType) {vs : Nat} (h : vs < 16) (q : Nat) :
    LenForm vd (lenAt b q vs) (bincDesc vd vs :: b.slice q (lenBytes vs)) := by
  rw [lenAt, lenBytes]
  split
  · rename_i hWide
    rw [Input.slice_succ]
    have hDigits : (b.slice (q + 1) vs).length = vs := b.slice_length _ _
    have hForm : LenForm vd _ _ := .wide (b.get q) (b.slice (q + 1) vs) (by omega)
    rwa [hDigits] at hForm
  · have hForm : LenForm vd _ _ := .inline (vs - 4) (by omega)
    rwa [Nat.sub_add_cancel (by omega)] at hForm

theorem specialDesc_ofNibble {vs : Nat} {d : CodecBincSpecialDescType}
    (h : CodecBincSpecialDescType.ofNibble vs = some d) : bincDesc .special vs = specialDesc d := by
  have hNibble : vs = d.toNat := by
    unfold CodecBincSpecialDescType.ofNibble at h
    split at h <;> cases h <;> rfl
  rw [hNibble, specialDesc]

theorem doc_special {s s' : CodecDecodeState} {vs : Nat} {d : Decoded} {w : Value}
    (hStep : codecBincDecodeSpecial s .zero vs = .leaf s' d) (hValue : d.value b = some w) :
    Doc w [bincDesc .special vs] := by
  unfold codecBincDecodeSpecial at hStep
  split at hStep <;> cases hStep <;> cases hValue
  all_goals rw [specialDesc_ofNibble ‹_›]
  · exact .nil
  · exact .bool false
  · exact .bool true
  · exact .nan
  · exact .posinf
  · exact .neginf
  · exact .zerofloat
  · exact .zero
  · exact .negone

/-- What the call at `p` has consumed when it returns without an error. -/
def consumed (b : Input) (p vs : Nat) (vd : CodecBincDescType) : List UInt8 :=
  bincDesc vd vs :: b.slice (p + 1) (branchBytes b (p + 1) vs vd) ++
    b.slice (p + (1 + branchBytes b (p + 1) vs vd)) (branchPayload b (p + 1) vs vd)

theorem slice_consumed (b : Input) (p : Nat) :
    b.slice p (fixedBytes b p + payloadLen b p) =
      consumed b p (nibble (b.get p)) (family (b.get p)) := by
  rw [Input.slice_add, fixedBytes, Nat.add_comm 1, Input.slice_succ, consumed,
    bincDesc_family_nibble, payloadLen, Nat.add_comm 1]

theorem doc_int {s s' : CodecDecodeState} {vs : Nat} {d : Decoded} {w : Value}
    {vd : CodecBincDescType} {type : CodecValueType}
    (hType : vd = .posint ∧ type = .posInt ∨ vd = .negint ∧ type = .negInt)
    (hStep : codecBincDecodeInt b s vs type = .leaf s' d) (hOk : s'.err = none)
    (hValue : d.value b = some w) :
    Doc w (bincDesc vd vs :: b.slice s.pos (intBytes vs)) := by
  rw [codecBincDecodeInt] at hStep
  rcases Nat.lt_or_ge 7 vs with hWide | hWidth
  · rw [codecBincDecodeUint64, if_pos hWide] at hStep
    cases hStep
    cases hOk
  · rw [codecBincDecodeUint64_eq hWidth] at hStep
    have hDigits : (b.slice (s.pos + 1) vs).length = vs := b.slice_length _ _
    rw [intBytes, if_pos hWidth, Input.slice_succ]
    rw [Input.slice_succ] at hStep
    rcases hType with ⟨rfl, rfl⟩ | ⟨rfl, rfl⟩
    · cases hStep
      cases hValue
      have hDoc := Doc.posint (b.get s.pos) (b.slice (s.pos + 1) vs) (by omega)
      rwa [hDigits] at hDoc
    · cases hStep
      cases hValue
      have hDoc := Doc.negint (b.get s.pos) (b.slice (s.pos + 1) vs) (by omega)
      rwa [hDigits] at hDoc

theorem codecBincDecodeBytes_ok {s s' : CodecDecodeState} {vs : Nat} {d : Decoded}
    {type : CodecValueType} (hPos : s.pos < b.len)
    (hStep : codecBincDecodeBytes b s.enter.next vs type = .leaf s' d) (hOk : s'.err = none) :
    d = .mk type (.vBytes ⟨some (s.pos + (1 + lenBytes vs)), lenAt b (s.pos + 1) vs, none⟩) [] := by
  obtain ⟨s₁, hRead, hScan, _⟩ := codecBincDecodeLen_head hPos vs
  have hNext : s₁.pos = s.pos + (1 + lenBytes vs) := hScan.pos
  rw [codecBincDecodeBytes, hRead] at hStep
  dsimp only at hStep
  split at hStep
  · rename_i hFailed
    cases hStep
    exact absurd hOk (CodecDecodeState.err_of_failed hFailed)
  · cases hStep
    rw [hNext]

theorem codecBincDecodeExt_ok {s s' : CodecDecodeState} {vs : Nat} {d : Decoded}
    (hPos : s.pos < b.len) (hStep : codecBincDecodeExt b s.enter.next vs = .leaf s' d)
    (hOk : s'.err = none) :
    d = .mk .customExt (.vExt (some (b.get (s.pos + (1 + lenBytes vs))))
      ⟨some (s.pos + (1 + (lenBytes vs + 1))), lenAt b (s.pos + 1) vs, none⟩) [] := by
  have hLen := b.len_lt
  obtain ⟨s₁, hRead, hScan, _⟩ := codecBincDecodeLen_head hPos vs
  have hNext : s₁.pos = s.pos + (1 + lenBytes vs) := hScan.pos
  have hShort : lenBytes vs ≤ 4 := by rw [lenBytes]; split <;> omega
  have hTag : s₁.next.pos = s.pos + (1 + (lenBytes vs + 1)) := by
    rw [CodecDecodeState.next_pos_of_lt _ (by omega), hNext]
    omega
  rw [codecBincDecodeExt, hRead] at hStep
  dsimp only at hStep
  split at hStep
  · rename_i hFailed
    cases hStep
    exact absurd hOk (CodecDecodeState.err_of_failed hFailed)
  · cases hStep
    rw [hNext, hTag]

theorem err_of_loop {s s' : CodecDecodeState} {d d' : Decoded} {n l : Nat}
    {c : List Decoded → Decoded}
    (hStep : (if s.failed then Step.leaf s d else .branch s n l c) = .leaf s' d') :
    s'.err ≠ none := by
  split at hStep
  · rename_i hFailed
    cases hStep
    exact CodecDecodeState.err_of_failed hFailed
  · cases hStep

/-- A call without a loop has read a document. -/
theorem doc_consumed {s s' : CodecDecodeState} {vs : Nat} (hvs : vs < 16) {d : Decoded} {w : Value}
    {vd : CodecBincDescType} (hPos : s.pos < b.len)
    (hStep : codecBincDecodeSwitch b s.enter.next .zero vd vs = .leaf s' d) (hOk : s'.err = none)
    (hValue : d.value b = some w) (hFloat : ¬ w.IsFloat) : Doc w (consumed b s.pos vs vd) := by
  have hLen := b.len_lt
  have hNext : s.enter.next.pos = s.pos + 1 :=
    CodecDecodeState.next_pos_of_lt _ (by simp; omega)
  have hPayload (p n : Nat) : (b.slice p n).length = n := b.slice_length p n
  have hForm := lenForm_slice (b := b) vd hvs (s.pos + 1)
  cases vd with
  | special => exact doc_special hStep hValue
  | smallint =>
    cases hStep
    cases hValue
    exact .smallint vs (by omega)
  | posint =>
    have hDoc := doc_int (Or.inl ⟨rfl, rfl⟩) hStep hOk hValue
    rw [hNext] at hDoc
    rw [consumed]
    simpa [branchBytes, branchPayload, Input.slice] using hDoc
  | negint =>
    have hDoc := doc_int (Or.inr ⟨rfl, rfl⟩) hStep hOk hValue
    rw [hNext] at hDoc
    rw [consumed]
    simpa [branchBytes, branchPayload, Input.slice] using hDoc
  | float =>
    cases hStep
    cases hValue
    exact absurd trivial hFloat
  | symbol =>
    rw [codecBincDecodeBytes_ok hPos hStep hOk] at hValue
    cases hValue
    exact .symbol _ _ (by rw [hPayload]; exact hForm)
  | string =>
    rw [codecBincDecodeBytes_ok hPos hStep hOk] at hValue
    cases hValue
    exact .string _ _ (by rw [hPayload]; exact hForm)
  | bytearray =>
    rw [codecBincDecodeBytes_ok hPos hStep hOk] at hValue
    cases hValue
    exact .bytes _ _ (by rw [hPayload]; exact hForm)
  | timestamp =>
    cases hStep
    cases hOk
  | customext =>
    rw [codecBincDecodeExt_ok hPos hStep hOk] at hValue
    cases hValue
    have hDoc := Doc.ext (b.get (s.pos + (1 + lenBytes vs)))
      (b.slice (s.pos + (1 + (lenBytes vs + 1))) (lenAt b (s.pos + 1) vs)) _
      (by rw [hPayload]; exact hForm)
    rw [consumed, branchBytes, branchPayload, Input.slice_add, Nat.add_assoc]
    simpa [Input.slice] using hDoc
  | array =>
    obtain ⟨s₁, hRead, _⟩ := codecBincDecodeLen_head hPos vs
    rw [codecBincDecodeSwitch, codecBincDecodeArray, hRead] at hStep
    exact absurd hOk (err_of_loop hStep)
  | map =>
    obtain ⟨s₁, hRead, _⟩ := codecBincDecodeLen_head hPos vs
    rw [codecBincDecodeSwitch, codecBincDecodeMap, hRead] at hStep
    exact absurd hOk (err_of_loop hStep)
  | unicodeother => cases hStep; cases hValue
  | decimal => cases hStep; cases hValue
  | openslot1 => cases hStep; cases hValue
  | openslot2 => cases hStep; cases hValue

end Forms

/-! ## Whole runs -/

section Run

variable {b : Input}

def Reflects (b : Input) (w : Value) : Prop :=
  ∀ s s' d, Returns (codecBincScheme b) s .zero s' d → InReach b s.pos → s'.err = none →
    s'.pos ≤ b.len → d.value b = some w →
      ∃ bs, Doc w bs ∧ b.At s.pos bs ∧ s'.pos = s.pos + bs.length

theorem returns_reach {s s' : CodecDecodeState} {v d : Decoded}
    (h : Returns (codecBincScheme b) s v s' d) (hReach : InReach b s.pos) : InReach b s'.pos := by
  obtain ⟨f, hRun⟩ := h
  have hEnd := ((stored_sound b).node_spec f s v hReach).1
  rwa [hRun] at hEnd

theorem lt_of_returns {s s' : CodecDecodeState} {v d : Decoded}
    (h : Returns (codecBincScheme b) s v s' d) (hReach : InReach b s.pos) (hOk : s'.err = none) :
    s.pos < b.len := by
  cases hHead : codecBincDecodeHead b s v with
  | leaf s₁ v₁ =>
    obtain ⟨rfl, _⟩ := returns_leaf_inv hHead h
    exact lt_of_head hReach hHead hOk
  | branch s₁ n l c => exact (headSpec_of_branch hReach hHead).1

theorem chain_lt {s s' : CodecDecodeState} {ds : List Decoded}
    (h : Chain (codecBincScheme b) s ds s') (hReach : InReach b s.pos)
    (hEnd : s'.pos ≤ b.len) : s.pos ≤ b.len := by
  cases ds with
  | nil =>
    have hSame : s = s' := h
    rwa [hSame]
  | cons d ds =>
    obtain ⟨s₁, hRet, hOk₁, _⟩ := h
    exact Nat.le_of_lt (lt_of_returns hRet hReach (s₁.failed_eq_false_iff.mp hOk₁))

theorem Reflects.chain (ws : List Value) (h : ∀ w ∈ ws, Reflects b w) {s s' : CodecDecodeState}
    {ds : List Decoded} (hChain : Chain (codecBincScheme b) s ds s') (hReach : InReach b s.pos)
    (hOk : s'.err = none) (hEnd : s'.pos ≤ b.len) (hValues : Decoded.values b ds = some ws) :
    ∃ bs, Docs ws bs ∧ b.At s.pos bs ∧ s'.pos = s.pos + bs.length := by
  induction ws generalizing s ds with
  | nil =>
    have hNil := Decoded.values_length hValues
    rw [List.length_eq_zero_iff.mp hNil.symm] at hChain
    have hSame : s = s' := hChain
    subst hSame
    exact ⟨[], .nil, Input.At.of_slice (k := 0) hEnd, rfl⟩
  | cons w ws ih =>
    cases ds with
    | nil => cases hValues
    | cons d ds =>
      obtain ⟨s₁, hRet, hOk₁, hRest⟩ := hChain
      obtain ⟨hHead, hTail⟩ := Decoded.values_cons.mp hValues
      have hErr₁ := s₁.failed_eq_false_iff.mp hOk₁
      have hReach₁ := returns_reach hRet hReach
      have hEnd₁ := chain_lt hRest hReach₁ hEnd
      obtain ⟨bs, hDoc, hAt, hPos⟩ := h w List.mem_cons_self s s₁ d hRet hReach hErr₁ hEnd₁ hHead
      obtain ⟨cs, hDocs, hAts, hPos'⟩ :=
        ih (fun v hv => h v (List.mem_cons_of_mem _ hv)) hRest hReach₁ hTail
      rw [hPos] at hAts
      refine ⟨bs ++ cs, .cons w ws bs cs hDoc hDocs, hAt.join hAts, ?_⟩
      rw [hPos', hPos, List.length_append, Nat.add_assoc]

theorem reflects_loop {s s₁ s₂ : CodecDecodeState} {vs n : Nat} {vd : CodecBincDescType}
    {ws : List Value} {ds : List Decoded} (hvs : vs < 16) (hGet : b.get s.pos = bincDesc vd vs)
    (hPos₁ : s₁.pos = s.pos + (1 + lenBytes vs)) (hn : n = lenAt b (s.pos + 1) vs)
    (hInner : ∀ w ∈ ws, Reflects b w) (hChain : Chain (codecBincScheme b) s₁ ds s₂)
    (hReach : InReach b s₁.pos) (hOk : s₂.err = none) (hEnd : s₂.pos ≤ b.len)
    (hValues : Decoded.values b ds = some ws) :
    ∃ hdr bs, LenForm vd n hdr ∧ Docs ws bs ∧ b.At s.pos (hdr ++ bs) ∧
      s₂.pos = s.pos + (hdr ++ bs).length := by
  obtain ⟨bs, hDocs, hAt, hPos⟩ := Reflects.chain ws hInner hChain hReach hOk hEnd hValues
  have hForm := lenForm_slice (b := b) vd hvs (s.pos + 1)
  rw [← hGet, ← Input.slice_succ, ← hn] at hForm
  have hLength : (b.slice s.pos (lenBytes vs + 1)).length = 1 + lenBytes vs := by
    rw [Input.slice_length, Nat.add_comm]
  rw [hPos₁, ← hLength] at hAt
  have hHere : b.At s.pos (b.slice s.pos (lenBytes vs + 1)) := by
    have hFits := hAt.le
    exact Input.At.of_slice (by omega)
  refine ⟨_, bs, hForm, hDocs, hHere.join hAt, ?_⟩
  rw [hPos, hPos₁, List.length_append, hLength, Nat.add_assoc]

/-- A value without floats is returned only for a document that denotes it. -/
theorem reflects (b : Input) (w : Value) (hFloats : w.All fun v => ¬ v.IsFloat) :
    Reflects b w := by
  induction w using CodecValue.ind with
  | h w ih =>
    intro s s' d hRet hReach hOk hEnd hValue
    have hPos := lt_of_returns hRet hReach hOk
    have hHead' := codecBincDecodeHead_of_lt .zero hPos
    have hvs := nibble_lt (b.get s.pos)
    cases hHead : codecBincDecodeHead b s .zero with
    | leaf s₁ d₁ =>
      obtain ⟨rfl, rfl⟩ := returns_leaf_inv hHead hRet
      have hOk : s₁.err = none := hOk
      obtain ⟨_, hSpec⟩ := headSpec_of_ok hReach hHead hOk
      have hStop : s₁.pos = payloadEnd b s.pos := (hSpec.ok hOk).2
      have hEnd : s₁.pos ≤ b.len := hEnd
      rw [payloadEnd, Nat.add_assoc] at hStop
      rw [hHead] at hHead'
      refine ⟨_, doc_consumed hvs hPos hHead'.symm hOk hValue hFloats.root, ?_, ?_⟩
      · rw [← slice_consumed]
        exact Input.At.of_slice (by omega)
      · rw [← slice_consumed, Input.slice_length]
        exact hStop
    | branch s₁ n l c =>
      obtain ⟨s₂, ds, rfl, rfl, hCount, hChain⟩ :=
        returns_branch_inv hHead (fun _ => rfl) hRet (s'.failed_eq_false_iff.mpr hOk)
      have hReach₁ := codecBincDecodeHead_reach .zero hReach
      rw [hHead] at hReach₁ hHead'
      obtain ⟨hPos₁, hCase⟩ := branch_cases hPos hHead'.symm
      have hGet := (bincDesc_family_nibble (b.get s.pos)).symm
      rcases hCase with ⟨hFam, hn, rfl⟩ | ⟨hFam, hn, rfl⟩
      · rw [hFam] at hGet
        obtain ⟨ws, rfl, hLength, hValues⟩ := Decoded.value_array hValue
        have hInner : ∀ v ∈ ws, Reflects b v := fun v hv => ih v hv (hFloats.inner v hv)
        obtain ⟨hdr, bs, hForm, hDocs, hAt, hStop⟩ :=
          reflects_loop hvs hGet hPos₁ hn hInner hChain hReach₁ hOk hEnd hValues
        exact ⟨hdr ++ bs, .array ws hdr bs (hLength ▸ hForm) hDocs, hAt, hStop⟩
      · rw [hFam] at hGet
        obtain ⟨kvs, rfl, hLength, hValues⟩ := Decoded.value_map hValue
        have hInner : ∀ v ∈ entries kvs, Reflects b v := fun v hv => ih v hv (hFloats.inner v hv)
        obtain ⟨hdr, bs, hForm, hDocs, hAt, hStop⟩ :=
          reflects_loop hvs hGet hPos₁ rfl hInner hChain hReach₁ hOk hEnd hValues
        exact ⟨hdr ++ bs, .map kvs hdr bs (hLength ▸ hForm) hDocs, hAt, hStop⟩

end Run

end CcCommon.Codec.Binc
