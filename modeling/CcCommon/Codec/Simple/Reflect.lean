import CcCommon.Codec.Simple.Documents
import CcCommon.Codec.Simple.Progress

/-! # codec_simple_decode reads the documents, and nothing else

A call that returns without an error, with its payloads in the buffer, has
read a document for the value it returns. -/

namespace CcCommon.Codec.Simple

open Util Lib.Bytes Lib.Descent CodecValue

set_option autoImplicit false

/-! ## Descriptors -/

theorem lenDesc_inv {bd : UInt8} {d : CodecSimpleDescType} (hd : IsLengthDesc d)
    (h : codecSimpleDesc bd = some d) : bd = d.toUInt8 + UInt8.ofNat (bd.toNat % 8) := by
  have hAll : ∀ n : Fin 256, codecSimpleDesc (UInt8.ofNat n) = some d →
      UInt8.ofNat n = d.toUInt8 + UInt8.ofNat (n.val % 8) := by
    rcases hd with rfl | rfl | rfl | rfl | rfl <;> decide +kernel
  simpa using hAll ⟨bd.toNat, bd.toNat_lt⟩ (by simpa using h)

theorem intDesc_inv {bd : UInt8} {d : CodecSimpleDescType} (hd : d = .posInt ∨ d = .negInt)
    (h : codecSimpleDesc bd = some d) :
    bd = d.toUInt8 + UInt8.ofNat (bd.toNat % 4) ∧ intWidth bd = lenWidth (bd.toNat % 4 + 1) := by
  have hAll : ∀ n : Fin 256, codecSimpleDesc (UInt8.ofNat n) = some d →
      UInt8.ofNat n = d.toUInt8 + UInt8.ofNat (n.val % 4) ∧
        intWidth (UInt8.ofNat n) = lenWidth (n.val % 4 + 1) := by
    cases hd with
    | inl hPos => subst hPos; decide +kernel
    | inr hNeg => subst hNeg; decide +kernel
  simpa using hAll ⟨bd.toNat, bd.toNat_lt⟩ (by simpa using h)

theorem fixedDesc_inv {bd : UInt8} {d : CodecSimpleDescType}
    (hd : d = .nil ∨ d = .false ∨ d = .true ∨ d = .float32 ∨ d = .float64)
    (h : codecSimpleDesc bd = some d) : bd = d.toUInt8 := by
  have hAll : ∀ n : Fin 256, codecSimpleDesc (UInt8.ofNat n) = some d →
      UInt8.ofNat n = d.toUInt8 := by
    rcases hd with rfl | rfl | rfl | rfl | rfl <;> decide +kernel
  simpa using hAll ⟨bd.toNat, bd.toNat_lt⟩ (by simpa using h)

section Forms

variable {b : Input}

theorem numForm_slice {p k skip : Nat} {d : CodecSimpleDescType} (hk : k + skip ≤ 4)
    (hGet : b.get p = d.toUInt8 + UInt8.ofNat k) :
    NumForm d skip (readnValue (lenWidth (k + skip)) (b.get (p + 1)))
      (b.slice p (1 + (lenWidth (k + skip)).size)) := by
  have hForm : NumForm d skip _ _ :=
    .mk k (b.slice (p + 1) (lenWidth (k + skip)).size) hk (b.slice_length _ _)
  have hLead : readnValue (lenWidth (k + skip)) (b.get (p + 1)) = readnValue (lenWidth (k + skip))
      ((b.slice (p + 1) (lenWidth (k + skip)).size).headD 0) := by
    generalize lenWidth (k + skip) = w
    cases w <;> rfl
  rw [Nat.add_comm 1, Input.slice_succ, hGet, hLead]
  exact hForm

theorem lenForm_slice {p : Nat} {d : CodecSimpleDescType} (hd : IsLengthDesc d)
    (hDesc : codecSimpleDesc (b.get p) = some d) :
    LenForm d (readnValue (lenWidth ((b.get p).toNat % 8)) (b.get (p + 1)))
      (b.slice p (1 + (lenWidth ((b.get p).toNat % 8)).size)) :=
  numForm_slice (lenDesc_bounds hd hDesc).2.2 (lenDesc_inv hd hDesc)

/-- A length descriptor that was passed without an error, and its number. -/
theorem codecSimpleDecodeLen_ok {s s₂ : CodecDecodeState} {x : Nat} {d : CodecSimpleDescType}
    (hd : IsLengthDesc d) (hDesc : codecSimpleDesc (b.get s.pos) = some d) (hLt : s.pos < b.len)
    (hRun : codecSimpleDecodeLen b s.enter.next (b.get s.pos) = (s₂, x)) (hOk : s₂.err = none) :
    ∃ hdr, LenForm d x hdr ∧ b.At s.pos hdr ∧ s₂.pos = s.pos + hdr.length := by
  have hLen := b.len_lt
  have hNext : s.enter.next.pos = s.pos + 1 :=
    CodecDecodeState.next_pos_of_lt _ (by simp; omega)
  obtain ⟨s₁, y, hRun', hWalk, hCases⟩ := codecSimpleDecodeLen_cases hd hDesc hNext (by omega)
  rw [hRun] at hRun'
  cases hRun'
  cases hCases with
  | inl hThere =>
    obtain ⟨w, hw, hPos, _, rfl⟩ := hThere
    have hInside := hWalk.inside
    refine ⟨_, hw ▸ lenForm_slice hd hDesc, Input.At.of_slice (by omega), ?_⟩
    rw [Input.slice_length, hPos, Nat.add_assoc]
  | inr hStop => exact absurd hOk hStop.1

end Forms

/-! ## One call -/

section Call

variable {b : Input} {s s' : CodecDecodeState} {d : Decoded}

/-- What a call without a loop has read. -/
def Reads (b : Input) (s s' : CodecDecodeState) (d : Decoded) : Prop :=
  ∃ w bs, d.value b = some w ∧ Doc w bs ∧ b.At s.pos bs ∧ s'.pos = s.pos + bs.length

theorem reads_fixed {w : Value} {bd : UInt8} (hGet : b.get s.pos = bd) (hLt : s.pos < b.len)
    (hValue : d.value b = some w) (hDoc : Doc w [bd]) : Reads b s s.enter.next d := by
  have hLen := b.len_lt
  refine ⟨w, [bd], hValue, hDoc, ?_, CodecDecodeState.next_pos_of_lt _ (by simp; omega)⟩
  have hHere : b.At s.pos (b.slice s.pos 1) := Input.At.of_slice (by omega)
  rwa [Input.slice_succ, hGet] at hHere

theorem err_of_readn {s₁ s₂ : CodecDecodeState} {w : ReadWidth} {x : Nat}
    (hRun : codecSimpleReadn b s₁ w = (s₂, x)) (hInside : s₁.pos ≤ b.len) (hOk : s₂.err = none) :
    s₁.pos + w.size ≤ b.len ∧ s₂.pos = s₁.pos + w.size ∧ x = readnValue w (b.get s₁.pos) := by
  have hLen := b.len_lt
  obtain hStop | hPass := Nat.lt_or_ge b.len (s₁.pos + w.size)
  · obtain ⟨msg, hStopped⟩ := codecSimpleReadn_stop hStop hInside
    rw [hRun] at hStopped
    cases hStopped
    cases hOk
  · rw [codecSimpleReadn_pass hPass] at hRun
    cases hRun
    refine ⟨hPass, ?_, rfl⟩
    have hEnd : s₁.pos + w.size < 2 ^ 64 := by omega
    split
    · rw [CodecDecodeState.advance_pos_of_lt _ hEnd]
    · rw [(s₁.touch 1).advance_pos_of_lt hEnd, CodecDecodeState.touch_pos]

theorem reads_int {w : CodecSimpleDescType} {type : CodecValueType}
    (hw : w = .posInt ∧ type = .posInt ∨ w = .negInt ∧ type = .negInt)
    (hDesc : codecSimpleDesc (b.get s.pos) = some w) (hLt : s.pos < b.len)
    (hStep : codecSimpleDecodeInt b s.enter.next .zero (b.get s.pos) type = .leaf s' d)
    (hOk : s'.err = none) : Reads b s s' d := by
  have hLen := b.len_lt
  have hNext : s.enter.next.pos = s.pos + 1 :=
    CodecDecodeState.next_pos_of_lt _ (by simp; omega)
  obtain ⟨hByte, hWidth⟩ := intDesc_inv (hw.imp And.left And.left) hDesc
  have hk : (b.get s.pos).toNat % 4 + 1 ≤ 4 := by omega
  have hForm := numForm_slice hk hByte
  rw [codecSimpleDecodeInt, hWidth] at hStep
  cases hRun : codecSimpleReadn b s.enter.next (lenWidth ((b.get s.pos).toNat % 4 + 1)) with
  | mk s₂ x =>
    rw [hRun] at hStep
    dsimp only at hStep
    split at hStep
    · rename_i hFailed
      cases hStep
      exact absurd hOk (CodecDecodeState.err_of_failed hFailed)
    · cases hStep
      obtain ⟨hFits, hPos, rfl⟩ := err_of_readn hRun (by omega) hOk
      rw [hNext] at hFits hPos ⊢
      have hAt : b.At s.pos (b.slice s.pos (1 + (lenWidth ((b.get s.pos).toNat % 4 + 1)).size)) :=
        Input.At.of_slice (by omega)
      rcases hw with ⟨rfl, rfl⟩ | ⟨rfl, rfl⟩
      · exact ⟨_, _, rfl, .posInt _ _ hForm, hAt, by rw [hPos, Input.slice_length, Nat.add_assoc]⟩
      · exact ⟨_, _, rfl, .negInt _ _ hForm, hAt, by rw [hPos, Input.slice_length, Nat.add_assoc]⟩

theorem reads_float {k : Nat} {bd : UInt8} {w : Value} {v : Decoded} (tree : Nat → Decoded)
    (hk : k ≤ 8) (hGet : b.get s.pos = bd) (hLt : s.pos < b.len)
    (hStep : (match codecDecodeStateChk b s.enter.next k with
      | (s₂, true) => .leaf s₂ v
      | (s₂, false) => .leaf ((s₂.touch k).advance k) (tree s₂.pos)) = Step.leaf s' d)
    (hOk : s'.err = none) (hValue : (tree (s.pos + 1)).value b = some w)
    (hDoc : Doc w (bd :: b.slice (s.pos + 1) k)) : Reads b s s' d := by
  have hLen := b.len_lt
  have hNext : s.enter.next.pos = s.pos + 1 :=
    CodecDecodeState.next_pos_of_lt _ (by simp; omega)
  obtain hStop | hPass := Nat.lt_or_ge b.len (k + s.enter.next.pos)
  · rw [codecDecodeStateChk_stop hStop (by omega)] at hStep
    cases hStep
    cases hOk
  · rw [codecDecodeStateChk_pass hPass] at hStep
    dsimp only at hStep
    rw [hNext] at hStep
    cases hStep
    have hAt : b.At s.pos (b.slice s.pos (k + 1)) := Input.At.of_slice (by omega)
    rw [Input.slice_succ, hGet] at hAt
    refine ⟨_, _, hValue, hDoc, hAt, ?_⟩
    have hEnd : s.enter.next.pos + k < 2 ^ 64 := by omega
    rw [(s.enter.next.touch k).advance_pos_of_lt hEnd, CodecDecodeState.touch_pos, hNext,
      List.length_cons, Input.slice_length]
    omega

theorem reads_float32 (hGet : b.get s.pos = 4) (hLt : s.pos < b.len)
    (hStep : codecSimpleDecodeFloat32 b s.enter.next .zero = .leaf s' d)
    (hOk : s'.err = none) : Reads b s s' d := by
  refine reads_float (k := 4) (fun p => .mk .float32 (.vFloat32 (float32OfUint32
    (utilBigEndianReadUint32 fun j => b.get (p + j)))) []) (by decide) hGet hLt hStep hOk rfl ?_
  rw [utilBigEndianReadUint32_eq]
  exact .float32 _ (b.slice_length (s.pos + 1) 4)

theorem reads_float64 (hGet : b.get s.pos = 5) (hLt : s.pos < b.len)
    (hStep : codecSimpleDecodeFloat64 b s.enter.next .zero = .leaf s' d)
    (hOk : s'.err = none) : Reads b s s' d := by
  refine reads_float (k := 8) (fun p => .mk .float64 (.vFloat64 (float64OfUint64
    (utilBigEndianReadUint64 fun j => b.get (p + j)))) []) (by decide) hGet hLt hStep hOk rfl ?_
  rw [utilBigEndianReadUint64_eq]
  exact .float64 _ (b.slice_length (s.pos + 1) 8)

/-- A payload that lies in the buffer is the one behind the header. -/
theorem reads_bytes {w : CodecSimpleDescType} {type : CodecValueType} {v : Decoded}
    (hw : w = .string ∧ type = .string ∨ w = .bytes ∧ type = .bytes)
    (hType : (if v.type = .unset then v.withType .bytes else v).type = type)
    (hDesc : codecSimpleDesc (b.get s.pos) = some w) (hLt : s.pos < b.len)
    (hStep : codecSimpleDecodeBytes b s.enter.next v (b.get s.pos) = .leaf s' d)
    (hOk : s'.err = none) (hSlices : d.SlicesIn b.len) : Reads b s s' d := by
  have hLen := b.len_lt
  have hLength : IsLengthDesc w := by
    rcases hw with ⟨rfl, _⟩ | ⟨rfl, _⟩
    · exact Or.inl rfl
    · exact Or.inr (Or.inl rfl)
  rw [codecSimpleDecodeBytes] at hStep
  cases hRun : codecSimpleDecodeLen b s.enter.next (b.get s.pos) with
  | mk s₂ x =>
    rw [hRun] at hStep
    dsimp only at hStep
    split at hStep
    · rename_i hFailed
      cases hStep
      exact absurd hOk (CodecDecodeState.err_of_failed hFailed)
    · rename_i hGoes
      obtain ⟨hdr, hForm, hHere, hPos⟩ := codecSimpleDecodeLen_ok hLength hDesc hLt hRun
        (CodecDecodeState.err_of_not_failed hGoes)
      cases codecDecodeStateChk_cases b s₂ x with
      | inl hPass =>
        rw [hPass.1, hType] at hStep
        cases hStep
        rw [slices_leaf_iff rfl] at hSlices
        have hPayload : b.At (s.pos + hdr.length) (b.slice s₂.pos x) := by
          rw [← hPos]
          exact Input.At.of_slice hSlices
        have hForm' : LenForm w (b.slice s₂.pos x).length hdr := by
          rw [Input.slice_length]
          exact hForm
        have hEnd : (s₂.advance x).pos = s.pos + (hdr ++ b.slice s₂.pos x).length := by
          rw [CodecDecodeState.advance_pos_of_lt _ (by omega), hPos, List.length_append,
            Input.slice_length, Nat.add_assoc]
        rcases hw with ⟨rfl, rfl⟩ | ⟨rfl, rfl⟩
        · exact ⟨_, _, rfl, .string _ _ hForm', hHere.join hPayload, hEnd⟩
        · exact ⟨_, _, rfl, .bytes _ _ hForm', hHere.join hPayload, hEnd⟩
      | inr hStop =>
        obtain ⟨msg, hFail, _⟩ := hStop
        rw [hFail] at hStep
        cases hStep
        cases hOk

theorem reads_ext (hDesc : codecSimpleDesc (b.get s.pos) = some .customExt) (hLt : s.pos < b.len)
    (hStep : codecSimpleDecodeExt b s.enter.next (b.get s.pos) = .leaf s' d)
    (hOk : s'.err = none) (hSlices : d.SlicesIn b.len) : Reads b s s' d := by
  have hLen := b.len_lt
  rw [codecSimpleDecodeExt] at hStep
  cases hRun : codecSimpleDecodeLen b s.enter.next (b.get s.pos) with
  | mk s₂ x =>
    rw [hRun] at hStep
    dsimp only at hStep
    cases codecDecodeStateChk_cases b s₂ (sizeT (1 + x)) with
    | inl hPass =>
      rw [hPass.1] at hStep
      cases hStep
      obtain ⟨hdr, hForm, hHere, hPos⟩ :=
        codecSimpleDecodeLen_ok (Or.inr (Or.inr (Or.inr (Or.inr rfl)))) hDesc hLt hRun hOk
      have hFits := hHere.le
      rw [slices_leaf_iff rfl, s₂.next_pos_of_lt (by omega)] at hSlices
      rw [s₂.next_pos_of_lt (by omega)]
      have hTagged : b.At (s.pos + hdr.length) (b.slice s₂.pos (x + 1)) := by
        rw [← hPos]
        exact Input.At.of_slice (by omega)
      rw [Input.slice_succ] at hTagged
      refine ⟨_, _, rfl, .ext _ (b.slice (s₂.pos + 1) x) hdr ?_, hHere.join hTagged, ?_⟩
      · rw [Input.slice_length]
        exact hForm
      · rw [s₂.next.advance_pos_of_lt (by rw [s₂.next_pos_of_lt (by omega)]; omega),
          s₂.next_pos_of_lt (by omega), List.length_append, List.length_cons, Input.slice_length,
          hPos]
        omega
    | inr hStop =>
      obtain ⟨msg, hFail, _⟩ := hStop
      rw [hFail] at hStep
      cases hStep
      cases hOk

theorem reads_leaf (hHead : codecSimpleDecodeHead b s .zero = .leaf s' d) (hOk : s'.err = none)
    (hSlices : d.SlicesIn b.len) : Reads b s s' d := by
  have hLt := lt_of_head hHead (Or.inl hOk)
  rw [codecSimpleDecodeHead_of_lt .zero hLt, codecSimpleDecodeSwitch] at hHead
  cases hDesc : codecSimpleDesc (b.get s.pos) with
  | none =>
    rw [hDesc] at hHead
    cases hHead
    cases hOk
  | some w =>
    rw [hDesc] at hHead
    have hFixed (hw : w = .nil ∨ w = .false ∨ w = .true ∨ w = .float32 ∨ w = .float64) :
        b.get s.pos = w.toUInt8 := fixedDesc_inv hw hDesc
    cases w with
    | nil =>
      cases hHead
      exact reads_fixed (hFixed (by simp)) hLt rfl .nil
    | «false» =>
      cases hHead
      exact reads_fixed (hFixed (by simp)) hLt rfl (.bool false)
    | «true» =>
      cases hHead
      exact reads_fixed (hFixed (by simp)) hLt rfl (.bool true)
    | float32 => exact reads_float32 (hFixed (by simp)) hLt hHead hOk
    | float64 => exact reads_float64 (hFixed (by simp)) hLt hHead hOk
    | posInt => exact reads_int (Or.inl ⟨rfl, rfl⟩) hDesc hLt hHead hOk
    | negInt => exact reads_int (Or.inr ⟨rfl, rfl⟩) hDesc hLt hHead hOk
    | string => exact reads_bytes (Or.inl ⟨rfl, rfl⟩) rfl hDesc hLt hHead hOk hSlices
    | bytes => exact reads_bytes (Or.inr ⟨rfl, rfl⟩) rfl hDesc hLt hHead hOk hSlices
    | customExt => exact reads_ext hDesc hLt hHead hOk hSlices
    | array =>
      dsimp only at hHead
      rw [codecSimpleDecodeArray] at hHead
      dsimp only at hHead
      split at hHead
      · rename_i hFailed
        cases hHead
        exact absurd hOk (CodecDecodeState.err_of_failed hFailed)
      · cases hHead
    | map => cases hHead

/-- A loop is opened by the header of an array or a map. -/
theorem branch_cases {s₁ : CodecDecodeState} {n l : Nat} {c : List Decoded → Decoded}
    (hHead : codecSimpleDecodeHead b s .zero = .branch s₁ n l c) (hOk : s₁.err = none) :
    ∃ m hdr, b.At s.pos hdr ∧ s₁.pos = s.pos + hdr.length ∧
      ((LenForm .array m hdr ∧ n = m ∧ l = intLimit ∧ c = .mk .array (.vArray m)) ∨
        LenForm .map m hdr ∧ n = 2 * m ∧ l = 2 * intLimit ∧ c = .mk .map (.vMap m)) := by
  have hLt := lt_of_head hHead (Or.inr ⟨s₁, n, l, c, rfl⟩)
  rw [codecSimpleDecodeHead_of_lt .zero hLt, codecSimpleDecodeSwitch] at hHead
  cases hDesc : codecSimpleDesc (b.get s.pos) with
  | none => rw [hDesc] at hHead; cases hHead
  | some w =>
    rw [hDesc] at hHead
    cases hRun : codecSimpleDecodeLen b s.enter.next (b.get s.pos) with
    | mk s₂ x =>
    cases w with
    | array =>
      dsimp only at hHead
      rw [codecSimpleDecodeArray, hRun] at hHead
      dsimp only at hHead
      split at hHead
      · cases hHead
      · cases hHead
        obtain ⟨hdr, hForm, hAt, hPos⟩ :=
          codecSimpleDecodeLen_ok (Or.inr (Or.inr (Or.inl rfl))) hDesc hLt hRun hOk
        exact ⟨_, hdr, hAt, hPos, Or.inl ⟨hForm, rfl, rfl, rfl⟩⟩
    | map =>
      dsimp only at hHead
      rw [codecSimpleDecodeMap, hRun] at hHead
      cases hHead
      obtain ⟨hdr, hForm, hAt, hPos⟩ :=
        codecSimpleDecodeLen_ok (Or.inr (Or.inr (Or.inr (Or.inl rfl)))) hDesc hLt hRun hOk
      exact ⟨_, hdr, hAt, hPos, Or.inr ⟨hForm, rfl, rfl, rfl⟩⟩
    | string | bytes =>
      simp only [codecSimpleDecodeBytes] at hHead
      split at hHead
      · cases hHead
      · split at hHead <;> cases hHead
    | customExt =>
      simp only [codecSimpleDecodeExt] at hHead
      split at hHead <;> cases hHead
    | posInt | negInt =>
      simp only [codecSimpleDecodeInt] at hHead
      split at hHead <;> cases hHead
    | float32 =>
      simp only [codecSimpleDecodeFloat32] at hHead
      split at hHead <;> cases hHead
    | float64 =>
      simp only [codecSimpleDecodeFloat64] at hHead
      split at hHead <;> cases hHead
    | _ => cases hHead

end Call

/-! ## Whole runs -/

section Run

variable {b : Input}

/-- A call that starts in the buffer ends there. Without an error, and with its payloads in the
buffer, it has read a document. -/
def ReadsDoc (b : Input) (s s' : CodecDecodeState) (d : Decoded) : Prop :=
  s.pos ≤ b.len → s'.pos ≤ b.len ∧
    (s'.err = none → d.SlicesIn b.len → s.err = none ∧ Reads b s s' d)

theorem ReadsDoc.links {s s' : CodecDecodeState} {ds : List Decoded}
    (h : Links (ReadsDoc b) s ds s') (hInside : s.pos ≤ b.len) :
    s'.pos ≤ b.len ∧ (s'.err = none → (∀ r ∈ Decoded.slicesList ds, r.In b.len) →
      s.err = none ∧ ∃ ws bs, Decoded.values b ds = some ws ∧ Docs ws bs ∧ b.At s.pos bs ∧
        s'.pos = s.pos + bs.length) := by
  induction ds generalizing s with
  | nil =>
    have hSame : s = s' := h
    subst hSame
    refine ⟨hInside, fun hOk _ => ⟨hOk, [], [], rfl, .nil, ?_, rfl⟩⟩
    exact Input.At.of_slice (k := 0) hInside
  | cons d ds ih =>
    obtain ⟨s₁, hHere, hRest⟩ := h
    obtain ⟨hInside₁, hCall⟩ := hHere hInside
    obtain ⟨hEnd, hLoop⟩ := ih hRest hInside₁
    refine ⟨hEnd, fun hOk hSlices => ?_⟩
    rw [Decoded.slicesList, List.forall_mem_append] at hSlices
    obtain ⟨hOk₁, ws, bs, hValues, hDocs, hAts, hPos⟩ := hLoop hOk hSlices.2
    obtain ⟨hOk₀, w, cs, hValue, hDoc, hAt, hPos₁⟩ := hCall hOk₁ hSlices.1
    rw [hPos₁] at hAts
    refine ⟨hOk₀, w :: ws, cs ++ bs, Decoded.values_cons.mpr ⟨hValue, hValues⟩,
      .cons w ws cs bs hDoc hDocs, hAt.join hAts, ?_⟩
    rw [hPos, hPos₁, List.length_append, Nat.add_assoc]

theorem readsDoc_builds (b : Input) : Builds (codecSimpleScheme b) (ReadsDoc b) where
  leave _ _ := rfl
  leaf := by
    intro s s' d hHead _ hInside
    have hHead : codecSimpleDecodeHead b s .zero = .leaf s' d := hHead
    have hSpec := headSpec b s .zero hInside
    rw [hHead] at hSpec
    refine ⟨hSpec.inside, fun hOk hSlices => ⟨hSpec.err hOk, ?_⟩⟩
    have hReads : Reads b s s' d := reads_leaf hHead hOk hSlices
    exact hReads
  branch := by
    intro s s₁ n l c s₂ ds hHead hCount hLimit hLinks _ hInside
    have hHead : codecSimpleDecodeHead b s .zero = .branch s₁ n l c := hHead
    have hSpec := headSpec b s .zero hInside
    rw [hHead] at hSpec
    obtain ⟨hEnd, hLoop⟩ := ReadsDoc.links hLinks hSpec.inside
    obtain ⟨_, _, _, hClose⟩ := hSpec.branch s₁ n l c rfl
    refine ⟨hEnd, fun hOk hSlices => ?_⟩
    rw [Decoded.SlicesIn, hClose] at hSlices
    obtain ⟨hOk₁, ws, bs, hValues, hDocs, hAts, hPos⟩ := hLoop hOk hSlices
    obtain ⟨m, hdr, hAt, hPos₁, hCase⟩ := branch_cases hHead hOk₁
    have hLength := Decoded.values_length hValues
    rw [hPos₁] at hAts
    have hStop : s₂.pos = s.pos + (hdr ++ bs).length := by
      rw [hPos, hPos₁, List.length_append, Nat.add_assoc]
    have hBound : n < l := by
      refine hLimit ?_
      rcases hCase with ⟨_, _, rfl, _⟩ | ⟨_, _, rfl, _⟩ <;> decide
    refine ⟨hSpec.err hOk₁, ?_⟩
    rcases hCase with ⟨hForm, rfl, rfl, rfl⟩ | ⟨hForm, rfl, rfl, rfl⟩
    · have hCount' : ws.length = n := by omega
      refine ⟨.array () ws, hdr ++ bs, ?_, ?_, hAt.join hAts, hStop⟩
      · simp [Decoded.value, hValues, hCount']
      · exact .array ws hdr bs (by omega) (hCount' ▸ hForm) hDocs
    · have hCount' : ws.length = 2 * m := by omega
      have hEntries := Decoded.entries_pairUp ws hCount'
      have hPairs : (Decoded.pairUp ws).length = m := by
        have hTwice := entries_length (Decoded.pairUp ws)
        rw [hEntries] at hTwice
        omega
      refine ⟨.map () (Decoded.pairUp ws), hdr ++ bs, ?_, ?_, hAt.join hAts, hStop⟩
      · simp [Decoded.value, hValues, hCount']
      · exact .map _ hdr bs (by omega) (hPairs.symm ▸ hForm) (hEntries.symm ▸ hDocs)

end Run

/-- What the decoder makes of a buffer, payloads inside it, is the value of the document the
buffer starts with: it returns nothing else and misses no document. -/
theorem codecSimpleDecode_iff_doc (b : Input) (o : Option Value) (n : Nat) :
    (∃ fuel s d, codecSimpleDecode b fuel .zero = .done s d ∧ s.err = none ∧ d.SlicesIn b.len ∧
      d.value b = o ∧ s.pos = n) ↔
      ∃ v bs, o = some v ∧ Doc v bs ∧ b.At 0 bs ∧ bs.length = n := by
  constructor
  · rintro ⟨fuel, s, d, hRun, hOk, hSlices, hValue, hPos⟩
    obtain ⟨_, hReads⟩ := (readsDoc_builds b).returns ⟨fuel, hRun⟩ (s.failed_eq_false_iff.mpr hOk)
      (Nat.zero_le _)
    obtain ⟨_, v, bs, hValue', hDoc, hAt, hStop⟩ := hReads hOk hSlices
    rw [CodecDecodeState.init, Nat.zero_add] at hStop
    exact ⟨v, bs, hValue.symm.trans hValue', hDoc, hAt, hStop.symm.trans hPos⟩
  · rintro ⟨v, bs, rfl, hDoc, hAt, hLength⟩
    obtain ⟨s, d, ⟨fuel, hRun⟩, ⟨hValue, hSlices⟩, hPos, hOk⟩ :=
      readsTo_of_doc b v hDoc .init hAt rfl
    refine ⟨fuel, s, d, hRun, hOk, hSlices, hValue, ?_⟩
    rw [hPos, hLength]
    exact Nat.zero_add n

end CcCommon.Codec.Simple
