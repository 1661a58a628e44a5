import CcCommon.Codec.Simple.Head

/-! # What codec_simple_decode reads of its destination

Nested values go into zeroed memory, the outermost one into a `codec_value` of
the caller. A byte string keeps a type that it finds there. -/

namespace CcCommon.Codec.Simple

open Util Lib.Descent

set_option autoImplicit false

/-- A run into `v` that succeeds has the same result in `v'`. -/
def SameResult (b : Input) (v v' : Decoded) : Prop :=
  ∀ fuel s d, codecSimpleDecode b fuel v = .done s d → s.err = none →
    codecSimpleDecode b fuel v' = .done s d

/-- The type that a byte string has in the destination. -/
def bytesType (v : Decoded) : CodecValueType := if v.type = .unset then .bytes else v.type

/-- A byte string at position `p`, whose length is there and passes the bound check. -/
def BytesAt (b : Input) (p : Nat) : Prop :=
  p < b.len ∧ codecSimpleDesc (b.get p) = some .bytes ∧
    p + 1 + (lenWidth ((b.get p).toNat % 8)).size ≤ b.len ∧
    sizeT (readnValue (lenWidth ((b.get p).toNat % 8)) (b.get (p + 1)) +
      (p + 1 + (lenWidth ((b.get p).toNat % 8)).size)) ≤ b.len

/-! ## Two heads in one state -/

/-- The steps differ only in what is left in the destination after an error. -/
inductive Agree : Step CodecDecodeState Decoded → Step CodecDecodeState Decoded → Prop where
  | same (step : Step CodecDecodeState Decoded) : Agree step step
  | failed {s : CodecDecodeState} (d d' : Decoded) (hErr : s.err ≠ none) :
      Agree (.leaf s d) (.leaf s d')

section Heads

variable {b : Input} {s : CodecDecodeState} {v v' : Decoded}

/-- Both leave the branch if `*err` is set. -/
theorem agree_failed {step step' : Step CodecDecodeState Decoded}
    (h : s.failed = false → Agree step step') :
    Agree (if s.failed then .leaf s v else step) (if s.failed then .leaf s v' else step') := by
  split
  · rename_i hFailed
    exact .failed v v' (CodecDecodeState.err_of_failed hFailed)
  · rename_i hOk
    exact h (Bool.eq_false_iff.mpr hOk)

theorem agree_chk {k : Nat} {next : CodecDecodeState → Step CodecDecodeState Decoded} :
    Agree
      (match codecDecodeStateChk b s k with
        | (s, true) => .leaf s v
        | (s, false) => next s)
      (match codecDecodeStateChk b s k with
        | (s, true) => .leaf s v'
        | (s, false) => next s) := by
  rcases codecDecodeStateChk_cases b s k with ⟨hPass, -⟩ | ⟨msg, hStop, -⟩
  · rw [hPass]
    exact .same _
  · rw [hStop]
    exact .failed v v' (by simp)

theorem type_stored (v : Decoded) :
    (if v.type = .unset then v.withType .bytes else v).type = bytesType v := by
  rw [bytesType]
  cases v
  split <;> rfl

theorem agree_bytes (bd : UInt8) (h : bytesType v = bytesType v') :
    Agree (codecSimpleDecodeBytes b s v bd) (codecSimpleDecodeBytes b s v' bd) := by
  unfold codecSimpleDecodeBytes
  dsimp only
  apply agree_failed
  intro _
  rw [type_stored, type_stored, h]
  exact .same _

theorem agree_head (h : s.pos < b.len → codecSimpleDesc (b.get s.pos) = some .bytes →
      bytesType v = bytesType v') :
    Agree (codecSimpleDecodeHead b s v) (codecSimpleDecodeHead b s v') := by
  rcases Nat.lt_or_ge s.pos b.len with hLt | hEnd
  · rw [codecSimpleDecodeHead_of_lt v hLt, codecSimpleDecodeHead_of_lt v' hLt]
    unfold codecSimpleDecodeSwitch
    cases hDesc : codecSimpleDesc (b.get s.pos) with
    | none => exact .failed v v' (by simp)
    | some d =>
      cases d with
      | nil | «false» | «true» | map | customExt => exact .same _
      | posInt | negInt => exact agree_failed fun _ => .same _
      | array => exact agree_failed fun _ => .same _
      | float32 => exact agree_chk
      | float64 => exact agree_chk
      | string =>
        apply agree_bytes
        cases v
        cases v'
        rfl
      | bytes => exact agree_bytes _ (h hLt hDesc)
  · rw [codecSimpleDecodeHead_of_le v hEnd, codecSimpleDecodeHead_of_le v' hEnd]
    exact .failed v v' (by simp)

end Heads

/-! ## A byte string -/

section Bytes

variable {b : Input} {s : CodecDecodeState}

theorem head_bytes (hDesc : codecSimpleDesc (b.get s.pos) = some .bytes) (hLt : s.pos < b.len)
    (hOk : s.err = none) : ∃ s' r, (s'.err = none ↔ BytesAt b s.pos) ∧ ∀ v, ∃ d,
      codecSimpleDecodeHead b s v = .leaf s' d ∧
        (BytesAt b s.pos → d = .mk (bytesType v) (.vBytes r) []) := by
  have hLen := b.len_lt
  have hPos : s.enter.next.pos = s.pos + 1 := CodecDecodeState.next_pos_of_lt _ (by simp; omega)
  have hHead (v : Decoded) : codecSimpleDecodeHead b s v =
      codecSimpleDecodeBytes b s.enter.next v (b.get s.pos) := by
    rw [codecSimpleDecodeHead_of_lt v hLt, codecSimpleDecodeSwitch, hDesc]
  obtain ⟨s₂, x, hRun, hWalk, hCases⟩ :=
    codecSimpleDecodeLen_cases (Or.inr (Or.inl rfl)) hDesc hPos (by rw [hPos]; exact hLt)
  have hInside := hWalk.inside
  simp only [codecSimpleDecodeBytes, hRun] at hHead
  rcases hCases with ⟨w, hw, hPos₂, hSame, rfl⟩ | ⟨hErr, -, -, hShort⟩
  · have hErr₂ : s₂.err = none := hSame.mpr hOk
    have hNoFail : ¬ s₂.failed = true := by simp [CodecDecodeState.failed, hErr₂]
    have hThere : BytesAt b s.pos ↔ sizeT (readnValue w (b.get (s.pos + 1)) + s₂.pos) ≤ b.len := by
      rw [hPos₂, hw]
      constructor
      · rintro ⟨-, -, -, hFits⟩
        exact hFits
      · intro hFits
        exact ⟨hLt, hDesc, by rw [← hw]; omega, hFits⟩
    simp only [if_neg hNoFail] at hHead
    rcases codecDecodeStateChk_cases b s₂ (readnValue w (b.get (s.pos + 1))) with
      ⟨hPass, hFits⟩ | ⟨msg, hStop, hPast⟩
    · rw [hPass] at hHead
      have hBytes := hThere.mpr hFits
      generalize readnValue w (b.get (s.pos + 1)) = n at hHead
      refine ⟨s₂.advance n, ⟨some s₂.pos, n, some n⟩, iff_of_true hErr₂ hBytes, fun v => ?_⟩
      exact ⟨_, hHead v, fun _ => by rw [type_stored]⟩
    · rw [hStop] at hHead
      have hNot : ¬ BytesAt b s.pos := fun h => absurd (hThere.mp h) (Nat.not_le.mpr hPast)
      exact ⟨s₂.fail msg, ⟨none, 0, none⟩, iff_of_false (by simp) hNot,
        fun v => ⟨_, hHead v, fun h => absurd h hNot⟩⟩
  · have hNot : ¬ BytesAt b s.pos := by
      rintro ⟨-, -, hThere, -⟩
      omega
    have hFailed : s₂.failed = true := by
      simpa [CodecDecodeState.failed, Option.isSome_iff_ne_none] using hErr
    simp only [if_pos hFailed] at hHead
    exact ⟨s₂, ⟨none, 0, none⟩, iff_of_false hErr hNot,
      fun v => ⟨_, hHead v, fun h => absurd h hNot⟩⟩

end Bytes

theorem node_agree {b : Input} {s : CodecDecodeState} {v v' : Decoded}
    (h : Agree (codecSimpleDecodeHead b s v) (codecSimpleDecodeHead b s v')) (fuel : Nat)
    {s' : CodecDecodeState} {d : Decoded} (hRun : codecSimpleDecodeR b fuel s v = .done s' d)
    (hOk : s'.err = none) : codecSimpleDecodeR b fuel s v' = .done s' d := by
  cases fuel with
  | zero => cases hRun
  | succ fuel =>
    simp only [codecSimpleDecodeR, node, codecSimpleScheme, decodeScheme] at hRun ⊢
    generalize codecSimpleDecodeHead b s v = step at h hRun
    generalize codecSimpleDecodeHead b s v' = step' at h ⊢
    cases h with
    | same step => exact hRun
    | failed d d' hErr =>
      cases hRun
      exact absurd hOk hErr

/-- The result does not depend on the destination if and only if the input starts with no byte
string, or the two destinations give it the same type. -/
theorem codecSimpleDecode_sameResult_iff (b : Input) (v v' : Decoded) :
    SameResult b v v' ↔ (BytesAt b 0 → bytesType v = bytesType v') := by
  constructor
  · intro h hBytes
    obtain ⟨s', r, hErr, hHead⟩ := head_bytes (s := .init) hBytes.2.1 hBytes.1 rfl
    obtain ⟨d, hLeaf, hType⟩ := hHead v
    obtain ⟨d', hLeaf', hType'⟩ := hHead v'
    have hLeaf : (codecSimpleScheme b).head .init v = .leaf s' d := hLeaf
    have hLeaf' : (codecSimpleScheme b).head .init v' = .leaf s' d' := hLeaf'
    have hSame := h 1 _ d (node_leaf hLeaf 0) (hErr.mpr hBytes)
    rw [show codecSimpleDecode b 1 v' = _ from node_leaf hLeaf' 0] at hSame
    obtain ⟨-, hEq⟩ := Outcome.done.inj hSame
    rw [hType hBytes, hType' hBytes] at hEq
    exact (Decoded.mk.inj hEq).1.symm
  · intro h fuel s d hRun hOk
    refine node_agree (agree_head fun hLt hDesc => ?_) fuel hRun hOk
    obtain ⟨s', r, hErr, hHead⟩ := head_bytes hDesc hLt rfl
    obtain ⟨d', hLeaf, -⟩ := hHead v
    have hLeaf : (codecSimpleScheme b).head .init v = .leaf s' d' := hLeaf
    -- the run succeeds, so the byte string is whole
    cases fuel with
    | zero => cases hRun
    | succ fuel =>
      rw [show codecSimpleDecode b (fuel + 1) v = _ from node_leaf hLeaf fuel] at hRun
      cases hRun
      exact h (hErr.mp hOk)

/-- An empty byte string, decoded into a zeroed destination and into one that held nil. -/
theorem not_sameResult_nil :
    ¬ SameResult ⟨[0xE0], fun _ => 0, by decide⟩ .zero (.blank .nil) := by
  intro h
  have hSame := h 1 _ _ rfl rfl
  cases hSame

end CcCommon.Codec.Simple
