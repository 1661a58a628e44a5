import CcCommon.Codec.Binc.Documents
import CcCommon.Codec.Binc.EncodeRuns
import CcCommon.Lib.PrefixCode
import Mathlib.Tactic.IntervalCases

/-! # What codec_binc_encode_uint writes, and where a reader finds it

Of the six magnitudes that the encoder distinguishes, two are written wrong:
two bytes go out without their descriptor, and of eight bytes only the low
four hold digits, at the top. A pruned negative loses digits that the reader
does not put back. -/

namespace CcCommon.Codec.Binc

open Util Lib.Bytes Lib.PrefixCode

set_option autoImplicit false

/-- The number goes out with its descriptor and with digits that denote it. -/
def WrittenWhole (pos : Bool) (n : Nat) : Prop :=
  n ≤ 0xff ∨ (0x10000 ≤ n ∧ n < if pos then 2 ^ 32 else 0xff800000)

/-- A descriptor and at most eight digits behind it. -/
structure Wide (vd : CodecBincDescType) (n : Nat) (d : List UInt8) : Prop where
  form : ∃ c cs, cs.length ≤ 7 ∧ beNat (c :: cs) = n ∧ d = bincDesc vd cs.length :: c :: cs

/-! ## Pruning -/

theorem bincDesc_or {vd : CodecBincDescType} {k : Nat} (h : k < 16) :
    bincDesc vd 0 ||| UInt8.ofNat k = bincDesc vd k := by
  have hAll : ∀ k : Fin 16, bincDesc vd 0 ||| UInt8.ofNat k = bincDesc vd k := by
    cases vd <;> decide
  exact hAll ⟨k, h⟩

theorem pruneCount_lt (lead : UInt8) (top : Bool) (x : List UInt8) (h : x ≠ []) :
    pruneCount lead top x < x.length := by
  induction x with
  | nil => exact absurd rfl h
  | cons a x ih =>
    cases x with
    | nil => exact Nat.zero_lt_one
    | cons c rest =>
      have hRest := ih (by simp)
      rw [pruneCount]
      split
      · rw [List.length_cons]
        omega
      · simp

theorem beNat_drop_pruneCount (x : List UInt8) : beNat (x.drop (pruneCount 0 false x)) = beNat x := by
  induction x with
  | nil => rfl
  | cons a x ih =>
    cases x with
    | nil => rfl
    | cons c rest =>
      rw [pruneCount]
      split
      · rename_i hLead
        rw [List.drop_succ_cons, ih, hLead.1, beNat_cons 0]
        simp
      · rfl

theorem pruneCount_negative {n : Nat} (h : n < 2 ^ 32) :
    pruneCount 0xff true (beBytes 4 n) = 0 ↔ n < 0xff800000 := by
  have hTop : (UInt8.ofNat (n / 256 ^ 3)).toNat = n / 256 ^ 3 := by
    rw [UInt8.toNat_ofNat']
    omega
  have hNext : (UInt8.ofNat (n / 256 ^ 2)).toNat = n / 256 ^ 2 % 256 := by simp
  have hLead : UInt8.ofNat (n / 256 ^ 3) = 0xff ↔ n / 256 ^ 3 = 255 := by
    rw [← UInt8.toNat_inj, hTop]
    exact Iff.rfl
  simp only [beBytes, pruneCount, hLead, hNext, decide_eq_true_eq]
  split
  · simp only [Nat.add_eq_zero_iff, Nat.one_ne_zero, and_false, false_iff]
    omega
  · simp only [true_iff]
    omega

/-! ## The digits that are written -/

section Written

variable {vd : CodecBincDescType} {pos : Bool} {n : Nat}

theorem codecBincPruneSignExt_lt (pos : Bool) {x : List UInt8} (h : x ≠ []) :
    codecBincPruneSignExt x pos < x.length := by
  rw [codecBincPruneSignExt]
  split
  · exact pruneCount_lt 0 false x h
  · exact pruneCount_lt 0xff true x h

theorem uintBytes_four (h : n < 2 ^ 32) : uintBytes n 4 = beBytes 4 n := by
  rw [uintBytes, if_pos rfl, Nat.mod_eq_of_lt h, utilBigEndianWriteUint32_eq]

theorem uintBytes_eight : uintBytes n 8 = beBytes 4 (n % 2 ^ 32) ++ [0, 0, 0, 0] := by
  rw [uintBytes, if_neg (by decide), utilBigEndianWriteUint32_eq]
  rfl

theorem prunedBytes_eq (vd : CodecBincDescType) (pos : Bool) {lim : Nat} (hLim : lim ≤ 8)
    (hLength : (uintBytes n lim).length = lim) (hPos : 0 < lim) :
    ∃ i, i = codecBincPruneSignExt (uintBytes n lim) pos ∧ i < lim ∧
      prunedBytes (bincDesc vd 0) pos lim n =
        bincDesc vd (lim - 1 - i) :: (uintBytes n lim).drop i := by
  have hLt : codecBincPruneSignExt (uintBytes n lim) pos < lim := by
    have hSome : uintBytes n lim ≠ [] := List.ne_nil_of_length_pos (by omega)
    have hBound := codecBincPruneSignExt_lt pos hSome
    omega
  refine ⟨_, rfl, hLt, ?_⟩
  rw [prunedBytes, bincDesc_or (by omega)]

theorem prunedBytes_four (vd : CodecBincDescType) (pos : Bool) (h : n < 2 ^ 32) :
    ∃ i, i = codecBincPruneSignExt (beBytes 4 n) pos ∧ i < 4 ∧
      prunedBytes (bincDesc vd 0) pos 4 n = bincDesc vd (3 - i) :: (beBytes 4 n).drop i := by
  have hFour := uintBytes_four h
  obtain ⟨i, hi, hLt, hEq⟩ := prunedBytes_eq vd pos (n := n) (by decide)
    (show (uintBytes n 4).length = 4 by rw [hFour, beBytes_length]) (by decide)
  rw [hFour] at hi hEq
  exact ⟨i, hi, hLt, hEq⟩

theorem wide_prunedBytes (h : n < 2 ^ 32) (hNeg : pos = false → n < 0xff800000) :
    Wide vd n (prunedBytes (bincDesc vd 0) pos 4 n) := by
  obtain ⟨i, hi, hLt, hEq⟩ := prunedBytes_four vd pos h
  have hValue : beNat ((beBytes 4 n).drop i) = n := by
    have hWhole : beNat (beBytes 4 n) = n := beNat_beBytes_of_lt h
    cases pos with
    | true => rw [hi, codecBincPruneSignExt, if_pos rfl, beNat_drop_pruneCount, hWhole]
    | false =>
      have hNone := (pruneCount_negative h).mpr (hNeg rfl)
      rw [hi, codecBincPruneSignExt, if_neg (by decide), hNone, List.drop_zero, hWhole]
  cases hDigits : (beBytes 4 n).drop i with
  | nil =>
    have hLength := congrArg List.length hDigits
    rw [List.length_drop, beBytes_length, List.length_nil] at hLength
    omega
  | cons c cs =>
    have hLength := congrArg List.length hDigits
    rw [List.length_drop, beBytes_length, List.length_cons] at hLength
    refine ⟨c, cs, by omega, by rw [← hDigits, hValue], ?_⟩
    rw [hEq, hDigits, show 3 - i = cs.length by omega]

theorem wide_byte (h : n ≤ 0xff) : Wide vd n [bincDesc vd 0, UInt8.ofNat n] := by
  refine ⟨UInt8.ofNat n, [], by decide, ?_, rfl⟩
  rw [beNat_singleton, UInt8.toNat_ofNat']
  omega

/-- A number that is written whole is in the form that the reader expects. -/
theorem wide_bincUintBytes (vd : CodecBincDescType) (hZero : n ≠ 0)
    (hSmall : ¬ (pos ∧ 1 ≤ n ∧ n ≤ 16)) (h : WrittenWhole pos n) :
    Wide vd n (bincUintBytes (bincDesc vd 0) pos n) := by
  rw [bincUintBytes, if_neg hZero, if_neg hSmall]
  rcases h with hByte | ⟨hLow, hHigh⟩
  · rw [if_pos hByte]
    exact wide_byte hByte
  · have hFour : n < 2 ^ 32 := by split at hHigh <;> omega
    rw [if_neg (by omega), if_neg (by omega), if_pos (by omega)]
    refine wide_prunedBytes hFour ?_
    rintro rfl
    exact hHigh

end Written

/-! ## Where the digits can be found -/

section Found

variable {vd vd' : CodecBincDescType} {pos : Bool} {n : Nat} {d : List UInt8}

theorem Wide.lt (h : Wide vd n d) : n < 256 ^ (d.length - 1) ∧ 2 ≤ d.length ∧ d.length ≤ 9 := by
  obtain ⟨c, cs, hWidth, rfl, rfl⟩ := h
  refine ⟨beNat_lt (c :: cs), ?_, ?_⟩ <;> simp only [List.length_cons] <;> omega

theorem zero_of_shift {x : List UInt8} (hx : x.length = 4) {q : Nat} (hLow : 1 ≤ q) (hHigh : q ≤ 4)
    (h : ((x ++ [0, 0, 0, 0]).drop q).take 4 = x) : x = [0, 0, 0, 0] := by
  match x, hx with
  | [a, b, c, d], _ =>
    interval_cases q <;> simp only [List.cons_append, List.nil_append, List.drop_succ_cons,
      List.drop_zero, List.take_succ_cons, List.take_zero, List.cons.injEq] at h ⊢ <;> grind

/-- Eight bytes hold the low digits of the number at the top, so that no digits of it are in them. -/
theorem not_infix_eight (hBig : 2 ^ 32 ≤ n) (hd : Wide vd' n d) (t u : List UInt8) :
    prunedBytes (bincDesc vd 0) pos 8 n ≠ t ++ (d ++ u) := by
  intro hEq
  obtain ⟨c, cs, hWidth, hValue, rfl⟩ := hd
  have hEight : (uintBytes n 8).length = 8 := by
    rw [uintBytes_eight, List.length_append, beBytes_length]
    rfl
  obtain ⟨i, _, _, hBytes⟩ := prunedBytes_eq vd pos (by decide) hEight (by decide)
  have hDigits : 4 ≤ cs.length := by
    by_contra hFew
    have hBound := beNat_lt (c :: cs)
    have hPow : 256 ^ (c :: cs).length ≤ 256 ^ 4 :=
      Nat.pow_le_pow_right (by decide) (by rw [List.length_cons]; omega)
    omega
  -- the digits are a window of the eight bytes
  have hWindow : (uintBytes n 8).drop (i + t.length) = (c :: cs) ++ u := by
    rw [hBytes] at hEq
    have hTail := congrArg (List.drop (t.length + 1)) hEq
    rw [List.drop_succ_cons, List.drop_drop] at hTail
    simpa using hTail
  have hRoom : i + t.length + (cs.length + 1) ≤ 8 := by
    have hLength := congrArg List.length hWindow
    rw [List.length_drop, hEight, List.length_append, List.length_cons] at hLength
    omega
  -- of which the last four are the four at the top again
  have hLast : (c :: cs).drop (cs.length + 1 - 4) = beBytes 4 (n % 2 ^ 32) := by
    have hSplit := beNat_append ((c :: cs).take (cs.length + 1 - 4))
      ((c :: cs).drop (cs.length + 1 - 4))
    have hFour : ((c :: cs).drop (cs.length + 1 - 4)).length = 4 := by
      rw [List.length_drop, List.length_cons]
      omega
    have hBound := beNat_lt ((c :: cs).drop (cs.length + 1 - 4))
    rw [List.take_append_drop, hValue, hFour] at hSplit
    rw [hFour] at hBound
    apply beNat_inj
    · rw [hFour, beBytes_length]
    · have hMod : n % 2 ^ 32 < 256 ^ 4 := Nat.mod_lt _ (by decide)
      rw [beNat_beBytes_of_lt hMod]
      omega
  have hZero : beBytes 4 (n % 2 ^ 32) = [0, 0, 0, 0] := by
    apply zero_of_shift (q := i + t.length + (cs.length + 1 - 4)) (beBytes_length _ _) (by omega)
      (by omega)
    have hShift := congrArg (List.drop (cs.length + 1 - 4)) hWindow
    rw [List.drop_drop, uintBytes_eight] at hShift
    rw [hShift, List.drop_append_of_le_length (by rw [List.length_cons]; omega), hLast]
    exact List.take_left' (beBytes_length _ _)
  have hNone : uintBytes n 8 = List.replicate 8 0 := by
    rw [uintBytes_eight, hZero]
    rfl
  rw [hNone, List.drop_replicate] at hWindow
  have hAll := (List.append_eq_replicate_iff.mp hWindow.symm).2.1
  rw [hAll, beNat_replicate_zero] at hValue
  omega

theorem nibble_bincDesc {k : Nat} (h : k < 16) : nibble (bincDesc vd k) = k :=
  (bincDesc_spec vd h).2

theorem not_infix_four (hLow : 0x10000 ≤ n) (hHigh : n < 2 ^ 32) (hd : Wide vd' n d)
    (hLong : d.length < (prunedBytes (bincDesc vd 0) pos 4 n).length) (t u : List UInt8) :
    prunedBytes (bincDesc vd 0) pos 4 n ≠ t ++ (d ++ u) := by
  intro hEq
  obtain ⟨i, _, hi, hBytes⟩ := prunedBytes_four vd pos hHigh
  have hBound := hd.lt.1
  obtain ⟨c, cs, hWidth, hValue, rfl⟩ := hd
  simp only [List.length_cons, Nat.add_sub_cancel] at hLong hBound
  have hDigits : 2 ≤ cs.length := by
    by_contra hFew
    have hPow : 256 ^ (cs.length + 1) ≤ 256 ^ 2 := Nat.pow_le_pow_right (by decide) (by omega)
    omega
  rw [hBytes, List.length_cons, List.length_drop, beBytes_length] at hLong
  -- so all four bytes went out, and the first of them is zero
  have hNone : i = 0 := by omega
  have hThree : cs.length = 2 := by omega
  have hTop : UInt8.ofNat (n / 256 ^ 3) = 0 := by
    rw [hThree] at hBound
    rw [Nat.div_eq_of_lt (by omega)]
    rfl
  rw [hBytes, hNone, beBytes, hTop, hThree] at hEq
  rcases t with _ | ⟨a, _ | ⟨a', t⟩⟩
  · have hHead := congrArg nibble (List.cons.inj hEq).1
    rw [nibble_bincDesc (by decide), nibble_bincDesc (by decide)] at hHead
    omega
  · have hHead := congrArg nibble (List.cons.inj (List.cons.inj hEq).2).1
    rw [nibble_bincDesc (by decide)] at hHead
    exact absurd hHead (by decide)
  · have hLength := congrArg List.length hEq
    simp only [List.length_cons, List.length_append, beBytes_length, List.drop_zero] at hLength
    omega

/-- A reader that looks for the number in any form strays, unless it was written whole. -/
theorem drifts_bincUintBytes (hZero : n ≠ 0) (hSmall : ¬ (pos ∧ 1 ≤ n ∧ n ≤ 16))
    (hd : Wide vd' n d) : Drifts (WrittenWhole pos n) (bincUintBytes (bincDesc vd 0) pos n) d := by
  obtain ⟨hBound, hTwo, hNine⟩ := hd.lt
  rw [bincUintBytes, if_neg hZero, if_neg hSmall]
  split
  · rename_i hByte
    exact .of_le hTwo fun _ => Or.inl hByte
  · split
    · rename_i hByte _
      have hThree : 3 ≤ d.length := by
        by_contra hShort
        have hPow : 256 ^ (d.length - 1) ≤ 256 ^ 1 := Nat.pow_le_pow_right (by decide) (by omega)
        omega
      refine .of_le (by rw [beBytes_length]; omega) fun hSame => ?_
      rw [hSame, beBytes_length] at hThree
      omega
    · split
      · rename_i hTwoBytes hFour
        have hFour : n < 2 ^ 32 := by omega
        rcases Nat.lt_or_ge d.length (prunedBytes (bincDesc vd 0) pos 4 n).length with hLong | hLe
        · exact .of_absent (not_infix_four (by omega) hFour hd hLong)
        · refine .of_le hLe fun hSame => Or.inr ⟨by omega, ?_⟩
          cases pos with
          | true => exact hFour
          | false =>
            by_contra hNegative
            have hLost := mt (pruneCount_negative hFour).mp hNegative
            obtain ⟨i, hi, _, hBytes⟩ := prunedBytes_four vd false hFour
            have hShort : d.length ≤ 4 := by
              rw [hSame, hBytes, List.length_cons, List.length_drop, beBytes_length, hi]
              exact Nat.sub_lt (by decide) (Nat.pos_of_ne_zero hLost)
            have hPow : 256 ^ (d.length - 1) ≤ 256 ^ 3 := Nat.pow_le_pow_right (by decide) (by omega)
            simp only [Bool.false_eq_true, if_false] at hNegative
            omega
      · exact .of_absent (not_infix_eight (by omega) hd)

end Found

end CcCommon.Codec.Binc
