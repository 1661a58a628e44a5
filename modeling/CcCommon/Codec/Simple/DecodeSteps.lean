import CcCommon.Codec.Simple.Decode
import Mathlib.Tactic.IntervalCases

/-! # What one call of codec_simple_decode_r does on the encoder's bytes

The descriptors and widths the encoder chooses, read by the decoder's switch.
A number comes back as the sign extension of its leading byte. -/

namespace CcCommon.Codec.Simple

open Util Lib.Bytes Lib.Descent

set_option autoImplicit false

/-! ## Widths -/

/-- The offset that a length adds to its descriptor. -/
def lenClass (n : Nat) : Nat :=
  if n = 0 then 0 else if n ≤ 0xff then 1 else if n ≤ 0xffff then 2
  else if n ≤ 0xffffffff then 3 else 4

def lenWidth : Nat → ReadWidth
  | 0 => .w0
  | 1 => .w1
  | 2 => .w2
  | 3 => .w4
  | _ => .w8

/-- The offset that an integer adds to its descriptor. -/
def intClass (n : Nat) : Nat :=
  if n ≤ 0xff then 0 else if n ≤ 0xffff then 1 else if n ≤ 0xffffffff then 2 else 3

theorem lenClass_le (n : Nat) : lenClass n ≤ 4 := by
  unfold lenClass
  split_ifs <;> decide

theorem intClass_le (n : Nat) : intClass n ≤ 3 := by
  unfold intClass
  split_ifs <;> decide

theorem lenBytes_eq (bd : UInt8) (n : Nat) :
    lenBytes bd n = (bd + UInt8.ofNat (lenClass n)) :: beBytes (lenWidth (lenClass n)).size n := by
  unfold lenBytes lenClass
  split_ifs with h
  · simp [h, lenWidth, ReadWidth.size, beBytes]
  all_goals rfl

theorem intBytes_eq (bd : UInt8) (n : Nat) :
    intBytes bd n =
      (bd + UInt8.ofNat (intClass n)) :: beBytes (lenWidth (intClass n + 1)).size n := by
  unfold intBytes intClass
  split_ifs
  · simp [lenWidth, ReadWidth.size]
  all_goals rfl

theorem lenClass_of_ne_zero {n : Nat} (h : n ≠ 0) : lenClass n = intClass n + 1 := by
  rw [lenClass, if_neg h, intClass]
  split_ifs <;> rfl

/-- The bytes that the encoder writes behind the descriptor of a nonzero number. -/
def digits (n : Nat) : List UInt8 := beBytes (lenWidth (intClass n + 1)).size n

/-- What the decoder makes of a number the encoder wrote. -/
def readBack (n : Nat) : Nat :=
  readnValue (lenWidth (intClass n + 1)) ((digits n).headD 0)

/-- The numbers that survive: one byte, or all ones in their width. -/
def ReadsBack (n : Nat) : Prop :=
  n ≤ 0xff ∨ n = 0xffff ∨ n = 0xffffffff ∨ n = 0xffffffffffffffff

theorem readBack_eq_iff {n : Nat} (hn : n < 2 ^ 64) : readBack n = n ↔ ReadsBack n := by
  unfold readBack ReadsBack digits intClass
  split_ifs <;>
    simp only [lenWidth, ReadWidth.size, beBytes, List.headD_cons, readnValue, ofChar,
      UInt8.toNat_ofNat'] <;>
    split_ifs <;> omega

theorem lenBytes_of_ne_zero (bd : UInt8) {n : Nat} (h : n ≠ 0) :
    lenBytes bd n = (bd + UInt8.ofNat (lenClass n)) :: digits n := by
  rw [lenBytes_eq, digits, lenClass_of_ne_zero h]

theorem digits_length (n : Nat) : (digits n).length = (lenWidth (intClass n + 1)).size := by
  rw [digits, beBytes_length]

theorem digits_pos (n : Nat) : 0 < (digits n).length := by
  rw [digits_length]
  unfold intClass
  split_ifs <;> decide

/-! ## Reading a number -/

section Read

variable {b : Input} {s : CodecDecodeState}

theorem codecSimpleReadn_pass {w : ReadWidth} (h : s.pos + w.size ≤ b.len) :
    codecSimpleReadn b s w =
      ((if w = .w0 then s else s.touch 1).advance w.size, readnValue w (b.get s.pos)) := by
  rw [codecSimpleReadn, codecDecodeStateChk_pass (by omega)]

theorem codecSimpleReadn_at {n : Nat} (h : b.At s.pos (digits n)) :
    ∃ s', codecSimpleReadn b s (lenWidth (intClass n + 1)) = (s', readBack n) ∧
      s'.pos = s.pos + (digits n).length ∧ s'.err = s.err := by
  have hLe := h.le
  rw [digits_length] at hLe
  have hLead : b.get s.pos = (digits n).headD 0 := by
    cases hDigits : digits n with
    | nil =>
      have := digits_pos n
      rw [hDigits] at this
      cases this
    | cons c cs =>
      rw [hDigits] at h
      exact h.cons.1
  refine ⟨_, by rw [codecSimpleReadn_pass hLe, hLead]; rfl, ?_, ?_⟩
  · have := b.len_lt
    rw [digits_length]
    split <;> exact CodecDecodeState.advance_pos_of_lt _ (by simp; omega)
  · split <;> rfl

/-- The length descriptors are the multiples of 8 from 216 on. -/
def IsLengthDesc (d : CodecSimpleDescType) : Prop :=
  d = .string ∨ d = .bytes ∨ d = .array ∨ d = .map ∨ d = .customExt

theorem lenDesc_spec {d : CodecSimpleDescType} (hd : IsLengthDesc d) {k : Nat} (hk : k ≤ 4) :
    codecSimpleDesc (d.toUInt8 + UInt8.ofNat k) = some d ∧
      (d.toUInt8 + UInt8.ofNat k).toNat % 8 = k := by
  have hAll : ∀ k : Fin 5, codecSimpleDesc (d.toUInt8 + UInt8.ofNat k) = some d ∧
      (d.toUInt8 + UInt8.ofNat k).toNat % 8 = k := by
    rcases hd with rfl | rfl | rfl | rfl | rfl <;> decide
  exact hAll ⟨k, by omega⟩

theorem intDesc_spec {d : CodecSimpleDescType} (hd : d = .posInt ∨ d = .negInt) {k : Nat}
    (hk : k ≤ 3) : codecSimpleDesc (d.toUInt8 + UInt8.ofNat k) = some d ∧
      intWidth (d.toUInt8 + UInt8.ofNat k) = lenWidth (k + 1) := by
  have hAll : ∀ k : Fin 4, codecSimpleDesc (d.toUInt8 + UInt8.ofNat k) = some d ∧
      intWidth (d.toUInt8 + UInt8.ofNat k) = lenWidth (k + 1) := by
    rcases hd with rfl | rfl <;> decide
  exact hAll ⟨k, by omega⟩

theorem codecSimpleDecodeLen_at {d : CodecSimpleDescType} (hd : IsLengthDesc d) {n p : Nat}
    (h : b.At p (lenBytes d.toUInt8 n)) (hPos : s.pos = p + 1) :
    ∃ s', codecSimpleDecodeLen b s (d.toUInt8 + UInt8.ofNat (lenClass n)) = (s', readBack n) ∧
      s'.pos = p + (lenBytes d.toUInt8 n).length ∧ s'.err = s.err := by
  have hMod := (lenDesc_spec hd (lenClass_le n)).2
  by_cases hn : n = 0
  · subst hn
    refine ⟨s, ?_, by rw [hPos]; rfl, rfl⟩
    rw [codecSimpleDecodeLen, hMod]
    rfl
  · rw [lenBytes_of_ne_zero _ hn] at h ⊢
    have hDigits := h.cons.2.2
    rw [← hPos] at hDigits
    obtain ⟨s', hRead, hPos', hErr⟩ := codecSimpleReadn_at hDigits
    refine ⟨s', ?_, by rw [hPos', hPos, List.length_cons]; omega, hErr⟩
    rw [← hRead, codecSimpleDecodeLen, hMod, lenClass_of_ne_zero hn]
    have hClass := intClass_le n
    generalize intClass n = k at hClass
    interval_cases k <;> rfl

/-! ## The head of a call -/

theorem codecSimpleDecodeHead_of_lt (v : Decoded) (h : s.pos < b.len) :
    codecSimpleDecodeHead b s v = codecSimpleDecodeSwitch b s.enter.next v (b.get s.pos) := by
  rw [codecSimpleDecodeHead, codecDecodeStateChk2_pass (by simpa using h)]
  dsimp only
  rw [codecDecodeStateChk_pass (by simp; omega)]
  rfl

theorem codecSimpleDecodeHead_of_le (v : Decoded) (h : b.len ≤ s.pos) :
    codecSimpleDecodeHead b s v = .leaf (s.enter.fail ("codec_decode_state: pos: " ++
      toString s.pos ++ " >= len: " ++ toString b.len)) v := by
  rw [codecSimpleDecodeHead, codecDecodeStateChk2_stop (by simpa using h)]
  rfl

theorem codecSimpleDecodeHead_at (v : Decoded) {bd : UInt8} {cs : List UInt8}
    (h : b.At s.pos (bd :: cs)) :
    codecSimpleDecodeHead b s v = codecSimpleDecodeSwitch b s.enter.next v bd ∧
      s.enter.next.pos = s.pos + 1 := by
  obtain ⟨hGet, hLt, _⟩ := h.cons
  have hLen := b.len_lt
  rw [codecSimpleDecodeHead_of_lt v hLt, hGet]
  exact ⟨rfl, CodecDecodeState.next_pos_of_lt _ (by simp; omega)⟩

theorem codecSimpleDecodeHead_int {d : CodecSimpleDescType} {type : CodecValueType}
    (hd : d = .posInt ∧ type = .posInt ∨ d = .negInt ∧ type = .negInt) (v : Decoded) {n : Nat}
    (h : b.At s.pos (intBytes d.toUInt8 n)) (hErr : s.err = none) :
    ∃ s', codecSimpleDecodeHead b s v =
        .leaf s' (.mk type (.vUint64 (UInt64.ofNat (readBack n))) []) ∧
      s'.pos = s.pos + (intBytes d.toUInt8 n).length ∧ s'.err = none := by
  have hSpec := intDesc_spec (hd.imp And.left And.left) (intClass_le n)
  rw [intBytes_eq] at h ⊢
  obtain ⟨hHead, hNext⟩ := codecSimpleDecodeHead_at v h
  have hDigits : b.At s.enter.next.pos (digits n) := by
    rw [hNext]
    exact h.cons.2.2
  obtain ⟨s', hRead, hPos, hErr'⟩ := codecSimpleReadn_at hDigits
  have hOk : s'.failed = false := s'.failed_eq_false_iff.mpr (hErr'.trans hErr)
  have hInt : codecSimpleDecodeInt b s.enter.next v (d.toUInt8 + UInt8.ofNat (intClass n)) type =
      .leaf s' (.mk type (.vUint64 (UInt64.ofNat (readBack n))) []) := by
    rw [codecSimpleDecodeInt, hSpec.2, hRead]
    dsimp only
    rw [hOk, if_neg (by decide)]
  refine ⟨s', ?_, ?_, hErr'.trans hErr⟩
  · rw [hHead, codecSimpleDecodeSwitch, hSpec.1]
    rcases hd with ⟨rfl, rfl⟩ | ⟨rfl, rfl⟩ <;> exact hInt
  · rw [hPos, hNext, List.length_cons, digits_length, beBytes_length]
    omega

theorem codecSimpleDecodeHead_len {d : CodecSimpleDescType} (hd : IsLengthDesc d) (v : Decoded)
    {n : Nat} (h : b.At s.pos (lenBytes d.toUInt8 n)) (hErr : s.err = none) :
    ∃ bd s', codecSimpleDesc bd = some d ∧ codecSimpleDecodeLen b s.enter.next bd = (s', readBack n) ∧
      codecSimpleDecodeHead b s v = codecSimpleDecodeSwitch b s.enter.next v bd ∧
      s'.pos = s.pos + (lenBytes d.toUInt8 n).length ∧ s'.err = none := by
  have hAt := h
  rw [lenBytes_eq] at hAt
  obtain ⟨hHead, hNext⟩ := codecSimpleDecodeHead_at v hAt
  obtain ⟨s', hLen, hPos, hErr'⟩ := codecSimpleDecodeLen_at hd h hNext
  exact ⟨_, s', (lenDesc_spec hd (lenClass_le n)).1, hLen, hHead, hPos, hErr'.trans hErr⟩

end Read

end CcCommon.Codec.Simple
