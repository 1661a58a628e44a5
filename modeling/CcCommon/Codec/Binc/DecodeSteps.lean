import CcCommon.Codec.Binc.Decode
import CcCommon.Lib.Bytes

/-! # The reads of codec_binc_decode_r

What the shared routines for numbers and lengths leave behind, at any
position and for any variant of a descriptor. -/

namespace CcCommon.Codec.Binc

open Util Lib.Bytes Lib.Descent

set_option autoImplicit false

variable {b : Input} {s : CodecDecodeState}

theorem map_getD_range {x : List UInt8} : (List.range x.length).map (fun j => x.getD j 0) = x := by
  apply List.ext_getElem
  · simp
  · intro i _ hi
    simp [List.getElem?_eq_getElem hi]

theorem readUint64_x {x : List UInt8} (h : x.length = 8) :
    utilBigEndianReadUint64 (fun j => x.getD j 0) = beNat x := by
  rw [utilBigEndianReadUint64_eq, ← h, map_getD_range]

theorem copyToX_pos {limit k : Nat} (h : s.pos + k < 2 ^ 64) :
    (copyToX b s limit k).pos = s.pos + k :=
  Nat.mod_eq_of_lt h

@[simp] theorem copyToX_err {limit k : Nat} : (copyToX b s limit k).err = s.err := rfl

theorem codecBincDecodeUint64_eq {vs : Nat} (h : vs ≤ 7) :
    codecBincDecodeUint64 b s vs =
      (copyToX b s (7 - vs) (vs + 1), beNat (b.slice s.pos (vs + 1))) := by
  have hLimit : 8 - (7 - vs) = vs + 1 := by omega
  have hX : (copyToX b s (7 - vs) (vs + 1)).x =
      List.replicate (7 - vs) 0 ++ b.slice s.pos (vs + 1) := by
    have hNone : 8 - (7 - vs) - (vs + 1) = 0 := by omega
    simp only [copyToX, hNone, List.replicate_zero, List.append_nil]
  have hEight : (List.replicate (7 - vs) (0 : UInt8) ++ b.slice s.pos (vs + 1)).length = 8 := by
    simp only [List.length_append, List.length_replicate, Input.slice_length]
    omega
  rw [codecBincDecodeUint64, if_neg (by omega)]
  dsimp only
  rw [hLimit, hX, readUint64_x hEight, beNat_append, beNat_replicate_zero, Nat.zero_mul,
    Nat.zero_add]

/-- The length that a header of variant `vs` carries, its digits being at `q`. -/
def lenAt (b : Input) (q vs : Nat) : Nat := if vs ≤ 3 then beNat (b.slice q (vs + 1)) else vs - 4

theorem lenAt_lt {vs : Nat} (h : vs < 16) (q : Nat) : lenAt b q vs < 2 ^ 32 := by
  rw [lenAt]
  split
  · rename_i hWide
    have hBound := beNat_lt (b.slice q (vs + 1))
    rw [Input.slice_length] at hBound
    have hPow : 256 ^ (vs + 1) ≤ 256 ^ 4 := Nat.pow_le_pow_right (by decide) (by omega)
    omega
  · omega

theorem codecBincDecodeLen_wide {vs : Nat} (h : vs ≤ 3) :
    codecBincDecodeLen b s vs = (copyToX b s (7 - vs) (vs + 1), lenAt b s.pos vs) := by
  rw [codecBincDecodeLen, if_pos h, codecBincDecodeUint64_eq (by omega), lenAt, if_pos h]

theorem codecBincDecodeLen_inline {vs : Nat} (h : 3 < vs) :
    codecBincDecodeLen b s vs = (s, lenAt b s.pos vs) := by
  rw [codecBincDecodeLen, if_neg (by omega), lenAt, if_neg (by omega)]

theorem codecBincDecodeHead_of_lt (v : Decoded) (h : s.pos < b.len) :
    codecBincDecodeHead b s v =
      codecBincDecodeSwitch b s.enter.next v (family (b.get s.pos)) (nibble (b.get s.pos)) := by
  rw [codecBincDecodeHead, codecDecodeStateChk_pass (by simp; omega)]
  rfl

end CcCommon.Codec.Binc
