import CcCommon.Lib.Bytes

/-! # util/bigendian.c

A written integer is the list of bytes stored from `b[0]` on; a read takes
the bytes found from `b[0]` on. -/

namespace CcCommon.Util

open Lib.Bytes

set_option autoImplicit false

def utilBigEndianWriteUint16 (v : Nat) : List UInt8 :=
  [UInt8.ofNat (v >>> 8), UInt8.ofNat v]

def utilBigEndianWriteUint32 (v : Nat) : List UInt8 :=
  [UInt8.ofNat (v >>> 24), UInt8.ofNat (v >>> 16), UInt8.ofNat (v >>> 8), UInt8.ofNat v]

def utilBigEndianWriteUint64 (v : Nat) : List UInt8 :=
  [UInt8.ofNat (v >>> 56), UInt8.ofNat (v >>> 48), UInt8.ofNat (v >>> 40), UInt8.ofNat (v >>> 32),
    UInt8.ofNat (v >>> 24), UInt8.ofNat (v >>> 16), UInt8.ofNat (v >>> 8), UInt8.ofNat v]

def utilBigEndianReadUint32 (b : Nat → UInt8) : Nat :=
  (b 3).toNat ||| (b 2).toNat <<< 8 ||| (b 1).toNat <<< 16 ||| (b 0).toNat <<< 24

def utilBigEndianReadUint64 (b : Nat → UInt8) : Nat :=
  (b 7).toNat ||| (b 6).toNat <<< 8 ||| (b 5).toNat <<< 16 ||| (b 4).toNat <<< 24 |||
    (b 3).toNat <<< 32 ||| (b 2).toNat <<< 40 ||| (b 1).toNat <<< 48 ||| (b 0).toNat <<< 56

theorem utilBigEndianWriteUint16_eq (v : Nat) : utilBigEndianWriteUint16 v = beBytes 2 v := by
  simp [utilBigEndianWriteUint16, beBytes, Nat.shiftRight_eq_div_pow]

theorem utilBigEndianWriteUint32_eq (v : Nat) : utilBigEndianWriteUint32 v = beBytes 4 v := by
  simp [utilBigEndianWriteUint32, beBytes, Nat.shiftRight_eq_div_pow]

theorem utilBigEndianWriteUint64_eq (v : Nat) : utilBigEndianWriteUint64 v = beBytes 8 v := by
  simp [utilBigEndianWriteUint64, beBytes, Nat.shiftRight_eq_div_pow]

theorem or_shiftLeft_eq_add {x k : Nat} (h : x < 2 ^ k) (a : Nat) :
    x ||| a <<< k = x + a * 2 ^ k := by
  rw [Nat.shiftLeft_eq, Nat.or_comm, Nat.mul_comm, ← Nat.two_pow_add_eq_or_of_lt h, Nat.add_comm]

theorem utilBigEndianReadUint32_eq (b : Nat → UInt8) :
    utilBigEndianReadUint32 b = beNat ((List.range 4).map b) := by
  have h (i : Nat) : (b i).toNat < 256 := (b i).toNat_lt
  have h0 := h 0
  have h1 := h 1
  have h2 := h 2
  have h3 := h 3
  rw [utilBigEndianReadUint32]
  simp (disch := omega) only [or_shiftLeft_eq_add]
  simp [List.range_succ, beNat_cons]
  omega

theorem utilBigEndianReadUint64_eq (b : Nat → UInt8) :
    utilBigEndianReadUint64 b = beNat ((List.range 8).map b) := by
  have h (i : Nat) : (b i).toNat < 256 := (b i).toNat_lt
  have h0 := h 0
  have h1 := h 1
  have h2 := h 2
  have h3 := h 3
  have h4 := h 4
  have h5 := h 5
  have h6 := h 6
  have h7 := h 7
  rw [utilBigEndianReadUint64]
  simp (disch := omega) only [or_shiftLeft_eq_add]
  simp [List.range_succ, beNat_cons]
  omega

end CcCommon.Util
