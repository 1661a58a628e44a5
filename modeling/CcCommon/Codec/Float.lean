import CcCommon.Lib.Bytes

/-! # Numeric conversions to the IEEE formats

A float is its bit pattern. Conversions round to nearest, ties to even. -/

namespace CcCommon.Codec

set_option autoImplicit false

/-- `n / 2 ^ k` rounded to nearest, ties to even. -/
def roundEven (n k : Nat) : Nat :=
  let q := n / 2 ^ k
  let r := n % 2 ^ k
  if 2 * r > 2 ^ k ∨ (2 * r = 2 ^ k ∧ q % 2 = 1) then q + 1 else q

/-- The pattern of `n` in the format with `p` fraction bits and the given exponent bias.
A fraction that rounds up to the next power of two carries into the exponent. -/
def floatOfNat (p bias n : Nat) : Nat :=
  if n = 0 then 0
  else
    let e := Nat.log2 n
    let significand := if e ≤ p then n * 2 ^ (p - e) else roundEven n (e - p)
    (e + bias) * 2 ^ p + (significand - 2 ^ p)

/-- `(float)` of a `uint32_t`. -/
def float32OfUint32 (n : Nat) : UInt32 := UInt32.ofNat (floatOfNat 23 127 n)

/-- `(double)` of a `uint64_t`. -/
def float64OfUint64 (n : Nat) : UInt64 := UInt64.ofNat (floatOfNat 52 1023 n)

/-- `(double)` of a `float`; a NaN comes out quiet. -/
def float64OfFloat32 (bits : Nat) : UInt64 :=
  let sign := bits / 2 ^ 31 % 2
  let e := bits / 2 ^ 23 % 2 ^ 8
  let f := bits % 2 ^ 23
  let magnitude :=
    if e = 255 then 2047 * 2 ^ 52 + (if f = 0 then 0 else f * 2 ^ 29 ||| 2 ^ 51)
    else if e = 0 then
      if f = 0 then 0
      else (Nat.log2 f + 874) * 2 ^ 52 + (f * 2 ^ (52 - Nat.log2 f) - 2 ^ 52)
    else (e + 896) * 2 ^ 52 + f * 2 ^ 29
  UInt64.ofNat (sign * 2 ^ 63 + magnitude)

/-! ## The binade of a converted number -/

section Binade

variable {p k n : Nat}

theorem roundEven_le (n k : Nat) : n / 2 ^ k ≤ roundEven n k ∧ roundEven n k ≤ n / 2 ^ k + 1 := by
  rw [roundEven]
  split <;> omega

/-- The significand of `n` has `p + 1` bits, or carries to the next power of two. -/
theorem floatOfNat_eq (p bias : Nat) (hn : n ≠ 0) : ∃ significand,
    2 ^ p ≤ significand ∧ significand ≤ 2 ^ (p + 1) ∧
    floatOfNat p bias n = (Nat.log2 n + bias) * 2 ^ p + (significand - 2 ^ p) ∧
    (p < Nat.log2 n → significand = roundEven n (Nat.log2 n - p)) := by
  have hLow := Nat.log2_self_le hn
  have hHigh := Nat.lt_log2_self (n := n)
  rw [floatOfNat, if_neg hn]
  generalize Nat.log2 n = e at hLow hHigh
  dsimp only
  rcases Nat.lt_or_ge p e with hBig | hSmall
  · obtain ⟨k, rfl⟩ := Nat.exists_eq_add_of_le hBig.le
    have hLe := roundEven_le n k
    rw [if_neg (by omega), Nat.add_sub_cancel_left]
    rw [Nat.pow_add] at hLow
    rw [Nat.add_right_comm, Nat.pow_add] at hHigh
    have hFirst : 2 ^ p ≤ n / 2 ^ k := (Nat.le_div_iff_mul_le (Nat.two_pow_pos k)).mpr hLow
    have hLast : n / 2 ^ k < 2 ^ (p + 1) := (Nat.div_lt_iff_lt_mul (Nat.two_pow_pos k)).mpr hHigh
    exact ⟨roundEven n k, by omega, by omega, rfl, fun _ => rfl⟩
  · obtain ⟨k, rfl⟩ := Nat.exists_eq_add_of_le hSmall
    rw [if_pos hSmall, Nat.add_sub_cancel_left]
    have hFirst : 2 ^ (e + k) ≤ n * 2 ^ k := by
      rw [Nat.pow_add]
      exact Nat.mul_le_mul_right _ hLow
    have hLast : n * 2 ^ k ≤ 2 ^ (e + k + 1) := by
      rw [Nat.add_right_comm, Nat.pow_add]
      exact Nat.mul_le_mul_right _ hHigh.le
    exact ⟨n * 2 ^ k, hFirst, hLast, rfl, fun hBig => absurd hBig (by omega)⟩

theorem floatOfNat_bounds (p bias : Nat) (hn : n ≠ 0) :
    (Nat.log2 n + bias) * 2 ^ p ≤ floatOfNat p bias n ∧
    floatOfNat p bias n ≤ (Nat.log2 n + bias + 1) * 2 ^ p := by
  obtain ⟨significand, hFirst, hLast, hEq, -⟩ := floatOfNat_eq p bias hn
  rw [Nat.pow_succ] at hLast
  rw [hEq, Nat.succ_mul]
  omega

/-- In a format of `p + k + 2` bits a number equal to its own pattern lies between `2 ^ (p + k)` and
the next power of two. -/
theorem log2_of_floatOfNat_eq (hn : n ≠ 0) (hWide : p + k + 1 < 2 ^ k) (hLt : n < 2 ^ (p + k + 2))
    (hSame : floatOfNat p (2 ^ k - 1) n = n) : Nat.log2 n = p + k := by
  obtain ⟨hFirst, hLast⟩ := floatOfNat_bounds p (2 ^ k - 1) hn
  have hLow := Nat.log2_self_le hn
  have hHigh := Nat.lt_log2_self (n := n)
  rw [hSame] at hFirst hLast
  generalize Nat.log2 n = e at hFirst hLast hLow hHigh
  have hPow : 2 ^ (p + k) = 2 ^ k * 2 ^ p := by rw [Nat.add_comm, Nat.pow_add]
  rcases Nat.lt_trichotomy e (p + k) with hLess | hEq | hMore
  · have hNext : 2 ^ (e + 1) ≤ 2 ^ (p + k) := Nat.pow_le_pow_right (by decide) hLess
    have hZero : e = 0 := by
      by_contra hPos
      have hBig : 2 ^ k * 2 ^ p ≤ (e + (2 ^ k - 1)) * 2 ^ p := Nat.mul_le_mul_right _ (by omega)
      omega
    subst hZero
    have hBig : (p + k + 1) * 1 ≤ (0 + (2 ^ k - 1)) * 2 ^ p :=
      Nat.mul_le_mul (by omega) Nat.one_le_two_pow
    omega
  · exact hEq
  · have hNext : 2 ^ (p + k + 1) ≤ 2 ^ e := Nat.pow_le_pow_right (by decide) hMore
    have hTop : e < p + k + 2 := (Nat.pow_lt_pow_iff_right (by decide)).mp (Nat.lt_of_le_of_lt hLow hLt)
    have hBig : (e + (2 ^ k - 1) + 1) * 2 ^ p < 2 * 2 ^ k * 2 ^ p :=
      Nat.mul_lt_mul_of_pos_right (by omega) (Nat.two_pow_pos p)
    rw [Nat.pow_succ, hPow] at hNext
    rw [Nat.mul_assoc] at hBig
    omega

/-- A number of as many bits as the format has a pattern in it. -/
theorem floatOfNat_lt (hWide : p + k + 1 < 2 ^ k) (hLt : n < 2 ^ (p + k + 2)) :
    floatOfNat p (2 ^ k - 1) n < 2 ^ (p + k + 2) := by
  rcases Nat.eq_zero_or_pos n with rfl | hPos
  · exact Nat.two_pow_pos _
  · have hLog : Nat.log2 n < p + k + 2 := (Nat.log2_lt hPos.ne').mpr hLt
    have hPow : 2 ^ (k + 2) = 2 ^ k * 4 := Nat.pow_add 2 k 2
    calc floatOfNat p (2 ^ k - 1) n ≤ (Nat.log2 n + (2 ^ k - 1) + 1) * 2 ^ p :=
          (floatOfNat_bounds p (2 ^ k - 1) hPos.ne').2
      _ < 2 ^ (k + 2) * 2 ^ p := Nat.mul_lt_mul_of_pos_right (by omega) (Nat.two_pow_pos p)
      _ = 2 ^ (p + k + 2) := by rw [← Nat.pow_add, Nat.add_comm, Nat.add_assoc p]

theorem floatOfNat_self (hn : n ≠ 0) (hk : 0 < k) (hWide : p + k + 1 < 2 ^ k)
    (hLt : n < 2 ^ (p + k + 2)) (hSame : floatOfNat p (2 ^ k - 1) n = n) :
    n = (p + k + (2 ^ k - 1)) * 2 ^ p + (roundEven n k - 2 ^ p) := by
  obtain ⟨significand, -, -, hEq, hRounds⟩ := floatOfNat_eq p (2 ^ k - 1) hn
  rw [hSame] at hEq
  rw [log2_of_floatOfNat_eq hn hWide hLt hSame] at hEq hRounds
  rw [Nat.add_sub_cancel_left] at hRounds
  rwa [← hRounds (by omega)]

end Binade

end CcCommon.Codec
