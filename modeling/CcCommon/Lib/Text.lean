import Mathlib.Algebra.Group.Nat.Defs
import Mathlib.Data.Nat.Basic

/-! # Text in bytes

Characters as a C program stores them, and numbers written out in a base.
-/

namespace CcCommon.Lib.Text

set_option autoImplicit false

/-- The bytes of some characters, without a NUL behind them. -/
def chars (cs : List Char) : List UInt8 := cs.map fun c => UInt8.ofNat c.toNat

/-- `n` in base `b`, without leading zeros. -/
def numeral (b n : Nat) : List UInt8 := chars (Nat.toDigits b n)

theorem exists_digit {b n : Nat} (hb : 1 < b) {c : Char} (hc : c ∈ Nat.toDigits b n) :
    ∃ d, c = Nat.digitChar d := by
  induction n using Nat.strong_induction_on with
  | _ n ih =>
    rw [Nat.toDigits_eq_if hb] at hc
    split at hc
    · exact ⟨n, List.mem_singleton.mp hc⟩
    · rename_i hLarge
      rcases List.mem_append.mp hc with hc | hc
      · exact ih (n / b) (Nat.div_lt_self (by omega) hb) hc
      · exact ⟨n % b, List.mem_singleton.mp hc⟩

theorem digitChar_ne_zero (d : Nat) : UInt8.ofNat (Nat.digitChar d).toNat ≠ 0 := by
  have hDigits : ∀ e < 16, UInt8.ofNat (Nat.digitChar e).toNat ≠ 0 := by decide
  by_cases hSmall : d < 16
  · exact hDigits d hSmall
  · have hOther : Nat.digitChar d = '*' := by
      unfold Nat.digitChar
      repeat rw [if_neg (by omega)]
    rw [hOther]
    decide

theorem zero_not_mem_numeral {b : Nat} (hb : 1 < b) (n : Nat) : 0 ∉ numeral b n := by
  intro hMem
  obtain ⟨c, hc, hZero⟩ := List.mem_map.mp hMem
  obtain ⟨d, rfl⟩ := exists_digit hb hc
  exact digitChar_ne_zero d hZero

theorem numeral_length_pos (b n : Nat) : 0 < (numeral b n).length := by
  rw [numeral, chars, List.length_map]
  exact Nat.length_toDigits_pos

theorem numeral_length_le_iff {b n k : Nat} (hb : 1 < b) (hk : 0 < k) :
    (numeral b n).length ≤ k ↔ n < b ^ k := by
  rw [numeral, chars, List.length_map, Nat.length_toDigits_le_iff hb hk]

end CcCommon.Lib.Text
