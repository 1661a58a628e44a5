import Mathlib.Data.Nat.Digits.Lemmas

/-! # Numbers as fixed-width byte strings, most significant byte first

A byte string read as a base-256 numeral, and the fixed-width string that
denotes a number. The two are inverse on the numbers that fit the width.
-/

namespace CcCommon.Lib.Bytes

set_option autoImplicit false

/-- The number denoted by a byte string, most significant byte first. -/
def beNat (bs : List UInt8) : Nat := Nat.ofDigits 256 (bs.map UInt8.toNat).reverse

/-- The `w` low-order bytes of `n`, most significant byte first. -/
def beBytes : Nat → Nat → List UInt8
  | 0, _ => []
  | w + 1, n => UInt8.ofNat (n / 256 ^ w) :: beBytes w n

@[simp] theorem beNat_nil : beNat [] = 0 := rfl

theorem beNat_cons (b : UInt8) (bs : List UInt8) :
    beNat (b :: bs) = b.toNat * 256 ^ bs.length + beNat bs := by
  simp only [beNat, List.map_cons, List.reverse_cons, Nat.ofDigits_append, List.length_reverse,
    List.length_map, Nat.ofDigits_singleton]
  rw [Nat.mul_comm, Nat.add_comm]

theorem beNat_append (bs cs : List UInt8) :
    beNat (bs ++ cs) = beNat bs * 256 ^ cs.length + beNat cs := by
  simp only [beNat, List.map_append, List.reverse_append, Nat.ofDigits_append,
    List.length_reverse, List.length_map]
  rw [Nat.mul_comm, Nat.add_comm]

@[simp] theorem beNat_singleton (b : UInt8) : beNat [b] = b.toNat := by
  simp [beNat_cons]

theorem beNat_lt (bs : List UInt8) : beNat bs < 256 ^ bs.length := by
  have h := Nat.ofDigits_lt_base_pow_length (b := 256) (l := (bs.map UInt8.toNat).reverse)
    (by decide) (by
      intro x hx
      obtain ⟨b, _, rfl⟩ := List.mem_map.mp (List.mem_reverse.mp hx)
      exact b.toNat_lt)
  simpa [beNat] using h

@[simp] theorem beNat_replicate_zero (k : Nat) : beNat (List.replicate k 0) = 0 := by
  induction k with
  | zero => rfl
  | succ k ih => rw [List.replicate_succ, beNat_cons, ih]; simp

@[simp] theorem beBytes_length (w n : Nat) : (beBytes w n).length = w := by
  induction w with
  | zero => rfl
  | succ w ih => simp [beBytes, ih]

theorem beNat_beBytes (w n : Nat) : beNat (beBytes w n) = n % 256 ^ w := by
  induction w with
  | zero => simp [beBytes, Nat.mod_one]
  | succ w ih =>
    have hTop : (UInt8.ofNat (n / 256 ^ w)).toNat = n / 256 ^ w % 256 := by simp
    rw [beBytes, beNat_cons, beBytes_length, ih, hTop, Nat.pow_succ, Nat.mod_mul, Nat.mul_comm,
      Nat.add_comm]

theorem beNat_beBytes_of_lt {w n : Nat} (h : n < 256 ^ w) : beNat (beBytes w n) = n := by
  rw [beNat_beBytes, Nat.mod_eq_of_lt h]

theorem beBytes_inj {w n m : Nat} (hn : n < 256 ^ w) (hm : m < 256 ^ w)
    (h : beBytes w n = beBytes w m) : n = m := by
  rw [← beNat_beBytes_of_lt hn, ← beNat_beBytes_of_lt hm, h]

theorem beNat_inj {bs cs : List UInt8} (hLength : bs.length = cs.length)
    (h : beNat bs = beNat cs) : bs = cs := by
  induction bs generalizing cs with
  | nil => exact (List.length_eq_zero_iff.mp hLength.symm).symm
  | cons b bs ih =>
    cases cs with
    | nil => simp at hLength
    | cons c cs =>
      have hTail : bs.length = cs.length := by simpa using hLength
      rw [beNat_cons, beNat_cons, ← hTail] at h
      have hb := beNat_lt bs
      have hc := beNat_lt cs
      rw [← hTail] at hc
      have hTop : b.toNat = c.toNat := by
        have hDivB := Nat.mul_add_div (Nat.pos_of_ne_zero (by positivity : 256 ^ bs.length ≠ 0))
          b.toNat (beNat bs)
        have hDivC := Nat.mul_add_div (Nat.pos_of_ne_zero (by positivity : 256 ^ bs.length ≠ 0))
          c.toNat (beNat cs)
        rw [Nat.div_eq_of_lt hb, Nat.mul_comm] at hDivB
        rw [Nat.div_eq_of_lt hc, Nat.mul_comm] at hDivC
        rw [h, hDivC] at hDivB
        omega
      rw [hTop] at h
      rw [UInt8.toNat_inj.mp hTop, ih hTail (Nat.add_left_cancel h)]

/-- Least significant byte first. -/
def leNat (bs : List UInt8) : Nat := beNat bs.reverse

def leBytes (w n : Nat) : List UInt8 := (beBytes w n).reverse

@[simp] theorem leBytes_length (w n : Nat) : (leBytes w n).length = w := by simp [leBytes]

theorem leNat_leBytes_of_lt {w n : Nat} (h : n < 256 ^ w) : leNat (leBytes w n) = n := by
  rw [leNat, leBytes, List.reverse_reverse, beNat_beBytes_of_lt h]

theorem leBytes_succ (w n : Nat) :
    leBytes (w + 1) n = UInt8.ofNat n :: leBytes w (n / 256) := by
  have hLast : beBytes (w + 1) n = beBytes w (n / 256) ++ [UInt8.ofNat n] := by
    induction w with
    | zero => simp [beBytes]
    | succ w ih =>
      have hTop : n / 256 ^ (w + 1) = n / 256 / 256 ^ w := by
        rw [Nat.div_div_eq_div_mul, Nat.pow_succ, Nat.mul_comm]
      rw [beBytes, ih, hTop, beBytes, List.cons_append]
  rw [leBytes, hLast, List.reverse_append, List.reverse_singleton, List.singleton_append, leBytes]

theorem leNat_leBytes (w n : Nat) : leNat (leBytes w n) = n % 256 ^ w := by
  rw [leNat, leBytes, List.reverse_reverse, beNat_beBytes]

theorem leNat_append_zeros (bs : List UInt8) (k : Nat) :
    leNat (bs ++ List.replicate k 0) = leNat bs := by
  rw [leNat, List.reverse_append, List.reverse_replicate, beNat_append, beNat_replicate_zero,
    Nat.zero_mul, Nat.zero_add]
  rfl

theorem leBytes_take {w w' : Nat} (h : w ≤ w') (n : Nat) :
    (leBytes w' n).take w = leBytes w n := by
  induction w generalizing w' n with
  | zero => rfl
  | succ w ih =>
    cases w' with
    | zero => omega
    | succ w' => rw [leBytes_succ, leBytes_succ, List.take_succ_cons, ih (by omega)]

/-- Read in the other order, a number begins with its last byte. -/
theorem beNat_leBytes_div (w n : Nat) : beNat (leBytes (w + 1) n) / 256 ^ w = n % 256 := by
  have hRest := beNat_lt (leBytes w (n / 256))
  rw [leBytes_length] at hRest
  rw [leBytes_succ, beNat_cons, leBytes_length, Nat.mul_comm,
    Nat.mul_add_div (Nat.pow_pos (by decide)), Nat.div_eq_of_lt hRest, Nat.add_zero]
  exact UInt8.toNat_ofNat'

end CcCommon.Lib.Bytes
