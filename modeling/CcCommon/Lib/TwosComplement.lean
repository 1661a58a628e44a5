import CcCommon.Lib.Bytes

/-! # Integers as two's complement byte strings

The top bit of the first byte is the sign. A byte full of the sign in front of
a string changes nothing, as long as the string has that sign itself.
-/

namespace CcCommon.Lib.TwosComplement

open Bytes

set_option autoImplicit false

def isNegative : List UInt8 → Bool
  | [] => false
  | b :: _ => decide (128 ≤ b.toNat)

/-- The byte that a string of the sign is extended with. -/
def padding (negative : Bool) : UInt8 := if negative then 0xff else 0

/-- The integer denoted by a byte string, most significant byte first. -/
def beInt (bs : List UInt8) : Int := beNat bs - if isNegative bs then 256 ^ bs.length else 0

theorem padding_toNat (negative : Bool) :
    (padding negative).toNat = if negative then 255 else 0 := by
  cases negative <;> rfl

theorem isNegative_padding (negative : Bool) (bs : List UInt8) :
    isNegative (padding negative :: bs) = negative := by
  cases negative <;> rfl

theorem isNegative_iff (bs : List UInt8) : isNegative bs = true ↔ beInt bs < 0 := by
  have hBound := beNat_lt bs
  rw [beInt]
  cases isNegative bs with
  | true =>
    rw [if_pos rfl]
    exact iff_of_true rfl (Int.sub_neg_of_lt (by exact_mod_cast hBound))
  | false =>
    rw [if_neg Bool.false_ne_true, Int.sub_zero]
    exact iff_of_false Bool.false_ne_true (Int.not_lt.mpr (Int.natCast_nonneg _))

theorem isNegative_congr {bs cs : List UInt8} (h : beInt bs = beInt cs) :
    isNegative bs = isNegative cs := by
  rw [Bool.eq_iff_iff, isNegative_iff, isNegative_iff, h]

/-- Sign extension by one byte. -/
theorem beInt_padding {negative : Bool} {bs : List UInt8} (h : isNegative bs = negative) :
    beInt (padding negative :: bs) = beInt bs := by
  rw [beInt, beInt, isNegative_padding, h, beNat_cons, padding_toNat, List.length_cons]
  cases negative with
  | false => simp
  | true =>
    simp only [if_true, pow_succ]
    push_cast
    omega

/-- Dropping the first `n` bytes takes nothing but padding away, and leaves the number as it is. -/
structure Droppable (negative : Bool) (bs : List UInt8) (n : Nat) : Prop where
  padding : ∀ b ∈ bs.take n, b = padding negative
  value : beInt (bs.drop n) = beInt bs

section Droppable

variable {negative : Bool} {b : UInt8} {bs : List UInt8} {n : Nat}

theorem droppable_zero (negative : Bool) (bs : List UInt8) : Droppable negative bs 0 :=
  ⟨fun _ hb => absurd hb List.not_mem_nil, rfl⟩

theorem droppable_succ (h : isNegative bs = negative) :
    Droppable negative (TwosComplement.padding negative :: bs) (n + 1) ↔
      Droppable negative bs n := by
  constructor
  · rintro ⟨hPadding, hValue⟩
    rw [List.drop_succ_cons, beInt_padding h] at hValue
    exact ⟨fun b hb => hPadding b (List.mem_cons_of_mem _ hb), hValue⟩
  · rintro ⟨hPadding, hValue⟩
    constructor
    · rw [List.take_succ_cons, List.forall_mem_cons]
      exact ⟨rfl, hPadding⟩
    · rw [List.drop_succ_cons, beInt_padding h, hValue]

/-- A byte can be dropped only if it is padding and the string behind it has the sign. -/
theorem Droppable.head (h : Droppable negative (b :: bs) (n + 1)) (hn : n < bs.length) :
    b = TwosComplement.padding negative ∧ isNegative bs = negative := by
  obtain ⟨hPadding, hValue⟩ := h
  rw [List.take_succ_cons, List.forall_mem_cons] at hPadding
  obtain ⟨rfl, hPadding⟩ := hPadding
  refine ⟨rfl, ?_⟩
  cases n with
  | zero =>
    have hSign := isNegative_congr hValue
    rw [List.drop_succ_cons, List.drop_zero, isNegative_padding] at hSign
    exact hSign
  | succ n =>
    cases bs with
    | nil => cases hn
    | cons c cs =>
      rw [List.take_succ_cons, List.forall_mem_cons] at hPadding
      rw [hPadding.1, isNegative_padding]

end Droppable

end CcCommon.Lib.TwosComplement
