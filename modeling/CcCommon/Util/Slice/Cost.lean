import CcCommon.Lib.Cost
import CcCommon.Util.Slice.Operations
import Mathlib.Tactic.Ring

/-! # What growing costs

`slice_bytes_expand` makes the allocation a quarter larger at least, so that
however many bytes are appended one by one, few of them are moved.
-/

namespace CcCommon.Util

open Lib

set_option autoImplicit false

/-- What `slice_bytes_expand` makes of the capacity. -/
inductive Widens (v : SliceBytes) (n : Nat) : Nat → Prop where
  | keeps (hRoom : v.len + n ≤ v.cap) : Widens v n v.cap
  | grows (cap' : Nat) (hFull : v.cap < v.len + n) (hRoom : v.len + n ≤ cap')
      (hQuarter : v.cap + v.cap / 4 ≤ cap')
      (hLeast : cap' ≤ max (v.cap + v.cap / 4) (v.len + n) + 63) : Widens v n cap'

section Expand

variable (fresh : Nat → Nat → UInt8) {v : SliceBytes} {n : Nat}

theorem realloc_length (mem : List UInt8) (n : Nat) : (realloc fresh mem n).length = n := by
  rw [realloc, List.length_append, List.length_map, List.length_range, List.length_take]
  omega

theorem sliceBytesExpand_widens (h : v.Fits n) : Widens v n (sliceBytesExpand fresh v n).cap := by
  have hNew : sizeT (v.len + n) = v.len + n := Nat.mod_eq_of_lt (by have := h.1; omega)
  unfold sliceBytesExpand
  rw [hNew]
  dsimp only
  split
  · rename_i hRoom
    exact .keeps hRoom
  · rename_i hFull
    have hQuarter := h.2 (by omega)
    have hCap25 : sizeT (v.cap + v.cap / 4) = v.cap + v.cap / 4 := Nat.mod_eq_of_lt (by omega)
    rw [hCap25, SliceBytes.cap, realloc_length]
    have hMax : (if v.cap + v.cap / 4 > v.len + n then v.cap + v.cap / 4 else v.len + n) =
        max (v.cap + v.cap / 4) (v.len + n) := by
      split <;> omega
    rw [hMax]
    set m := max (v.cap + v.cap / 4) (v.len + n) with hm
    have hSum : m + 64 ≤ 2 ^ 64 := by
      have := h.1
      omega
    have hLine : m ≤ (if m % 64 ≠ 0 then sizeT (m + (64 - m % 64)) else m) ∧
        (if m % 64 ≠ 0 then sizeT (m + (64 - m % 64)) else m) ≤ m + 63 := by
      split
      · rw [sizeT, Nat.mod_eq_of_lt (by omega)]
        omega
      · omega
    exact .grows _ (Nat.not_le.mp hFull) (by omega) (by omega) hLine.2

theorem store_cap (i : Nat) (bs : List UInt8) : (v.store i bs).cap = v.cap := by
  simp only [SliceBytes.cap, SliceBytes.store, List.length_take, List.length_append,
    List.length_drop]
  omega

theorem perform_widens {op : SliceOp} (h : v.Fits op.room) :
    Widens v op.room (op.perform fresh v).cap := by
  have hExpand := sliceBytesExpand_widens fresh h
  cases op with
  | append b =>
    have hRoom : sizeT (b.length + 1) = b.length + 1 := Nat.mod_eq_of_lt (by
      have hFits : v.len + (b.length + 1) + 64 ≤ 2 ^ 64 := h.1
      omega)
    rw [SliceOp.perform, sliceBytesAppend, hRoom, store_cap]
    exact (store_cap (v := sliceBytesExpand fresh v (b.length + 1)) _ _).symm ▸ hExpand
  | append1 bd =>
    rw [SliceOp.perform, sliceBytesAppend1, sliceBytesAppend, store_cap]
    exact (store_cap (v := sliceBytesExpand fresh v 2) _ _).symm ▸ hExpand
  | expand len => exact hExpand
  | put b =>
    rw [SliceOp.perform, sliceBytesPut]
    exact (store_cap (v := sliceBytesExpand fresh v b.length) _ _).symm ▸ hExpand

end Expand

/-! ## Over a run -/

section Runs

variable {fresh : Nat → Nat → UInt8} {v w : SliceBytes} {op : SliceOp} {ops : List SliceOp}
  {cap' n : Nat}

/-- `realloc` was called between `v` and `w`. -/
def reallocated (v w : SliceBytes) : Nat := if w.cap = v.cap then 0 else 1

/-- The bytes that `realloc` had to keep. -/
def moved (v w : SliceBytes) : Nat := if w.cap = v.cap then 0 else v.cap

/-- The capacity pays for what is moved. -/
theorem Widens.moved (h : Widens v n w.cap) (hLines : 64 ∣ v.cap) :
    Util.moved v w + 4 * v.cap ≤ 4 * w.cap := by
  rw [Util.moved]
  generalize hCap : w.cap = cap' at h
  cases h with
  | keeps hRoom => rw [if_pos rfl]; omega
  | grows _ hFull hRoom hQuarter hLeast => rw [if_neg (by omega)]; omega

/-- After `r` calls of `realloc`. -/
def Geometric (r : Nat) (v : SliceBytes) : Prop :=
  r = 0 ∨ 64 * 5 ^ (r - 1) ≤ v.cap * 4 ^ (r - 1)

theorem Geometric.widens {r : Nat} (h : Geometric r v) (hWidens : Widens v n w.cap)
    (hLines : 64 ∣ v.cap) (hLines' : 64 ∣ w.cap) : Geometric (r + reallocated v w) w := by
  rw [Geometric, reallocated]
  generalize hCap : w.cap = cap' at hWidens hLines'
  cases hWidens with
  | keeps hRoom =>
    rw [if_pos rfl]
    exact h
  | grows _ hFull hRoom hQuarter hLeast =>
    rw [if_neg (by omega), Nat.add_sub_cancel]
    refine Or.inr ?_
    cases r with
    | zero =>
      rw [Nat.pow_zero, Nat.pow_zero]
      omega
    | succ r =>
      have hOld : 64 * 5 ^ r ≤ v.cap * 4 ^ r := h.resolve_left (Nat.succ_ne_zero r)
      calc 64 * 5 ^ (r + 1)
        _ = 5 * (64 * 5 ^ r) := by ring
        _ ≤ 5 * (v.cap * 4 ^ r) := Nat.mul_le_mul_left 5 hOld
        _ = (5 * v.cap) * 4 ^ r := by ring
        _ ≤ (4 * cap') * 4 ^ r := Nat.mul_le_mul_right _ (by omega)
        _ = cap' * 4 ^ (r + 1) := by ring

theorem Widens.cap_le {k : Nat} (h : Widens v n w.cap) (hn : n ≤ k) (hLen : v.len ≤ w.len)
    (hCap : 4 * v.cap ≤ 5 * (v.len + k) + 252) : 4 * w.cap ≤ 5 * (w.len + k) + 252 := by
  generalize w.cap = cap' at h
  cases h with
  | keeps hRoom => omega
  | grows _ hFull hRoom hQuarter hLeast => omega

/-- A slice of whole lines, that is not written outside. -/
def Kept (v : SliceBytes) : Prop := ∃ bs, Faithful bs v

theorem Kept.step (h : Kept v) (hStep : (sliceMachine fresh).step v op = some w) :
    Kept w ∧ Widens v op.room w.cap ∧ v.len ≤ w.len ∧ 64 ∣ v.cap ∧ 64 ∣ w.cap := by
  obtain ⟨bs, hv⟩ := h
  obtain ⟨hRange, rfl⟩ := sliceMachine_step hStep
  have hw := op.perform_faithful fresh hv hRange.fits
  refine ⟨⟨_, hw⟩, perform_widens fresh hRange.fits, ?_, hv.lines, hw.lines⟩
  rw [hv.len, hw.len, List.length_append]
  exact Nat.le_add_right _ _

theorem kept_zero : Kept sliceBytesZero := ⟨[], sliceBytesZero_faithful⟩

/-- However many operations there are, in whatever order, the bytes that `realloc` has to keep are
at most four times the capacity in all, which is about a quarter more than was asked for, and the
calls of `realloc` are logarithmic in it. -/
theorem sliceBytes_amortized {k : Nat} (hRun : (sliceMachine fresh).run sliceBytesZero ops = some v)
    (hRoom : ∀ op ∈ ops, op.room ≤ k) :
    (sliceMachine fresh).cost moved sliceBytesZero ops ≤ 4 * v.cap ∧
      4 * v.cap ≤ 5 * (v.len + k) + 252 ∧
      Geometric ((sliceMachine fresh).cost reallocated sliceBytesZero ops) v := by
  refine ⟨?_, ?_, ?_⟩
  · refine Nat.le_of_add_right_le (Machine.cost_le (I := Kept) (fun u => 4 * u.cap) ?_ kept_zero hRun)
    intro u op u' hKept hStep
    obtain ⟨hKept', hWidens, -, hLines, -⟩ := hKept.step hStep
    exact ⟨hKept', hWidens.moved hLines⟩
  · have hEach : (sliceMachine fresh).EachStep (fun _ op => op.room ≤ k) sliceBytesZero ops :=
      fun done op hDone _ _ => hRoom op (hDone.subset (by simp))
    have hBoth := hEach.induct (I := fun u => Kept u ∧ 4 * u.cap ≤ 5 * (u.len + k) + 252) ?_
      ⟨kept_zero, Nat.zero_le _⟩ hRun
    · exact hBoth.2
    · rintro u op u' ⟨hKept, hCap⟩ hAsked hStep
      obtain ⟨hKept', hWidens, hLen, -, -⟩ := hKept.step hStep
      exact ⟨hKept', hWidens.cap_le hAsked hLen hCap⟩
  · have hBoth := Machine.cost_induct (c := reallocated) (P := fun r u => Kept u ∧ Geometric r u) ?_
      ⟨kept_zero, Or.inl rfl⟩ hRun
    · exact hBoth.2
    · rintro r u op u' ⟨hKept, hGeometric⟩ hStep
      obtain ⟨hKept', hWidens, -, hLines, hLines'⟩ := hKept.step hStep
      exact ⟨hKept', hGeometric.widens hWidens hLines hLines'⟩

/-- The second request needs a larger allocation. -/
def twoRequests : List SliceOp := [.expand 60, .append1 1, .expand 64]

set_option maxRecDepth 2000 in
theorem sliceBytes_amortized_twoRequests :
    ∃ v, (sliceMachine fun _ _ => 7).run sliceBytesZero twoRequests = some v ∧ v.cap = 128 ∧
      (sliceMachine fun _ _ => 7).cost moved sliceBytesZero twoRequests = 64 ∧
      4 * v.cap ≤ 5 * (v.len + 64) + 252 := by
  refine ⟨_, rfl, rfl, rfl, ?_⟩
  have hRun : (sliceMachine fun _ _ => 7).run sliceBytesZero twoRequests = some _ := rfl
  exact (sliceBytes_amortized hRun (by decide)).2.1

end Runs

end CcCommon.Util
