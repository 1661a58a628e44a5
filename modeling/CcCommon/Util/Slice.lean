import Mathlib.Algebra.Group.Nat.Defs
import Mathlib.Data.List.Basic

/-! # util/slice.c

`mem` is the allocation behind `bytes.v`, so `cap` is its length. The content
of freshly allocated bytes is arbitrary: `fresh n i` is what `realloc` to `n`
bytes leaves at index `i`. Allocation succeeds.
-/

namespace CcCommon.Util

set_option autoImplicit false

/-- Arithmetic in `size_t`. -/
def sizeT (n : Nat) : Nat := n % 2 ^ 64

structure SliceBytes where
  mem : List UInt8
  len : Nat
  /-- Set once a byte is stored past the allocation; no code reads it. -/
  oob : Bool

namespace SliceBytes

def cap (v : SliceBytes) : Nat := v.mem.length

/-- The first `len` bytes. -/
def contents (v : SliceBytes) : List UInt8 := v.mem.take v.len

/-- Store `bs` from index `i` on. What falls outside the allocation is lost and recorded. -/
def store (v : SliceBytes) (i : Nat) (bs : List UInt8) : SliceBytes :=
  { v with
    mem := (v.mem.take i ++ bs ++ v.mem.drop (i + bs.length)).take v.cap
    oob := v.oob || (!bs.isEmpty && decide (v.cap < i + bs.length)) }

end SliceBytes

def sliceBytesZero : SliceBytes := ⟨[], 0, false⟩

section Operations

variable (fresh : Nat → Nat → UInt8)

def realloc (mem : List UInt8) (n : Nat) : List UInt8 :=
  mem.take n ++ (List.range (n - mem.length)).map fun i => fresh n (mem.length + i)

def sliceBytesExpand (v : SliceBytes) (len : Nat) : SliceBytes :=
  let newlen := sizeT (v.len + len)
  if newlen ≤ v.cap then v
  else
    -- 25% more, or the requested length, rounded up to a cache line
    let cap25 := sizeT (v.cap + v.cap / 4)
    let newlen := if cap25 > newlen then cap25 else newlen
    let rem64 := newlen % 64
    let newlen := if rem64 ≠ 0 then sizeT (newlen + (64 - rem64)) else newlen
    { v with mem := realloc fresh v.mem newlen }

def sliceBytesAppend (v : SliceBytes) (b : List UInt8) : SliceBytes :=
  let v := sliceBytesExpand fresh v (sizeT (b.length + 1))
  let v := v.store v.len b
  let v := { v with len := sizeT (v.len + b.length) }
  v.store v.len [0]

def sliceBytesAppend1 (v : SliceBytes) (bd : UInt8) : SliceBytes := sliceBytesAppend fresh v [bd]

/-- The encoders' idiom: expand by `k`, store `k` bytes at `len`, add `k` to `len`.
No terminating zero is stored. -/
def sliceBytesPut (v : SliceBytes) (b : List UInt8) : SliceBytes :=
  let v := sliceBytesExpand fresh v b.length
  let v := v.store v.len b
  { v with len := sizeT (v.len + b.length) }

/-- The encoders' idiom for a payload, which they append if `len > 0`. -/
def sliceBytesAppendPayload (v : SliceBytes) (b : List UInt8) : SliceBytes :=
  if b.length > 0 then sliceBytesAppend fresh v b else v

end Operations

/-! ## Every operation appends -/

structure SliceBytes.Valid (v : SliceBytes) : Prop where
  len_le : v.len ≤ v.cap
  oob : v.oob = false

theorem sliceBytesZero_valid : sliceBytesZero.Valid := ⟨Nat.le_refl _, rfl⟩

theorem SliceBytes.Valid.contents_length {v : SliceBytes} (h : v.Valid) :
    v.contents.length = v.len := by
  rw [contents, List.length_take]
  exact Nat.min_eq_left h.len_le

/-- `v'` is a valid slice holding the contents of `v` and then `bs`. -/
structure Extends (v v' : SliceBytes) (bs : List UInt8) : Prop where
  valid : v'.Valid
  contents : v'.contents = v.contents ++ bs

theorem Extends.refl {v : SliceBytes} (h : v.Valid) : Extends v v [] := ⟨h, by simp⟩

theorem Extends.trans {v₀ v₁ v₂ : SliceBytes} {bs cs : List UInt8} (h₁ : Extends v₀ v₁ bs)
    (h₂ : Extends v₁ v₂ cs) : Extends v₀ v₂ (bs ++ cs) :=
  ⟨h₂.valid, by rw [h₂.contents, h₁.contents, List.append_assoc]⟩

theorem Extends.len {v v' : SliceBytes} {bs : List UInt8} (hv : v.Valid)
    (h : Extends v v' bs) : v'.len = v.len + bs.length := by
  rw [← h.valid.contents_length, h.contents, List.length_append, hv.contents_length]

/-- What was appended between `v` and `v'`. -/
def appended (v v' : SliceBytes) : List UInt8 := v'.contents.drop v.len

theorem Extends.appended {v v' : SliceBytes} {bs : List UInt8} (hv : v.Valid)
    (h : Extends v v' bs) : appended v v' = bs := by
  rw [Util.appended, h.contents, List.drop_left' hv.contents_length]

section Append

variable (fresh : Nat → Nat → UInt8)

/-- Neither the requested length nor a capacity a quarter larger wraps, rounded up. -/
def SliceBytes.Fits (v : SliceBytes) (n : Nat) : Prop :=
  v.len + n + 64 ≤ 2 ^ 64 ∧ (v.cap < v.len + n → v.cap + v.cap / 4 + 64 ≤ 2 ^ 64)

theorem SliceBytes.fits_of_le {v : SliceBytes} {n : Nat} (hFit : v.len + n ≤ 2 ^ 63) :
    v.Fits n := by
  constructor
  · omega
  · intro hGrow
    omega

/-- The allocation after `realloc` has made it `k` bytes larger. -/
def grown (v : SliceBytes) (k : Nat) : List UInt8 :=
  v.mem ++ (List.range k).map fun i => fresh (v.cap + k) (v.cap + i)

/-- An allocation that grows by `k` has room for `n` more bytes and is still whole lines. -/
structure Growth (v : SliceBytes) (n k : Nat) : Prop where
  room : v.len + n ≤ v.cap + k
  lines : 64 ∣ v.cap → 64 ∣ v.cap + k

theorem grown_length (v : SliceBytes) (k : Nat) : (grown fresh v k).length = v.cap + k := by
  rw [grown, List.length_append, List.length_map, List.length_range]
  rfl

theorem grown_take (v : SliceBytes) (k : Nat) (h : v.len ≤ v.cap) :
    (grown fresh v k).take v.len = v.contents :=
  List.take_append_of_le_length h

theorem realloc_eq (v : SliceBytes) (k : Nat) :
    realloc fresh v.mem (v.cap + k) = grown fresh v k := by
  have hCap : v.mem.length = v.cap := rfl
  rw [realloc, grown, hCap, Nat.add_sub_cancel_left, List.take_of_length_le (by omega)]

/-- `slice_bytes_expand` only adds to the allocation. -/
theorem sliceBytesExpand_eq {v : SliceBytes} {n : Nat} (h : v.Fits n) :
    ∃ k, Growth v n k ∧ sliceBytesExpand fresh v n = { v with mem := grown fresh v k } := by
  have hNew : sizeT (v.len + n) = v.len + n := Nat.mod_eq_of_lt (by have := h.1; omega)
  unfold sliceBytesExpand
  rw [hNew]
  dsimp only
  split
  · rename_i hRoom
    refine ⟨0, ⟨hRoom, fun hLines => hLines⟩, ?_⟩
    simp [grown]
  · rename_i hRoom
    have hQuarter := h.2 (by omega)
    have hCap25 : sizeT (v.cap + v.cap / 4) = v.cap + v.cap / 4 := Nat.mod_eq_of_lt (by omega)
    rw [hCap25]
    set m := if v.cap + v.cap / 4 > v.len + n then v.cap + v.cap / 4 else v.len + n with hm
    have hmLow : v.len + n ≤ m := by rw [hm]; split <;> omega
    have hmHigh : m + 64 ≤ 2 ^ 64 := by
      have := h.1
      rw [hm]
      split <;> omega
    set c := if m % 64 ≠ 0 then sizeT (m + (64 - m % 64)) else m with hc
    have hLine : m ≤ c ∧ c % 64 = 0 := by
      rw [hc]
      split
      · rw [sizeT, Nat.mod_eq_of_lt (by omega)]
        omega
      · omega
    obtain ⟨k, hk⟩ : ∃ k, c = v.cap + k := ⟨c - v.cap, by omega⟩
    refine ⟨k, ⟨by omega, fun _ => by omega⟩, ?_⟩
    rw [hk, realloc_eq]

/-- A store inside the allocation. -/
theorem SliceBytes.store_eq {v : SliceBytes} {i : Nat} {bs : List UInt8}
    (hRoom : i + bs.length ≤ v.cap) :
    v.store i bs = { v with mem := v.mem.take i ++ bs ++ v.mem.drop (i + bs.length) } := by
  have hAll : (v.mem.take i ++ bs ++ v.mem.drop (i + bs.length)).length = v.cap := by
    have hCap : v.cap = v.mem.length := rfl
    simp only [List.length_append, List.length_take, List.length_drop]
    omega
  rw [store, List.take_of_length_le (Nat.le_of_eq hAll)]
  simp [Nat.not_lt.mpr hRoom]

theorem sliceBytesPut_eq {v : SliceBytes} {bs : List UInt8} (hLen : v.len ≤ v.cap)
    (h : v.Fits bs.length) : ∃ k, Growth v bs.length k ∧ sliceBytesPut fresh v bs =
      ⟨v.contents ++ bs ++ (grown fresh v k).drop (v.len + bs.length), v.len + bs.length, v.oob⟩ := by
  obtain ⟨k, hGrowth, hExpand⟩ := sliceBytesExpand_eq fresh h
  have hRoom : v.len + bs.length ≤ (grown fresh v k).length := by
    rw [grown_length]
    exact hGrowth.room
  have hSize : sizeT (v.len + bs.length) = v.len + bs.length :=
    Nat.mod_eq_of_lt (by have := h.1; omega)
  refine ⟨k, hGrowth, ?_⟩
  unfold sliceBytesPut
  rw [hExpand]
  dsimp only
  rw [SliceBytes.store_eq hRoom]
  dsimp only
  rw [hSize, grown_take fresh v k hLen]

theorem sliceBytesAppend_eq {v : SliceBytes} {bs : List UInt8} (hLen : v.len ≤ v.cap)
    (h : v.Fits (bs.length + 1)) : ∃ k, Growth v (bs.length + 1) k ∧ sliceBytesAppend fresh v bs =
      ⟨v.contents ++ bs ++ 0 :: (grown fresh v k).drop (v.len + bs.length + 1),
        v.len + bs.length, v.oob⟩ := by
  have hWide : sizeT (bs.length + 1) = bs.length + 1 := Nat.mod_eq_of_lt (by have := h.1; omega)
  have hSize : sizeT (v.len + bs.length) = v.len + bs.length :=
    Nat.mod_eq_of_lt (by have := h.1; omega)
  obtain ⟨k, hGrowth, hExpand⟩ := sliceBytesExpand_eq fresh h
  have hRoom : v.len + bs.length + 1 ≤ (grown fresh v k).length := by
    rw [grown_length]
    exact hGrowth.room
  have hBytes : v.len + bs.length ≤ SliceBytes.cap { v with mem := grown fresh v k } :=
    Nat.le_of_succ_le hRoom
  refine ⟨k, hGrowth, ?_⟩
  unfold sliceBytesAppend
  rw [hWide, hExpand]
  dsimp only
  rw [SliceBytes.store_eq hBytes]
  dsimp only
  rw [hSize, grown_take fresh v k hLen]
  have hBody : (v.contents ++ bs).length = v.len + bs.length := by
    rw [List.length_append, SliceBytes.contents, List.length_take]
    exact congrArg (· + bs.length) (Nat.min_eq_left hLen)
  rw [SliceBytes.store_eq (by
    simp only [SliceBytes.cap, List.length_append, hBody, List.length_drop, List.length_singleton]
    omega)]
  dsimp only
  rw [List.take_left' hBody, ← List.drop_drop, List.drop_left' hBody, List.drop_drop]
  simp

/-- `slice_bytes_expand` makes room and keeps the contents. -/
theorem sliceBytesExpand_spec {v : SliceBytes} (hv : v.Valid) (n : Nat)
    (hFit : v.len + n ≤ 2 ^ 63) :
    Extends v (sliceBytesExpand fresh v n) [] ∧ (sliceBytesExpand fresh v n).len = v.len ∧
      v.len + n ≤ (sliceBytesExpand fresh v n).cap := by
  obtain ⟨k, hGrowth, hExpand⟩ := sliceBytesExpand_eq fresh (SliceBytes.fits_of_le hFit)
  have hCap : (sliceBytesExpand fresh v n).cap = v.cap + k := by
    rw [hExpand]
    exact grown_length fresh v k
  refine ⟨⟨⟨?_, ?_⟩, ?_⟩, ?_, ?_⟩
  · rw [hCap, hExpand]
    exact Nat.le_add_right_of_le hv.len_le
  · rw [hExpand]
    exact hv.oob
  · rw [hExpand, List.append_nil]
    exact grown_take fresh v k hv.len_le
  · rw [hExpand]
  · rw [hCap]
    exact hGrowth.room

/-- A buffer that holds the old contents, then `bs` and then anything extends the old one. -/
theorem Extends.of_body {v : SliceBytes} {bs rest : List UInt8} (hv : v.Valid) :
    Extends v ⟨v.contents ++ bs ++ rest, v.len + bs.length, v.oob⟩ bs := by
  have hBody : (v.contents ++ bs).length = v.len + bs.length := by
    rw [List.length_append, hv.contents_length]
  refine ⟨⟨?_, hv.oob⟩, ?_⟩
  · rw [SliceBytes.cap, List.length_append, hBody]
    exact Nat.le_add_right _ _
  · exact List.take_left' hBody

theorem sliceBytesPut_spec {v : SliceBytes} (hv : v.Valid) (bs : List UInt8)
    (hFit : v.len + bs.length ≤ 2 ^ 63) : Extends v (sliceBytesPut fresh v bs) bs := by
  obtain ⟨k, -, hPut⟩ := sliceBytesPut_eq fresh hv.len_le (SliceBytes.fits_of_le hFit)
  rw [hPut]
  exact Extends.of_body hv

theorem sliceBytesAppend_spec {v : SliceBytes} (hv : v.Valid) (bs : List UInt8)
    (hFit : v.len + bs.length < 2 ^ 63) : Extends v (sliceBytesAppend fresh v bs) bs := by
  obtain ⟨k, -, hAppend⟩ := sliceBytesAppend_eq fresh hv.len_le (SliceBytes.fits_of_le hFit)
  rw [hAppend]
  exact Extends.of_body hv

theorem Extends.payload {v v' : SliceBytes} {bs : List UInt8} (hv : v.Valid)
    (h : Extends v v' bs) (p : List UInt8) (hFit : v.len + (bs.length + p.length) < 2 ^ 63) :
    Extends v (sliceBytesAppendPayload fresh v' p) (bs ++ p) := by
  unfold sliceBytesAppendPayload
  split
  · exact h.trans (sliceBytesAppend_spec fresh h.valid p (by rw [h.len hv]; omega))
  · rename_i hEmpty
    have hNil : p = [] := List.length_eq_zero_iff.mp (Nat.eq_zero_of_not_pos hEmpty)
    rw [hNil, List.append_nil]
    exact h

theorem Extends.append {v v' : SliceBytes} {bs : List UInt8} (hv : v.Valid)
    (h : Extends v v' bs) (cs : List UInt8) (hFit : v.len + (bs.length + cs.length) < 2 ^ 63) :
    Extends v (sliceBytesAppend fresh v' cs) (bs ++ cs) :=
  h.trans (sliceBytesAppend_spec fresh h.valid cs (by rw [h.len hv]; omega))

theorem Extends.append1 {v v' : SliceBytes} {bs : List UInt8} (hv : v.Valid)
    (h : Extends v v' bs) (bd : UInt8) (hFit : v.len + (bs.length + 1) < 2 ^ 63) :
    Extends v (sliceBytesAppend1 fresh v' bd) (bs ++ [bd]) :=
  h.append fresh hv [bd] hFit

theorem Extends.put {v v' : SliceBytes} {bs : List UInt8} (hv : v.Valid)
    (h : Extends v v' bs) (cs : List UInt8) (hFit : v.len + (bs.length + cs.length) < 2 ^ 63) :
    Extends v (sliceBytesPut fresh v' cs) (bs ++ cs) :=
  h.trans (sliceBytesPut_spec fresh h.valid cs (by rw [h.len hv]; omega))

end Append

end CcCommon.Util
