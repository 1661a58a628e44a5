import CcCommon.Codec.Binc.Digits
import CcCommon.Lib.TwosComplement

/-! # codec/binc.c: pruning

`codec_binc_prune_sign_ext` finds the shortest two's complement form of a byte
string. The reader of an integer knows nothing of signs: it puts zeros in front
of the digits.
-/

namespace CcCommon.Codec.Binc

open Util Lib.Bytes Lib.TwosComplement

set_option autoImplicit false

/-! ## The loop over indices -/

/-- One of the two loops of `codec_binc_prune_sign_ext`, or `none` where it reads outside `v`. -/
def pruneLoop (v : List UInt8) (lead : UInt8) (top : Bool) (n : Nat) : Option Nat :=
  match v[n]? with
  | none => none
  | some a =>
    if a = lead ∧ n + 1 < v.length then
      match v[n + 1]? with
      | none => none
      | some c =>
        if decide (c &&& 0x80 ≠ 0) = top then pruneLoop v lead top (n + 1) else some n
    else some n
termination_by v.length - n

/-- `codec_binc_prune_sign_ext`, or `none` where it reads outside `v`. -/
def codecBincPruneSignExtReads (v : List UInt8) (pos : Bool) : Option Nat :=
  match v[0]? with
  | none => none
  | some a =>
    if pos ∧ a = 0 then pruneLoop v 0 false 0
    else if ¬ pos ∧ a = 0xff then pruneLoop v 0xff true 0
    else some 0

theorem top_bit (c : UInt8) : decide (c &&& 0x80 ≠ 0) = decide (128 ≤ c.toNat) := by
  have hAll : ∀ n < 256, decide (UInt8.ofNat n &&& 0x80 ≠ 0) = decide (128 ≤ n) := by
    decide +kernel
  have hByte := hAll c.toNat c.toNat_lt
  rwa [UInt8.ofNat_toNat] at hByte

theorem pruneLoop_eq (lead : UInt8) (top : Bool) (done : List UInt8) (a : UInt8)
    (rest : List UInt8) : pruneLoop (done ++ a :: rest) lead top done.length =
      some (done.length + pruneCount lead top (a :: rest)) := by
  induction rest generalizing done a with
  | nil =>
    rw [pruneLoop]
    simp [pruneCount]
  | cons c rest ih =>
    have hFirst : (done ++ a :: c :: rest)[done.length]? = some a := by simp
    have hSecond : (done ++ a :: c :: rest)[done.length + 1]? = some c := by simp
    have hRoom : done.length + 1 < (done ++ a :: c :: rest).length := by simp
    have hNext := ih (done ++ [a]) c
    rw [List.append_assoc, List.length_append, List.length_singleton, List.singleton_append] at hNext
    rw [pruneLoop, hFirst, hSecond, pruneCount]
    dsimp only
    rw [top_bit, hNext]
    split
    · rename_i hLead
      split
      · rename_i hTop
        rw [if_pos ⟨hLead.1, hTop⟩, Nat.add_assoc, Nat.add_comm 1]
      · rename_i hTop
        rw [if_neg fun h => hTop h.2, Nat.add_zero]
    · rename_i hLead
      rw [if_neg fun h => hLead ⟨h.1, hRoom⟩, Nat.add_zero]

theorem pruneCount_of_ne {lead a : UInt8} (h : a ≠ lead) (top : Bool) (rest : List UInt8) :
    pruneCount lead top (a :: rest) = 0 := by
  cases rest with
  | nil => rfl
  | cons c rest => rw [pruneCount, if_neg fun hLead => h hLead.1]

/-- No read is outside of a string that is not empty. -/
theorem codecBincPruneSignExtReads_eq {v : List UInt8} (h : v ≠ []) (pos : Bool) :
    codecBincPruneSignExtReads v pos = some (codecBincPruneSignExt v pos) := by
  obtain ⟨a, rest, rfl⟩ := List.exists_cons_of_ne_nil h
  have hLoop (lead : UInt8) (top : Bool) := pruneLoop_eq lead top [] a rest
  simp only [List.nil_append, List.length_nil, Nat.zero_add] at hLoop
  have hFirst : (a :: rest)[0]? = some a := rfl
  rw [codecBincPruneSignExtReads, hFirst, codecBincPruneSignExt, hLoop, hLoop]
  dsimp only
  cases pos with
  | true =>
    rw [if_pos rfl]
    split
    · rfl
    · rename_i hLead
      rw [if_neg (by simp), pruneCount_of_ne fun hZero => hLead ⟨rfl, hZero⟩]
  | false =>
    rw [if_neg (by simp), if_neg Bool.false_ne_true]
    split
    · rfl
    · rename_i hLead
      rw [pruneCount_of_ne fun hOnes => hLead ⟨Bool.false_ne_true, hOnes⟩]

/-! ## The shortest form of a number -/

/-- `n` bytes are dropped, all of them padding for the sign, and no more can go. -/
structure Prunes (v : List UInt8) (pos : Bool) (n : Nat) : Prop where
  lt : n < v.length
  droppable : Droppable (!pos) v n
  maximal : ∀ m, n < m → m < v.length → ¬ Droppable (!pos) v m
  stops : n + 1 = v.length ∨ v[n]? ≠ some (padding (!pos)) ∨ isNegative (v.drop (n + 1)) ≠ !pos

theorem codecBincPruneSignExt_eq (v : List UInt8) (pos : Bool) :
    codecBincPruneSignExt v pos = pruneCount (padding (!pos)) (!pos) v := by
  cases pos <;> rfl

section Count

variable {negative : Bool}

theorem pruneCount_droppable (v : List UInt8) :
    Droppable negative v (pruneCount (padding negative) negative v) := by
  induction v with
  | nil => exact droppable_zero negative []
  | cons a v ih =>
    cases v with
    | nil => exact droppable_zero negative [a]
    | cons c rest =>
      rw [pruneCount]
      split
      · rename_i hLead
        have hSign : isNegative (c :: rest) = negative := hLead.2
        rw [hLead.1]
        exact (droppable_succ hSign).mpr ih
      · exact droppable_zero negative (a :: c :: rest)

theorem pruneCount_maximal {v : List UInt8} {m : Nat}
    (hMore : pruneCount (padding negative) negative v < m) (hm : m < v.length) :
    ¬ Droppable negative v m := by
  intro hDrop
  induction v generalizing m with
  | nil => cases hm
  | cons a v ih =>
    obtain ⟨n, rfl⟩ : ∃ n, m = n + 1 := ⟨m - 1, by omega⟩
    rw [List.length_cons, Nat.add_lt_add_iff_right] at hm
    obtain ⟨rfl, hSign⟩ := hDrop.head hm
    cases v with
    | nil => cases hm
    | cons c rest =>
      rw [pruneCount, if_pos ⟨rfl, hSign⟩, Nat.add_lt_add_iff_right] at hMore
      exact ih hMore hm ((droppable_succ hSign).mp hDrop)

theorem pruneCount_stops {v : List UInt8} (h : v ≠ []) :
    pruneCount (padding negative) negative v + 1 = v.length ∨
      v[pruneCount (padding negative) negative v]? ≠ some (padding negative) ∨
      isNegative (v.drop (pruneCount (padding negative) negative v + 1)) ≠ negative := by
  induction v with
  | nil => exact absurd rfl h
  | cons a v ih =>
    cases v with
    | nil => exact .inl rfl
    | cons c rest =>
      rw [pruneCount]
      split
      · rw [List.getElem?_cons_succ, List.drop_succ_cons, List.length_cons, Nat.add_left_inj]
        exact ih (List.cons_ne_nil c rest)
      · rename_i hLead
        right
        rw [List.getElem?_cons_zero, List.drop_succ_cons, List.drop_zero, ← not_and_or]
        rintro ⟨hFirst, hSign⟩
        exact hLead ⟨Option.some.inj hFirst, hSign⟩

end Count

/-- Of every byte string that is not empty exactly as many bytes are dropped as can be, and no byte
outside of it is read. -/
theorem codecBincPruneSignExt_prunes (v : List UInt8) (pos : Bool) (h : v ≠ []) :
    ∃ n, codecBincPruneSignExtReads v pos = some n ∧ Prunes v pos n := by
  refine ⟨codecBincPruneSignExt v pos, codecBincPruneSignExtReads_eq h pos,
    codecBincPruneSignExt_lt pos h, ?_, ?_, ?_⟩
  · rw [codecBincPruneSignExt_eq]
    exact pruneCount_droppable v
  · intro m hMore hm
    rw [codecBincPruneSignExt_eq] at hMore
    exact pruneCount_maximal hMore hm
  · rw [codecBincPruneSignExt_eq]
    exact pruneCount_stops h

theorem codecBincPruneSignExt_prunes_ones :
    ∃ n, codecBincPruneSignExtReads [0xff, 0xff, 0x80, 0] false = some n ∧
      Prunes [0xff, 0xff, 0x80, 0] false n :=
  codecBincPruneSignExt_prunes [0xff, 0xff, 0x80, 0] false (by decide)

/-! ## What the reader makes of a pruned integer -/

/-- The integers that `codec_binc_encode_uint` prunes in `lim` bytes. -/
def PruneRange (lim v : Nat) : Prop :=
  (lim = 4 ∧ 2 ^ 16 ≤ v ∧ v < 2 ^ 32) ∨ (lim = 8 ∧ 2 ^ 32 ≤ v ∧ v < 2 ^ 64)

instance (lim v : Nat) : Decidable (PruneRange lim v) := inferInstanceAs (Decidable (_ ∨ _))

/-- What `codec_binc_encode_uint_prune` appends for `v` is a descriptor and as many digits as it
says, which `codec_binc_decode_uint64` reads as `v`. -/
def PrunedReadsBack (vd : CodecBincDescType) (pos : Bool) (lim v : Nat) : Prop :=
  ∀ fresh (b : SliceBytes), b.Valid → b.len + 9 < 2 ^ 63 →
    ∃ bd payload,
      appended b (codecBincEncodeUintPrune fresh v (bincDesc vd 0) pos lim b) = bd :: payload ∧
      payload.length = nibble bd + 1 ∧
      ∀ (i : Input) (s : CodecDecodeState), i.At s.pos payload →
        ∃ s', codecBincDecodeUint64 i s (nibble bd) = (s', v) ∧ s'.pos = s.pos + (nibble bd + 1) ∧
          s'.err = s.err

section Value

variable {v lim : Nat} {pos : Bool}

/-- The digits that are written. -/
def prunedDigits (pos : Bool) (lim v : Nat) : List UInt8 :=
  (uintBytes v lim).drop (codecBincPruneSignExt (uintBytes v lim) pos)

theorem PruneRange.uintBytes_length (h : PruneRange lim v) : (uintBytes v lim).length = lim := by
  rcases h with ⟨rfl, -, hHigh⟩ | ⟨rfl, -⟩
  · rw [uintBytes_four hHigh, beBytes_length]
  · rw [uintBytes_eight, List.length_append, beBytes_length]
    rfl

theorem PruneRange.prunedBytes_eq (h : PruneRange lim v) (vd : CodecBincDescType) (pos : Bool) :
    ∃ k ≤ 7, (prunedDigits pos lim v).length = k + 1 ∧
      prunedBytes (bincDesc vd 0) pos lim v = bincDesc vd k :: prunedDigits pos lim v := by
  have hLength := h.uintBytes_length
  have hLim : 0 < lim ∧ lim ≤ 8 := by
    rcases h with ⟨rfl, -⟩ | ⟨rfl, -⟩ <;> decide
  obtain ⟨i, hi, hLt, hBytes⟩ := Binc.prunedBytes_eq vd pos hLim.2 hLength hLim.1
  refine ⟨lim - 1 - i, by omega, ?_, ?_⟩
  · rw [prunedDigits, ← hi, List.length_drop, hLength]
    omega
  · rw [hBytes, prunedDigits, ← hi]

/-- The last four of eight bytes are 0. -/
theorem dvd_prunedDigits_eight (pos : Bool) (v : Nat) : 2 ^ 32 ∣ beNat (prunedDigits pos 8 v) := by
  rw [prunedDigits, uintBytes_eight]
  generalize codecBincPruneSignExt (beBytes 4 (v % 2 ^ 32) ++ [0, 0, 0, 0]) pos = i
  have hZeros : [0, 0, 0, 0] = List.replicate 4 (0 : UInt8) := rfl
  rw [hZeros, List.drop_append, beBytes_length, List.drop_replicate, beNat_append,
    beNat_replicate_zero, List.length_replicate]
  rcases Nat.lt_or_ge 4 i with hMore | hLe
  · rw [List.drop_of_length_le (by rw [beBytes_length]; omega)]
    simp
  · have hPow : 256 ^ (4 - 0) = 2 ^ 32 := by decide
    rw [Nat.sub_eq_zero_of_le hLe, hPow, Nat.add_zero]
    exact Nat.dvd_mul_left _ _

theorem prunedDigits_eight_ne (hLow : 2 ^ 32 ≤ v) : beNat (prunedDigits pos 8 v) ≠ v := by
  intro hSame
  have hDvd := dvd_prunedDigits_eight pos v
  rw [hSame] at hDvd
  have hZero : v % 2 ^ 32 = 0 := Nat.mod_eq_zero_of_dvd hDvd
  have hNone : uintBytes v 8 = List.replicate 8 0 := by
    rw [uintBytes_eight, hZero]
    rfl
  rw [prunedDigits, hNone, List.drop_replicate, beNat_replicate_zero] at hSame
  omega

theorem prunedDigits_four (hHigh : v < 2 ^ 32) :
    beNat (prunedDigits pos 4 v) = v ↔ pos = true ∨ v < 0xff800000 := by
  have hWhole : beNat (beBytes 4 v) = v := beNat_beBytes_of_lt hHigh
  rw [prunedDigits, uintBytes_four hHigh]
  cases pos with
  | true =>
    rw [codecBincPruneSignExt, if_pos rfl, beNat_drop_pruneCount, hWhole]
    simp
  | false =>
    rw [codecBincPruneSignExt, if_neg Bool.false_ne_true, ← pruneCount_negative hHigh]
    constructor
    · intro hSame
      right
      by_contra hSome
      have hBig : 0xff800000 ≤ v := Nat.not_lt.mp (mt (pruneCount_negative hHigh).mpr hSome)
      have hBound := beNat_lt ((beBytes 4 v).drop (pruneCount 0xff true (beBytes 4 v)))
      rw [hSame, List.length_drop, beBytes_length] at hBound
      have hPow : 256 ^ (4 - pruneCount 0xff true (beBytes 4 v)) ≤ 256 ^ 3 :=
        Nat.pow_le_pow_right (by decide) (by omega)
      omega
    · rintro (hFalse | hNone)
      · cases hFalse
      · rw [hNone, List.drop_zero, hWhole]

/-- The reader puts zeros in front of the digits. -/
theorem prunedReadsBack_iff (h : PruneRange lim v) (vd : CodecBincDescType) (pos : Bool) :
    PrunedReadsBack vd pos lim v ↔ beNat (prunedDigits pos lim v) = v := by
  obtain ⟨k, hk, hLength, hBytes⟩ := h.prunedBytes_eq vd pos
  have hSize : (prunedBytes (bincDesc vd 0) pos lim v).length ≤ 9 := by
    rw [hBytes, List.length_cons]
    omega
  have hNibble : nibble (bincDesc vd k) = k := nibble_bincDesc (by omega)
  obtain ⟨c, cs, hDigits⟩ : ∃ c cs, prunedDigits pos lim v = c :: cs :=
    List.exists_cons_of_length_eq_add_one hLength
  have hRest : cs.length = k := by
    rw [hDigits] at hLength
    exact Nat.succ.inj hLength
  have hRead {i : Input} {s : CodecDecodeState} (hAt : i.At s.pos (prunedDigits pos lim v)) :
      ∃ s', codecBincDecodeUint64 i s k = (s', beNat (prunedDigits pos lim v)) ∧
        s'.pos = s.pos + (k + 1) ∧ s'.err = s.err := by
    rw [hDigits] at hAt ⊢
    obtain ⟨s', hValue, hPos, hErr⟩ := codecBincDecodeUint64_at (by omega) hAt
    rw [hRest] at hValue
    rw [List.length_cons, hRest] at hPos
    exact ⟨s', hValue, hPos, hErr⟩
  constructor
  · intro hBack
    have hFit : sliceBytesZero.len + 9 < 2 ^ 63 := by decide
    obtain ⟨bd, payload, hAppended, -, hReads⟩ :=
      hBack (fun _ _ => 0) sliceBytesZero sliceBytesZero_valid hFit
    rw [(codecBincEncodeUintPrune_spec _ sliceBytesZero_valid v _ pos lim (by omega)).appended
      sliceBytesZero_valid, hBytes] at hAppended
    obtain ⟨rfl, rfl⟩ := List.cons.inj hAppended
    rw [hNibble] at hReads
    obtain ⟨i, hAt⟩ := Input.exists_at (prunedDigits pos lim v) (by omega)
    obtain ⟨s', hValue, -⟩ := hReads i .init hAt
    obtain ⟨s'', hValue', -⟩ := hRead (s := .init) hAt
    rw [hValue] at hValue'
    exact (Prod.mk.inj hValue').2.symm
  · intro hValue fresh b hb hFit
    refine ⟨bincDesc vd k, prunedDigits pos lim v, ?_, ?_, ?_⟩
    · rw [← hBytes]
      exact (codecBincEncodeUintPrune_spec fresh hb v _ pos lim (by omega)).appended hb
    · rw [hNibble, hLength]
    · rw [hNibble]
      intro i s hAt
      rw [← hValue]
      exact hRead hAt

end Value

/-- The last four of eight bytes are never written; of four bytes the reader gets back what the
writer had, unless a negative number was pruned. -/
theorem codecBincEncodeUintPrune_readsBack_iff (vd : CodecBincDescType) (pos : Bool) (lim v : Nat)
    (h : PruneRange lim v) :
    PrunedReadsBack vd pos lim v ↔ lim = 4 ∧ (pos = true ∨ v < 0xff800000) := by
  rw [prunedReadsBack_iff h]
  rcases h with ⟨rfl, -, hHigh⟩ | ⟨rfl, hLow, -⟩
  · rw [prunedDigits_four hHigh]
    exact (and_iff_right rfl).symm
  · exact iff_of_false (prunedDigits_eight_ne hLow) fun hFour => absurd hFour.1 (by decide)

theorem codecBincEncodeUintPrune_readsBack_iff_four : PrunedReadsBack .negint false 4 0x10000 :=
  (codecBincEncodeUintPrune_readsBack_iff .negint false 4 0x10000 (by decide)).mpr (by decide)

theorem not_prunedReadsBack_negative :
    (PruneRange 4 0xff800000 ∧ ¬ PrunedReadsBack .negint false 4 0xff800000) ∧
      PruneRange 8 0x100000000 ∧ ¬ PrunedReadsBack .posint true 8 0x100000000 := by
  have hFour : PruneRange 4 0xff800000 := by decide
  have hEight : PruneRange 8 0x100000000 := by decide
  have hLost : beNat (prunedDigits false 4 0xff800000) ≠ 0xff800000 := by decide
  have hZero : beNat (prunedDigits true 8 0x100000000) ≠ 0x100000000 := by decide
  exact ⟨⟨hFour, fun h => hLost ((prunedReadsBack_iff hFour .negint false).mp h)⟩, hEight,
    fun h => hZero ((prunedReadsBack_iff hEight .posint true).mp h)⟩

end CcCommon.Codec.Binc
