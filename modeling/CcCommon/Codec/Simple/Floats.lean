import CcCommon.Codec.Simple.DecodeSteps

/-! # Floats in simplecodec.c

The encoder appends the bytes of a float as they lie in memory. The decoder
assembles an integer from them, most significant byte first, and assigns it:
the integer is converted, its bits are not taken over. -/

namespace CcCommon.Codec.Simple

open Util Lib.Bytes Lib.Descent

set_option autoImplicit false

/-- Wherever the bytes that `codec_simple_encode` appends for `v` lie, the decoder assembles the
pattern `bits` from the `w` of them behind the descriptor, and returns `d`. -/
def CarriesPattern (v : Value) (w : Nat) (assemble : (Nat → UInt8) → Nat) (bits : Nat)
    (d : Decoded) : Prop :=
  ∀ fresh (s : EncodeState), s.b.Valid → s.err = none → s.b.len + (1 + w) < 2 ^ 63 →
    ∃ s' bs, codecSimpleEncode fresh v s = some s' ∧ s'.err = none ∧ Extends s.b s'.b bs ∧
      bs.length = 1 + w ∧
      ∀ (b : Input) (t : CodecDecodeState) (d₀ : Decoded), b.At t.pos bs →
        assemble (fun j => b.get (t.pos + 1 + j)) = bits ∧
        ∃ t', Returns (codecSimpleScheme b) t d₀ t' d ∧ t'.pos = t.pos + (1 + w) ∧ t'.err = t.err

def CarriesFloat32 (bits : UInt32) : Prop :=
  CarriesPattern (.float32 () bits) 4 utilBigEndianReadUint32 bits.toNat
    (.mk .float32 (.vFloat32 bits) [])

def CarriesFloat64 (bits : UInt64) : Prop :=
  CarriesPattern (.float64 () bits) 8 utilBigEndianReadUint64 bits.toNat
    (.mk .float64 (.vFloat64 bits) [])

/-! ## What the decoder makes of the bytes -/

section Decode

variable {b : Input} {s : CodecDecodeState}

/-- The number in the other byte order. -/
def swapped (w n : Nat) : Nat := beNat (leBytes w n)

theorem assembled {w n : Nat} {c : UInt8} (h : b.At s.pos (c :: leBytes w n)) :
    beNat ((List.range w).map fun j => b.get (s.pos + 1 + j)) = swapped w n := by
  have hSlice := h.cons.2.2.slice
  rw [leBytes_length] at hSlice
  rw [swapped, ← hSlice, Input.slice]

/-- Behind the descriptor the whole payload is read. -/
theorem codecSimpleDecodeHead_payload (v : Decoded) {c : UInt8} {bs : List UInt8}
    (h : b.At s.pos (c :: bs)) :
    codecSimpleDecodeHead b s v = codecSimpleDecodeSwitch b s.enter.next v c ∧
      s.enter.next.pos = s.pos + 1 ∧
      codecDecodeStateChk b s.enter.next bs.length = (s.enter.next, false) ∧
      ((s.enter.next.touch bs.length).advance bs.length).pos = s.pos + (1 + bs.length) := by
  obtain ⟨hHead, hNext⟩ := codecSimpleDecodeHead_at v h
  have hFits := h.le
  have hLen := b.len_lt
  rw [List.length_cons] at hFits
  refine ⟨hHead, hNext, codecDecodeStateChk_pass (by omega), ?_⟩
  rw [CodecDecodeState.advance_pos_of_lt _ (by rw [CodecDecodeState.touch_pos]; omega),
    CodecDecodeState.touch_pos, hNext, Nat.add_assoc]

theorem codecSimpleDecodeHead_float32 (v : Decoded) {n : Nat} (h : b.At s.pos (4 :: leBytes 4 n)) :
    ∃ s', codecSimpleDecodeHead b s v =
        .leaf s' (.mk .float32 (.vFloat32 (float32OfUint32 (swapped 4 n))) []) ∧
      s'.pos = s.pos + (1 + 4) ∧ s'.err = s.err := by
  obtain ⟨hHead, hNext, hPass, hPos⟩ := codecSimpleDecodeHead_payload v h
  rw [leBytes_length] at hPass hPos
  refine ⟨_, ?_, hPos, rfl⟩
  have hDesc : codecSimpleDesc 4 = some .float32 := rfl
  rw [hHead, codecSimpleDecodeSwitch, hDesc]
  dsimp only
  rw [codecSimpleDecodeFloat32, hPass]
  dsimp only
  rw [hNext, utilBigEndianReadUint32_eq, assembled h]

theorem codecSimpleDecodeHead_float64 (v : Decoded) {n : Nat} (h : b.At s.pos (5 :: leBytes 8 n)) :
    ∃ s', codecSimpleDecodeHead b s v =
        .leaf s' (.mk .float64 (.vFloat64 (float64OfUint64 (swapped 8 n))) []) ∧
      s'.pos = s.pos + (1 + 8) ∧ s'.err = s.err := by
  obtain ⟨hHead, hNext, hPass, hPos⟩ := codecSimpleDecodeHead_payload v h
  rw [leBytes_length] at hPass hPos
  refine ⟨_, ?_, hPos, rfl⟩
  have hDesc : codecSimpleDesc 5 = some .float64 := rfl
  rw [hHead, codecSimpleDecodeSwitch, hDesc]
  dsimp only
  rw [codecSimpleDecodeFloat64, hPass]
  dsimp only
  rw [hNext, utilBigEndianReadUint64_eq, assembled h]

end Decode

section Pattern

variable {v : Value} {w n : Nat} {c : UInt8} {assemble : (Nat → UInt8) → Nat} {d d' : Decoded}

theorem carriesPattern_iff (hBytes : simpleBytes v = c :: leBytes w n) (hCounts : v.IntCounts)
    (hw : 1 + w < 2 ^ 63) (hAssemble : ∀ p, assemble p = beNat ((List.range w).map p))
    (hHead : ∀ (b : Input) (t : CodecDecodeState) (d₀ : Decoded), b.At t.pos (c :: leBytes w n) →
      ∃ t', codecSimpleDecodeHead b t d₀ = .leaf t' d' ∧ t'.pos = t.pos + (1 + w) ∧
        t'.err = t.err) :
    CarriesPattern v w assemble n d ↔ swapped w n = n ∧ d' = d := by
  have hEncode (fresh : Nat → Nat → UInt8) := codecSimpleEncode_spec fresh v hCounts
  have hLength : (c :: leBytes w n).length = 1 + w := by
    rw [List.length_cons, leBytes_length, Nat.add_comm]
  rw [hBytes] at hEncode
  have hFit : sliceBytesZero.len + (1 + w) < 2 ^ 63 := by simpa [sliceBytesZero] using hw
  constructor
  · intro hCarries
    obtain ⟨s', bs, hRun, -, hExt, -, hReads⟩ :=
      hCarries (fun _ _ => 0) ⟨sliceBytesZero, none⟩ sliceBytesZero_valid rfl hFit
    obtain ⟨s'', hRun', -, hExt'⟩ := hEncode (fun _ _ => 0) ⟨sliceBytesZero, none⟩
      sliceBytesZero_valid rfl (by rw [hLength]; exact hFit)
    rw [hRun'] at hRun
    obtain rfl := Option.some.inj hRun
    have hSame : bs = c :: leBytes w n :=
      List.append_cancel_left (hExt.contents.symm.trans hExt'.contents)
    subst hSame
    obtain ⟨b, hAt⟩ := Input.exists_at (c :: leBytes w n) (by rw [hLength]; exact hw)
    obtain ⟨hAssembled, t', hRet, -⟩ := hReads b .init .zero hAt
    obtain ⟨t'', hLeaf, -⟩ := hHead b .init .zero hAt
    rw [hAssemble, assembled hAt] at hAssembled
    exact ⟨hAssembled, (returns_leaf_inv hLeaf hRet).2.symm⟩
  · rintro ⟨hSwapped, rfl⟩ fresh s hb hErr hFit
    obtain ⟨s', hRun, hErr', hExt⟩ := hEncode fresh s hb hErr (by rw [hLength]; exact hFit)
    refine ⟨s', c :: leBytes w n, hRun, hErr', hExt, hLength, fun b t d₀ hAt => ?_⟩
    obtain ⟨t', hLeaf, hPos, hErr⟩ := hHead b t d₀ hAt
    constructor
    · rw [hAssemble, assembled hAt, hSwapped]
    · exact ⟨_, returns_leaf hLeaf, hPos, hErr⟩

end Pattern

/-! ## The patterns that are carried -/

theorem swapped_ne {w n : Nat} (h : n / 256 ^ w ≠ n % 256) : swapped (w + 1) n ≠ n := by
  intro hSame
  have hTop := beNat_leBytes_div w n
  rw [swapped] at hSame
  rw [hSame] at hTop
  exact h hTop

/-- A binary32 pattern other than 0 that is its own value begins with `0x4e`. -/
theorem eq_zero_of_self32 {n : Nat} (hn : n < 2 ^ 32) (hSwapped : swapped 4 n = n)
    (hSame : floatOfNat 23 127 n = n) : n = 0 := by
  by_contra hPos
  have hEq := floatOfNat_self (p := 23) (k := 7) hPos (by decide) (by decide) hn hSame
  have hRound := roundEven_le n 7
  have hNear : n = 0x4e9d3a74 ∨ n = 0x4e9d3a75 := by omega
  have hEnds : n / 256 ^ 3 ≠ n % 256 := by
    rcases hNear with rfl | rfl <;> decide
  exact swapped_ne hEnds hSwapped

/-- That of binary64 begins with `0x43`. -/
theorem eq_zero_of_self64 {n : Nat} (hn : n < 2 ^ 64) (hSwapped : swapped 8 n = n)
    (hSame : floatOfNat 52 1023 n = n) : n = 0 := by
  by_contra hPos
  have hEq := floatOfNat_self (p := 52) (k := 10) hPos (by decide) (by decide) hn hSame
  have hRound := roundEven_le n 10
  have hNear : n = 0x43d0f43d0f43d0f4 ∨ n = 0x43d0f43d0f43d0f5 := by omega
  have hEnds : n / 256 ^ 7 ≠ n % 256 := by
    rcases hNear with rfl | rfl <;> decide
  exact swapped_ne hEnds hSwapped

theorem carriesFloat32_iff (bits : UInt32) : CarriesFloat32 bits ↔ bits = 0 := by
  have hn : bits.toNat < 2 ^ 32 := bits.toNat_lt
  have hCounts : (CodecValue.float32 () bits).IntCounts :=
    .node (Nat.two_pow_pos 31) (by simp [CodecValue.children])
  rw [CarriesFloat32, carriesPattern_iff rfl hCounts (by decide) utilBigEndianReadUint32_eq
    fun b t d₀ hAt => codecSimpleDecodeHead_float32 d₀ hAt]
  constructor
  · rintro ⟨hSwapped, hStored⟩
    simp only [Decoded.mk.injEq, CodecValueDiscrim.vFloat32.injEq, true_and, and_true] at hStored
    rw [hSwapped, float32OfUint32, UInt32.ofNat_eq_iff_mod_eq_toNat] at hStored
    have hFits : floatOfNat 23 127 bits.toNat < 2 ^ 32 :=
      floatOfNat_lt (p := 23) (k := 7) (by decide) hn
    rw [Nat.mod_eq_of_lt hFits] at hStored
    exact UInt32.toNat_inj.mp (eq_zero_of_self32 hn hSwapped hStored)
  · rintro rfl
    exact ⟨rfl, rfl⟩

theorem carriesFloat64_iff (bits : UInt64) : CarriesFloat64 bits ↔ bits = 0 := by
  have hn : bits.toNat < 2 ^ 64 := bits.toNat_lt
  have hCounts : (CodecValue.float64 () bits).IntCounts :=
    .node (Nat.two_pow_pos 31) (by simp [CodecValue.children])
  rw [CarriesFloat64, carriesPattern_iff rfl hCounts (by decide) utilBigEndianReadUint64_eq
    fun b t d₀ hAt => codecSimpleDecodeHead_float64 d₀ hAt]
  constructor
  · rintro ⟨hSwapped, hStored⟩
    simp only [Decoded.mk.injEq, CodecValueDiscrim.vFloat64.injEq, true_and, and_true] at hStored
    rw [hSwapped, float64OfUint64, UInt64.ofNat_eq_iff_mod_eq_toNat] at hStored
    have hFits : floatOfNat 52 1023 bits.toNat < 2 ^ 64 :=
      floatOfNat_lt (p := 52) (k := 10) (by decide) hn
    rw [Nat.mod_eq_of_lt hFits] at hStored
    exact UInt64.toNat_inj.mp (eq_zero_of_self64 hn hSwapped hStored)
  · rintro rfl
    exact ⟨rfl, rfl⟩

/-- The pattern 0 is the only one that comes through, in either width. -/
theorem codecSimpleEncode_carriesFloat_iff (bits : UInt32) (bits' : UInt64) :
    (CarriesFloat32 bits ↔ bits = 0) ∧ (CarriesFloat64 bits' ↔ bits' = 0) :=
  ⟨carriesFloat32_iff bits, carriesFloat64_iff bits'⟩

/-- `1.0` in both widths. -/
theorem not_carriesFloat_one :
    ¬ CarriesFloat32 0x3f800000 ∧ ¬ CarriesFloat64 0x3ff0000000000000 := by
  rw [carriesFloat32_iff, carriesFloat64_iff]
  decide

end CcCommon.Codec.Simple
