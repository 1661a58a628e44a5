import CcCommon.Codec.Binc.Operations
import CcCommon.Codec.Simple.Operations

/-! # The terminator behind an encoding

`slice_bytes_append` promises a terminating zero. An encoder that stores the
bytes of an integer directly does not restore it. -/

namespace CcCommon.Codec

open Util CodecValue

set_option autoImplicit false

/-- Whatever fresh bytes hold, the slice is terminated after `codec_simple_encode`. -/
def Simple.KeepsTerminator {μ : Type} (v : CodecValue μ) : Prop :=
  ∀ fresh s, codecSimpleEncode fresh v ⟨sliceBytesZero, none⟩ = some s → s.b.Terminated

/-- Whatever fresh bytes hold, the slice is terminated after `codec_binc_encode`. -/
def Binc.KeepsTerminator (v : CodecValue Placement) (after : Words) : Prop :=
  ∀ fresh s, EncodesTo fresh v after ⟨sliceBytesZero, none, []⟩ s → s.b.Terminated

theorem Simple.keepsTerminator_iff {μ : Type} {v : CodecValue μ} (hCounts : v.IntCounts)
    (hSize : (simpleBytes v).length < 2 ^ 63) :
    KeepsTerminator v ↔ v.last.isInt wide = false := by
  have hSpells := spells_simpleOps v
  have hIff := performAll_terminated_iff hSpells.writes (by rwa [hSpells.bytes])
    (endsWith_simpleOps v)
  rw [← Bool.not_eq_true', ← hIff]
  constructor
  · intro h fresh
    exact h fresh _ (codecSimpleEncode_performs fresh v hCounts sliceBytesZero)
  · intro h fresh s hRun
    rw [codecSimpleEncode_performs fresh v hCounts, Option.some.injEq] at hRun
    rw [← hRun]
    exact h fresh

theorem Binc.keepsTerminator_iff {v : CodecValue Placement} {after : Words}
    (hCounts : ByteCounts v) (hSize : (bincBytes v after).length < 2 ^ 63) :
    KeepsTerminator v after ↔ v.last.isInt wide = false := by
  have hSpells := spells_bincOps v after
  have hIff := performAll_terminated_iff hSpells.writes (by rwa [hSpells.bytes])
    (endsWith_bincOps v after)
  rw [← Bool.not_eq_true', ← hIff]
  constructor
  · intro h fresh
    obtain ⟨f, s, hRun, -⟩ := codecBincEncode_spec fresh v hCounts after []
      ⟨sliceBytesZero, none, []⟩ rfl
    have hTerm := h fresh s ⟨f, hRun⟩
    rwa [performs_of_returns f (hRun f (Nat.le_refl f)) rfl] at hTerm
  · rintro h fresh s ⟨f, hRun⟩
    rw [performs_of_returns f (hRun f (Nat.le_refl f)) rfl]
    exact h fresh

/-- The encodings that keep the terminator are those whose last node is no integer that the
encoder stores in several bytes at once. -/
theorem encoders_keepTerminator_iff (v : CodecValue Placement) (after : Words) :
    (v.IntCounts → (Simple.simpleBytes v).length < 2 ^ 63 →
      (Simple.KeepsTerminator v ↔ v.last.isInt Simple.wide = false)) ∧
    (Binc.ByteCounts v → (Binc.bincBytes v after).length < 2 ^ 63 →
      (Binc.KeepsTerminator v after ↔ v.last.isInt Binc.wide = false)) :=
  ⟨Simple.keepsTerminator_iff, Binc.keepsTerminator_iff⟩

theorem encoders_keepTerminator_iff_array :
    Simple.KeepsTerminator (.array Placement.zero [.posInt .zero 70000, .nil .zero]) ∧
      ¬ Simple.KeepsTerminator (.array Placement.zero [.nil .zero, .posInt .zero 70000]) ∧
      Binc.KeepsTerminator (.array .zero [.nil .zero, .posInt .zero 70000]) (fun _ => 0) := by
  have hLeaf (n : UInt64) (k : Nat) : All (fun w => w.count ≤ k) (.posInt Placement.zero n) :=
    .leaf (Nat.zero_le k) rfl
  have hNil (k : Nat) : All (fun w => w.count ≤ k) (.nil Placement.zero) :=
    .leaf (Nat.zero_le k) rfl
  have hPair (k : Nat) (hk : 2 ≤ k) :
      All (fun w => w.count ≤ k) (.array Placement.zero [.nil .zero, .posInt .zero 70000]) ∧
      All (fun w => w.count ≤ k) (.array Placement.zero [.posInt .zero 70000, .nil .zero]) := by
    constructor
    · exact .node hk (by simp [children, hLeaf, hNil])
    · exact .node hk (by simp [children, hLeaf, hNil])
  have hInt {v : CodecValue Placement} (h : All (fun w => w.count ≤ 2) v) : v.IntCounts :=
    h.imp fun w hw => Nat.lt_of_le_of_lt hw (by decide)
  have hWide := encoders_keepTerminator_iff
    (.array Placement.zero [.nil .zero, .posInt .zero 70000]) fun _ => 0
  have hNarrow := encoders_keepTerminator_iff
    (.array Placement.zero [.posInt .zero 70000, .nil .zero]) fun _ => 0
  refine ⟨(hNarrow.1 (hInt (hPair 2 (by decide)).2) (by decide)).mpr rfl, ?_,
    (hWide.2 (hPair 255 (by decide)).1 (by decide)).mpr rfl⟩
  intro h
  have hEnds := (hWide.1 (hInt (hPair 2 (by decide)).1) (by decide)).mp h
  revert hEnds
  decide

/-- 256 takes two bytes in both formats, stored over the terminator of the descriptor before them
or at the start of a slice that never had one. -/
theorem not_keepsTerminator_256 :
    ¬ Simple.KeepsTerminator (.posInt Placement.zero 256) ∧
      ¬ Binc.KeepsTerminator (.posInt .zero 256) (fun _ => 0) := by
  constructor
  · intro h
    obtain ⟨-, hZero⟩ := h ones _ rfl
    revert hZero
    decide
  · intro h
    have hRun : Binc.EncodesTo ones (.posInt .zero 256) (fun _ => 0) ⟨sliceBytesZero, none, []⟩
        ⟨sliceBytesPut ones sliceBytesZero [1, 0], none, [[]]⟩ := by
      refine ⟨1, ?_⟩
      rintro (_ | f) hf
      · cases hf
      · rfl
    obtain ⟨-, hZero⟩ := h ones _ hRun
    revert hZero
    decide

end CcCommon.Codec
