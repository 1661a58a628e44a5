import CcCommon.Codec.Simple.DecodeSteps
import CcCommon.Codec.Trace

/-! # What the head of codec_simple_decode_r can do

Whatever the buffer holds, a call reads only the buffer, moves forward inside
it and stores a payload that lies in it, except at the descriptors named
here. There an 8-byte length comes out as `2 ^ 64 - wrapBack`, which passes
the bound check, or an extension reads its tag although its length was not
there. -/

namespace CcCommon.Codec.Simple

open Util Lib.Descent

set_option autoImplicit false

/-! ## The exceptional positions -/

/-- How far below `2 ^ 64` the 8-byte length behind position `p` comes out. -/
def wrapBack (b : Input) (p : Nat) : Nat := 256 - (b.get (p + 1)).toNat

/-- An 8-byte length that starts with the top bit set lies behind position `p`. -/
def HasWrappedLen (b : Input) (p : Nat) : Prop := p + 9 ≤ b.len ∧ 128 ≤ (b.get (p + 1)).toNat

/-- A string or byte string whose length passes the bound check by wrapping around. -/
def WrappedBytes (b : Input) (p : Nat) : Prop :=
  ((b.get p).toNat = 220 ∨ (b.get p).toNat = 228) ∧ HasWrappedLen b p ∧ wrapBack b p ≤ p + 9

def WrappedExt (b : Input) (p : Nat) : Prop :=
  (b.get p).toNat = 252 ∧ HasWrappedLen b p ∧ wrapBack b p ≤ p + 10

def Wrapped (b : Input) (p : Nat) : Prop := WrappedBytes b p ∨ WrappedExt b p

/-- An extension whose tag would be the byte behind the buffer. -/
def ExtTagPastEnd (b : Input) (p : Nat) : Prop :=
  (249 ≤ (b.get p).toNat ∧ (b.get p).toNat ≤ 252 ∧ p + 1 = b.len) ∨
    (WrappedExt b p ∧ p + 9 = b.len)

/-- A payload whose end does not lie behind its descriptor. -/
def BackJump (b : Input) (p : Nat) : Prop :=
  (WrappedBytes b p ∧ 9 ≤ wrapBack b p) ∨ (WrappedExt b p ∧ 10 ≤ wrapBack b p)

theorem BackJump.wrapped {b : Input} {p : Nat} (h : BackJump b p) : Wrapped b p :=
  h.imp And.left And.left

/-! ## Numbers -/

section Numbers

variable {b : Input} {s : CodecDecodeState}

theorem readnValue_lt (w : ReadWidth) (c : UInt8) : readnValue w c < 2 ^ 64 := by
  have := c.toNat_lt
  cases w <;> simp only [readnValue, ofChar] <;> (try split) <;> omega

/-- Only an 8-byte number can reach the top of the range. -/
theorem readnValue_wraps {w : ReadWidth} {c : UInt8} {q : Nat} (hq : q ≤ 2 ^ 63) :
    2 ^ 64 ≤ readnValue w c + q ↔ w = .w8 ∧ 128 ≤ c.toNat ∧ 256 - c.toNat ≤ q := by
  have := c.toNat_lt
  cases w <;> simp only [readnValue, ofChar] <;> (try split) <;> simp <;> omega

theorem readnValue_w8 {c : UInt8} (h : 128 ≤ c.toNat) :
    readnValue .w8 c = 2 ^ 64 - (256 - c.toNat) := by
  have := c.toNat_lt
  rw [readnValue, ofChar, if_neg (by omega)]
  omega

/-- A length that wraps around has all its eight bytes and lies `wrapBack` below `2 ^ 64`. -/
theorem readnValue_wrapBack {w : ReadWidth} {p q : Nat} (hq : q ≤ 2 ^ 63)
    (h : 2 ^ 64 ≤ readnValue w (b.get (p + 1)) + q) :
    w = .w8 ∧ readnValue w (b.get (p + 1)) = 2 ^ 64 - wrapBack b p := by
  obtain ⟨hWide, hTop, _⟩ := (readnValue_wraps hq).mp h
  exact ⟨hWide, by rw [hWide, readnValue_w8 hTop, wrapBack]⟩

theorem wrapBack_pos (b : Input) (p : Nat) : 0 < wrapBack b p := by
  have := (b.get (p + 1)).toNat_lt
  rw [wrapBack]
  omega

theorem codecSimpleReadn_stop {w : ReadWidth} (h : b.len < s.pos + w.size) (hPos : s.pos ≤ b.len) :
    ∃ msg, codecSimpleReadn b s w = (s.fail msg, 2 ^ 64 - 1) := by
  have hLen := b.len_lt
  have hSize : w.size ≤ 8 := by cases w <;> decide
  exact ⟨_, by rw [codecSimpleReadn, codecDecodeStateChk_stop (by omega) (by omega)]⟩

theorem codecSimpleReadn_walk (hPos : s.pos ≤ b.len) (w : ReadWidth) :
    Walk b s (codecSimpleReadn b s w).1 := by
  rcases Nat.lt_or_ge b.len (s.pos + w.size) with hStop | hPass
  · obtain ⟨msg, hRead⟩ := codecSimpleReadn_stop hStop hPos
    rw [hRead]
    exact (Walk.refl hPos).fail msg
  · rw [codecSimpleReadn_pass hPass]
    dsimp only
    split
    · exact (Walk.refl hPos).advance hPass
    · rename_i hw
      have hSize : 1 ≤ w.size := by cases w <;> simp_all [ReadWidth.size]
      exact ((Walk.refl hPos).touch (by omega)).advance hPass

theorem codecSimpleDecodeLen_eq (hPos : s.pos ≤ b.len) {bd : UInt8} (h : bd.toNat % 8 ≤ 4) :
    codecSimpleDecodeLen b s bd = codecSimpleReadn b s (lenWidth (bd.toNat % 8)) := by
  have hLen := b.len_lt
  rw [codecSimpleDecodeLen]
  generalize bd.toNat % 8 = k at h
  interval_cases k
  · have hSame : s.advance 0 = s := by
      rw [CodecDecodeState.advance, Nat.add_zero, sizeT, Nat.mod_eq_of_lt (by omega)]
    have hNone : lenWidth 0 = .w0 := rfl
    rw [hNone, codecSimpleReadn_pass (w := .w0) hPos, if_pos rfl]
    exact Prod.ext hSame.symm rfl
  all_goals rfl

theorem lenDesc_bounds {bd : UInt8} {d : CodecSimpleDescType} (hd : IsLengthDesc d)
    (h : codecSimpleDesc bd = some d) :
    d.toUInt8.toNat ≤ bd.toNat ∧ bd.toNat ≤ d.toUInt8.toNat + 4 ∧ bd.toNat % 8 ≤ 4 := by
  have hAll : ∀ n : Fin 256, codecSimpleDesc (UInt8.ofNat n) = some d →
      d.toUInt8.toNat ≤ n.val ∧ n.val ≤ d.toUInt8.toNat + 4 ∧ n.val % 8 ≤ 4 := by
    rcases hd with rfl | rfl | rfl | rfl | rfl <;> decide +kernel
  exact hAll ⟨bd.toNat, bd.toNat_lt⟩ (by simpa using h)

end Numbers

/-! ## The effect of a head -/

structure HeadSpec (b : Input) (s : CodecDecodeState) (step : Step CodecDecodeState Decoded) :
    Prop where
  trace : ∃ ev, step.state.trace = ev ++ .call s.pos s.failed :: s.trace ∧ Quiet ev ∧
    (ReadsIn b.len ev ↔ ¬ ExtTagPastEnd b s.pos)
  err : step.state.err = none → s.err = none
  inside : step.state.pos ≤ b.len
  leaf : ∀ s' v', step = .leaf s' v' → s'.err = none →
    (v'.SlicesIn b.len ↔ ¬ Wrapped b s.pos) ∧ (s.pos < s'.pos ↔ ¬ BackJump b s.pos)
  branch : ∀ s' n l c, step = .branch s' n l c → s.pos < s'.pos ∧ intLimit ≤ l ∧
    ¬ Wrapped b s.pos ∧ ∀ vs, (c vs).slices = Decoded.slicesList vs
  back : BackJump b s.pos → s.err = none → ∃ s' v', step = .leaf s' v' ∧ s'.err = none

namespace HeadSpec

variable {b : Input} {s s' : CodecDecodeState} {v : Decoded}

theorem trace_of_walk (hWalk : Walk b s.enter s') (hTag : ¬ ExtTagPastEnd b s.pos) :
    ∃ ev, s'.trace = ev ++ .call s.pos s.failed :: s.trace ∧ Quiet ev ∧
      (ReadsIn b.len ev ↔ ¬ ExtTagPastEnd b s.pos) := by
  obtain ⟨ev, hTrace, hQuiet, hReads⟩ := hWalk.trace
  exact ⟨ev, hTrace, hQuiet, iff_of_true hReads hTag⟩

theorem of_error
    (hTrace : ∃ ev, s'.trace = ev ++ .call s.pos s.failed :: s.trace ∧ Quiet ev ∧
      (ReadsIn b.len ev ↔ ¬ ExtTagPastEnd b s.pos))
    (hErr : s'.err ≠ none) (hInside : s'.pos ≤ b.len) (hBack : BackJump b s.pos → s.err ≠ none) :
    HeadSpec b s (.leaf s' v) where
  trace := hTrace
  err := fun hOk => absurd hOk hErr
  inside := hInside
  leaf := by
    rintro s₁ v₁ ⟨⟩ hOk
    exact absurd hOk hErr
  branch := by
    rintro s₁ n l c ⟨⟩
  back := fun hJump hOk => absurd hOk (hBack hJump)

theorem of_failed (hWalk : Walk b s.enter s') (hTag : ¬ ExtTagPastEnd b s.pos)
    (hErr : s'.err ≠ none) (hBack : BackJump b s.pos → s.err ≠ none) :
    HeadSpec b s (.leaf s' v) :=
  of_error (trace_of_walk hWalk hTag) hErr hWalk.inside hBack

theorem of_leaf (hWalk : Walk b s.enter s') (hPos : s.pos < s'.pos)
    (hTag : ¬ ExtTagPastEnd b s.pos) (hWrap : ¬ Wrapped b s.pos)
    (hSlices : s'.err = none → v.SlicesIn b.len) : HeadSpec b s (.leaf s' v) where
  trace := trace_of_walk hWalk hTag
  err := hWalk.err
  inside := hWalk.inside
  leaf := by
    rintro s₁ v₁ ⟨⟩ hOk
    exact ⟨iff_of_true (hSlices hOk) hWrap, iff_of_true hPos fun hJump => hWrap hJump.wrapped⟩
  branch := by
    rintro s₁ n l c ⟨⟩
  back := fun hJump => absurd hJump.wrapped hWrap

theorem of_branch {n l : Nat} {c : List Decoded → Decoded} (hWalk : Walk b s.enter s')
    (hPos : s.pos < s'.pos) (hTag : ¬ ExtTagPastEnd b s.pos) (hWrap : ¬ Wrapped b s.pos)
    (hLimit : intLimit ≤ l) (hClose : ∀ vs, (c vs).slices = Decoded.slicesList vs) :
    HeadSpec b s (.branch s' n l c) where
  trace := trace_of_walk hWalk hTag
  err := hWalk.err
  inside := hWalk.inside
  leaf := by
    rintro s₁ v₁ ⟨⟩
  branch := by
    rintro s₁ n₁ l₁ c₁ ⟨⟩
    exact ⟨hPos, hLimit, hWrap, hClose⟩
  back := fun hJump => absurd hJump.wrapped hWrap

theorem of_wrapped
    (hTrace : ∃ ev, s'.trace = ev ++ .call s.pos s.failed :: s.trace ∧ Quiet ev ∧
      (ReadsIn b.len ev ↔ ¬ ExtTagPastEnd b s.pos))
    (hErr : s'.err = none ↔ s.err = none) (hInside : s'.pos ≤ b.len) (hWrap : Wrapped b s.pos)
    (hOut : ¬ v.SlicesIn b.len) (hProgress : s.pos < s'.pos ↔ ¬ BackJump b s.pos) :
    HeadSpec b s (.leaf s' v) where
  trace := hTrace
  err := hErr.mp
  inside := hInside
  leaf := by
    rintro s₁ v₁ ⟨⟩ _
    exact ⟨iff_of_false hOut (not_not_intro hWrap), hProgress⟩
  branch := by
    rintro s₁ n l c ⟨⟩
  back := fun _ hOk => ⟨s', v, rfl, hErr.mpr hOk⟩

end HeadSpec

/-! ## The branches of the switch -/

section Branches

variable {b : Input} {s s₁ : CodecDecodeState}

theorem exceptional_desc {bd : UInt8}
    (h : bd.toNat = 220 ∨ bd.toNat = 228 ∨ 249 ≤ bd.toNat ∧ bd.toNat ≤ 252) :
    codecSimpleDesc bd = some .string ∨ codecSimpleDesc bd = some .bytes ∨
      codecSimpleDesc bd = some .customExt := by
  have hAll : ∀ n : Fin 256, n.val = 220 ∨ n.val = 228 ∨ 249 ≤ n.val ∧ n.val ≤ 252 →
      codecSimpleDesc (UInt8.ofNat n) = some .string ∨
        codecSimpleDesc (UInt8.ofNat n) = some .bytes ∨
        codecSimpleDesc (UInt8.ofNat n) = some .customExt := by decide +kernel
  simpa using hAll ⟨bd.toNat, bd.toNat_lt⟩ h

/-- Only strings, byte strings and extensions have exceptions. -/
theorem regular {p : Nat} {o : Option CodecSimpleDescType} (hDesc : codecSimpleDesc (b.get p) = o)
    (h : ¬ (o = some .string ∨ o = some .bytes ∨ o = some .customExt)) :
    ¬ ExtTagPastEnd b p ∧ ¬ Wrapped b p := by
  have hNot : ¬ ((b.get p).toNat = 220 ∨ (b.get p).toNat = 228 ∨
      249 ≤ (b.get p).toNat ∧ (b.get p).toNat ≤ 252) := by
    intro hByte
    have hExceptional := exceptional_desc hByte
    rw [hDesc] at hExceptional
    exact h hExceptional
  constructor
  · rintro (⟨hLow, hHigh, _⟩ | ⟨⟨hDesc, _⟩, _⟩)
    · exact hNot (Or.inr (Or.inr ⟨hLow, hHigh⟩))
    · omega
  · rintro (⟨hDesc, _⟩ | ⟨hDesc, _⟩) <;> omega

theorem slicesIn_leaf {n : Nat} {type : CodecValueType} {v : CodecValueDiscrim}
    (h : v.slices = []) : (Decoded.mk type v []).SlicesIn n := by
  intro r hr
  simp [Decoded.slices, Decoded.slicesList, h] at hr

theorem slices_leaf_iff {n off len : Nat} {cap : Option Nat} {type : CodecValueType}
    {v : CodecValueDiscrim} (h : v.slices = [⟨some off, len, cap⟩]) :
    (Decoded.mk type v []).SlicesIn n ↔ off + len ≤ n := by
  have hSlices : (Decoded.mk type v []).slices = [⟨some off, len, cap⟩] := by
    rw [Decoded.slices, h]
    rfl
  rw [Decoded.SlicesIn, hSlices]
  constructor
  · intro hIn
    obtain ⟨off', hOff, hLe⟩ := hIn _ List.mem_cons_self
    cases hOff
    exact hLe
  · intro hLe r hr
    rw [List.mem_singleton.mp hr]
    exact ⟨off, rfl, hLe⟩

theorem headSpec_int (hWalk : Walk b s.enter s₁) (hPos : s.pos < s₁.pos)
    (hTag : ¬ ExtTagPastEnd b s.pos) (hWrap : ¬ Wrapped b s.pos) (v : Decoded) (bd : UInt8)
    (type : CodecValueType) : HeadSpec b s (codecSimpleDecodeInt b s₁ v bd type) := by
  have hRead := codecSimpleReadn_walk hWalk.inside (intWidth bd)
  rw [codecSimpleDecodeInt]
  cases hRun : codecSimpleReadn b s₁ (intWidth bd) with
  | mk s₂ tmp64 =>
    rw [hRun] at hRead
    have hPos₂ : s.pos < s₂.pos := Nat.lt_of_lt_of_le hPos hRead.pos
    dsimp only
    split
    · rename_i hFailed
      exact .of_failed (hWalk.trans hRead) hTag (by simpa [CodecDecodeState.failed,
        Option.isSome_iff_ne_none] using hFailed) fun hJump => absurd hJump.wrapped hWrap
    · exact .of_leaf (hWalk.trans hRead) hPos₂ hTag hWrap fun _ => slicesIn_leaf rfl

theorem headSpec_checked {k : Nat} {v : Decoded}
    (pass : CodecDecodeState → Step CodecDecodeState Decoded) (hFrom : Walk b s.enter s₁)
    (hTag : ¬ ExtTagPastEnd b s.pos) (hWrap : ¬ Wrapped b s.pos) (hFits : k + s₁.pos < 2 ^ 64)
    (hPass : k + s₁.pos ≤ b.len → HeadSpec b s (pass s₁)) :
    HeadSpec b s (match codecDecodeStateChk b s₁ k with
      | (s₂, true) => .leaf s₂ v
      | (s₂, false) => pass s₂) := by
  rcases Nat.lt_or_ge b.len (k + s₁.pos) with hStop | hLe
  · rw [codecDecodeStateChk_stop hStop hFits]
    exact .of_failed (hFrom.fail _) hTag (by simp) fun hJump => absurd hJump.wrapped hWrap
  · rw [codecDecodeStateChk_pass hLe]
    exact hPass hLe

theorem headSpec_float {k : Nat} (hWalk : Walk b s.enter s₁) (hPos : s.pos < s₁.pos)
    (hTag : ¬ ExtTagPastEnd b s.pos) (hWrap : ¬ Wrapped b s.pos) (hk : k ≤ 8) (v : Decoded)
    (v' : CodecDecodeState → Decoded) (hSlices : ∀ t, (v' t).SlicesIn b.len) :
    HeadSpec b s (match codecDecodeStateChk b s₁ k with
      | (s₂, true) => .leaf s₂ v
      | (s₂, false) => .leaf ((s₂.touch k).advance k) (v' s₂)) := by
  have hLen := b.len_lt
  have hInside := hWalk.inside
  apply headSpec_checked (fun t => .leaf ((t.touch k).advance k) (v' t)) hWalk hTag hWrap (by omega)
  intro hPass
  have hMove := (hWalk.touch (k := k) (by omega)).advance (k := k) (by simp; omega)
  have hPos' : ((s₁.touch k).advance k).pos = s₁.pos + k :=
    CodecDecodeState.advance_pos_of_lt _ (by simp; omega)
  exact .of_leaf hMove (by omega) hTag hWrap fun _ => hSlices s₁

/-- The length of a length descriptor: it is there, or the error is set. -/
theorem codecSimpleDecodeLen_cases {d : CodecSimpleDescType} (hd : IsLengthDesc d)
    (hDesc : codecSimpleDesc (b.get s.pos) = some d) (hPos : s₁.pos = s.pos + 1)
    (hInside : s₁.pos ≤ b.len) :
    ∃ s₂ x, codecSimpleDecodeLen b s₁ (b.get s.pos) = (s₂, x) ∧ Walk b s₁ s₂ ∧
      ((∃ w, w = lenWidth ((b.get s.pos).toNat % 8) ∧ s₂.pos = s.pos + 1 + w.size ∧
          (s₂.err = none ↔ s₁.err = none) ∧ x = readnValue w (b.get (s.pos + 1))) ∨
        (s₂.err ≠ none ∧ s₂.pos = s.pos + 1 ∧ x = 2 ^ 64 - 1 ∧
          b.len < s.pos + 1 + (lenWidth ((b.get s.pos).toNat % 8)).size)) := by
  have hLen := b.len_lt
  have hWalk := codecSimpleReadn_walk hInside (lenWidth ((b.get s.pos).toNat % 8))
  rw [codecSimpleDecodeLen_eq hInside (lenDesc_bounds hd hDesc).2.2]
  generalize hw : lenWidth ((b.get s.pos).toNat % 8) = w at hWalk
  have hSize : w.size ≤ 8 := by cases w <;> decide
  rcases Nat.lt_or_ge b.len (s₁.pos + w.size) with hStop | hPass
  · obtain ⟨msg, hRead⟩ := codecSimpleReadn_stop hStop hInside
    rw [hRead] at hWalk ⊢
    exact ⟨_, _, rfl, hWalk, Or.inr ⟨by simp, hPos, rfl, by omega⟩⟩
  · rw [codecSimpleReadn_pass hPass] at hWalk ⊢
    refine ⟨_, _, rfl, hWalk, Or.inl ⟨w, rfl, ?_, ?_, by rw [hPos]⟩⟩
    · split <;> rw [CodecDecodeState.advance_pos_of_lt _ (by simp; omega)] <;> simp [hPos]
    · split <;> exact Iff.rfl

theorem lenWidth_eq_w8 {bd : UInt8} (h : bd.toNat % 8 ≤ 4) :
    lenWidth (bd.toNat % 8) = .w8 ↔ bd.toNat % 8 = 4 := by
  generalize bd.toNat % 8 = k at h
  interval_cases k <;> decide

theorem wraps_iff_wrappedBytes {p : Nat} (hRange : 216 ≤ (b.get p).toNat ∧ (b.get p).toNat ≤ 228)
    (hMod : (b.get p).toNat % 8 ≤ 4) (hInside : p + 1 + (lenWidth ((b.get p).toNat % 8)).size ≤ b.len) :
    2 ^ 64 ≤ readnValue (lenWidth ((b.get p).toNat % 8)) (b.get (p + 1)) +
      (p + 1 + (lenWidth ((b.get p).toNat % 8)).size) ↔ WrappedBytes b p := by
  have hLen := b.len_lt
  rw [readnValue_wraps (by omega), lenWidth_eq_w8 hMod]
  constructor
  · rintro ⟨hWide, hTop, hBack⟩
    rw [hWide] at hInside hBack
    exact ⟨by omega, ⟨hInside, hTop⟩, hBack⟩
  · rintro ⟨hDesc, ⟨_, hTop⟩, hBack⟩
    have hWide : (b.get p).toNat % 8 = 4 := by omega
    rw [hWide]
    exact ⟨rfl, hTop, hBack⟩

/-- A wrapped string moves `pos` back by `wrapBack`. -/
theorem headSpec_bytes_wrapped {n : Nat} {cap : Option Nat} {type : CodecValueType}
    (hFrom : Walk b s.enter s₁) (hErr : s₁.err = none ↔ s.err = none)
    (hTag : ¬ ExtTagPastEnd b s.pos) (hExt : ¬ WrappedExt b s.pos) (hWrap : WrappedBytes b s.pos)
    (hPos : s₁.pos = s.pos + 9) (hn : n = 2 ^ 64 - wrapBack b s.pos) :
    HeadSpec b s (.leaf (s₁.advance n) (.mk type (.vBytes ⟨some s₁.pos, n, cap⟩) [])) := by
  have hLen := b.len_lt
  have hInside := hFrom.inside
  have hPositive := wrapBack_pos b s.pos
  have hBack : wrapBack b s.pos ≤ s.pos + 9 := hWrap.2.2
  have hPos' : (s₁.advance n).pos = s.pos + 9 - wrapBack b s.pos := by
    rw [CodecDecodeState.advance_pos, sizeT]
    omega
  have hTrace := HeadSpec.trace_of_walk hFrom hTag
  refine .of_wrapped hTrace hErr (by omega) (Or.inl hWrap) ?_ ?_
  · rw [slices_leaf_iff rfl]
    omega
  · rw [hPos', BackJump, not_or]
    constructor
    · intro hLess
      exact ⟨fun h => by omega, fun h => hExt h.1⟩
    · rintro ⟨hNot, _⟩
      have hShort : ¬ 9 ≤ wrapBack b s.pos := fun h => hNot ⟨hWrap, h⟩
      omega

theorem headSpec_bytes {d : CodecSimpleDescType} (hd : d = .string ∨ d = .bytes)
    (hDesc : codecSimpleDesc (b.get s.pos) = some d) (hWalk : Walk b s.enter s₁)
    (hPos : s₁.pos = s.pos + 1) (hErr : s₁.err = s.err) (v : Decoded) :
    HeadSpec b s (codecSimpleDecodeBytes b s₁ v (b.get s.pos)) := by
  have hLen := b.len_lt
  have hLength : IsLengthDesc d := by
    rcases hd with rfl | rfl
    · exact Or.inl rfl
    · exact Or.inr (Or.inl rfl)
  obtain ⟨hLow, hHigh, hMod⟩ := lenDesc_bounds hLength hDesc
  have hRange : 216 ≤ (b.get s.pos).toNat ∧ (b.get s.pos).toNat ≤ 228 := by
    rcases hd with rfl | rfl <;>
      simp only [CodecSimpleDescType.toUInt8, UInt8.reduceToNat] at hLow hHigh <;> omega
  have hTag : ¬ ExtTagPastEnd b s.pos := by
    rintro (⟨hDesc, _⟩ | ⟨⟨hDesc, _⟩, _⟩) <;> omega
  have hExt : ¬ WrappedExt b s.pos := fun h => by have := h.1; omega
  obtain ⟨s₂, x, hRun, hMove, hCases⟩ :=
    codecSimpleDecodeLen_cases hLength hDesc hPos hWalk.inside
  have hFrom := hWalk.trans hMove
  have hInside := hMove.inside
  rw [codecSimpleDecodeBytes, hRun]
  dsimp only
  -- a wrapped length is eight bytes that are all there
  have hWide (hWrap : WrappedBytes b s.pos) : s₂.err = none ↔ s.err = none := by
    have hMod4 : (b.get s.pos).toNat % 8 = 4 := by have := hWrap.1; omega
    rcases hCases with ⟨w, _, _, hSame, _⟩ | ⟨_, _, _, hStop⟩
    · rw [hSame, hErr]
    · rw [hMod4] at hStop
      have := hWrap.2.1.1
      simp only [lenWidth, ReadWidth.size] at hStop
      omega
  split
  · rename_i hFailed
    refine .of_failed hFrom hTag (CodecDecodeState.err_of_failed hFailed) fun hJump hOk => ?_
    exact CodecDecodeState.err_of_failed hFailed ((hWide (hJump.wrapped.resolve_right hExt)).mpr hOk)
  · rename_i hOk
    rcases hCases with ⟨w, hw, hPos₂, hSame, rfl⟩ | ⟨hStop, _⟩
    · have hIff := wraps_iff_wrappedBytes (b := b) (p := s.pos) (by omega) hMod
        (by rw [← hw]; omega)
      rw [← hw, ← hPos₂] at hIff
      rcases Nat.lt_or_ge (readnValue w (b.get (s.pos + 1)) + s₂.pos) (2 ^ 64) with hFits | hWraps
      · have hWrap : ¬ Wrapped b s.pos :=
          not_or.mpr ⟨fun h => absurd (hIff.mpr h) (by omega), hExt⟩
        apply headSpec_checked (fun t => .leaf (t.advance _) (.mk _ (.vBytes ⟨some t.pos, _, _⟩) []))
          hFrom hTag hWrap hFits
        intro hPass
        have hAdvance := hFrom.advance (k := readnValue w (b.get (s.pos + 1))) (by omega)
        refine .of_leaf hAdvance ?_ hTag hWrap fun _ => (slices_leaf_iff rfl).mpr (by omega)
        rw [CodecDecodeState.advance_pos_of_lt _ (by omega)]
        omega
      · obtain ⟨hw8, hValue⟩ := readnValue_wrapBack (by omega) hWraps
        rw [codecDecodeStateChk_wrap (readnValue_lt w _) hInside hWraps]
        exact headSpec_bytes_wrapped hFrom (hSame.trans (by rw [hErr])) hTag hExt (hIff.mp hWraps)
          (by rw [hPos₂, hw8, ReadWidth.size]) hValue
    · exact absurd (CodecDecodeState.err_of_not_failed hOk) hStop

theorem wraps_iff_wrappedExt {p : Nat} (hRange : 248 ≤ (b.get p).toNat ∧ (b.get p).toNat ≤ 252)
    (hInside : p + 1 + (lenWidth ((b.get p).toNat % 8)).size ≤ b.len) :
    2 ^ 64 ≤ readnValue (lenWidth ((b.get p).toNat % 8)) (b.get (p + 1)) +
      (p + 1 + (lenWidth ((b.get p).toNat % 8)).size + 1) ↔ WrappedExt b p := by
  have hLen := b.len_lt
  rw [readnValue_wraps (by omega), lenWidth_eq_w8 (by omega)]
  constructor
  · rintro ⟨hWide, hTop, hBack⟩
    rw [hWide] at hInside hBack
    exact ⟨by omega, ⟨hInside, hTop⟩, hBack⟩
  · rintro ⟨hDesc, ⟨_, hTop⟩, hBack⟩
    have hWide : (b.get p).toNat % 8 = 4 := by omega
    rw [hWide]
    exact ⟨rfl, hTop, hBack⟩

theorem trace_of_tag {s₂ : CodecDecodeState} (hWalk : Walk b s.enter s₂) (x : Nat)
    (hTag : s₂.pos < b.len ↔ ¬ ExtTagPastEnd b s.pos) :
    ∃ ev, (s₂.next.advance x).trace = ev ++ .call s.pos s.failed :: s.trace ∧ Quiet ev ∧
      (ReadsIn b.len ev ↔ ¬ ExtTagPastEnd b s.pos) := by
  obtain ⟨ev, hTrace, hQuiet, hReads⟩ := hWalk.trace
  refine ⟨.read s₂.pos :: ev, ?_, ?_, ?_⟩
  · rw [CodecDecodeState.advance_trace, CodecDecodeState.next_trace, hTrace]
    rfl
  · intro e he
    rcases List.mem_cons.mp he with he | he
    · exact Or.inl ⟨s₂.pos, he⟩
    · exact hQuiet e he
  · rw [readsIn_read, hTag]
    exact and_iff_left hReads

theorem next_advance_pos {t : CodecDecodeState} (h : t.pos ≤ b.len) (x : Nat) :
    (t.next.advance x).pos = sizeT (t.pos + 1 + x) := by
  have hLen := b.len_lt
  rw [CodecDecodeState.advance_pos, t.next_pos_of_lt (by omega)]

/-- A wrapped extension moves `pos` back behind its tag. -/
theorem headSpec_ext_wrapped {n : Nat} {tag : Option UInt8} {cap : Option Nat}
    (hFrom : Walk b s.enter s₁) (hErr : s₁.err = none ↔ s.err = none)
    (hBytes : ¬ WrappedBytes b s.pos) (hExt : WrappedExt b s.pos) (hPos : s₁.pos = s.pos + 9)
    (hn : n = 2 ^ 64 - wrapBack b s.pos) :
    HeadSpec b s (.leaf (s₁.next.advance n)
      (.mk .customExt (.vExt tag ⟨some s₁.next.pos, n, cap⟩) [])) := by
  have hLen := b.len_lt
  have hInside := hFrom.inside
  have hPositive := wrapBack_pos b s.pos
  have hBack : wrapBack b s.pos ≤ s.pos + 10 := hExt.2.2
  have hPos' : (s₁.next.advance n).pos = s.pos + 10 - wrapBack b s.pos := by
    rw [next_advance_pos hInside, sizeT]
    omega
  have hTag : s₁.pos < b.len ↔ ¬ ExtTagPastEnd b s.pos := by
    constructor
    · rintro hBefore (⟨_, _, hEnd⟩ | ⟨_, hEnd⟩) <;> omega
    · intro hNot
      have hEnd : s.pos + 9 ≠ b.len := fun h => hNot (Or.inr ⟨hExt, h⟩)
      omega
  refine .of_wrapped (trace_of_tag hFrom n hTag) hErr (by omega) (Or.inr hExt) ?_ ?_
  · rw [slices_leaf_iff rfl, s₁.next_pos_of_lt (by omega)]
    omega
  · rw [hPos', BackJump, not_or]
    constructor
    · intro hLess
      exact ⟨fun h => hBytes h.1, fun h => by omega⟩
    · rintro ⟨_, hNot⟩
      have hShort : ¬ 10 ≤ wrapBack b s.pos := fun h => hNot ⟨hExt, h⟩
      omega

/-- An extension whose length is missing reads its tag all the same. -/
theorem headSpec_ext_missing {v : Decoded} (hFrom : Walk b s.enter s₁) (hErr : s₁.err ≠ none)
    (hRange : 248 ≤ (b.get s.pos).toNat ∧ (b.get s.pos).toNat ≤ 252)
    (hBytes : ¬ WrappedBytes b s.pos) (hPos : s₁.pos = s.pos + 1)
    (hShort : b.len < s.pos + 1 + (lenWidth ((b.get s.pos).toNat % 8)).size) :
    HeadSpec b s (.leaf (s₁.next.advance (2 ^ 64 - 1)) v) := by
  have hLen := b.len_lt
  have hInside := hFrom.inside
  have hExt : ¬ WrappedExt b s.pos := by
    rintro ⟨hWide, ⟨hThere, _⟩, _⟩
    rw [hWide] at hShort
    simp only [Nat.reduceMod, lenWidth, ReadWidth.size] at hShort
    omega
  have hNonzero : (b.get s.pos).toNat ≠ 248 := by
    intro hDesc
    rw [hDesc] at hShort
    simp only [Nat.reduceMod, lenWidth, ReadWidth.size] at hShort
    omega
  have hTag : s₁.pos < b.len ↔ ¬ ExtTagPastEnd b s.pos := by
    constructor
    · rintro hBefore (⟨_, _, hEnd⟩ | ⟨h, _⟩)
      · omega
      · exact hExt h
    · intro hNot
      have hEnd : s.pos + 1 ≠ b.len := fun h => hNot (Or.inl ⟨by omega, hRange.2, h⟩)
      omega
  refine .of_error (trace_of_tag hFrom _ hTag) ?_ ?_ fun hJump =>
    absurd hJump.wrapped (not_or.mpr ⟨hBytes, hExt⟩)
  · rwa [CodecDecodeState.advance_err, CodecDecodeState.next_err]
  · rw [next_advance_pos hInside, sizeT]
    omega

theorem headSpec_ext (hDesc : codecSimpleDesc (b.get s.pos) = some .customExt)
    (hWalk : Walk b s.enter s₁) (hPos : s₁.pos = s.pos + 1) (hErr : s₁.err = s.err) :
    HeadSpec b s (codecSimpleDecodeExt b s₁ (b.get s.pos)) := by
  have hLen := b.len_lt
  have hLength : IsLengthDesc .customExt := Or.inr (Or.inr (Or.inr (Or.inr rfl)))
  obtain ⟨hLow, hHigh, hMod⟩ := lenDesc_bounds hLength hDesc
  simp only [CodecSimpleDescType.toUInt8, UInt8.reduceToNat] at hLow hHigh
  have hBytes : ¬ WrappedBytes b s.pos := fun h => by have := h.1; omega
  obtain ⟨s₂, x, hRun, hMove, hCases⟩ :=
    codecSimpleDecodeLen_cases hLength hDesc hPos hWalk.inside
  have hFrom := hWalk.trans hMove
  have hInside := hMove.inside
  rw [codecSimpleDecodeExt, hRun]
  dsimp only
  rcases hCases with ⟨w, hw, hPos₂, hSame, rfl⟩ | ⟨hStop, hPos₂, rfl, hShort⟩
  · have hIff := wraps_iff_wrappedExt (b := b) (p := s.pos) ⟨hLow, hHigh⟩ (by rw [← hw]; omega)
    rw [← hw, ← hPos₂] at hIff
    rcases Nat.lt_or_ge (readnValue w (b.get (s.pos + 1)) + (s₂.pos + 1)) (2 ^ 64) with
      hFits | hWraps
    · have hExt : ¬ WrappedExt b s.pos := fun h => absurd (hIff.mpr h) (by omega)
      have hWrap : ¬ Wrapped b s.pos := not_or.mpr ⟨hBytes, hExt⟩
      have hTag : ¬ ExtTagPastEnd b s.pos := by
        rintro (⟨hNonzero, _, hEnd⟩ | ⟨h, _⟩)
        · have hSize : w.size = 0 := by omega
          have hNone : (b.get s.pos).toNat % 8 = 0 := by
            rw [hw] at hSize
            generalize (b.get s.pos).toNat % 8 = k at hSize hMod
            interval_cases k <;> first | rfl | cases hSize
          omega
        · exact hExt h
      have hSizeT : sizeT (1 + readnValue w (b.get (s.pos + 1))) =
          1 + readnValue w (b.get (s.pos + 1)) := Nat.mod_eq_of_lt (by omega)
      rw [hSizeT]
      apply headSpec_checked (fun t => .leaf (t.next.advance _)
        (.mk .customExt (.vExt (some (b.get t.pos)) ⟨some t.next.pos, _, _⟩) []))
        hFrom hTag hWrap (by omega)
      intro hPass
      have hNext := hFrom.next (by omega)
      have hNextPos : s₂.next.pos = s₂.pos + 1 := s₂.next_pos_of_lt (by omega)
      refine .of_leaf (hNext.advance (by omega)) ?_ hTag hWrap fun _ =>
        (slices_leaf_iff rfl).mpr (by omega)
      rw [CodecDecodeState.advance_pos_of_lt _ (by omega)]
      omega
    · obtain ⟨hw8, hValue⟩ := readnValue_wrapBack (by omega) hWraps
      have hPositive := wrapBack_pos b s.pos
      have hExt := hIff.mp hWraps
      have hBack : wrapBack b s.pos ≤ s.pos + 10 := hExt.2.2
      have hPos₉ : s₂.pos = s.pos + 9 := by rw [hPos₂, hw8, ReadWidth.size]
      have hChk : codecDecodeStateChk b s₂ (sizeT (1 + readnValue w (b.get (s.pos + 1)))) =
          (s₂, false) := by
        rcases Nat.lt_or_ge 1 (wrapBack b s.pos) with hMore | hOne
        · rw [sizeT, hValue, Nat.mod_eq_of_lt (by omega)]
          exact codecDecodeStateChk_wrap (by omega) hInside (by omega)
        · rw [sizeT, hValue, show 1 + (2 ^ 64 - wrapBack b s.pos) = 2 ^ 64 by omega, Nat.mod_self]
          exact codecDecodeStateChk_pass (by omega)
      rw [hChk]
      exact headSpec_ext_wrapped hFrom (hSame.trans (by rw [hErr])) hBytes hExt hPos₉ hValue
  · -- the missing length reads as -1, and adding 1 for the tag makes 0
    have hZero : sizeT (1 + (2 ^ 64 - 1)) = 0 := rfl
    rw [hZero, codecDecodeStateChk_pass (by omega)]
    exact headSpec_ext_missing hFrom hStop ⟨hLow, hHigh⟩ hBytes hPos₂ hShort

theorem headSpec_switch (v : Decoded) (hLt : s.pos < b.len) :
    HeadSpec b s (codecSimpleDecodeSwitch b s.enter.next v (b.get s.pos)) := by
  have hLen := b.len_lt
  have hStart : Walk b s.enter s.enter := Walk.refl (Nat.le_of_lt hLt)
  have hWalk : Walk b s.enter s.enter.next := hStart.next hLt
  have hPos : s.enter.next.pos = s.pos + 1 := CodecDecodeState.next_pos_of_lt _ (by simp; omega)
  have hLess : s.pos < s.enter.next.pos := by omega
  rw [codecSimpleDecodeSwitch]
  cases hDesc : codecSimpleDesc (b.get s.pos) with
  | none =>
    obtain ⟨hTag, hWrap⟩ := regular hDesc (by simp)
    exact .of_failed (hWalk.fail _) hTag (by simp) fun hJump => absurd hJump.wrapped hWrap
  | some d =>
    by_cases hExceptional : d = .string ∨ d = .bytes ∨ d = .customExt
    · rcases hExceptional with rfl | rfl | rfl
      · exact headSpec_bytes (Or.inl rfl) hDesc hWalk hPos rfl _
      · exact headSpec_bytes (Or.inr rfl) hDesc hWalk hPos rfl _
      · exact headSpec_ext hDesc hWalk hPos rfl
    · obtain ⟨hTag, hWrap⟩ := regular hDesc (by simpa using hExceptional)
      cases d with
      | string | bytes | customExt => simp at hExceptional
      | nil | «false» | «true» =>
        exact .of_leaf hWalk hLess hTag hWrap fun _ => slicesIn_leaf rfl
      | posInt | negInt => exact headSpec_int hWalk hLess hTag hWrap v _ _
      | float32 =>
        exact headSpec_float hWalk hLess hTag hWrap (by decide) _ (fun _ => .mk .float32 _ [])
          fun _ => slicesIn_leaf rfl
      | float64 =>
        exact headSpec_float hWalk hLess hTag hWrap (by decide) _ (fun _ => .mk .float64 _ [])
          fun _ => slicesIn_leaf rfl
      | array =>
        obtain ⟨s₂, x, hRun, hMove, _⟩ := codecSimpleDecodeLen_cases (Or.inr (Or.inr (Or.inl rfl)))
          hDesc hPos hWalk.inside
        have hPos₂ := Nat.lt_of_lt_of_le hLess hMove.pos
        dsimp only
        rw [codecSimpleDecodeArray, hRun]
        dsimp only
        split
        · rename_i hFailed
          have hErr := CodecDecodeState.err_of_failed hFailed
          exact .of_failed (hWalk.trans hMove) hTag hErr fun hJump => absurd hJump.wrapped hWrap
        · exact .of_branch (hWalk.trans hMove) hPos₂ hTag hWrap (Nat.le_refl _) fun _ => rfl
      | map =>
        obtain ⟨s₂, x, hRun, hMove, _⟩ := codecSimpleDecodeLen_cases
          (Or.inr (Or.inr (Or.inr (Or.inl rfl)))) hDesc hPos hWalk.inside
        have hPos₂ := Nat.lt_of_lt_of_le hLess hMove.pos
        dsimp only
        rw [codecSimpleDecodeMap, hRun]
        exact .of_branch (hWalk.trans hMove) hPos₂ hTag hWrap (by decide) fun _ => rfl

end Branches

/-- The head of any call, at a position up to the end of the buffer. -/
theorem headSpec (b : Input) (s : CodecDecodeState) (v : Decoded) (hPos : s.pos ≤ b.len) :
    HeadSpec b s (codecSimpleDecodeHead b s v) := by
  rcases Nat.lt_or_ge s.pos b.len with hLt | hEnd
  · rw [codecSimpleDecodeHead_of_lt v hLt]
    exact headSpec_switch v hLt
  · have hWrap : ¬ Wrapped b s.pos := by
      rintro (⟨_, ⟨hThere, _⟩, _⟩ | ⟨_, ⟨hThere, _⟩, _⟩) <;> omega
    have hTag : ¬ ExtTagPastEnd b s.pos := by
      rintro (⟨_, _, hPast⟩ | ⟨_, hPast⟩) <;> omega
    rw [codecSimpleDecodeHead_of_le v hEnd]
    have hStart : Walk b s.enter s.enter := Walk.refl hPos
    exact .of_failed (hStart.fail _) hTag (by simp) fun hJump => absurd hJump.wrapped hWrap

end CcCommon.Codec.Simple
