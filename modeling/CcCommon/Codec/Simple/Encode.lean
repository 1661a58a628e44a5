import CcCommon.Codec.Value
import CcCommon.Util.BigEndian
import CcCommon.Util.Slice
import Mathlib.Tactic.SplitIfs

/-! # codec/simplecodec.c: codec_simple_encode

An encoder run is `none` where the C program is undefined, that is where the
`int` counter of an element loop overflows. The payload bytes of a float are
its bit pattern in the memory order of a little-endian host.
-/

namespace CcCommon.Codec.Simple

open Util Lib.Bytes

set_option autoImplicit false

inductive CodecSimpleDescType where
  | nil | false | true | float32 | float64 | posInt | negInt
  | string | bytes | array | map | customExt
  deriving DecidableEq

def CodecSimpleDescType.toUInt8 : CodecSimpleDescType → UInt8
  | .nil => 1
  | .false => 2
  | .true => 3
  | .float32 => 4
  | .float64 => 5
  | .posInt => 8
  | .negInt => 12
  | .string => 216
  | .bytes => 224
  | .array => 232
  | .map => 240
  | .customExt => 248

/-- The slice an encoder appends to, and `*err`. -/
structure EncodeState where
  b : SliceBytes
  err : Option String

section Encoder

variable {μ : Type} (fresh : Nat → Nat → UInt8)

def codecSimpleAppendLen (b : SliceBytes) (bd : UInt8) (length : Nat) : SliceBytes :=
  if length = 0 then sliceBytesAppend1 fresh b bd
  else if length ≤ 0xff then
    sliceBytesAppend1 fresh (sliceBytesAppend1 fresh b (bd + 1)) (UInt8.ofNat length)
  else if length ≤ 0xffff then
    sliceBytesPut fresh (sliceBytesAppend1 fresh b (bd + 2))
      (utilBigEndianWriteUint16 (length % 2 ^ 16))
  else if length ≤ 0xffffffff then
    sliceBytesPut fresh (sliceBytesAppend1 fresh b (bd + 3))
      (utilBigEndianWriteUint32 (length % 2 ^ 32))
  else
    sliceBytesPut fresh (sliceBytesAppend1 fresh b (bd + 4)) (utilBigEndianWriteUint64 length)

/-- The branches CODEC_VALUE_POS_INT and CODEC_VALUE_NEG_INT, which differ in `bd` only. -/
def codecSimpleEncodeInt (b : SliceBytes) (bd : UInt8) (n : Nat) : SliceBytes :=
  if n ≤ 0xff then
    sliceBytesAppend1 fresh (sliceBytesAppend1 fresh b bd) (UInt8.ofNat n)
  else if n ≤ 0xffff then
    sliceBytesPut fresh (sliceBytesAppend1 fresh b (bd + 1)) (utilBigEndianWriteUint16 (n % 2 ^ 16))
  else if n ≤ 0xffffffff then
    sliceBytesPut fresh (sliceBytesAppend1 fresh b (bd + 2)) (utilBigEndianWriteUint32 (n % 2 ^ 32))
  else
    sliceBytesPut fresh (sliceBytesAppend1 fresh b (bd + 3)) (utilBigEndianWriteUint64 n)

mutual
def codecSimpleEncode : CodecValue μ → EncodeState → Option EncodeState
  | .nil _, s => some { s with b := sliceBytesAppend1 fresh s.b CodecSimpleDescType.nil.toUInt8 }
  | .bool _ v, s =>
    let bd := if v then CodecSimpleDescType.true else CodecSimpleDescType.false
    some { s with b := sliceBytesAppend1 fresh s.b bd.toUInt8 }
  | .posInt _ n, s =>
    some { s with b := codecSimpleEncodeInt fresh s.b CodecSimpleDescType.posInt.toUInt8 n.toNat }
  | .negInt _ n, s =>
    some { s with b := codecSimpleEncodeInt fresh s.b CodecSimpleDescType.negInt.toUInt8 n.toNat }
  | .float32 _ bits, s =>
    let b := sliceBytesAppend1 fresh s.b CodecSimpleDescType.float32.toUInt8
    some { s with b := sliceBytesAppend fresh b (leBytes 4 bits.toNat) }
  | .float64 _ bits, s =>
    let b := sliceBytesAppend1 fresh s.b CodecSimpleDescType.float64.toUInt8
    some { s with b := sliceBytesAppend fresh b (leBytes 8 bits.toNat) }
  | .string _ p, s =>
    let b := codecSimpleAppendLen fresh s.b CodecSimpleDescType.string.toUInt8 p.length
    some { s with b := sliceBytesAppendPayload fresh b p }
  | .bytes _ p, s =>
    let b := codecSimpleAppendLen fresh s.b CodecSimpleDescType.bytes.toUInt8 p.length
    some { s with b := sliceBytesAppendPayload fresh b p }
  | .array _ vs, s =>
    let b := codecSimpleAppendLen fresh s.b CodecSimpleDescType.array.toUInt8 vs.length
    codecSimpleEncodeList vs 0 { s with b := b }
  | .map _ kvs, s =>
    let b := codecSimpleAppendLen fresh s.b CodecSimpleDescType.map.toUInt8 kvs.length
    codecSimpleEncodePairs kvs 0 { s with b := b }
  | .customExt _ tag p, s =>
    let b := codecSimpleAppendLen fresh s.b CodecSimpleDescType.customExt.toUInt8 p.length
    let b := sliceBytesAppend fresh b [tag]
    some { s with b := sliceBytesAppendPayload fresh b p }

/-- The loop over `vArray.v[i..]`. -/
def codecSimpleEncodeList : List (CodecValue μ) → Nat → EncodeState → Option EncodeState
  | [], _, s => some s
  | v :: vs, i, s =>
    match codecSimpleEncode v s with
    | none => none
    | some s =>
      if s.err.isSome then some s
      else if i + 1 = intLimit then none
      else codecSimpleEncodeList vs (i + 1) s

/-- The loop over `vMap.v[i..]`. -/
def codecSimpleEncodePairs :
    List (CodecValue μ × CodecValue μ) → Nat → EncodeState → Option EncodeState
  | [], _, s => some s
  | (k, v) :: kvs, i, s =>
    match codecSimpleEncode k s with
    | none => none
    | some s =>
      if s.err.isSome then some s
      else
        match codecSimpleEncode v s with
        | none => none
        | some s =>
          if s.err.isSome then some s
          else if i + 1 = intLimit then none
          else codecSimpleEncodePairs kvs (i + 1) s
end

end Encoder

/-! ## The bytes of a value -/

/-- A length header: the descriptor grows with the width of the length. -/
def lenBytes (bd : UInt8) (n : Nat) : List UInt8 :=
  if n = 0 then [bd]
  else if n ≤ 0xff then (bd + 1) :: beBytes 1 n
  else if n ≤ 0xffff then (bd + 2) :: beBytes 2 n
  else if n ≤ 0xffffffff then (bd + 3) :: beBytes 4 n
  else (bd + 4) :: beBytes 8 n

def intBytes (bd : UInt8) (n : Nat) : List UInt8 :=
  if n ≤ 0xff then bd :: beBytes 1 n
  else if n ≤ 0xffff then (bd + 1) :: beBytes 2 n
  else if n ≤ 0xffffffff then (bd + 2) :: beBytes 4 n
  else (bd + 3) :: beBytes 8 n

mutual
/-- What `codec_simple_encode` appends for a value. -/
def simpleBytes {μ : Type} : CodecValue μ → List UInt8
  | .nil _ => [1]
  | .bool _ v => [if v then 3 else 2]
  | .posInt _ n => intBytes 8 n.toNat
  | .negInt _ n => intBytes 12 n.toNat
  | .float32 _ bits => 4 :: leBytes 4 bits.toNat
  | .float64 _ bits => 5 :: leBytes 8 bits.toNat
  | .string _ p => lenBytes 216 p.length ++ p
  | .bytes _ p => lenBytes 224 p.length ++ p
  | .array _ vs => lenBytes 232 vs.length ++ simpleBytesList vs
  | .map _ kvs => lenBytes 240 kvs.length ++ simpleBytesPairs kvs
  | .customExt _ tag p => lenBytes 248 p.length ++ tag :: p

def simpleBytesList {μ : Type} : List (CodecValue μ) → List UInt8
  | [] => []
  | v :: vs => simpleBytes v ++ simpleBytesList vs

def simpleBytesPairs {μ : Type} : List (CodecValue μ × CodecValue μ) → List UInt8
  | [] => []
  | (k, v) :: kvs => simpleBytes k ++ (simpleBytes v ++ simpleBytesPairs kvs)
end

theorem simpleBytesList_eq {μ : Type} (vs : List (CodecValue μ)) :
    simpleBytesList vs = vs.flatMap simpleBytes := by
  induction vs with
  | nil => rfl
  | cons v vs ih => rw [simpleBytesList, ih, List.flatMap_cons]

theorem simpleBytesPairs_eq {μ : Type} (kvs : List (CodecValue μ × CodecValue μ)) :
    simpleBytesPairs kvs = (CodecValue.entries kvs).flatMap simpleBytes := by
  induction kvs with
  | nil => rfl
  | cons kv kvs ih => simp only [simpleBytesPairs, CodecValue.entries, List.flatMap_cons, ih]

/-! ## The encoder appends exactly these bytes -/

section Append

variable (fresh : Nat → Nat → UInt8)

private theorem append1_append1 {b : SliceBytes} (hb : b.Valid) (bd : UInt8) {n : Nat}
    (hFit : b.len + (bd :: beBytes 1 n).length < 2 ^ 63) :
    Extends b (sliceBytesAppend1 fresh (sliceBytesAppend1 fresh b bd) (UInt8.ofNat n))
      (bd :: beBytes 1 n) := by
  have hOne : beBytes 1 n = [UInt8.ofNat n] := by simp [beBytes]
  rw [hOne] at hFit ⊢
  have hFirst := (Extends.refl hb).append1 fresh hb bd (by simp at hFit ⊢; omega)
  exact hFirst.append1 fresh hb _ (by simpa using hFit)

private theorem append1_put {b : SliceBytes} (hb : b.Valid) (bd : UInt8) {bs : List UInt8}
    (hFit : b.len + (bd :: bs).length < 2 ^ 63) :
    Extends b (sliceBytesPut fresh (sliceBytesAppend1 fresh b bd) bs) (bd :: bs) := by
  have hFirst := (Extends.refl hb).append1 fresh hb bd (by simp at hFit ⊢; omega)
  exact hFirst.put fresh hb bs (by simp at hFit ⊢; omega)

theorem codecSimpleAppendLen_spec {b : SliceBytes} (hb : b.Valid) (bd : UInt8) (n : Nat)
    (hFit : b.len + (lenBytes bd n).length < 2 ^ 63) :
    Extends b (codecSimpleAppendLen fresh b bd n) (lenBytes bd n) := by
  unfold codecSimpleAppendLen
  unfold lenBytes at hFit ⊢
  split_ifs at hFit ⊢ with h0 h8 h16 h32
  · exact (Extends.refl hb).append1 fresh hb _ hFit
  · exact append1_append1 fresh hb (bd + 1) hFit
  · rw [Nat.mod_eq_of_lt (by omega), utilBigEndianWriteUint16_eq]
    exact append1_put fresh hb (bd + 2) hFit
  · rw [Nat.mod_eq_of_lt (by omega), utilBigEndianWriteUint32_eq]
    exact append1_put fresh hb (bd + 3) hFit
  · rw [utilBigEndianWriteUint64_eq]
    exact append1_put fresh hb (bd + 4) hFit

theorem codecSimpleEncodeInt_spec {b : SliceBytes} (hb : b.Valid) (bd : UInt8) (n : Nat)
    (hFit : b.len + (intBytes bd n).length < 2 ^ 63) :
    Extends b (codecSimpleEncodeInt fresh b bd n) (intBytes bd n) := by
  unfold codecSimpleEncodeInt
  unfold intBytes at hFit ⊢
  split_ifs at hFit ⊢ with h8 h16 h32
  · exact append1_append1 fresh hb bd hFit
  · rw [Nat.mod_eq_of_lt (by omega), utilBigEndianWriteUint16_eq]
    exact append1_put fresh hb (bd + 1) hFit
  · rw [Nat.mod_eq_of_lt (by omega), utilBigEndianWriteUint32_eq]
    exact append1_put fresh hb (bd + 2) hFit
  · rw [utilBigEndianWriteUint64_eq]
    exact append1_put fresh hb (bd + 3) hFit

/-- The run ends without an error, having appended `bs`. -/
def Appends (run : EncodeState → Option EncodeState) (bs : List UInt8) : Prop :=
  ∀ s, s.b.Valid → s.err = none → s.b.len + bs.length < 2 ^ 63 →
    ∃ s', run s = some s' ∧ s'.err = none ∧ Extends s.b s'.b bs

theorem Appends.andThen {run run' : EncodeState → Option EncodeState} {bs cs : List UInt8}
    (h : Appends run bs) (h' : Appends run' cs) :
    Appends (fun s => match run s with
      | none => none
      | some s => if s.err.isSome then some s else run' s) (bs ++ cs) := by
  intro s hb hErr hFit
  rw [List.length_append] at hFit
  obtain ⟨s₁, hRun, hErr₁, hExt⟩ := h s hb hErr (by omega)
  obtain ⟨s₂, hRun', hErr₂, hExt'⟩ := h' s₁ hExt.valid hErr₁ (by rw [hExt.len hb]; omega)
  refine ⟨s₂, ?_, hErr₂, hExt.trans hExt'⟩
  simp only [hRun, hErr₁]
  exact hRun'

theorem appends_nothing : Appends some [] :=
  fun s hb hErr _ => ⟨s, rfl, hErr, Extends.refl hb⟩

/-- The counter of an element loop does not overflow. -/
theorem Appends.counted {run : EncodeState → Option EncodeState} {bs : List UInt8} {i : Nat}
    (h : Appends run bs) (hi : i + 1 < intLimit) :
    Appends (fun s => if i + 1 = intLimit then none else run s) bs := by
  have hNot : ¬ i + 1 = intLimit := Nat.ne_of_lt hi
  simpa only [if_neg hNot] using h

theorem codecSimpleEncodeList_spec {μ : Type} (vs : List (CodecValue μ))
    (h : ∀ v ∈ vs, Appends (codecSimpleEncode fresh v) (simpleBytes v)) (i : Nat)
    (hi : i + vs.length < intLimit) :
    Appends (codecSimpleEncodeList fresh vs i) (vs.flatMap simpleBytes) := by
  induction vs generalizing i with
  | nil => exact appends_nothing
  | cons v vs ih =>
    rw [List.length_cons] at hi
    have hTail := ih (fun w hw => h w (List.mem_cons_of_mem _ hw)) (i + 1) (by omega)
    exact (h v List.mem_cons_self).andThen (hTail.counted (by omega))

theorem codecSimpleEncodePairs_spec {μ : Type} (kvs : List (CodecValue μ × CodecValue μ))
    (h : ∀ v ∈ CodecValue.entries kvs, Appends (codecSimpleEncode fresh v) (simpleBytes v))
    (i : Nat) (hi : i + kvs.length < intLimit) :
    Appends (codecSimpleEncodePairs fresh kvs i)
      ((CodecValue.entries kvs).flatMap simpleBytes) := by
  induction kvs generalizing i with
  | nil => exact appends_nothing
  | cons kv kvs ih =>
    obtain ⟨k, v⟩ := kv
    rw [List.length_cons] at hi
    have hKey := h k List.mem_cons_self
    have hValue := h v (List.mem_cons_of_mem _ List.mem_cons_self)
    have hTail := ih (fun w hw => h w (List.mem_cons_of_mem _ (List.mem_cons_of_mem _ hw))) (i + 1)
      (by omega)
    exact hKey.andThen (hValue.andThen (hTail.counted (by omega)))

theorem codecSimpleEncode_spec {μ : Type} (v : CodecValue μ) (hCounts : v.IntCounts) :
    Appends (codecSimpleEncode fresh v) (simpleBytes v) := by
  induction v using CodecValue.ind with
  | h v ih =>
    have hInner := fun c hc => ih c hc (hCounts.inner c hc)
    have hRoot : v.count < intLimit := hCounts.root
    intro s hb hErr hFit
    cases v with
    | nil m => exact ⟨_, rfl, hErr, (Extends.refl hb).append1 fresh hb _ hFit⟩
    | bool m v =>
      refine ⟨_, rfl, hErr, ?_⟩
      cases v
      · exact (Extends.refl hb).append1 fresh hb _ hFit
      · exact (Extends.refl hb).append1 fresh hb _ hFit
    | posInt m n => exact ⟨_, rfl, hErr, codecSimpleEncodeInt_spec fresh hb _ _ hFit⟩
    | negInt m n => exact ⟨_, rfl, hErr, codecSimpleEncodeInt_spec fresh hb _ _ hFit⟩
    | float32 m bits =>
      simp only [simpleBytes, List.length_cons, leBytes_length] at hFit
      have hFirst := (Extends.refl hb).append1 fresh hb 4 (by simp; omega)
      exact ⟨_, rfl, hErr, hFirst.append fresh hb _ (by simp; omega)⟩
    | float64 m bits =>
      simp only [simpleBytes, List.length_cons, leBytes_length] at hFit
      have hFirst := (Extends.refl hb).append1 fresh hb 5 (by simp; omega)
      exact ⟨_, rfl, hErr, hFirst.append fresh hb _ (by simp; omega)⟩
    | string m p =>
      simp only [simpleBytes, List.length_append] at hFit
      have hLen := codecSimpleAppendLen_spec fresh hb 216 p.length (by omega)
      exact ⟨_, rfl, hErr, hLen.payload fresh hb p hFit⟩
    | bytes m p =>
      simp only [simpleBytes, List.length_append] at hFit
      have hLen := codecSimpleAppendLen_spec fresh hb 224 p.length (by omega)
      exact ⟨_, rfl, hErr, hLen.payload fresh hb p hFit⟩
    | customExt m tag p =>
      simp only [simpleBytes, List.length_append, List.length_cons] at hFit
      have hLen := codecSimpleAppendLen_spec fresh hb 248 p.length (by omega)
      have hTag := hLen.append fresh hb [tag] (by simp; omega)
      have hAll := hTag.payload fresh hb p (by simp; omega)
      refine ⟨_, rfl, hErr, ?_⟩
      rw [simpleBytes, List.append_cons]
      exact hAll
    | array m vs =>
      simp only [simpleBytes, simpleBytesList_eq, List.length_append] at hFit ⊢
      have hLen := codecSimpleAppendLen_spec fresh hb 232 vs.length (by omega)
      have hLoop := codecSimpleEncodeList_spec fresh vs hInner 0 (by rw [Nat.zero_add]; exact hRoot)
      obtain ⟨s', hRun, hErr', hExt⟩ := hLoop
        { s with b := codecSimpleAppendLen fresh s.b 232 vs.length } hLen.valid hErr
        (by rw [hLen.len hb]; omega)
      exact ⟨s', hRun, hErr', hLen.trans hExt⟩
    | map m kvs =>
      simp only [simpleBytes, simpleBytesPairs_eq, List.length_append] at hFit ⊢
      have hLen := codecSimpleAppendLen_spec fresh hb 240 kvs.length (by omega)
      have hLoop := codecSimpleEncodePairs_spec fresh kvs hInner 0 (by rw [Nat.zero_add]; exact hRoot)
      obtain ⟨s', hRun, hErr', hExt⟩ := hLoop
        { s with b := codecSimpleAppendLen fresh s.b 240 kvs.length } hLen.valid hErr
        (by rw [hLen.len hb]; omega)
      exact ⟨s', hRun, hErr', hLen.trans hExt⟩

end Append

end CcCommon.Codec.Simple
