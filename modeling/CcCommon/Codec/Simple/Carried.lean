import CcCommon.Codec.Simple.Documents
import CcCommon.Codec.Simple.RoundTrip
import CcCommon.Codec.Simple.Unique

/-! # What an encoded value is read back as

As long as the lengths in it survive, the encoding of a value is a document,
of a value whose shape is the same. Integers are replaced by the sign extension
of their leading byte, and floats by the conversion of their swapped pattern. -/

namespace CcCommon.Codec.Simple

open Util Lib.Bytes Lib.Descent CodecValue

set_option autoImplicit false

variable {μ : Type}

mutual
def carried : CodecValue μ → Value
  | .nil _ => .nil ()
  | .bool _ v => .bool () v
  | .posInt _ n => .posInt () (UInt64.ofNat (readBack n.toNat))
  | .negInt _ n => .negInt () (UInt64.ofNat (readBack n.toNat))
  | .float32 _ bits => .float32 () (float32OfUint32 (swapped 4 bits.toNat))
  | .float64 _ bits => .float64 () (float64OfUint64 (swapped 8 bits.toNat))
  | .string _ p => .string () p
  | .bytes _ p => .bytes () p
  | .array _ vs => .array () (carriedList vs)
  | .map _ kvs => .map () (carriedPairs kvs)
  | .customExt _ tag p => .customExt () tag p

def carriedList : List (CodecValue μ) → List Value
  | [] => []
  | v :: vs => carried v :: carriedList vs

def carriedPairs : List (CodecValue μ × CodecValue μ) → List (Value × Value)
  | [] => []
  | (k, v) :: kvs => (carried k, carried v) :: carriedPairs kvs
end

theorem carriedList_eq (vs : List (CodecValue μ)) : carriedList vs = vs.map carried := by
  induction vs with
  | nil => rfl
  | cons v vs ih => rw [carriedList, ih, List.map_cons]

theorem carriedPairs_length (kvs : List (CodecValue μ × CodecValue μ)) :
    (carriedPairs kvs).length = kvs.length := by
  induction kvs with
  | nil => rfl
  | cons kv kvs ih => rw [carriedPairs, List.length_cons, List.length_cons, ih]

theorem entries_carriedPairs (kvs : List (CodecValue μ × CodecValue μ)) :
    entries (carriedPairs kvs) = (entries kvs).map carried := by
  induction kvs with
  | nil => rfl
  | cons kv kvs ih => simp only [carriedPairs, entries, List.map_cons, ih]

/-- The length that the node writes, if any, is read back. -/
def LengthReadsBackAt : CodecValue μ → Prop
  | .string _ p | .bytes _ p | .customExt _ _ p => ReadsBack p.length
  | .array _ vs => ReadsBack vs.length
  | .map _ kvs => ReadsBack kvs.length
  | _ => True

/-! ## Encodings are documents -/

theorem intForm_intBytes (d : CodecSimpleDescType) (n : Nat) :
    IntForm d (readBack n) (intBytes d.toUInt8 n) := by
  rw [intBytes_eq]
  exact .mk (intClass n) (digits n) (Nat.succ_le_succ (intClass_le n)) (digits_length n)

theorem lenForm_lenBytes (d : CodecSimpleDescType) {n : Nat} (hn : n < 2 ^ 64) (h : ReadsBack n) :
    LenForm d n (lenBytes d.toUInt8 n) := by
  by_cases hZero : n = 0
  · subst hZero
    rw [lenBytes_eq]
    exact NumForm.mk 0 [] (show 0 + 0 ≤ 4 by decide) rfl
  · have hForm : LenForm d (readnValue (lenWidth (lenClass n)) ((digits n).headD 0))
        ((d.toUInt8 + UInt8.ofNat (lenClass n)) :: digits n) := by
      refine .mk (lenClass n) (digits n) (lenClass_le n) ?_
      rw [digits_length, lenClass_of_ne_zero hZero]
    have hBack : readnValue (lenWidth (lenClass n)) ((digits n).headD 0) = n := by
      rw [lenClass_of_ne_zero hZero]
      exact (readBack_eq_iff hn).mpr h
    rw [hBack] at hForm
    rw [lenBytes_of_ne_zero _ hZero]
    exact hForm

theorem docs_of_all {vs : List (CodecValue μ)} (h : ∀ v ∈ vs, Doc (carried v) (simpleBytes v)) :
    Docs (vs.map carried) (vs.flatMap simpleBytes) := by
  induction vs with
  | nil => exact .nil
  | cons v vs ih =>
    rw [List.map_cons, List.flatMap_cons]
    exact .cons _ _ _ _ (h v List.mem_cons_self)
      (ih fun w hw => h w (List.mem_cons_of_mem _ hw))

theorem doc_carried (v : CodecValue μ) (hCounts : v.IntCounts) (hLengths : v.All LengthReadsBackAt)
    (hSize : (simpleBytes v).length < 2 ^ 63) : Doc (carried v) (simpleBytes v) := by
  induction v using CodecValue.ind with
  | h v ih =>
    have hLength := hLengths.root
    have hCount : v.count < intLimit := hCounts.root
    have hInner (hBelow : ∀ c ∈ v.children, (simpleBytes c).length < 2 ^ 63) :
        Docs (v.children.map carried) (v.children.flatMap simpleBytes) :=
      docs_of_all fun c hc => ih c hc (hCounts.inner c hc) (hLengths.inner c hc) (hBelow c hc)
    cases v with
    | nil m => exact .nil
    | bool m x => exact .bool x
    | posInt m n => exact .posInt _ _ (intForm_intBytes .posInt n.toNat)
    | negInt m n => exact .negInt _ _ (intForm_intBytes .negInt n.toNat)
    | float32 m bits => exact .float32 (leBytes 4 bits.toNat) (leBytes_length _ _)
    | float64 m bits => exact .float64 (leBytes 8 bits.toNat) (leBytes_length _ _)
    | string m p =>
      rw [simpleBytes, List.length_append] at hSize
      exact .string p _ (lenForm_lenBytes .string (by omega) hLength)
    | bytes m p =>
      rw [simpleBytes, List.length_append] at hSize
      exact .bytes p _ (lenForm_lenBytes .bytes (by omega) hLength)
    | customExt m tag p =>
      rw [simpleBytes, List.length_append, List.length_cons] at hSize
      exact .ext tag p _ (lenForm_lenBytes .customExt (by omega) hLength)
    | array m vs =>
      have hCount : vs.length < intLimit := hCount
      have hSmall : vs.length < 2 ^ 64 := Nat.lt_trans hCount (by decide)
      rw [simpleBytes, simpleBytesList_eq, List.length_append] at hSize
      rw [simpleBytes, simpleBytesList_eq, carried, carriedList_eq]
      refine .array _ _ _ ?_ ?_ (hInner fun c hc => ?_)
      · rwa [List.length_map]
      · rw [List.length_map]
        exact lenForm_lenBytes .array hSmall hLength
      · have hLe := length_le_flatMap (f := simpleBytes) hc
        rw [children] at hLe
        omega
    | map m kvs =>
      have hCount : kvs.length < intLimit := hCount
      have hSmall : kvs.length < 2 ^ 64 := Nat.lt_trans hCount (by decide)
      rw [simpleBytes, simpleBytesPairs_eq, List.length_append] at hSize
      rw [simpleBytes, simpleBytesPairs_eq, carried]
      refine .map _ _ _ ?_ ?_ ?_
      · rwa [carriedPairs_length]
      · rw [carriedPairs_length]
        exact lenForm_lenBytes .map hSmall hLength
      · rw [entries_carriedPairs]
        refine hInner fun c hc => ?_
        have hLe := length_le_flatMap (f := simpleBytes) hc
        rw [children] at hLe
        omega

/-! ## A trip through the codec -/

section Trip

variable (fresh : Nat → Nat → UInt8) {e : EncodeState} {v : CodecValue μ} {r : List UInt8}
  {beyond : Nat → UInt8}

/-- Of a value whose lengths survive, floats and all, the decoder returns what is carried, with
every payload in the buffer, and stops in front of what follows. -/
theorem codecSimple_carries (hCounts : v.IntCounts) (hLengths : v.All LengthReadsBackAt)
    (hb : e.b.Valid) (hErr : e.err = none)
    (hSize : e.b.len + ((simpleBytes v).length + r.length) < 2 ^ 63) :
    ∃ e', codecSimpleEncode fresh v e = some e' ∧ e'.err = none ∧
      ∃ hFits, let b : Input := ⟨appended e.b e'.b ++ r, beyond, hFits⟩
        ∃ fuel s d, codecSimpleDecode b fuel .zero = .done s d ∧ s.err = none ∧
          d.value b = some (carried v) ∧ d.SlicesIn b.len ∧ s.pos = (appended e.b e'.b).length := by
  obtain ⟨e', hRun, hErr', hExt⟩ := codecSimpleEncode_spec fresh v hCounts e hb hErr (by omega)
  have hBytes := hExt.appended hb
  have hFits : (appended e.b e'.b ++ r).length < 2 ^ 63 := by
    rw [hBytes, List.length_append]
    omega
  have hStart : (⟨appended e.b e'.b ++ r, beyond, hFits⟩ : Input).At 0 (simpleBytes v) :=
    Input.At.start (congrArg (· ++ r) hBytes)
  obtain ⟨s, d, ⟨fuel, hDone⟩, ⟨hValue, hSlices⟩, hPos, hOk⟩ :=
    readsTo_of_doc _ _ (doc_carried v hCounts hLengths (by omega)) .init hStart rfl
  refine ⟨e', hRun, hErr', hFits, fuel, s, d, hDone, hOk, hValue, hSlices, ?_⟩
  rw [hPos, hBytes]
  exact Nat.zero_add _

end Trip

/-- 300 is written as the bytes 1 and 44, and comes back as 1; the float `1.0` comes back as the
float nearest to 32831. -/
theorem codecSimple_carries_array :
    ∃ e', codecSimpleEncode (fun _ _ => 0) (.array () [.posInt () 300, .float32 () 0x3f800000])
        ⟨sliceBytesZero, none⟩ = some e' ∧ e'.err = none ∧
      ∃ hFits, let b : Input := ⟨appended sliceBytesZero e'.b ++ [9], fun _ => 0, hFits⟩
        ∃ fuel s d, codecSimpleDecode b fuel .zero = .done s d ∧ s.err = none ∧
          d.value b = some (.array () [.posInt () 1, .float32 () 0x47003f00]) ∧
          d.SlicesIn b.len ∧ s.pos = (appended sliceBytesZero e'.b).length := by
  have hLeaves : ∀ c ∈ (CodecValue.array () [.posInt () 300, .float32 () 0x3f800000]).children,
      c.children = [] ∧ c.count < intLimit ∧ LengthReadsBackAt c := by
    intro c hc
    simp only [children, List.mem_cons, List.not_mem_nil, or_false] at hc
    obtain rfl | rfl := hc
    · exact ⟨rfl, by decide, trivial⟩
    · exact ⟨rfl, by decide, trivial⟩
  refine codecSimple_carries (r := [9]) (fun _ _ => 0) (.node (by decide) fun c hc => ?_)
    (.node (Or.inl (by decide)) fun c hc => ?_) sliceBytesZero_valid rfl (by decide)
  · exact .node (hLeaves c hc).2.1 (by simp [(hLeaves c hc).1])
  · exact .node (hLeaves c hc).2.2 (by simp [(hLeaves c hc).1])

end CcCommon.Codec.Simple
