import CcCommon.Codec.Binc.Representation
import CcCommon.Codec.Binc.RoundTrip

/-! # What an encoded value is read back as, floats and extensions included

As long as its numbers are written whole, the encoding of a value is a
document. A float keeps its low bytes, as many as the encoder takes from the
memory behind it, and an extension has the bytes that lie where its pointer
does. -/

namespace CcCommon.Codec.Binc

open Util Lib.Bytes CodecValue

set_option autoImplicit false

/-- The bits of a double that `codec_binc_encode` appends. -/
def carriedBits (mem : Words) : UInt64 :=
  if isZeroDouble (mem 0) then 0
  else if floatPrune mem 7 ≤ 6 then UInt64.ofNat ((mem 0).toNat % 256 ^ floatPrune mem 7)
  else mem 0

mutual
def carried : CodecValue Placement → Words → Value
  | .nil _, _ => .nil ()
  | .bool _ x, _ => .bool () x
  | .posInt _ n, _ => .posInt () n
  | .negInt _ n, _ => if n = 0 then .posInt () 0 else .negInt () n
  | .float32 m bits, after => .float64 () (carriedBits (fromUnion (.float32 m bits) after))
  | .float64 m bits, after => .float64 () (carriedBits (fromUnion (.float64 m bits) after))
  | .string _ p, _ => .string () p
  | .bytes _ p, _ => .bytes () p
  | .array m vs, _ => .array () (carriedList vs m.behind)
  | .map m kvs, _ => .map () (carriedPairs kvs m.behind)
  | .customExt m tag p, after =>
    .customExt () tag (bytesAt (fromUnion (.customExt m tag p) after) 1 p.length)

def carriedList : List (CodecValue Placement) → Words → List Value
  | [], _ => []
  | v :: vs, behind => carried v (behindIn vs behind) :: carriedList vs behind

def carriedPairs : List (CodecValue Placement × CodecValue Placement) → Words →
    List (Value × Value)
  | [], _ => []
  | (k, v) :: kvs, behind => (carried k (behindIn (v :: entries kvs) behind),
      carried v (behindIn (entries kvs) behind)) :: carriedPairs kvs behind
end

theorem carriedList_length (vs : List (CodecValue Placement)) (behind : Words) :
    (carriedList vs behind).length = vs.length := by
  induction vs with
  | nil => rfl
  | cons v vs ih => rw [carriedList, List.length_cons, List.length_cons, ih]

theorem carriedPairs_length (kvs : List (CodecValue Placement × CodecValue Placement))
    (behind : Words) : (carriedPairs kvs behind).length = kvs.length := by
  induction kvs with
  | nil => rfl
  | cons kv kvs ih => rw [carriedPairs, List.length_cons, List.length_cons, ih]

theorem entries_carriedPairs (kvs : List (CodecValue Placement × CodecValue Placement))
    (behind : Words) : entries (carriedPairs kvs behind) = carriedList (entries kvs) behind := by
  induction kvs with
  | nil => rfl
  | cons kv kvs ih => simp only [carriedPairs, entries, carriedList, ih]

/-- The numbers that come back, the length of an extension among them. -/
def CarriesAt {μ : Type} : CodecValue μ → Prop
  | .customExt _ _ p => WrittenWhole false p.length
  | v => ReadsBackAt v

theorem CarriesAt.count_le {μ : Type} {v : CodecValue μ} (h : CarriesAt v) : v.count ≤ 255 := by
  cases v with
  | array m vs => exact h
  | map m kvs => exact h
  | _ => exact Nat.zero_le _

/-! ## Encodings are documents -/

theorem bytesAt_take (mem : Words) {i : Nat} (hi : i ≤ 8) :
    bytesAt mem 0 i = leBytes i (mem 0).toNat := by
  have hTake : bytesAt mem 0 i = (bytesAt mem 0 8).take i := by
    rw [bytesAt, bytesAt, ← List.map_take, List.take_range, Nat.min_eq_left hi]
  rw [hTake, bytesAt_word, leBytes_take hi]

theorem doc_carriedBits (mem : Words) :
    Doc (.float64 () (carriedBits mem)) (bincFloatBytes mem) := by
  rw [carriedBits, bincFloatBytes]
  by_cases hZero : isZeroDouble (mem 0) = true
  · rw [if_pos hZero, if_pos hZero]
    exact .zerofloat
  · rw [if_neg hZero, if_neg hZero]
    by_cases hShort : floatPrune mem 7 ≤ 6
    · have hDoc := Doc.pruned (bytesAt mem 0 (floatPrune mem 7)) (by rw [bytesAt_length]; omega)
      rw [leNat_append_zeros, bytesAt_length, bytesAt_take mem (by omega), leNat_leBytes] at hDoc
      rw [if_pos hShort]
      dsimp only
      rw [if_pos hShort, bytesAt_take mem (by omega)]
      exact hDoc
    · have hDoc := Doc.float64 (bytesAt mem 0 8) (bytesAt_length _ _ _)
      rw [bytesAt_word, leNat_leBytes_of_lt (mem 0).toNat_lt, UInt64.ofNat_toNat] at hDoc
      rw [if_neg hShort]
      dsimp only
      rw [if_neg hShort, bytesAt_word]
      exact hDoc

theorem docs_carried (vs : List (CodecValue Placement))
    (h : ∀ v ∈ vs, ∀ after, Doc (carried v after) (bincBytes v after) ∧ (carried v after).IntCounts)
    (behind : Words) : Docs (carriedList vs behind) (bincBytesList vs behind) ∧
      ∀ w ∈ carriedList vs behind, w.IntCounts := by
  induction vs with
  | nil => exact ⟨.nil, by simp [carriedList]⟩
  | cons v vs ih =>
    obtain ⟨hDoc, hCounts⟩ := h v List.mem_cons_self (behindIn vs behind)
    obtain ⟨hDocs, hAll⟩ := ih fun u hu => h u (List.mem_cons_of_mem _ hu)
    refine ⟨.cons _ _ _ _ hDoc hDocs, ?_⟩
    intro w hw
    cases List.mem_cons.mp hw with
    | inl hHere => exact hHere ▸ hCounts
    | inr hRest => exact hAll w hRest

theorem doc_carried (v : CodecValue Placement) (hCarries : v.All CarriesAt) (after : Words) :
    Doc (carried v after) (bincBytes v after) ∧ (carried v after).IntCounts := by
  induction v using CodecValue.ind generalizing after with
  | h v ih =>
    have hInner := fun c hc => ih c hc (hCarries.inner c hc)
    have hRoot := hCarries.root
    have hCount := hRoot.count_le
    have hLeaf {w : Value} (hw : w.children = []) (hNone : w.count = 0) : w.IntCounts :=
      .node (by rw [hNone]; decide) (by simp [hw])
    cases v with
    | nil m => exact ⟨.nil, hLeaf rfl rfl⟩
    | bool m x => exact ⟨.bool x, hLeaf rfl rfl⟩
    | posInt m n => exact ⟨doc_posInt hRoot, hLeaf rfl rfl⟩
    | negInt m n =>
      rw [carried]
      by_cases hZero : n = 0
      · rw [if_pos hZero, hZero]
        exact ⟨.zero, hLeaf rfl rfl⟩
      · rw [if_neg hZero]
        have hNone : n.toNat ≠ 0 := fun h => hZero (UInt64.toNat_inj.mp h)
        exact ⟨doc_negInt hNone hRoot, hLeaf rfl rfl⟩
    | float32 m bits => exact ⟨doc_carriedBits _, hLeaf rfl rfl⟩
    | float64 m bits => exact ⟨doc_carriedBits _, hLeaf rfl rfl⟩
    | string m p => exact ⟨.string p _ (lenForm_bincLenBytes _ hRoot), hLeaf rfl rfl⟩
    | bytes m p => exact ⟨.bytes p _ (lenForm_bincLenBytes _ hRoot), hLeaf rfl rfl⟩
    | customExt m tag p =>
      have hForm := lenForm_bincLenBytes .customext hRoot
      refine ⟨.ext tag _ _ ?_, hLeaf rfl rfl⟩
      rw [bytesAt_length]
      exact hForm
    | array m vs =>
      have hCount : vs.length ≤ 255 := hCount
      obtain ⟨hDocs, hAll⟩ := docs_carried vs hInner m.behind
      have hForm := lenForm_bincLenBytes .array (Or.inl hCount)
      have hLength := carriedList_length vs m.behind
      rw [bincBytes, carried]
      refine ⟨?_, .node (Nat.lt_of_le_of_lt (hLength.trans_le hCount) (by decide)) hAll⟩
      rw [← hLength] at hForm ⊢
      exact .array _ _ _ hForm hDocs
    | map m kvs =>
      have hCount : kvs.length ≤ 255 := hCount
      obtain ⟨hDocs, hAll⟩ := docs_carried (entries kvs) hInner m.behind
      have hForm := lenForm_bincLenBytes .map (Or.inl hCount)
      have hLength := carriedPairs_length kvs m.behind
      rw [← entries_carriedPairs] at hDocs hAll
      rw [bincBytes, bincBytesPairs_eq, carried]
      refine ⟨?_, .node (Nat.lt_of_le_of_lt (hLength.trans_le hCount) (by decide)) hAll⟩
      rw [← hLength] at hForm ⊢
      exact .map _ _ _ hForm hDocs

/-! ## A trip through the codec -/

section Trip

variable (fresh : Nat → Nat → UInt8) {e : EncodeState} {v : CodecValue Placement} {after : Words}
  {r : List UInt8} {beyond : Nat → UInt8}

/-- Of a value whose numbers are written whole, floats, extensions and all, the decoder returns
what is carried, and stops in front of what follows. -/
theorem codecBinc_carries (hCarries : v.All CarriesAt) (hb : e.b.Valid) (hErr : e.err = none)
    (hSize : e.b.len + ((bincBytes v after).length + r.length) < 2 ^ 63) :
    ∃ e', EncodesTo fresh v after e e' ∧ e'.err = none ∧
      ∃ hFits, let b : Input := ⟨appended e.b e'.b ++ r, beyond, hFits⟩
        ∃ fuel s d, codecBincDecode b fuel .zero = .done s d ∧ s.err = none ∧
          d.value b = some (carried v after) ∧ s.pos = (appended e.b e'.b).length := by
  have hByte : ByteCounts v := hCarries.imp fun w hw => hw.count_le
  obtain ⟨e', hRun, hErr', hBytes⟩ := exists_encodesTo fresh hByte after hb hErr (by omega)
  obtain ⟨hDoc, hCounts⟩ := doc_carried v hCarries after
  have hFits : (appended e.b e'.b ++ r).length < 2 ^ 63 := by
    rw [hBytes, List.length_append]
    omega
  have hStart : (⟨appended e.b e'.b ++ r, beyond, hFits⟩ : Input).At 0 (bincBytes v after) :=
    Input.At.start (congrArg (· ++ r) hBytes)
  obtain ⟨s, d, ⟨fuel, hDone⟩, hValue, hPos, hOk⟩ :=
    readsAs_of_doc _ _ hCounts hDoc .init hStart rfl
  refine ⟨e', hRun, hErr', hFits, fuel, s, d, hDone, hOk, hValue, ?_⟩
  rw [hPos, hBytes]
  exact Nat.zero_add _

end Trip

/-- Of the double only the lowest byte is left, and the extension comes back with the bytes of its
pointer. -/
theorem codecBinc_carries_array :
    let v := CodecValue.array Placement.zero
      [.customExt .zero 5 [1, 2], .float64 .zero 0x3ff0000000000001]
    ∃ e', EncodesTo (fun _ _ => 0) v (fun _ => 0) ⟨sliceBytesZero, none, []⟩ e' ∧ e'.err = none ∧
      ∃ hFits, let b : Input := ⟨appended sliceBytesZero e'.b ++ [9], fun _ => 0, hFits⟩
        ∃ fuel s d, codecBincDecode b fuel .zero = .done s d ∧ s.err = none ∧
          d.value b = some (.array () [.customExt () 5 [0, 0], .float64 () 1]) ∧
          s.pos = (appended sliceBytesZero e'.b).length := by
  have hLeaves : ∀ c ∈ (CodecValue.array Placement.zero
      [.customExt .zero 5 [1, 2], .float64 .zero 0x3ff0000000000001]).children,
      c.children = [] ∧ CarriesAt c := by
    intro c hc
    simp only [children, List.mem_cons, List.not_mem_nil, or_false] at hc
    obtain rfl | rfl := hc
    · exact ⟨rfl, Or.inl (by decide)⟩
    · exact ⟨rfl, trivial⟩
  refine codecBinc_carries (r := [9]) (fun _ _ => 0) (.node (show 2 ≤ 255 by decide) fun c hc => ?_)
    sliceBytesZero_valid rfl (by decide)
  exact .node (hLeaves c hc).2 (by simp [(hLeaves c hc).1])

end CcCommon.Codec.Binc
