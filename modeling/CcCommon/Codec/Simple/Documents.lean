import CcCommon.Codec.Reading
import CcCommon.Codec.Simple.Floats
import CcCommon.Codec.Simple.Head

/-! # Documents of simplecodec

The bytes that codec_simple_decode reads as a value. Of a number only the
leading byte counts, so a value has many documents, most of which
codec_simple_encode never writes. -/

namespace CcCommon.Codec.Simple

open Util Lib.Bytes Lib.Descent CodecValue

set_option autoImplicit false

/-- A descriptor of the family `d` and the number behind it, for lengths with `skip` 0. An
integer has no descriptor for the width 0 and skips it. -/
inductive NumForm (d : CodecSimpleDescType) (skip : Nat) : Nat → List UInt8 → Prop where
  | mk (k : Nat) (cs : List UInt8) (hk : k + skip ≤ 4)
    (h : cs.length = (lenWidth (k + skip)).size) :
    NumForm d skip (readnValue (lenWidth (k + skip)) (cs.headD 0))
      ((d.toUInt8 + UInt8.ofNat k) :: cs)

abbrev LenForm (d : CodecSimpleDescType) : Nat → List UInt8 → Prop := NumForm d 0

abbrev IntForm (d : CodecSimpleDescType) : Nat → List UInt8 → Prop := NumForm d 1

mutual
inductive Doc : Value → List UInt8 → Prop where
  | nil : Doc (.nil ()) [1]
  | bool (x : Bool) : Doc (.bool () x) [if x then 3 else 2]
  | posInt (n : Nat) (hdr : List UInt8) (h : IntForm .posInt n hdr) :
    Doc (.posInt () (UInt64.ofNat n)) hdr
  | negInt (n : Nat) (hdr : List UInt8) (h : IntForm .negInt n hdr) :
    Doc (.negInt () (UInt64.ofNat n)) hdr
  | float32 (cs : List UInt8) (h : cs.length = 4) :
    Doc (.float32 () (float32OfUint32 (beNat cs))) (4 :: cs)
  | float64 (cs : List UInt8) (h : cs.length = 8) :
    Doc (.float64 () (float64OfUint64 (beNat cs))) (5 :: cs)
  | string (p hdr : List UInt8) (h : LenForm .string p.length hdr) : Doc (.string () p) (hdr ++ p)
  | bytes (p hdr : List UInt8) (h : LenForm .bytes p.length hdr) : Doc (.bytes () p) (hdr ++ p)
  | array (vs : List Value) (hdr ds : List UInt8) (hCount : vs.length < intLimit)
    (h : LenForm .array vs.length hdr) (hs : Docs vs ds) : Doc (.array () vs) (hdr ++ ds)
  | map (kvs : List (Value × Value)) (hdr ds : List UInt8) (hCount : kvs.length < intLimit)
    (h : LenForm .map kvs.length hdr) (hs : Docs (entries kvs) ds) : Doc (.map () kvs) (hdr ++ ds)
  | ext (tag : UInt8) (p hdr : List UInt8) (h : LenForm .customExt p.length hdr) :
    Doc (.customExt () tag p) (hdr ++ tag :: p)

/-- Documents for the values of a list, one after the other. -/
inductive Docs : List Value → List UInt8 → Prop where
  | nil : Docs [] []
  | cons (v : Value) (vs : List Value) (d ds : List UInt8) (h : Doc v d) (hs : Docs vs ds) :
    Docs (v :: vs) (d ++ ds)
end

theorem Docs.split {vs : List Value} {ds : List UInt8} (h : Docs vs ds) :
    ∃ l : List (Value × List UInt8), vs = l.map Prod.fst ∧ ds = l.flatMap Prod.snd ∧
      ∀ x ∈ l, Doc x.1 x.2 := by
  induction vs generalizing ds with
  | nil =>
    cases h
    exact ⟨[], rfl, rfl, by simp⟩
  | cons v vs ih =>
    cases h with
    | cons _ _ d ds hDoc hDocs =>
      obtain ⟨l, rfl, rfl, hAll⟩ := ih hDocs
      refine ⟨(v, d) :: l, rfl, rfl, ?_⟩
      intro x hx
      cases List.mem_cons.mp hx with
      | inl hSame =>
        subst hSame
        exact hDoc
      | inr hRest => exact hAll x hRest

/-! ## Reading a number -/

/-- What the decoder is to return for `v`: a tree of that value whose payloads lie in the
buffer. -/
def Stores (b : Input) (v : Value) (d : Decoded) : Prop := d.value b = some v ∧ d.SlicesIn b.len

section Read

variable {b : Input} {s : CodecDecodeState}

theorem codecSimpleDecodeHead_num (v : Decoded) {d : CodecSimpleDescType} {skip n : Nat}
    {hdr : List UInt8} (hForm : NumForm d skip n hdr) (h : b.At s.pos hdr) :
    ∃ k s', k + skip ≤ 4 ∧
      codecSimpleDecodeHead b s v =
        codecSimpleDecodeSwitch b s.enter.next v (d.toUInt8 + UInt8.ofNat k) ∧
      s.enter.next.pos ≤ b.len ∧
      codecSimpleReadn b s.enter.next (lenWidth (k + skip)) = (s', n) ∧
      s'.pos = s.pos + hdr.length ∧ s'.err = s.err := by
  cases hForm with
  | mk k cs hk hSize =>
    have hLen := b.len_lt
    have hFits := h.le
    obtain ⟨hHead, hNext⟩ := codecSimpleDecodeHead_at v h
    have hDigits : b.At s.enter.next.pos cs := by
      rw [hNext]
      exact h.cons.2.2
    rw [List.length_cons, hSize] at hFits
    have hPass : s.enter.next.pos + (lenWidth (k + skip)).size ≤ b.len := by omega
    have hRead := codecSimpleReadn_pass hPass
    have hValue : readnValue (lenWidth (k + skip)) (b.get s.enter.next.pos) =
        readnValue (lenWidth (k + skip)) (cs.headD 0) := by
      cases cs with
      | nil =>
        have hNone : lenWidth (k + skip) = .w0 := by
          generalize lenWidth (k + skip) = w at hSize
          cases w <;> first | rfl | cases hSize
        rw [hNone]
        rfl
      | cons c cs => rw [hDigits.cons.1]; rfl
    rw [hValue] at hRead
    refine ⟨k, _, hk, hHead, by omega, hRead, ?_, ?_⟩
    · have hEnd : s.enter.next.pos + (lenWidth (k + skip)).size < 2 ^ 64 := by omega
      rw [List.length_cons, hSize]
      split
      · rw [CodecDecodeState.advance_pos_of_lt _ hEnd]
        omega
      · rw [(s.enter.next.touch 1).advance_pos_of_lt hEnd, CodecDecodeState.touch_pos]
        omega
    · split <;> rfl

theorem codecSimpleDecodeHead_lenForm (v : Decoded) {d : CodecSimpleDescType}
    (hd : IsLengthDesc d) {n : Nat} {hdr : List UInt8} (hForm : LenForm d n hdr)
    (h : b.At s.pos hdr) (hErr : s.err = none) :
    ∃ bd s', codecSimpleDesc bd = some d ∧ codecSimpleDecodeLen b s.enter.next bd = (s', n) ∧
      codecSimpleDecodeHead b s v = codecSimpleDecodeSwitch b s.enter.next v bd ∧
      s'.pos = s.pos + hdr.length ∧ s'.failed = false := by
  obtain ⟨k, s', hk, hHead, hInside, hRead, hPos, hSame⟩ := codecSimpleDecodeHead_num v hForm h
  obtain ⟨hDesc, hMod⟩ := lenDesc_spec hd hk
  refine ⟨_, s', hDesc, ?_, hHead, hPos, s'.failed_eq_false_iff.mpr (hSame.trans hErr)⟩
  rw [codecSimpleDecodeLen_eq hInside (by rw [hMod]; exact hk), hMod]
  exact hRead

end Read

/-! ## Reading a document -/

section Documents

variable {b : Input}

theorem readsTo_fixed {v : Value} {bd : UInt8} {d : Decoded}
    (hSwitch : ∀ s, codecSimpleDecodeSwitch b s .zero bd = .leaf s d)
    (hStores : Stores b v d) : ReadsTo (codecSimpleDecodeHead b) b (fun _ => Stores b v) [bd] := by
  refine readsTo_leaf fun s hAt hErr => ?_
  obtain ⟨hHead, hNext⟩ := codecSimpleDecodeHead_at .zero hAt
  rw [hSwitch] at hHead
  exact ⟨_, d, hHead, hStores, hNext, hErr⟩

theorem readsTo_int {v : Value} {d : CodecSimpleDescType} {type : CodecValueType}
    (hd : d = .posInt ∧ type = .posInt ∨ d = .negInt ∧ type = .negInt) {n : Nat}
    {hdr : List UInt8} (hForm : IntForm d n hdr)
    (hValue : (Decoded.mk type (.vUint64 (UInt64.ofNat n)) []).value b = some v) :
    ReadsTo (codecSimpleDecodeHead b) b (fun _ => Stores b v) hdr := by
  refine readsTo_leaf fun s hAt hErr => ?_
  obtain ⟨k, s', hk, hHead, _, hRead, hPos, hSame⟩ := codecSimpleDecodeHead_num .zero hForm hAt
  obtain ⟨hDesc, hWidth⟩ := intDesc_spec (hd.imp And.left And.left) (Nat.le_of_succ_le_succ hk)
  have hOk := hSame.trans hErr
  have hInt : codecSimpleDecodeInt b s.enter.next .zero (d.toUInt8 + UInt8.ofNat k) type =
      .leaf s' (.mk type (.vUint64 (UInt64.ofNat n)) []) := by
    rw [codecSimpleDecodeInt, hWidth, hRead]
    dsimp only
    rw [s'.failed_eq_false_iff.mpr hOk, if_neg (by decide)]
  refine ⟨s', _, ?_, ⟨hValue, slicesIn_leaf rfl⟩, hPos, hOk⟩
  rw [hHead, codecSimpleDecodeSwitch, hDesc]
  rcases hd with ⟨rfl, rfl⟩ | ⟨rfl, rfl⟩ <;> exact hInt

theorem slice_at {p : Nat} {c : UInt8} {cs : List UInt8} (h : b.At p (c :: cs)) {q : Nat}
    (hq : q = p + 1) : ((List.range cs.length).map fun j => b.get (q + j)) = cs := by
  rw [hq]
  exact h.cons.2.2.slice

theorem readsTo_float32 {cs : List UInt8} (hFour : cs.length = 4) :
    ReadsTo (codecSimpleDecodeHead b) b (fun _ => Stores b (.float32 () (float32OfUint32 (beNat cs))))
      (4 :: cs) := by
  refine readsTo_leaf fun s hAt hErr => ?_
  obtain ⟨hHead, hNext, hPass, hPos⟩ := codecSimpleDecodeHead_payload .zero hAt
  have hDigits := slice_at hAt hNext
  rw [hFour] at hPass hPos hDigits
  have hDesc : codecSimpleDesc 4 = some .float32 := rfl
  rw [codecSimpleDecodeSwitch, hDesc] at hHead
  dsimp only at hHead
  rw [codecSimpleDecodeFloat32, hPass] at hHead
  dsimp only at hHead
  rw [utilBigEndianReadUint32_eq, hDigits] at hHead
  refine ⟨_, _, hHead, ⟨rfl, slicesIn_leaf rfl⟩, ?_, hErr⟩
  rw [hPos, List.length_cons, hFour]

theorem readsTo_float64 {cs : List UInt8} (hEight : cs.length = 8) :
    ReadsTo (codecSimpleDecodeHead b) b (fun _ => Stores b (.float64 () (float64OfUint64 (beNat cs))))
      (5 :: cs) := by
  refine readsTo_leaf fun s hAt hErr => ?_
  obtain ⟨hHead, hNext, hPass, hPos⟩ := codecSimpleDecodeHead_payload .zero hAt
  have hDigits := slice_at hAt hNext
  rw [hEight] at hPass hPos hDigits
  have hDesc : codecSimpleDesc 5 = some .float64 := rfl
  rw [codecSimpleDecodeSwitch, hDesc] at hHead
  dsimp only at hHead
  rw [codecSimpleDecodeFloat64, hPass] at hHead
  dsimp only at hHead
  rw [utilBigEndianReadUint64_eq, hDigits] at hHead
  refine ⟨_, _, hHead, ⟨rfl, slicesIn_leaf rfl⟩, ?_, hErr⟩
  rw [hPos, List.length_cons, hEight]

theorem readsTo_bytes {v : Value} {d : CodecSimpleDescType} {type : CodecValueType}
    (hd : d = .string ∧ type = .string ∨ d = .bytes ∧ type = .bytes) {p hdr : List UInt8}
    (hForm : LenForm d p.length hdr)
    (hValue : ∀ off cap, b.slice off p.length = p →
      (Decoded.mk type (.vBytes ⟨some off, p.length, cap⟩) []).value b = some v) :
    ReadsTo (codecSimpleDecodeHead b) b (fun _ => Stores b v) (hdr ++ p) := by
  refine readsTo_leaf fun s hAt hErr => ?_
  have hFits := hAt.le
  have hLen := b.len_lt
  have hLength : IsLengthDesc d := by
    rcases hd with ⟨rfl, _⟩ | ⟨rfl, _⟩
    · exact Or.inl rfl
    · exact Or.inr (Or.inl rfl)
  obtain ⟨hHere, hPayload⟩ := hAt.append
  obtain ⟨bd, s', hDesc, hRead, hHead, hPos, hOk⟩ :=
    codecSimpleDecodeHead_lenForm .zero hLength hForm hHere hErr
  rw [List.length_append] at hFits
  have hBytes (v₀ : Decoded) (hType : (if v₀.type = .unset then v₀.withType .bytes else v₀).type =
      type) : codecSimpleDecodeBytes b s.enter.next v₀ bd = .leaf (s'.advance p.length)
        (.mk type (.vBytes ⟨some s'.pos, p.length, some p.length⟩) []) := by
    rw [codecSimpleDecodeBytes, hRead]
    dsimp only
    rw [hOk, if_neg (by decide), codecDecodeStateChk_pass (by omega), hType]
  rw [← hPos] at hPayload
  refine ⟨s'.advance p.length, _, ?_, ⟨hValue s'.pos (some p.length) hPayload.slice, ?_⟩, ?_,
    s'.failed_eq_false_iff.mp hOk⟩
  · rw [hHead, codecSimpleDecodeSwitch, hDesc]
    rcases hd with ⟨rfl, rfl⟩ | ⟨rfl, rfl⟩
    · exact hBytes _ rfl
    · exact hBytes _ rfl
  · rw [slices_leaf_iff rfl]
    omega
  · rw [CodecDecodeState.advance_pos_of_lt _ (by omega), hPos, List.length_append, Nat.add_assoc]

theorem readsTo_ext {tag : UInt8} {p hdr : List UInt8} (hForm : LenForm .customExt p.length hdr) :
    ReadsTo (codecSimpleDecodeHead b) b (fun _ => Stores b (.customExt () tag p))
      (hdr ++ tag :: p) := by
  refine readsTo_leaf fun s hAt hErr => ?_
  have hFits := hAt.le
  have hLen := b.len_lt
  obtain ⟨hHere, hTagged⟩ := hAt.append
  obtain ⟨hTag, _, hPayload⟩ := hTagged.cons
  obtain ⟨bd, s', hDesc, hRead, hHead, hPos, hOk⟩ := codecSimpleDecodeHead_lenForm .zero
    (Or.inr (Or.inr (Or.inr (Or.inr rfl)))) hForm hHere hErr
  rw [List.length_append, List.length_cons] at hFits
  have hSize : sizeT (1 + p.length) = 1 + p.length := Nat.mod_eq_of_lt (by omega)
  have hNext : s'.next.pos = s'.pos + 1 := s'.next_pos_of_lt (by omega)
  rw [← hPos] at hTag
  rw [← hPos, ← hNext] at hPayload
  rw [codecSimpleDecodeSwitch, hDesc] at hHead
  dsimp only at hHead
  rw [codecSimpleDecodeExt, hRead] at hHead
  dsimp only at hHead
  rw [hSize, codecDecodeStateChk_pass (by omega)] at hHead
  dsimp only at hHead
  rw [hTag] at hHead
  refine ⟨_, _, hHead, ⟨by rw [Decoded.value, hPayload.slice], ?_⟩, ?_,
    s'.failed_eq_false_iff.mp hOk⟩
  · rw [slices_leaf_iff rfl, hNext]
    omega
  · rw [CodecDecodeState.advance_pos_of_lt _ (by omega), hNext, hPos, List.length_append,
      List.length_cons]
    omega

theorem opens_array {n : Nat} {hdr : List UInt8} (hForm : LenForm .array n hdr) :
    Opens (codecSimpleDecodeHead b) b hdr n intLimit fun es => .mk .array (.vArray n) es := by
  intro s hAt hErr
  obtain ⟨bd, s', hDesc, hRead, hHead, hPos, hOk⟩ := codecSimpleDecodeHead_lenForm .zero
    (Or.inr (Or.inr (Or.inl rfl))) hForm hAt hErr
  rw [codecSimpleDecodeSwitch, hDesc] at hHead
  dsimp only at hHead
  rw [codecSimpleDecodeArray, hRead] at hHead
  dsimp only at hHead
  rw [hOk, if_neg (by decide)] at hHead
  exact ⟨s', hHead, hPos, s'.failed_eq_false_iff.mp hOk⟩

theorem opens_map {n : Nat} {hdr : List UInt8} (hForm : LenForm .map n hdr) :
    Opens (codecSimpleDecodeHead b) b hdr (2 * n) (2 * intLimit) fun es =>
      .mk .map (.vMap n) es := by
  intro s hAt hErr
  obtain ⟨bd, s', hDesc, hRead, hHead, hPos, hOk⟩ := codecSimpleDecodeHead_lenForm .zero
    (Or.inr (Or.inr (Or.inr (Or.inl rfl)))) hForm hAt hErr
  rw [codecSimpleDecodeSwitch, hDesc] at hHead
  dsimp only at hHead
  rw [codecSimpleDecodeMap, hRead] at hHead
  exact ⟨s', hHead, hPos, s'.failed_eq_false_iff.mp hOk⟩

theorem stores_all {ws : List Value} {ds : List Decoded} (h : List.Forall₂ (Stores b) ws ds) :
    Decoded.values b ds = some ws ∧ ∀ r ∈ Decoded.slicesList ds, r.In b.len := by
  induction h with
  | nil => exact ⟨rfl, by simp [Decoded.slicesList]⟩
  | cons hHead _ ih =>
    refine ⟨Decoded.values_cons.mpr ⟨hHead.1, ih.1⟩, ?_⟩
    rw [Decoded.slicesList, List.forall_mem_append]
    exact ⟨hHead.2, ih.2⟩

theorem stores_array {ws : List Value} {ds : List Decoded} (h : List.Forall₂ (Stores b) ws ds) :
    Stores b (.array () ws) (.mk .array (.vArray ws.length) ds) := by
  obtain ⟨hValues, hSlices⟩ := stores_all h
  exact ⟨by simp [Decoded.value, hValues], hSlices⟩

theorem stores_map {kvs : List (Value × Value)} {ds : List Decoded}
    (h : List.Forall₂ (Stores b) (entries kvs) ds) :
    Stores b (.map () kvs) (.mk .map (.vMap kvs.length) ds) := by
  obtain ⟨hValues, hSlices⟩ := stores_all h
  refine ⟨?_, hSlices⟩
  simp [Decoded.value, hValues, entries_length, Decoded.pairUp_entries]

theorem readsTo_of_doc (b : Input) (v : Value) {d : List UInt8} (hDoc : Doc v d) :
    ReadsTo (codecSimpleDecodeHead b) b (fun _ => Stores b v) d := by
  induction v using CodecValue.ind generalizing d with
  | h v ih =>
    have hBool (x : Bool) : (Decoded.mk .bool (.vBool x) []).SlicesIn b.len := slicesIn_leaf rfl
    cases hDoc with
    | nil => exact readsTo_fixed (fun _ => rfl) ⟨rfl, slicesIn_leaf rfl⟩
    | bool x => cases x <;> exact readsTo_fixed (fun _ => rfl) ⟨rfl, hBool _⟩
    | posInt n hdr h => exact readsTo_int (Or.inl ⟨rfl, rfl⟩) h rfl
    | negInt n hdr h => exact readsTo_int (Or.inr ⟨rfl, rfl⟩) h rfl
    | float32 cs h => exact readsTo_float32 h
    | float64 cs h => exact readsTo_float64 h
    | string p hdr h =>
      exact readsTo_bytes (Or.inl ⟨rfl, rfl⟩) h fun off cap hSlice => by
        rw [Decoded.value, hSlice]
    | bytes p hdr h =>
      exact readsTo_bytes (Or.inr ⟨rfl, rfl⟩) h fun off cap hSlice => by
        rw [Decoded.value, hSlice]
    | ext tag p hdr h => exact readsTo_ext h
    | array vs hdr ds hCount h hs =>
      obtain ⟨l, rfl, rfl, hAll⟩ := hs.split
      rw [List.length_map] at h hCount
      refine readsTo_container l (opens_array h) rfl hCount (fun p ds hTrees => ?_) fun x hx =>
        ih x.1 (List.mem_map_of_mem hx) (hAll x hx)
      rw [← List.length_map (f := Prod.fst)]
      exact stores_array (List.forall₂_map_left_iff.mpr (hTrees.forall₂ fun _ _ _ hStores => hStores))
    | map kvs hdr ds hCount h hs =>
      obtain ⟨l, hEntries, rfl, hAll⟩ := hs.split
      have hLength : l.length = 2 * kvs.length := by
        rw [← entries_length kvs, hEntries, List.length_map]
      refine readsTo_container l (opens_map h) hLength (by omega) (fun p ds hTrees => ?_)
        fun x hx => ih x.1 ?_ (hAll x hx)
      · apply stores_map
        rw [hEntries]
        exact List.forall₂_map_left_iff.mpr (hTrees.forall₂ fun _ _ _ hStores => hStores)
      · rw [children, hEntries]
        exact List.mem_map_of_mem hx

end Documents

end CcCommon.Codec.Simple
