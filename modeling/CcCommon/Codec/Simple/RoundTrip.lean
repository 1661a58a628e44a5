import CcCommon.Codec.Reading
import CcCommon.Codec.Simple.DecodeSteps

/-! # codec_simple_decode after codec_simple_encode

The encoder writes a number in full, the decoder takes its leading byte. A
value comes back just when every number in it is recovered from that byte. -/

namespace CcCommon.Codec.Simple

open Util Lib.Bytes Lib.Descent CodecValue

set_option autoImplicit false

variable {μ : Type}

/-- The number that the node writes, if any, is read back. -/
def ReadsBackAt : CodecValue μ → Prop
  | .posInt _ n | .negInt _ n => ReadsBack n.toNat
  | .string _ p | .bytes _ p | .customExt _ _ p => ReadsBack p.length
  | .array _ vs => ReadsBack vs.length
  | .map _ kvs => ReadsBack kvs.length
  | _ => True

section Heads

variable {b : Input} {s : CodecDecodeState}

theorem ofNat_readBack_eq_iff (n : UInt64) :
    UInt64.ofNat (readBack n.toNat) = n ↔ ReadsBack n.toNat := by
  have hBound : readBack n.toNat < 2 ^ 64 := by
    unfold readBack readnValue ofChar
    have := ((digits n.toNat).headD 0).toNat_lt
    split <;> (try split) <;> omega
  rw [← readBack_eq_iff n.toNat_lt, ← UInt64.toNat_inj, UInt64.toNat_ofNat_of_lt' hBound]

theorem codecSimpleDecodeHead_bytes {d : CodecSimpleDescType} {type : CodecValueType}
    (hd : d = .string ∧ type = .string ∨ d = .bytes ∧ type = .bytes) {n : Nat}
    (h : b.At s.pos (lenBytes d.toUInt8 n)) (hErr : s.err = none) :
    ∃ s', s'.pos = s.pos + (lenBytes d.toUInt8 n).length ∧ s'.err = none ∧
      codecSimpleDecodeHead b s .zero = match codecDecodeStateChk b s' (readBack n) with
        | (s'', true) => .leaf s'' (.mk type (.vBytes ⟨none, readBack n, some (readBack n)⟩) [])
        | (s'', false) => .leaf (s''.advance (readBack n))
            (.mk type (.vBytes ⟨some s''.pos, readBack n, some (readBack n)⟩) []) := by
  have hLengthDesc : IsLengthDesc d := by
    rcases hd with ⟨rfl, _⟩ | ⟨rfl, _⟩
    · exact Or.inl rfl
    · exact Or.inr (Or.inl rfl)
  obtain ⟨bd, s', hDesc, hLen, hHead, hPos, hErr'⟩ :=
    codecSimpleDecodeHead_len hLengthDesc .zero h hErr
  have hOk : s'.failed = false := s'.failed_eq_false_iff.mpr hErr'
  refine ⟨s', hPos, hErr', ?_⟩
  rw [hHead, codecSimpleDecodeSwitch, hDesc]
  rcases hd with ⟨rfl, rfl⟩ | ⟨rfl, rfl⟩ <;>
  · dsimp only
    rw [codecSimpleDecodeBytes, hLen]
    dsimp only
    rw [hOk, if_neg (by decide)]
    rfl

theorem codecSimpleDecodeHead_ext {n : Nat} (h : b.At s.pos (lenBytes 248 n)) (hErr : s.err = none) :
    ∃ s', s'.pos = s.pos + (lenBytes 248 n).length ∧ s'.err = none ∧
      codecSimpleDecodeHead b s .zero = match codecDecodeStateChk b s' (sizeT (1 + readBack n)) with
        | (s'', true) => .leaf s'' (.mk .customExt (.vExt none ⟨none, readBack n, none⟩) [])
        | (s'', false) => .leaf (s''.next.advance (readBack n))
            (.mk .customExt (.vExt (some (b.get s''.pos)) ⟨some s''.next.pos, readBack n, none⟩) []) := by
  obtain ⟨bd, s', hDesc, hLen, hHead, hPos, hErr'⟩ := codecSimpleDecodeHead_len
    (Or.inr (Or.inr (Or.inr (Or.inr rfl)))) .zero h hErr
  refine ⟨s', hPos, hErr', ?_⟩
  rw [hHead, codecSimpleDecodeSwitch, hDesc]
  dsimp only
  rewrite [codecSimpleDecodeExt, hLen]
  rfl

theorem codecSimpleDecodeHead_array {n : Nat} (h : b.At s.pos (lenBytes 232 n))
    (hErr : s.err = none) :
    ∃ s', s'.pos = s.pos + (lenBytes 232 n).length ∧ s'.err = none ∧
      codecSimpleDecodeHead b s .zero =
        .branch s' (readBack n) intLimit fun vs => .mk .array (.vArray (readBack n)) vs := by
  obtain ⟨bd, s', hDesc, hLen, hHead, hPos, hErr'⟩ := codecSimpleDecodeHead_len
    (Or.inr (Or.inr (Or.inl rfl))) .zero h hErr
  have hOk : s'.failed = false := s'.failed_eq_false_iff.mpr hErr'
  refine ⟨s', hPos, hErr', ?_⟩
  rw [hHead, codecSimpleDecodeSwitch, hDesc]
  dsimp only
  rw [codecSimpleDecodeArray, hLen]
  dsimp only
  rw [hOk, if_neg (by decide)]

theorem codecSimpleDecodeHead_map {n : Nat} (h : b.At s.pos (lenBytes 240 n))
    (hErr : s.err = none) :
    ∃ s', s'.pos = s.pos + (lenBytes 240 n).length ∧ s'.err = none ∧
      codecSimpleDecodeHead b s .zero = .branch s' (2 * readBack n) (2 * intLimit) fun vs =>
        .mk .map (.vMap (readBack n)) vs := by
  obtain ⟨bd, s', hDesc, hLen, hHead, hPos, hErr'⟩ := codecSimpleDecodeHead_len
    (Or.inr (Or.inr (Or.inr (Or.inl rfl)))) .zero h hErr
  refine ⟨s', hPos, hErr', ?_⟩
  rw [hHead, codecSimpleDecodeSwitch, hDesc]
  dsimp only
  rw [codecSimpleDecodeMap, hLen]

end Heads

/-! ## Values that come back -/

theorem readsBack_bytes {b : Input} {d : CodecSimpleDescType} {type : CodecValueType}
    (hd : d = .string ∧ type = .string ∨ d = .bytes ∧ type = .bytes) {p : List UInt8}
    (hp : ReadsBack p.length) (s : CodecDecodeState)
    (h : b.At s.pos (lenBytes d.toUInt8 p.length ++ p)) (hErr : s.err = none) :
    ∃ s' off, codecSimpleDecodeHead b s .zero =
        .leaf s' (.mk type (.vBytes ⟨some off, p.length, some p.length⟩) []) ∧
      b.slice off p.length = p ∧
      s'.pos = s.pos + (lenBytes d.toUInt8 p.length ++ p).length ∧ s'.err = none := by
  obtain ⟨hLen, hPayload⟩ := h.append
  have hFits := h.le
  have hBound := b.len_lt
  obtain ⟨s₁, hPos, hErr₁, hHead⟩ := codecSimpleDecodeHead_bytes hd hLen hErr
  rw [List.length_append] at hFits ⊢
  rw [(readBack_eq_iff (by omega)).mpr hp, codecDecodeStateChk_pass (by omega)] at hHead
  rw [← hPos] at hPayload
  refine ⟨_, _, hHead, hPayload.slice, ?_, hErr₁⟩
  rw [CodecDecodeState.advance_pos_of_lt _ (by omega), hPos]
  omega

theorem readsBack_ext {b : Input} {tag : UInt8} {p : List UInt8} (hp : ReadsBack p.length)
    (s : CodecDecodeState) (h : b.At s.pos (lenBytes 248 p.length ++ tag :: p))
    (hErr : s.err = none) :
    ∃ s' off, codecSimpleDecodeHead b s .zero =
        .leaf s' (.mk .customExt (.vExt (some tag) ⟨some off, p.length, none⟩) []) ∧
      b.slice off p.length = p ∧
      s'.pos = s.pos + (lenBytes 248 p.length ++ tag :: p).length ∧ s'.err = none := by
  obtain ⟨hLen, hTagged⟩ := h.append
  obtain ⟨hTag, _, hPayload⟩ := hTagged.cons
  have hFits := h.le
  have hBound := b.len_lt
  obtain ⟨s₁, hPos, hErr₁, hHead⟩ := codecSimpleDecodeHead_ext hLen hErr
  rw [List.length_append, List.length_cons] at hFits ⊢
  have hSize : sizeT (1 + p.length) = 1 + p.length := Nat.mod_eq_of_lt (by omega)
  have hNext : s₁.next.pos = s₁.pos + 1 := s₁.next_pos_of_lt (by omega)
  rw [(readBack_eq_iff (by omega)).mpr hp, hSize, codecDecodeStateChk_pass (by omega)] at hHead
  dsimp only at hHead
  rw [hPos, hTag] at hHead
  rw [← hPos, ← hNext] at hPayload
  refine ⟨_, _, hHead, hPayload.slice, ?_, hErr₁⟩
  rw [CodecDecodeState.advance_pos_of_lt _ (by omega), hNext, hPos]
  omega

/-- The decoder undoes the encoder on the values whose numbers are all read back. -/
theorem decodes_of_readsBack (b : Input) (v : CodecValue μ) (hFloats : v.All fun w => ¬ w.IsFloat)
    (hCounts : IntCounts v) (hReads : v.All ReadsBackAt) :
    ReadsAs (codecSimpleDecodeHead b) b v.erase (simpleBytes v) := by
  induction v using CodecValue.ind with
  | h v ih =>
    have hInner := fun c hc => ih c hc (hFloats.inner c hc) (hCounts.inner c hc) (hReads.inner c hc)
    have hRoot := hReads.root
    have hCount : v.count < intLimit := hCounts.root
    cases v with
    | nil m =>
      refine readsTo_leaf fun s hAt hErr =>
        ⟨s.enter.next, .mk .nil (.vNil true) [], ?_, rfl, ?_, hErr⟩
      · exact (codecSimpleDecodeHead_at _ hAt).1
      · exact (codecSimpleDecodeHead_at .zero hAt).2
    | bool m x =>
      refine readsTo_leaf fun s hAt hErr =>
        ⟨s.enter.next, .mk .bool (.vBool x) [], ?_, rfl, ?_, hErr⟩
      · rw [(codecSimpleDecodeHead_at _ hAt).1]
        cases x <;> rfl
      · exact (codecSimpleDecodeHead_at .zero hAt).2
    | posInt m n =>
      refine readsTo_leaf fun s hAt hErr => ?_
      obtain ⟨s', hHead, hPos, hErr'⟩ :=
        codecSimpleDecodeHead_int (Or.inl ⟨rfl, rfl⟩) .zero hAt hErr
      rw [(ofNat_readBack_eq_iff n).mpr hRoot] at hHead
      exact ⟨s', _, hHead, rfl, hPos, hErr'⟩
    | negInt m n =>
      refine readsTo_leaf fun s hAt hErr => ?_
      obtain ⟨s', hHead, hPos, hErr'⟩ :=
        codecSimpleDecodeHead_int (Or.inr ⟨rfl, rfl⟩) .zero hAt hErr
      rw [(ofNat_readBack_eq_iff n).mpr hRoot] at hHead
      exact ⟨s', _, hHead, rfl, hPos, hErr'⟩
    | float32 m bits => exact absurd trivial hFloats.root
    | float64 m bits => exact absurd trivial hFloats.root
    | string m p =>
      refine readsTo_leaf fun s hAt hErr => ?_
      obtain ⟨s', off, hHead, hSlice, hPos, hErr'⟩ :=
        readsBack_bytes (Or.inl ⟨rfl, rfl⟩) hRoot s hAt hErr
      exact ⟨s', _, hHead, by rw [Decoded.value, hSlice]; rfl, hPos, hErr'⟩
    | bytes m p =>
      refine readsTo_leaf fun s hAt hErr => ?_
      obtain ⟨s', off, hHead, hSlice, hPos, hErr'⟩ :=
        readsBack_bytes (Or.inr ⟨rfl, rfl⟩) hRoot s hAt hErr
      exact ⟨s', _, hHead, by rw [Decoded.value, hSlice]; rfl, hPos, hErr'⟩
    | customExt m tag p =>
      refine readsTo_leaf fun s hAt hErr => ?_
      obtain ⟨s', off, hHead, hSlice, hPos, hErr'⟩ := readsBack_ext hRoot s hAt hErr
      exact ⟨s', _, hHead, by rw [Decoded.value, hSlice]; rfl, hPos, hErr'⟩
    | array m vs =>
      have hSize : vs.length < 2 ^ 64 := Nat.lt_trans hCount (by decide)
      rw [simpleBytes, simpleBytesList_eq, erase, eraseList_eq]
      refine readsAs_array vs hCount (fun s hAt hErr => ?_) hInner
      obtain ⟨s₁, hPos, hErr₁, hHead⟩ := codecSimpleDecodeHead_array hAt hErr
      rw [(readBack_eq_iff hSize).mpr hRoot] at hHead
      exact ⟨s₁, hHead, hPos, hErr₁⟩
    | map m kvs =>
      have hCount : kvs.length < intLimit := hCount
      have hSize : kvs.length < 2 ^ 64 := Nat.lt_trans hCount (by decide)
      rw [simpleBytes, simpleBytesPairs_eq, erase]
      refine readsAs_map (entries kvs) (entries_erasePairs kvs) (by rwa [erasePairs_length])
        (fun s hAt hErr => ?_) hInner
      obtain ⟨s₁, hPos, hErr₁, hHead⟩ := codecSimpleDecodeHead_map hAt hErr
      rw [(readBack_eq_iff hSize).mpr hRoot] at hHead
      rw [erasePairs_length]
      exact ⟨s₁, hHead, hPos, hErr₁⟩

/-! ## No other value does -/

/-- A call on the bytes of `v` that returns `v` read every number back. -/
def Reflects (b : Input) (v : CodecValue μ) : Prop :=
  ∀ s s' d, b.At s.pos (simpleBytes v) → s.err = none →
    Returns (codecSimpleScheme b) s .zero s' d → s'.err = none → d.value b = some v.erase →
    v.All ReadsBackAt ∧ s'.pos = s.pos + (simpleBytes v).length

theorem Reflects.chain {b : Input} (vs : List (CodecValue μ)) (h : ∀ v ∈ vs, Reflects b v)
    {s s' : CodecDecodeState} {ds : List Decoded} (hAt : b.At s.pos (vs.flatMap simpleBytes))
    (hErr : s.err = none) (hChain : Chain (codecSimpleScheme b) s ds s')
    (hValues : Decoded.values b ds = some (vs.map erase)) :
    (∀ v ∈ vs, v.All ReadsBackAt) ∧ s'.pos = s.pos + (vs.flatMap simpleBytes).length := by
  induction vs generalizing s ds with
  | nil =>
    have hNil := Decoded.values_length hValues
    rw [List.length_map, List.length_nil] at hNil
    rw [List.length_eq_zero_iff.mp hNil.symm] at hChain
    have hSame : s = s' := hChain
    subst hSame
    exact ⟨by simp, rfl⟩
  | cons v vs ih =>
    cases ds with
    | nil => cases hValues
    | cons d ds =>
      obtain ⟨s₁, hRet, hOk, hRest⟩ := hChain
      obtain ⟨hHead, hTail⟩ := Decoded.values_cons.mp hValues
      rw [List.flatMap_cons] at hAt ⊢
      obtain ⟨hHere, hBehind⟩ := hAt.append
      have hErr₁ := s₁.failed_eq_false_iff.mp hOk
      obtain ⟨hAll, hPos⟩ := h v List.mem_cons_self s s₁ d hHere hErr hRet hErr₁ hHead
      rw [← hPos] at hBehind
      obtain ⟨hAlls, hPos'⟩ :=
        ih (fun w hw => h w (List.mem_cons_of_mem _ hw)) hBehind hErr₁ hRest hTail
      constructor
      · intro w hw
        rcases List.mem_cons.mp hw with hw | hw
        · rwa [hw]
        · exact hAlls w hw
      · rw [hPos', hPos, List.length_append]
        omega

theorem reflects_of_leaf {b : Input} {v : CodecValue μ} (hv : v.children = [])
    (h : ∀ s, b.At s.pos (simpleBytes v) → s.err = none →
      ∃ s' d, codecSimpleDecodeHead b s .zero = .leaf s' d ∧
        (s'.err = none → d.value b = some v.erase →
          ReadsBackAt v ∧ s'.pos = s.pos + (simpleBytes v).length)) : Reflects b v := by
  intro s s' d hAt hErr hRet hErr' hValue
  obtain ⟨s₁, d₁, hHead, hBack⟩ := h s hAt hErr
  obtain ⟨rfl, rfl⟩ := returns_leaf_inv hHead hRet
  obtain ⟨hReads, hPos⟩ := hBack hErr' hValue
  exact ⟨.node hReads (by simp [hv]), hPos⟩

theorem reflects_of_payload {b : Input} {d : CodecSimpleDescType} {type : CodecValueType}
    (hd : d = .string ∧ type = .string ∨ d = .bytes ∧ type = .bytes) {p : List UInt8}
    (s : CodecDecodeState) (h : b.At s.pos (lenBytes d.toUInt8 p.length ++ p))
    (hErr : s.err = none) :
    ∃ s' v, codecSimpleDecodeHead b s .zero = .leaf s' v ∧
      (s'.err = none → v.value b = some (.string () p) ∨ v.value b = some (.bytes () p) →
        ReadsBack p.length ∧ s'.pos = s.pos + (lenBytes d.toUInt8 p.length ++ p).length) := by
  have hFits := h.le
  have hBound := b.len_lt
  rw [List.length_append] at hFits ⊢
  obtain ⟨s₁, hPos, hErr₁, hHead⟩ := codecSimpleDecodeHead_bytes hd h.append.1 hErr
  rw [hHead]
  rcases codecDecodeStateChk_cases b s₁ (readBack p.length) with ⟨hPass, _⟩ | ⟨msg, hStop, _⟩
  · rw [hPass]
    refine ⟨_, _, rfl, fun _ hValue => ?_⟩
    have hSlice : b.slice s₁.pos (readBack p.length) = p := by
      rcases hd with ⟨_, rfl⟩ | ⟨_, rfl⟩ <;> simpa [Decoded.value] using hValue
    have hLength : readBack p.length = p.length := by
      have := congrArg List.length hSlice
      rwa [Input.slice_length] at this
    refine ⟨(readBack_eq_iff (by omega)).mp hLength, ?_⟩
    rw [hLength, CodecDecodeState.advance_pos_of_lt _ (by omega), hPos]
    omega
  · rw [hStop]
    exact ⟨_, _, rfl, fun hOk => by cases hOk⟩

theorem reflects_of_ext {b : Input} {tag : UInt8} {p : List UInt8} (s : CodecDecodeState)
    (h : b.At s.pos (lenBytes 248 p.length ++ tag :: p)) (hErr : s.err = none) :
    ∃ s' v, codecSimpleDecodeHead b s .zero = .leaf s' v ∧
      (s'.err = none → v.value b = some (.customExt () tag p) →
        ReadsBack p.length ∧ s'.pos = s.pos + (lenBytes 248 p.length ++ tag :: p).length) := by
  have hFits := h.le
  have hBound := b.len_lt
  rw [List.length_append, List.length_cons] at hFits ⊢
  obtain ⟨s₁, hPos, hErr₁, hHead⟩ := codecSimpleDecodeHead_ext h.append.1 hErr
  rw [hHead]
  rcases codecDecodeStateChk_cases b s₁ (sizeT (1 + readBack p.length)) with
    ⟨hPass, _⟩ | ⟨msg, hStop, _⟩
  · rw [hPass]
    refine ⟨_, _, rfl, fun _ hValue => ?_⟩
    have hSlice : b.slice s₁.next.pos (readBack p.length) = p := by
      simp only [Decoded.value, Option.some.injEq, CodecValue.customExt.injEq] at hValue
      exact hValue.2.2
    have hLength : readBack p.length = p.length := by
      have := congrArg List.length hSlice
      rwa [Input.slice_length] at this
    have hNext : s₁.next.pos = s₁.pos + 1 := s₁.next_pos_of_lt (by omega)
    refine ⟨(readBack_eq_iff (by omega)).mp hLength, ?_⟩
    rw [hLength, CodecDecodeState.advance_pos_of_lt _ (by omega), hNext, hPos]
    omega
  · rw [hStop]
    exact ⟨_, _, rfl, fun hOk => by cases hOk⟩

theorem reflects_of_branch {b : Input} {v : CodecValue μ} {header : List UInt8} {n l : Nat}
    {c : List Decoded → Decoded} (hBytes : simpleBytes v = header ++ v.children.flatMap simpleBytes)
    (hHead : ∀ s, b.At s.pos header → s.err = none → ∃ s₁, s₁.pos = s.pos + header.length ∧
      s₁.err = none ∧ codecSimpleDecodeHead b s .zero = .branch s₁ n l c)
    (hValues : ∀ ds, (c ds).value b = some v.erase →
      Decoded.values b ds = some (v.children.map erase))
    (hCount : v.children.length = n → ReadsBackAt v) (hInner : ∀ c ∈ v.children, Reflects b c) :
    Reflects b v := by
  intro s s' d hAt hErr hRet hErr' hValue
  rw [hBytes] at hAt ⊢
  obtain ⟨hHere, hRest⟩ := hAt.append
  obtain ⟨s₁, hPos, hErr₁, hOpen⟩ := hHead s hHere hErr
  rw [← hPos] at hRest
  obtain ⟨s₂, ds, rfl, rfl, hLength, hChain⟩ := returns_branch_inv hOpen (fun _ => rfl) hRet
    (s'.failed_eq_false_iff.mpr hErr')
  have hElems := hValues ds hValue
  obtain ⟨hAll, hPos'⟩ := Reflects.chain v.children hInner hRest hErr₁ hChain hElems
  have hSame : v.children.length = n := by
    rw [← hLength, ← Decoded.values_length hElems, List.length_map]
  refine ⟨.node (hCount hSame) hAll, ?_⟩
  rw [List.length_append, ← Nat.add_assoc, ← hPos]
  exact hPos'

theorem reflects (b : Input) (v : CodecValue μ) (hFloats : v.All fun w => ¬ w.IsFloat)
    (hCounts : IntCounts v) : Reflects b v := by
  induction v using CodecValue.ind with
  | h v ih =>
    have hInner := fun c hc => ih c hc (hFloats.inner c hc) (hCounts.inner c hc)
    have hCount : v.count < intLimit := hCounts.root
    cases v with
    | nil m =>
      refine reflects_of_leaf rfl fun s hAt _ => ?_
      obtain ⟨hHead, hPos⟩ := codecSimpleDecodeHead_at .zero hAt
      exact ⟨_, _, hHead, fun _ _ => ⟨trivial, hPos⟩⟩
    | bool m x =>
      refine reflects_of_leaf rfl fun s hAt _ => ?_
      obtain ⟨hHead, hPos⟩ := codecSimpleDecodeHead_at .zero hAt
      refine ⟨s.enter.next, .mk .bool (.vBool x) [], ?_, fun _ _ => ⟨trivial, hPos⟩⟩
      rw [hHead]
      cases x <;> rfl
    | posInt m n =>
      refine reflects_of_leaf rfl fun s hAt hErr => ?_
      obtain ⟨s', hHead, hPos, _⟩ := codecSimpleDecodeHead_int (Or.inl ⟨rfl, rfl⟩) .zero hAt hErr
      refine ⟨s', _, hHead, fun _ hValue => ⟨(ofNat_readBack_eq_iff n).mp ?_, hPos⟩⟩
      simpa [Decoded.value, erase] using hValue
    | negInt m n =>
      refine reflects_of_leaf rfl fun s hAt hErr => ?_
      obtain ⟨s', hHead, hPos, _⟩ := codecSimpleDecodeHead_int (Or.inr ⟨rfl, rfl⟩) .zero hAt hErr
      refine ⟨s', _, hHead, fun _ hValue => ⟨(ofNat_readBack_eq_iff n).mp ?_, hPos⟩⟩
      simpa [Decoded.value, erase] using hValue
    | float32 m bits => exact absurd trivial hFloats.root
    | float64 m bits => exact absurd trivial hFloats.root
    | string m p =>
      refine reflects_of_leaf rfl fun s hAt hErr => ?_
      obtain ⟨s', d, hHead, hBack⟩ := reflects_of_payload (Or.inl ⟨rfl, rfl⟩) s hAt hErr
      exact ⟨s', d, hHead, fun hOk hValue => hBack hOk (Or.inl hValue)⟩
    | bytes m p =>
      refine reflects_of_leaf rfl fun s hAt hErr => ?_
      obtain ⟨s', d, hHead, hBack⟩ := reflects_of_payload (Or.inr ⟨rfl, rfl⟩) s hAt hErr
      exact ⟨s', d, hHead, fun hOk hValue => hBack hOk (Or.inr hValue)⟩
    | customExt m tag p =>
      exact reflects_of_leaf rfl fun s hAt hErr => reflects_of_ext s hAt hErr
    | array m vs =>
      refine reflects_of_branch (by rw [simpleBytes, simpleBytesList_eq]; rfl)
        (fun s => codecSimpleDecodeHead_array) (fun ds hValue => ?_) (fun hLength => ?_) hInner
      · obtain ⟨ws, hErased, _, hWs⟩ := Decoded.value_array hValue
        rw [hWs, ← (CodecValue.array.inj hErased).2, eraseList_eq]
        rfl
      · exact (readBack_eq_iff (Nat.lt_trans hCount (by decide))).mp hLength.symm
    | map m kvs =>
      refine reflects_of_branch (by rw [simpleBytes, simpleBytesPairs_eq]; rfl)
        (fun s => codecSimpleDecodeHead_map) (fun ds hValue => ?_) (fun hLength => ?_) hInner
      · obtain ⟨kws, hErased, _, hKws⟩ := Decoded.value_map hValue
        rw [hKws, ← (CodecValue.map.inj hErased).2, entries_erasePairs]
        rfl
      · have hTwice : (entries kvs).length = 2 * readBack kvs.length := hLength
        rw [entries_length] at hTwice
        have hSame : readBack kvs.length = kvs.length := by omega
        exact (readBack_eq_iff (Nat.lt_trans hCount (by decide))).mp hSame

/-! ## Encode, then decode -/

/-- The decoder, given what the encoder appends for `v` and then `r`, returns
`v` without an error and stops in front of `r`. -/
def RoundTrips (fresh : Nat → Nat → UInt8) (e : EncodeState) (v : CodecValue μ) (r : List UInt8)
    (beyond : Nat → UInt8) : Prop :=
  ∃ e', codecSimpleEncode fresh v e = some e' ∧ e'.err = none ∧
    ∃ hFits, let b : Input := ⟨appended e.b e'.b ++ r, beyond, hFits⟩
      ∃ fuel s d, codecSimpleDecode b fuel .zero = .done s d ∧ s.err = none ∧
        d.value b = some v.erase ∧ s.pos = (appended e.b e'.b).length

section RoundTrip

variable (fresh : Nat → Nat → UInt8) {e : EncodeState} {v : CodecValue μ} {r : List UInt8}
  {beyond : Nat → UInt8}

theorem roundTrips_of_readsBack (hFloats : v.All fun w => ¬ w.IsFloat) (hCounts : IntCounts v)
    (hb : e.b.Valid) (hErr : e.err = none)
    (hSize : e.b.len + ((simpleBytes v).length + r.length) < 2 ^ 63) (hReads : v.All ReadsBackAt) :
    RoundTrips fresh e v r beyond := by
  obtain ⟨e', hRun, hErr', hExt⟩ := codecSimpleEncode_spec fresh v hCounts e hb hErr (by omega)
  have hBytes := hExt.appended hb
  have hFits : (appended e.b e'.b ++ r).length < 2 ^ 63 := by
    rw [hBytes, List.length_append]
    omega
  have hStart : (⟨appended e.b e'.b ++ r, beyond, hFits⟩ : Input).At 0 (simpleBytes v) :=
    Input.At.start (congrArg (· ++ r) hBytes)
  obtain ⟨s, d, ⟨fuel, hDone⟩, hValue, hPos, hOk⟩ :=
    decodes_of_readsBack _ v hFloats hCounts hReads .init hStart rfl
  refine ⟨e', hRun, hErr', hFits, fuel, s, d, hDone, hOk, hValue, ?_⟩
  rw [hPos, hBytes]
  exact Nat.zero_add _

theorem readsBack_of_roundTrips (hFloats : v.All fun w => ¬ w.IsFloat) (hCounts : IntCounts v)
    (hb : e.b.Valid) (hErr : e.err = none) (hSize : e.b.len + (simpleBytes v).length < 2 ^ 63)
    (h : RoundTrips fresh e v r beyond) : v.All ReadsBackAt := by
  obtain ⟨e', hRun, _, hFits, fuel, s, d, hDone, hOk, hValue, _⟩ := h
  obtain ⟨e'', hRun', _, hExt⟩ := codecSimpleEncode_spec fresh v hCounts e hb hErr hSize
  rw [hRun] at hRun'
  cases hRun'
  have hStart : (⟨appended e.b e'.b ++ r, beyond, hFits⟩ : Input).At 0 (simpleBytes v) :=
    Input.At.start (congrArg (· ++ r) (hExt.appended hb))
  exact (reflects _ v hFloats hCounts .init s d hStart rfl ⟨fuel, hDone⟩ hOk hValue).1

/-- A value without floats round trips if and only if all its numbers are read back. -/
theorem codecSimple_roundTrips_iff (hFloats : v.All fun w => ¬ w.IsFloat) (hCounts : IntCounts v)
    (hb : e.b.Valid) (hErr : e.err = none)
    (hSize : e.b.len + ((simpleBytes v).length + r.length) < 2 ^ 63) :
    RoundTrips fresh e v r beyond ↔ v.All ReadsBackAt := by
  constructor
  · intro h
    exact readsBack_of_roundTrips fresh hFloats hCounts hb hErr (by omega) h
  · intro h
    exact roundTrips_of_readsBack fresh hFloats hCounts hb hErr hSize h

end RoundTrip

theorem codecSimple_roundTrips_iff_array :
    RoundTrips (fun _ _ => 0) ⟨sliceBytesZero, none⟩ (.array () [.posInt () 7]) [1] (fun _ => 0) ↔
      (CodecValue.array () [.posInt () 7]).All ReadsBackAt := by
  have hInt : ∀ c ∈ (CodecValue.array () [.posInt () 7]).children, c = .posInt () 7 := by
    simp [children]
  refine codecSimple_roundTrips_iff _ (.node id ?_) (.node (by decide) ?_) sliceBytesZero_valid rfl
    (by decide)
  · intro c hc
    rw [hInt c hc]
    exact .leaf id rfl
  · intro c hc
    rw [hInt c hc]
    exact .leaf (by decide) rfl

/-- 256 is written as the bytes 1 and 0, and read as the first of them. -/
theorem codecSimple_not_roundTrips_256 : (CodecValue.posInt () 256).All (fun w => ¬ w.IsFloat) ∧
    IntCounts (CodecValue.posInt () 256) ∧
    ¬ RoundTrips (fun _ _ => 0) ⟨sliceBytesZero, none⟩ (.posInt () 256) [] (fun _ => 0) := by
  have hFloats : (CodecValue.posInt () 256).All (fun w => ¬ w.IsFloat) :=
    .leaf id rfl
  have hCounts : IntCounts (CodecValue.posInt () 256) := .leaf (by decide) rfl
  refine ⟨hFloats, hCounts, fun h => ?_⟩
  have hReads := readsBack_of_roundTrips _ hFloats hCounts sliceBytesZero_valid rfl (by decide) h
  have hRoot : ReadsBack 256 := hReads.root
  unfold ReadsBack at hRoot
  omega

end CcCommon.Codec.Simple
