import CcCommon.Codec.Binc.Reflect

/-! # The language of codec_binc_decode

Besides the documents, which carry their floats in eight bytes, the decoder
takes a float from four bytes, or from up to eight counted ones of which it
uses four. Nothing else is read as a value. -/

namespace CcCommon.Codec.Binc

open Util Lib.Bytes Lib.Descent CodecValue

set_option autoImplicit false

mutual
inductive Accepted : Value → List UInt8 → Prop where
  | doc (v : Value) (bs : List UInt8) (hCounts : v.IntCounts) (h : Doc v bs) : Accepted v bs
  | float32 (ds : List UInt8) (h : ds.length = 4) :
    Accepted (.float64 () (float64OfFloat32 (leNat ds))) (bincDesc .float 1 :: ds)
  | pruned32 (ds : List UInt8) (h : ds.length ≤ 8) :
    Accepted (.float64 () (float64OfFloat32
      (leNat ((ds ++ List.replicate (8 - ds.length) 0).take 4))))
      (bincDesc .float 9 :: UInt8.ofNat ds.length :: ds)
  | array (vs : List Value) (hdr ds : List UInt8) (hCount : vs.length < intLimit)
    (h : LenForm .array vs.length hdr) (hs : AcceptedAll vs ds) :
    Accepted (.array () vs) (hdr ++ ds)
  | map (kvs : List (Value × Value)) (hdr ds : List UInt8) (hCount : kvs.length < intLimit)
    (h : LenForm .map kvs.length hdr) (hs : AcceptedAll (entries kvs) ds) :
    Accepted (.map () kvs) (hdr ++ ds)

inductive AcceptedAll : List Value → List UInt8 → Prop where
  | nil : AcceptedAll [] []
  | cons (v : Value) (vs : List Value) (d ds : List UInt8) (h : Accepted v d)
    (hs : AcceptedAll vs ds) : AcceptedAll (v :: vs) (d ++ ds)
end

theorem AcceptedAll.split {vs : List Value} {ds : List UInt8} (h : AcceptedAll vs ds) :
    ∃ l : List (Value × List UInt8), vs = l.map Prod.fst ∧ ds = l.flatMap Prod.snd ∧
      ∀ x ∈ l, Accepted x.1 x.2 := by
  induction vs generalizing ds with
  | nil =>
    cases h
    exact ⟨[], rfl, rfl, by simp⟩
  | cons v vs ih =>
    cases h with
    | cons _ _ d ds hHead hTail =>
      obtain ⟨l, rfl, rfl, hAll⟩ := ih hTail
      refine ⟨(v, d) :: l, rfl, rfl, ?_⟩
      intro x hx
      cases List.mem_cons.mp hx with
      | inl hSame =>
        subst hSame
        exact hHead
      | inr hRest => exact hAll x hRest

/-! ## The scratch that a float is taken from -/

section Scratch

variable {b : Input} {s : CodecDecodeState} {vs : Nat}

theorem floatPre_plain (hBit : vs &&& 0x8 = 0) {k : Nat} (hFits : s.pos + k < 2 ^ 64) :
    (codecBincDecodeFloatPre b s vs k).x = b.slice s.pos k ++ List.replicate (8 - k) 0 ∧
      (codecBincDecodeFloatPre b s vs k).pos = s.pos + k ∧
      (codecBincDecodeFloatPre b s vs k).err = s.err := by
  rw [codecBincDecodeFloatPre, if_pos hBit]
  refine ⟨?_, copyToX_pos (s := { s with x := List.replicate 8 0 }) hFits, rfl⟩
  simp [copyToX]

theorem floatPre_counted (hBit : vs &&& 0x8 ≠ 0) (hFits : s.pos + 9 < 2 ^ 64)
    (hCount : (b.get s.pos).toNat ≤ 8) (defLen : Nat) :
    (codecBincDecodeFloatPre b s vs defLen).x = b.slice (s.pos + 1) (b.get s.pos).toNat ++
        List.replicate (8 - (b.get s.pos).toNat) 0 ∧
      (codecBincDecodeFloatPre b s vs defLen).pos = s.pos + 1 + (b.get s.pos).toNat ∧
      (codecBincDecodeFloatPre b s vs defLen).err = s.err := by
  let t : CodecDecodeState := CodecDecodeState.next { s with x := List.replicate 8 0 }
  have hNext : t.pos = s.pos + 1 :=
    CodecDecodeState.next_pos_of_lt _ (show s.pos + 1 < 2 ^ 64 by omega)
  have hRun : codecBincDecodeFloatPre b s vs defLen = copyToX b t 0 (b.get s.pos).toNat := by
    rw [codecBincDecodeFloatPre, if_neg hBit]
    dsimp only
    rw [if_neg (Nat.not_lt.mpr hCount)]
  rw [hRun]
  refine ⟨?_, ?_, rfl⟩
  · simp [copyToX, hNext]
  · rw [copyToX_pos (by omega), hNext]

theorem floatPre_stop (hBit : vs &&& 0x8 ≠ 0) (hCount : 8 < (b.get s.pos).toNat) (defLen : Nat) :
    (codecBincDecodeFloatPre b s vs defLen).err ≠ none := by
  rw [codecBincDecodeFloatPre, if_neg hBit]
  dsimp only
  rw [if_pos hCount]
  simp

theorem codecBincDecodeFloat_narrow (hKind : vs &&& 0x7 = 1)
    (hOk : (codecBincDecodeFloatPre b s vs 4).err = none) :
    codecBincDecodeFloat b s vs = (codecBincDecodeFloatPre b s vs 4,
      float64OfFloat32 (leNat ((codecBincDecodeFloatPre b s vs 4).x.take 4))) := by
  have hGoes := (codecBincDecodeFloatPre b s vs 4).failed_eq_false_iff.mpr hOk
  simp only [codecBincDecodeFloat, hKind]
  rw [hGoes, if_neg (by decide)]

theorem codecBincDecodeFloat_wide (hKind : vs &&& 0x7 = 2)
    (hOk : (codecBincDecodeFloatPre b s vs 8).err = none) :
    codecBincDecodeFloat b s vs = (codecBincDecodeFloatPre b s vs 8,
      UInt64.ofNat (leNat (codecBincDecodeFloatPre b s vs 8).x)) := by
  have hGoes := (codecBincDecodeFloatPre b s vs 8).failed_eq_false_iff.mpr hOk
  simp only [codecBincDecodeFloat, hKind]
  rw [hGoes, if_neg (by decide)]

/-- A float comes from its scratch, or there is an error. -/
theorem codecBincDecodeFloat_ok (hOk : (codecBincDecodeFloat b s vs).1.err = none) :
    (vs &&& 0x7 = 1 ∧ (codecBincDecodeFloatPre b s vs 4).err = none) ∨
      vs &&& 0x7 = 2 ∧ (codecBincDecodeFloatPre b s vs 8).err = none := by
  unfold codecBincDecodeFloat at hOk
  split at hOk
  · rename_i hKind
    refine Or.inl ⟨hKind, ?_⟩
    dsimp only at hOk
    split at hOk <;> exact hOk
  · rename_i hKind
    refine Or.inr ⟨hKind, ?_⟩
    dsimp only at hOk
    split at hOk <;> exact hOk
  · cases hOk

/-- What the scratch was filled with. -/
theorem floatPre_ok (hFits : s.pos + 9 < 2 ^ 64) {k : Nat} (hk : k ≤ 8)
    (hOk : (codecBincDecodeFloatPre b s vs k).err = none) :
    (vs &&& 0x8 = 0 ∧ (codecBincDecodeFloatPre b s vs k).x =
        b.slice s.pos k ++ List.replicate (8 - k) 0 ∧
      (codecBincDecodeFloatPre b s vs k).pos = s.pos + k) ∨
    ∃ l, vs &&& 0x8 ≠ 0 ∧ l ≤ 8 ∧ b.get s.pos = UInt8.ofNat l ∧
      (codecBincDecodeFloatPre b s vs k).x =
        b.slice (s.pos + 1) l ++ List.replicate (8 - l) 0 ∧
      (codecBincDecodeFloatPre b s vs k).pos = s.pos + (l + 1) := by
  by_cases hBit : vs &&& 0x8 = 0
  · obtain ⟨hX, hPos, _⟩ := floatPre_plain (b := b) hBit (s := s) (k := k) (by omega)
    exact Or.inl ⟨hBit, hX, hPos⟩
  · obtain hStop | hCount := Nat.lt_or_ge 8 (b.get s.pos).toNat
    · exact absurd hOk (floatPre_stop hBit hStop k)
    · obtain ⟨hX, hPos, _⟩ := floatPre_counted hBit hFits hCount k
      refine Or.inr ⟨_, hBit, hCount, by simp, hX, ?_⟩
      rw [hPos]
      omega

end Scratch

/-! ## Reading what is accepted -/

section Reads

variable {b : Input}

theorem readsAs_float32 {ds : List UInt8} (hFour : ds.length = 4) :
    ReadsAs (codecBincDecodeHead b) b (.float64 () (float64OfFloat32 (leNat ds)))
      (bincDesc .float 1 :: ds) := by
  refine readsTo_leaf fun s hAt hErr => ?_
  have hLen := b.len_lt
  have hFits := hAt.le
  obtain ⟨hHead, hNext, hRest⟩ := codecBincDecodeHead_at .zero (by decide) hAt
  rw [List.length_cons] at hFits
  have hBit : 1 &&& 0x8 = 0 := rfl
  obtain ⟨hX, hPos, hSame⟩ :=
    floatPre_plain (b := b) (s := s.enter.next) hBit (k := 4) (by omega)
  have hOk : (codecBincDecodeFloatPre b s.enter.next 1 4).err = none := hSame.trans hErr
  have hSlice : b.slice s.enter.next.pos 4 = ds := by rw [← hFour, hRest.slice]
  rw [codecBincDecodeSwitch, codecBincDecodeFloat_narrow rfl hOk, hX, hSlice,
    List.take_left' hFour] at hHead
  refine ⟨_, _, hHead, rfl, ?_, hOk⟩
  rw [hPos, hNext, List.length_cons]
  omega

theorem readsAs_pruned32 {ds : List UInt8} (hEight : ds.length ≤ 8) :
    ReadsAs (codecBincDecodeHead b) b (.float64 () (float64OfFloat32
      (leNat ((ds ++ List.replicate (8 - ds.length) 0).take 4))))
      (bincDesc .float 9 :: UInt8.ofNat ds.length :: ds) := by
  refine readsTo_leaf fun s hAt hErr => ?_
  have hLen := b.len_lt
  have hFits := hAt.le
  obtain ⟨hHead, hNext, hRest⟩ := codecBincDecodeHead_at .zero (by decide) hAt
  rw [List.length_cons, List.length_cons] at hFits
  obtain ⟨hGet, _, hDigits⟩ := hRest.cons
  have hCount : (b.get s.enter.next.pos).toNat = ds.length := by
    rw [hGet, UInt8.toNat_ofNat']
    omega
  have hBit : 9 &&& 0x8 ≠ 0 := by decide
  obtain ⟨hX, hPos, hSame⟩ :=
    floatPre_counted (b := b) (s := s.enter.next) hBit (by omega) (by omega) 4
  have hOk : (codecBincDecodeFloatPre b s.enter.next 9 4).err = none := hSame.trans hErr
  rw [hCount, hDigits.slice] at hX
  rw [codecBincDecodeSwitch, codecBincDecodeFloat_narrow rfl hOk, hX] at hHead
  refine ⟨_, _, hHead, rfl, ?_, hOk⟩
  rw [hPos, hCount, hNext, List.length_cons, List.length_cons]
  omega

theorem readsAs_of_accepted (b : Input) (v : Value) {bs : List UInt8} (h : Accepted v bs) :
    ReadsAs (codecBincDecodeHead b) b v bs := by
  induction v using CodecValue.ind generalizing bs with
  | h v ih =>
    cases h with
    | doc _ _ hCounts hDoc => exact readsAs_of_doc b v hCounts hDoc
    | float32 ds hFour => exact readsAs_float32 hFour
    | pruned32 ds hEight => exact readsAs_pruned32 hEight
    | array vs hdr ds hCount hForm hs =>
      obtain ⟨l, rfl, rfl, hAll⟩ := hs.split
      rw [List.length_map] at hForm hCount
      exact readsAs_array l hCount (opens_array hForm) fun x hx =>
        ih x.1 (List.mem_map_of_mem hx) (hAll x hx)
    | map kvs hdr ds hCount hForm hs =>
      obtain ⟨l, hEntries, rfl, hAll⟩ := hs.split
      refine readsAs_map l hEntries hCount (opens_map hForm) fun x hx => ih x.1 ?_ (hAll x hx)
      rw [children, hEntries]
      exact List.mem_map_of_mem hx

end Reads

/-! ## Nothing else is read -/

section Call

variable {b : Input} {s s' : CodecDecodeState} {d : Decoded}

/-- What a call without a loop has read as the value `w`. -/
def Takes (b : Input) (s s' : CodecDecodeState) (w : Value) : Prop :=
  ∃ bs, Accepted w bs ∧ b.At s.pos bs ∧ s'.pos = s.pos + bs.length

theorem float_nibble {vs : Nat} (hvs : vs < 16) :
    (vs &&& 0x7 = 1 → vs = if vs &&& 0x8 = 0 then 1 else 9) ∧
      (vs &&& 0x7 = 2 → vs = if vs &&& 0x8 = 0 then 2 else 10) := by
  have hAll : ∀ k : Fin 16, (k.val &&& 0x7 = 1 → k.val = if k.val &&& 0x8 = 0 then 1 else 9) ∧
      (k.val &&& 0x7 = 2 → k.val = if k.val &&& 0x8 = 0 then 2 else 10) := by decide
  exact hAll ⟨vs, hvs⟩

/-- The bytes behind a float's descriptor, and the number they stand for. -/
theorem accepted_float {vs : Nat} (hvs : vs < 16) (hFits : s.pos + 9 < 2 ^ 64)
    (hOk : (codecBincDecodeFloat b s vs).1.err = none) :
    ∃ k, (codecBincDecodeFloat b s vs).1.pos = s.pos + k ∧
      Accepted (.float64 () (codecBincDecodeFloat b s vs).2)
        (bincDesc .float vs :: b.slice s.pos k) := by
  have hLeaf (x : UInt64) : (CodecValue.float64 () x).IntCounts :=
    .leaf (Nat.two_pow_pos 31) rfl
  have hLength (q k : Nat) : (b.slice q k).length = k := b.slice_length q k
  have hFour (bs zs : List UInt8) (h : bs.length = 4) : (bs ++ zs).take 4 = bs :=
    List.take_left' h
  cases codecBincDecodeFloat_ok hOk with
  | inl hNarrow =>
    obtain ⟨hKind, hPre⟩ := hNarrow
    have hVs := (float_nibble hvs).1 hKind
    rw [codecBincDecodeFloat_narrow hKind hPre]
    cases floatPre_ok hFits (by decide) hPre with
    | inl hPlain =>
      obtain ⟨hBit, hX, hPos⟩ := hPlain
      rw [if_pos hBit] at hVs
      refine ⟨4, hPos, ?_⟩
      rw [hX, hFour _ _ (hLength _ _), hVs]
      exact .float32 _ (hLength _ _)
    | inr hCounted =>
      obtain ⟨l, hBit, hl, hGet, hX, hPos⟩ := hCounted
      rw [if_neg hBit] at hVs
      refine ⟨l + 1, hPos, ?_⟩
      have hForm := Accepted.pruned32 (b.slice (s.pos + 1) l) (by rw [hLength]; exact hl)
      rw [hLength] at hForm
      rw [hX, Input.slice_succ, hGet, hVs]
      exact hForm
  | inr hWide =>
    obtain ⟨hKind, hPre⟩ := hWide
    have hVs := (float_nibble hvs).2 hKind
    rw [codecBincDecodeFloat_wide hKind hPre]
    cases floatPre_ok hFits (Nat.le_refl 8) hPre with
    | inl hPlain =>
      obtain ⟨hBit, hX, hPos⟩ := hPlain
      rw [if_pos hBit] at hVs
      refine ⟨8, hPos, ?_⟩
      rw [hX, hVs, Nat.sub_self, List.replicate_zero, List.append_nil]
      exact .doc _ _ (hLeaf _) (.float64 _ (hLength _ _))
    | inr hCounted =>
      obtain ⟨l, hBit, hl, hGet, hX, hPos⟩ := hCounted
      rw [if_neg hBit] at hVs
      refine ⟨l + 1, hPos, ?_⟩
      have hForm := Doc.pruned (b.slice (s.pos + 1) l) (by rw [hLength]; exact hl)
      rw [hLength] at hForm
      rw [hX, Input.slice_succ, hGet, hVs]
      exact .doc _ _ (hLeaf _) hForm

/-- Only two families store a float. -/
theorem family_of_float {vs : Nat} {w : Value} {vd : CodecBincDescType} (hPos : s.pos < b.len)
    (hStep : codecBincDecodeSwitch b s.enter.next .zero vd vs = .leaf s' d) (hOk : s'.err = none)
    (hValue : d.value b = some w) (hFloat : w.IsFloat) : vd = .special ∨ vd = .float := by
  cases vd with
  | special => exact Or.inl rfl
  | float => exact Or.inr rfl
  | smallint | posint | negint =>
    cases hStep
    cases hValue
    exact hFloat.elim
  | symbol | string | bytearray =>
    rw [codecBincDecodeBytes_ok hPos hStep hOk] at hValue
    cases hValue
    exact hFloat.elim
  | customext =>
    rw [codecBincDecodeExt_ok hPos hStep hOk] at hValue
    cases hValue
    exact hFloat.elim
  | timestamp =>
    cases hStep
    cases hOk
  | array | map =>
    obtain ⟨s₁, hRead, _⟩ := codecBincDecodeLen_head hPos vs
    simp only [codecBincDecodeSwitch, codecBincDecodeArray, codecBincDecodeMap, hRead] at hStep
    exact absurd hOk (err_of_loop hStep)
  | unicodeother | decimal | openslot1 | openslot2 =>
    cases hStep
    cases hValue

/-- A tree without elements is no container with elements. -/
theorem children_of_value {type : CodecValueType} {x : CodecValueDiscrim} {w : Value}
    (h : (Decoded.mk type x []).value b = some w) : w.children = [] ∧ w.count = 0 := by
  rw [Decoded.value.eq_def] at h
  split at h
  case h_9 len es hTree =>
    cases hTree
    have hArray : (Decoded.mk .array (.vArray len) []).value b = some w := h
    obtain ⟨ws, rfl, hLength, hValues⟩ := Decoded.value_array hArray
    cases hValues
    exact ⟨rfl, rfl⟩
  case h_10 len es hTree =>
    cases hTree
    have hMap : (Decoded.mk .map (.vMap len) []).value b = some w := h
    obtain ⟨kvs, rfl, hLength, hValues⟩ := Decoded.value_map hMap
    have hNone : kvs = [] := by
      have hTwice := entries_length kvs
      rw [Decoded.values_length hValues] at hTwice
      exact List.length_eq_zero_iff.mp (by simpa using hTwice)
    subst hNone
    exact ⟨rfl, rfl⟩
  case h_12 => cases h
  all_goals
    cases h
    exact ⟨rfl, rfl⟩

theorem takes_leaf {w : Value} (hReach : InReach b s.pos)
    (hHead : codecBincDecodeHead b s .zero = .leaf s' d) (hOk : s'.err = none)
    (hEnd : s'.pos ≤ b.len) (hValue : d.value b = some w) : Takes b s s' w := by
  have hLen := b.len_lt
  obtain ⟨hPos, hSpec⟩ := headSpec_of_ok hReach hHead hOk
  have hStop : s'.pos = payloadEnd b s.pos := (hSpec.ok hOk).2
  have hElems : d.elems = [] := (hSpec.leaf s' d rfl hOk).2.2 rfl
  have hvs := nibble_lt (b.get s.pos)
  have hStep := (codecBincDecodeHead_of_lt .zero hPos).symm.trans hHead
  by_cases hFamily : family (b.get s.pos) = .float
  · have hNext : s.enter.next.pos = s.pos + 1 :=
      CodecDecodeState.next_pos_of_lt _ (by simp; omega)
    have hForms := accepted_float (b := b) (s := s.enter.next) hvs (by omega)
    rw [hFamily, codecBincDecodeSwitch] at hStep
    generalize codecBincDecodeFloat b s.enter.next (nibble (b.get s.pos)) = run at hStep hForms
    cases hStep
    obtain ⟨k, hPos', hForm⟩ := hForms hOk
    cases hValue
    rw [hNext] at hPos' hForm
    have hAt : b.At s.pos (b.slice s.pos (k + 1)) := Input.At.of_slice (by omega)
    rw [Input.slice_succ, ← bincDesc_family_nibble (b.get s.pos), hFamily] at hAt
    refine ⟨_, hForm, hAt, ?_⟩
    rw [hPos', List.length_cons, Input.slice_length]
    omega
  · have hLeaf : w.IntCounts := by
      cases d with
      | mk type x es =>
        cases hElems
        obtain ⟨hNone, hCount⟩ := children_of_value hValue
        refine .node ?_ ?_
        · rw [hCount]
          exact Nat.two_pow_pos 31
        · rw [hNone]
          intro c hc
          cases hc
    have hDoc : Doc w (consumed b s.pos (nibble (b.get s.pos)) (family (b.get s.pos))) := by
      by_cases hFloat : w.IsFloat
      · have hSpecial := (family_of_float hPos hStep hOk hValue hFloat).resolve_right hFamily
        rw [hSpecial] at hStep ⊢
        exact doc_special hStep hValue
      · exact doc_consumed hvs hPos hStep hOk hValue hFloat
    rw [payloadEnd, Nat.add_assoc] at hStop
    rw [← slice_consumed] at hDoc
    refine ⟨_, .doc w _ hLeaf hDoc, Input.At.of_slice (by omega), ?_⟩
    rw [Input.slice_length]
    exact hStop

end Call

/-! ## Whole runs -/

section Run

variable {b : Input}

/-- A call that returns without an error and inside the buffer has taken what is accepted as the
value of its tree. -/
structure Taking (b : Input) (s s' : CodecDecodeState) (d : Decoded) : Prop where
  reach : InReach b s.pos → InReach b s'.pos
  ok : InReach b s.pos → s'.err = none → s.err = none ∧ s.pos < b.len
  takes : ∀ w, InReach b s.pos → s'.err = none → s'.pos ≤ b.len → d.value b = some w →
    Takes b s s' w

theorem Taking.links {s s' : CodecDecodeState} {ds : List Decoded}
    (h : Links (Taking b) s ds s') (hReach : InReach b s.pos) :
    InReach b s'.pos ∧ (s'.err = none → s.err = none ∧ (s'.pos ≤ b.len → s.pos ≤ b.len ∧
      ∀ ws, Decoded.values b ds = some ws →
        ∃ bs, AcceptedAll ws bs ∧ b.At s.pos bs ∧ s'.pos = s.pos + bs.length)) := by
  induction ds generalizing s with
  | nil =>
    have hSame : s = s' := h
    subst hSame
    refine ⟨hReach, fun hOk => ⟨hOk, fun hEnd => ⟨hEnd, ?_⟩⟩⟩
    rintro ws ⟨⟩
    exact ⟨[], .nil, Input.At.of_slice (k := 0) hEnd, rfl⟩
  | cons d ds ih =>
    obtain ⟨s₁, hHere, hRest⟩ := h
    obtain ⟨hReach', hLoop⟩ := ih hRest (hHere.reach hReach)
    refine ⟨hReach', fun hOk => ?_⟩
    obtain ⟨hOk₁, hInside⟩ := hLoop hOk
    obtain ⟨hOk₀, hLt⟩ := hHere.ok hReach hOk₁
    refine ⟨hOk₀, fun hEnd => ⟨Nat.le_of_lt hLt, fun ws hValues => ?_⟩⟩
    obtain ⟨hEnd₁, hTail⟩ := hInside hEnd
    cases ws with
    | nil =>
      have hCount := Decoded.values_length hValues
      cases hCount
    | cons w ws =>
      obtain ⟨hValue, hValues⟩ := Decoded.values_cons.mp hValues
      obtain ⟨cs, hForm, hAt, hPos₁⟩ := hHere.takes w hReach hOk₁ hEnd₁ hValue
      obtain ⟨bs, hForms, hAts, hPos⟩ := hTail ws hValues
      rw [hPos₁] at hAts
      refine ⟨cs ++ bs, .cons w ws cs bs hForm hForms, hAt.join hAts, ?_⟩
      rw [hPos, hPos₁, List.length_append, Nat.add_assoc]

theorem taking_loop {s s₁ s₂ : CodecDecodeState} {vs n : Nat} {vd : CodecBincDescType}
    (hvs : vs < 16) (hGet : b.get s.pos = bincDesc vd vs) (hn : n = lenAt b (s.pos + 1) vs)
    (hPos₁ : s₁.pos = s.pos + (1 + lenBytes vs)) {bs : List UInt8} (hAts : b.At s₁.pos bs)
    (hPos : s₂.pos = s₁.pos + bs.length) :
    ∃ hdr, LenForm vd n hdr ∧ b.At s.pos (hdr ++ bs) ∧ s₂.pos = s.pos + (hdr ++ bs).length := by
  have hForm := lenForm_slice (b := b) vd hvs (s.pos + 1)
  rw [← hGet, ← Input.slice_succ, ← hn] at hForm
  have hLength : (b.slice s.pos (lenBytes vs + 1)).length = 1 + lenBytes vs := by
    rw [Input.slice_length, Nat.add_comm]
  have hFits := hAts.le
  rw [hPos₁, ← hLength] at hAts
  have hHere : b.At s.pos (b.slice s.pos (lenBytes vs + 1)) := Input.At.of_slice (by omega)
  refine ⟨_, hForm, hHere.join hAts, ?_⟩
  rw [hPos, hPos₁, List.length_append, hLength, Nat.add_assoc]

theorem taking_builds (b : Input) : Builds (codecBincScheme b) (Taking b) where
  leave _ _ := rfl
  leaf := by
    intro s s' d hHead _
    have hHead : codecBincDecodeHead b s .zero = .leaf s' d := hHead
    constructor
    · intro hReach
      have hReach' := codecBincDecodeHead_reach .zero hReach
      rw [hHead] at hReach'
      exact hReach'
    · intro hReach hOk
      obtain ⟨hLt, hSpec⟩ := headSpec_of_ok hReach hHead hOk
      exact ⟨(hSpec.ok hOk).1, hLt⟩
    · intro w hReach hOk hEnd hValue
      have hTakes : Takes b s s' w := takes_leaf hReach hHead hOk hEnd hValue
      exact hTakes
  branch := by
    intro s s₁ n l c s₂ ds hHead hCount hLimit hLinks _
    have hHead : codecBincDecodeHead b s .zero = .branch s₁ n l c := hHead
    have hReach₁ (hReach : InReach b s.pos) : InReach b s₁.pos := by
      have hAfter := codecBincDecodeHead_reach .zero hReach
      rw [hHead] at hAfter
      exact hAfter
    constructor
    · intro hReach
      exact (Taking.links hLinks (hReach₁ hReach)).1
    · intro hReach hOk
      obtain ⟨hOk₁, _⟩ := (Taking.links hLinks (hReach₁ hReach)).2 hOk
      obtain ⟨hLt, hSpec⟩ := headSpec_of_branch hReach hHead
      exact ⟨(hSpec.ok hOk₁).1, hLt⟩
    · intro w hReach hOk hEnd hValue
      obtain ⟨hLt, _⟩ := headSpec_of_branch hReach hHead
      obtain ⟨_, hInside⟩ := (Taking.links hLinks (hReach₁ hReach)).2 hOk
      obtain ⟨_, hAll⟩ := hInside hEnd
      have hvs := nibble_lt (b.get s.pos)
      have hGet := (bincDesc_family_nibble (b.get s.pos)).symm
      have hStep := (codecBincDecodeHead_of_lt .zero hLt).symm.trans hHead
      obtain ⟨hPos₁, hCase⟩ := branch_cases hLt hStep
      obtain ⟨hArray, hMap⟩ := branch_limit hStep
      rcases hCase with ⟨hFam, hn, rfl⟩ | ⟨hFam, hn, rfl⟩
      · rw [hArray hFam] at hLimit
        rw [hFam] at hGet
        obtain ⟨ws, rfl, hLength, hValues⟩ := Decoded.value_array hValue
        obtain ⟨bs, hForms, hAts, hPos⟩ := hAll ws hValues
        obtain ⟨hdr, hForm, hAt, hStop⟩ := taking_loop hvs hGet hn hPos₁ hAts hPos
        have hBound := hLimit (Nat.two_pow_pos 31)
        exact ⟨hdr ++ bs, .array ws hdr bs (by omega) (hLength ▸ hForm) hForms, hAt, hStop⟩
      · rw [hMap hFam] at hLimit
        rw [hFam] at hGet
        obtain ⟨kvs, rfl, hLength, hValues⟩ := Decoded.value_map hValue
        obtain ⟨bs, hForms, hAts, hPos⟩ := hAll (entries kvs) hValues
        obtain ⟨hdr, hForm, hAt, hStop⟩ := taking_loop hvs hGet rfl hPos₁ hAts hPos
        have hBound := hLimit (by decide)
        exact ⟨hdr ++ bs, .map kvs hdr bs (by omega) (hLength ▸ hForm) hForms, hAt, hStop⟩

end Run

/-- The decoder stops inside the buffer with the value `v` if and only if the buffer starts with
bytes that are accepted as `v`. -/
theorem codecBincDecode_iff_accepted (b : Input) (v : Value) (n : Nat) :
    (∃ fuel s d, codecBincDecode b fuel .zero = .done s d ∧ s.err = none ∧ s.pos ≤ b.len ∧
      d.value b = some v ∧ s.pos = n) ↔ ∃ bs, Accepted v bs ∧ b.At 0 bs ∧ bs.length = n := by
  constructor
  · rintro ⟨fuel, s, d, hRun, hOk, hEnd, hValue, hPos⟩
    have hTaking := (taking_builds b).returns ⟨fuel, hRun⟩ (s.failed_eq_false_iff.mpr hOk)
    have hReach : InReach b CodecDecodeState.init.pos := Nat.zero_le _
    obtain ⟨bs, hForm, hAt, hStop⟩ := hTaking.takes v hReach hOk hEnd hValue
    rw [CodecDecodeState.init, Nat.zero_add] at hStop
    exact ⟨bs, hForm, hAt, hStop.symm.trans hPos⟩
  · rintro ⟨bs, hForm, hAt, hLength⟩
    obtain ⟨s, d, ⟨fuel, hRun⟩, hValue, hPos, hOk⟩ := readsAs_of_accepted b v hForm .init hAt rfl
    have hStop : s.pos = bs.length := by
      rw [hPos]
      exact Nat.zero_add _
    have hInside := hAt.le
    exact ⟨fuel, s, d, hRun, hOk, by omega, hValue, hStop.trans hLength⟩

end CcCommon.Codec.Binc
