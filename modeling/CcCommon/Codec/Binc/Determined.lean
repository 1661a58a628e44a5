import CcCommon.Codec.Binc.Representation

/-! # Which values codec_binc_encode writes as such

Two representations of a value tell whether it is pinned: with zeros in
every free word and with ones. An extension is told apart from its payload
by two addresses. -/

namespace CcCommon.Codec.Binc

open Util Lib.Bytes Lib.Descent CodecValue

set_option autoImplicit false

/-! ## Two layouts -/

/-- `z` in the free words, and `k` where the node points to something. -/
def layout (z k : UInt64) (u : Value) : Placement :=
  ⟨0, 0, fun _ => z, if pointees u = 0 then z else k, z, fun _ => z⟩

def laidOut (z k : UInt64) (a : Value) : CodecValue Placement := a.relabel (layout z k)

section Layouts

variable {z k : UInt64}

theorem mem_laidOut (a : Value) : (laidOut z k a).mem = layout z k a := by
  cases a <;> rfl

theorem pointees_laidOut (a : Value) : pointees (laidOut z k a) = pointees a := by
  cases a <;> simp [laidOut, relabel, pointees, count, payload]

theorem one_le_maxBytes (a : Value) : 1 ≤ maxBytes a := by
  cases a <;> simp only [maxBytes] <;> omega

theorem length_le_maxBytesList (vs : List Value) : vs.length ≤ maxBytesList vs := by
  induction vs with
  | nil => exact Nat.le_refl 0
  | cons v vs ih =>
    have hHead := one_le_maxBytes v
    rw [maxBytesList, List.length_cons]
    omega

theorem maxBytes_le_list {v : Value} {vs : List Value} (h : v ∈ vs) :
    maxBytes v ≤ maxBytesList vs := by
  induction vs with
  | nil => cases h
  | cons u vs ih =>
    rw [maxBytesList]
    rcases List.mem_cons.mp h with rfl | h
    · exact Nat.le_add_right _ _
    · exact Nat.le_trans (ih h) (Nat.le_add_left _ _)

theorem maxBytes_child {a c : Value} (h : c ∈ a.children) : maxBytes c ≤ maxBytes a := by
  cases a with
  | array _ vs => exact Nat.le_trans (maxBytes_le_list h) (Nat.le_add_left _ _)
  | map _ kvs =>
    rw [maxBytes, maxBytesPairs_eq]
    exact Nat.le_trans (maxBytes_le_list h) (Nat.le_add_left _ _)
  | _ => cases h

theorem pointees_le (a : Value) : pointees a ≤ maxBytes a := by
  cases a with
  | array _ vs =>
    have hLength := length_le_maxBytesList vs
    simp only [pointees, count, payload, maxBytes, List.length_nil]
    omega
  | map _ kvs =>
    have hLength := length_le_maxBytesList (entries kvs)
    rw [entries_length] at hLength
    simp only [pointees, count, payload, maxBytes, maxBytesPairs_eq, List.length_nil]
    omega
  | _ =>
    simp only [pointees, count, payload, maxBytes, List.length_nil]
    omega

theorem all_pointees (a : Value) {n : Nat} (h : maxBytes a < n) : a.All fun u => pointees u < n := by
  induction a using CodecValue.ind with
  | h a ih =>
    refine .node (Nat.lt_of_le_of_lt (pointees_le a) h) fun c hc => ih c hc ?_
    exact Nat.lt_of_le_of_lt (maxBytes_child hc) h

theorem represents_laidOut {a : Value} (hSize : maxBytes a < 2 ^ 63) (hLow : 0 < k.toNat)
    (hHigh : k.toNat < 2 ^ 63) : Represents a (laidOut z k a) where
  erase := by rw [laidOut, erase_relabel, erase_unit]
  placed := by
    refine all_relabel _ (fun u hu => ?_) (all_pointees a hSize)
    have hSame : pointees (u.relabel (layout z k)) = pointees u := pointees_laidOut u
    have hMem : (u.relabel (layout z k)).mem = layout z k u := mem_laidOut u
    refine ⟨hSame ▸ hu, fun hSome => ?_⟩
    rw [hSame] at hSome
    rw [hMem, layout, if_neg (by omega)]
    exact ⟨hLow, hHigh⟩

theorem pads_laidOut (a : Value) :
    (laidOut z k a).relabel (fun u => u.mem.pad) = a.relabel fun _ => (0 : UInt32) := by
  rw [laidOut, relabel_relabel]
  congr 1
  funext u
  exact congrArg Placement.pad (mem_laidOut (z := z) (k := k) u)

theorem byteCounts_laidOut {a : Value} (h : ByteCounts a) : ByteCounts (laidOut z k a) := by
  refine all_relabel _ (fun u hu => ?_) h
  cases u with
  | array _ vs => simpa [relabel, count] using hu
  | map _ kvs => simpa [relabel, count] using hu
  | _ => exact Nat.zero_le _

end Layouts

/-! ## Extensions -/

theorem payload_nil {p : List UInt8}
    (h : ∀ k : UInt64, k = 16 ∨ k = 17 → ∃ mem : Words, mem 1 = k ∧ bytesAt mem 1 p.length = p) :
    p = [] := by
  cases p with
  | nil => rfl
  | cons q p =>
    have hHead (k : UInt64) (hk : k = 16 ∨ k = 17) : (leBytes 8 k.toNat).getD 0 0 = q := by
      obtain ⟨mem, hWord, hBytes⟩ := h k hk
      rw [List.length_cons, bytesAt, List.range_succ_eq_map, List.map_cons] at hBytes
      rw [← hWord]
      exact (List.cons.inj hBytes).1
    have hFirst := hHead 16 (Or.inl rfl)
    have hSecond := hHead 17 (Or.inr rfl)
    rw [← hSecond] at hFirst
    exact absurd hFirst (by decide)

def EmptyExt (a : Value) : Prop := ∀ tag p, a = .customExt () tag p → p = []

def ExtsInPlace (v : CodecValue Placement) (after : Words) : Prop :=
  ∀ m tag p au, Occurs v after (.customExt m tag p) au →
    bincBytes (.customExt m tag p) au =
      bincLenBytes (bincDesc .customext 0) p.length ++ tag :: p

theorem emptyExts_of_inPlace (a : Value)
    (h : ∀ k, k = 16 ∨ k = 17 → ∃ after, ExtsInPlace (laidOut 0 k a) after) : a.All EmptyExt := by
  induction a using CodecValue.ind with
  | h a ih =>
    refine .node ?_ fun c hc => ih c hc fun k hk => ?_
    · rintro tag p rfl
      by_contra hSome
      refine hSome (payload_nil fun k hk => ?_)
      obtain ⟨after, hExts⟩ := h k hk
      have hBytes := hExts (layout 0 k (.customExt () tag p)) tag p after (.root _ _)
      have hMany : pointees (.customExt () tag p) ≠ 0 := by
        simpa [pointees, count, payload] using hSome
      refine ⟨fromUnion (.customExt (layout 0 k (.customExt () tag p)) tag p) after, ?_, ?_⟩
      · exact if_neg hMany
      · exact (List.cons.inj (List.append_cancel_left hBytes)).2
    · obtain ⟨after, hExts⟩ := h k hk
      cases a with
      | array _ vs =>
        obtain ⟨pre, sibs, rfl⟩ := List.append_of_mem (show c ∈ vs from hc)
        refine ⟨behindIn (sibs.map (laidOut 0 k)) fun _ => 0, fun m tag p au hOcc => ?_⟩
        apply hExts m tag p au
        rw [laidOut, relabel, relabelList_eq, List.map_append, List.map_cons]
        exact .array rfl hOcc
      | map _ kvs =>
        obtain ⟨pre, sibs, hSplit⟩ := List.append_of_mem (show c ∈ entries kvs from hc)
        refine ⟨behindIn (sibs.map (laidOut 0 k)) fun _ => 0, fun m tag p au hOcc => ?_⟩
        apply hExts m tag p au
        have hLaidOut : entries (relabelPairs (layout 0 k) kvs) =
            pre.map (laidOut 0 k) ++ laidOut 0 k c :: sibs.map (laidOut 0 k) := by
          rw [entries_relabelPairs, hSplit, List.map_append, List.map_cons]
          rfl
        exact .map hLaidOut hOcc
      | _ => cases hc

/-! ## Floats -/

section Floats

theorem full_ones (sibs : List Value) :
    ¬ (isZeroDouble (behindIn (sibs.map (laidOut 1 16)) (fun _ => 1) 2) = true ∧
      isZeroDouble (behindIn (sibs.map (laidOut 1 16)) (fun _ => 1) 3) = true) := by
  rintro ⟨hSix, hSeven⟩
  cases sibs with
  | nil => exact absurd hSix (by decide)
  | cons u sibs =>
    rw [List.map_cons] at hSix hSeven
    rw [(behindIn_cons _ _ _).1] at hSix
    rw [(behindIn_cons _ _ _).2] at hSeven
    cases u with
    | customExt _ tag p =>
      have hWord : isZeroDouble (if pointees (.customExt () tag p) = 0 then 1 else 16) = true := hSix
      split at hWord <;> exact absurd hWord (by decide)
    | _ => exact absurd (show isZeroDouble 1 = true from hSeven) (by decide)

theorem pruned_zeros (sibs : List Value) (hExt : ∀ u ∈ sibs, EmptyExt u)
    (h : ∀ u, sibs.head? = some u → ¬ Shields u) :
    isZeroDouble (behindIn (sibs.map (laidOut 0 16)) (fun _ => 0) 2) = true ∧
      isZeroDouble (behindIn (sibs.map (laidOut 0 16)) (fun _ => 0) 3) = true := by
  cases sibs with
  | nil => exact ⟨rfl, rfl⟩
  | cons u sibs =>
    have hNot := h u rfl
    rw [List.map_cons, (behindIn_cons _ _ _).1, (behindIn_cons _ _ _).2]
    cases u with
    | string _ p | bytes _ p =>
      have hNone : p = [] := not_not.mp hNot
      subst hNone
      exact ⟨rfl, rfl⟩
    | array _ vs =>
      have hNone : vs = [] := not_not.mp hNot
      subst hNone
      exact ⟨rfl, rfl⟩
    | map _ kvs =>
      have hNone : kvs = [] := not_not.mp hNot
      subst hNone
      exact ⟨rfl, rfl⟩
    | customExt _ tag p =>
      have hNone : p = [] := hExt _ List.mem_cons_self tag p rfl
      subst hNone
      exact ⟨rfl, rfl⟩
    | _ => exact ⟨rfl, rfl⟩

/-- How many bytes go out for `a` in front of `sibs`. -/
def bytesWith (z : UInt64) (a : Value) (sibs : List Value) : Nat :=
  (bincBytes (laidOut z 16 a) (behindIn (sibs.map (laidOut z 16)) fun _ => z)).length

def bytesWithList (z : UInt64) (vs : List Value) : Nat :=
  (bincBytesList (vs.map (laidOut z 16)) fun _ => z).length

/-- Ones take as many bytes as zeros or more, and as many only if the value is pinned. -/
def Lengthens (a : Value) : Prop :=
  ∀ sibs, (∀ u ∈ sibs, EmptyExt u) → bytesWith 0 a sibs ≤ bytesWith 1 a sibs ∧
    (bytesWith 0 a sibs = bytesWith 1 a sibs → Pinned a sibs.head?)

theorem lengthens_float {bits : UInt64} : Lengthens (.float64 () bits) := by
  intro sibs hExt
  have hWith (z : UInt64) : bytesWith z (.float64 () bits) sibs = (bincFloatBytes (fromUnion
    (.float64 (layout z 16 (.float64 () bits)) bits)
    (behindIn (sibs.map (laidOut z 16)) fun _ => z))).length := rfl
  rw [hWith, hWith]
  cases hBits : isZeroDouble bits with
  | true =>
    have hOne (z : UInt64) (after : Words) : bincFloatBytes (fromUnion
        (.float64 (layout z 16 (.float64 () bits)) bits) after) = [specialDesc .zerofloat] :=
      if_pos hBits
    rw [hOne, hOne]
    exact ⟨Nat.le_refl _, fun _ => Or.inl hBits⟩
  | false =>
    obtain ⟨hSix, hSeven⟩ := fromUnion_behind (.float64 (layout 1 16 (.float64 () bits)) bits)
      (behindIn (sibs.map (laidOut 1 16)) fun _ => 1)
    have hFull := full_ones sibs
    rw [← hSix, ← hSeven] at hFull
    rw [bincFloatBytes_full hBits hFull, List.length_cons, leBytes_length]
    refine ⟨bincFloatBytes_length _, fun hSame => Or.inr ?_⟩
    by_contra hNone
    obtain ⟨hSix', hSeven'⟩ := fromUnion_behind (.float64 (layout 0 16 (.float64 () bits)) bits)
      (behindIn (sibs.map (laidOut 0 16)) fun _ => 0)
    have hPruned := pruned_zeros sibs hExt fun u hu hShield => hNone ⟨u, hu, hShield⟩
    rw [← hSix', ← hSeven'] at hPruned
    have hShort := bincFloatBytes_pruned hBits hPruned
    omega

theorem lengthens_list (vs : List Value) (h : ∀ v ∈ vs, Lengthens v)
    (hExt : ∀ v ∈ vs, EmptyExt v) : bytesWithList 0 vs ≤ bytesWithList 1 vs ∧
      (bytesWithList 0 vs = bytesWithList 1 vs → PinnedList vs) := by
  induction vs with
  | nil => exact ⟨Nat.le_refl _, fun _ => trivial⟩
  | cons v vs ih =>
    have hBehind : ∀ u ∈ vs, EmptyExt u := fun u hu => hExt u (List.mem_cons_of_mem _ hu)
    have hCons (z : UInt64) :
        bytesWithList z (v :: vs) = bytesWith z v vs + bytesWithList z vs := by
      rw [bytesWithList, List.map_cons, bincBytesList, List.length_append]
      rfl
    obtain ⟨hHead, hPin⟩ := h v List.mem_cons_self vs hBehind
    obtain ⟨hTail, hPins⟩ := ih (fun u hu => h u (List.mem_cons_of_mem _ hu)) hBehind
    rw [hCons, hCons]
    exact ⟨by omega, fun hSame => ⟨hPin (by omega), hPins (by omega)⟩⟩

theorem lengthens (a : Value) (hExts : a.All EmptyExt)
    (hFloat32 : a.All fun u => u.type ≠ .float32) : Lengthens a := by
  induction a using CodecValue.ind with
  | h a ih =>
    have hInner := fun c hc => ih c hc (hExts.inner c hc) (hFloat32.inner c hc)
    have hEmpty : ∀ c ∈ a.children, EmptyExt c := fun c hc => (hExts.inner c hc).root
    cases a with
    | float32 _ bits => exact absurd rfl hFloat32.root
    | float64 _ bits => exact lengthens_float
    | customExt _ tag p =>
      intro sibs _
      have hNone : p = [] := hExts.root tag p rfl
      subst hNone
      exact ⟨Nat.le_refl _, fun _ => rfl⟩
    | array _ vs =>
      intro sibs _
      have hWith (z : UInt64) : bytesWith z (.array () vs) sibs =
          (bincLenBytes (bincDesc .array 0) vs.length).length + bytesWithList z vs := by
        simp only [bytesWith, laidOut, relabel, bincBytes, relabelList_eq, List.length_append,
          List.length_map]
        rfl
      obtain ⟨hLe, hPin⟩ := lengthens_list vs hInner hEmpty
      rw [hWith, hWith]
      exact ⟨by omega, fun hSame => hPin (by omega)⟩
    | map _ kvs =>
      intro sibs _
      have hWith (z : UInt64) : bytesWith z (.map () kvs) sibs =
          (bincLenBytes (bincDesc .map 0) kvs.length).length + bytesWithList z (entries kvs) := by
        simp only [bytesWith, laidOut, relabel, bincBytes, bincBytesPairs_eq, entries_relabelPairs,
          relabelPairs_length, List.length_append]
        rfl
      obtain ⟨hLe, hPin⟩ := lengthens_list (entries kvs) hInner hEmpty
      rw [hWith, hWith]
      exact ⟨by omega, fun hSame => (pinnedPairs_iff kvs).mpr (hPin (by omega))⟩
    | _ =>
      intro sibs _
      exact ⟨Nat.le_refl _, fun _ => trivial⟩

end Floats

/-! ## The two directions -/

section Determined

variable {a : Value}

theorem behindIn_nil (after : Words) : behindIn [] after = after := by
  funext k
  rfl

theorem Represents.bytes {v : CodecValue Placement} (h : Represents a v) (hPin : Pinned a none)
    (after : Words) : bincBytes v after = abstractBytes a := by
  have hBytes := bincBytes_of_pinned v h.placed [] (by simp) after (by rw [h.erase]; exact hPin)
  rwa [behindIn_nil, h.erase] at hBytes

theorem Represents.occurs {v u : CodecValue Placement} {after au : Words} (h : Represents a v)
    (hPin : Pinned a none) (hOcc : Occurs v after u au) : bincBytes u au = abstractBytes u.erase :=
  hOcc.pinned h.placed [] (by simp) after (behindIn_nil after).symm (by rw [h.erase]; exact hPin)

theorem determined_of_pinned (hPin : Pinned a none) : Determined a where
  same := by
    intro fresh fresh' v v' after after' e e' bs bs' hRep hRep' _ hReady hReady' hEmits hEmits'
    rw [hEmits.eq hReady, hEmits'.eq hReady', hRep.bytes hPin, hRep'.bytes hPin]
  ext := by
    intro fresh v after m tag p au e bs hRep hOcc hReady hEmits
    rw [hEmits.eq hReady, hRep.occurs hPin hOcc]
    rfl
  float := by
    intro fresh v after m bits au e bs beyond hFits hRep hOcc hBits hReady hEmits
    have hBytes : bs = bincDesc .float 2 :: leBytes 8 bits.toNat := by
      rw [hEmits.eq hReady, hRep.occurs hPin hOcc, erase, abstractBytes, hBits]
      rfl
    have hDoc := Doc.float64 (leBytes 8 bits.toNat) (leBytes_length _ _)
    rw [leNat_leBytes_of_lt bits.toNat_lt, UInt64.ofNat_toNat, ← hBytes] at hDoc
    have hStart : (⟨bs, beyond, hFits⟩ : Input).At 0 bs := Input.At.start (List.append_nil bs).symm
    have hCounts : (CodecValue.float64 () bits).IntCounts :=
      .leaf (show 0 < intLimit by decide) rfl
    obtain ⟨s, d, ⟨fuel, hRun⟩, hValue, _, hOk⟩ := readsAs_of_doc ⟨bs, beyond, hFits⟩
      (.float64 () bits) hCounts hDoc .init hStart rfl
    exact ⟨fuel, s, d, hRun, hOk, hValue⟩

def EncodeState.start : EncodeState := ⟨sliceBytesZero, none, []⟩

theorem ready_start {v : CodecValue Placement} (hSize : maxBytes v.erase < 2 ^ 63) :
    Ready .start v where
  valid := sliceBytesZero_valid
  err := rfl
  room := by
    have hEmpty : EncodeState.start.b.len = 0 := rfl
    rw [hEmpty]
    omega

theorem emits_start {v : CodecValue Placement} (after : Words) (hCounts : ByteCounts v)
    (hSize : maxBytes v.erase < 2 ^ 63) :
    Emits (fun _ _ => 0) v after .start (bincBytes v after) := by
  have hReady := ready_start hSize
  have hLength := bincBytes_length_le v after
  have hRoom := hReady.room
  obtain ⟨e', hRun, _, hBytes⟩ := exists_encodesTo (fun _ _ => 0) hCounts after hReady.valid
    hReady.err (by omega)
  exact ⟨e', hRun, hBytes⟩

theorem Occurs.maxBytes_le {v u : CodecValue Placement} {after au : Words}
    (h : Occurs v after u au) : maxBytes u.erase ≤ maxBytes v.erase := by
  have hErased {v c : CodecValue Placement} (hc : c ∈ v.children) :
      maxBytes c.erase ≤ maxBytes v.erase := by
    refine maxBytes_child ?_
    rw [children_erase]
    exact List.mem_map_of_mem hc
  induction h with
  | root v after => exact Nat.le_refl _
  | array hSplit h ih =>
    refine Nat.le_trans ih (hErased ?_)
    rw [children, hSplit]
    exact List.mem_append_right _ List.mem_cons_self
  | map hSplit h ih =>
    refine Nat.le_trans ih (hErased ?_)
    rw [children, hSplit]
    exact List.mem_append_right _ List.mem_cons_self

theorem Determined.emptyExts (hSize : maxBytes a < 2 ^ 63) (h : Determined a) :
    a.All EmptyExt := by
  refine emptyExts_of_inPlace a fun k hk => ⟨fun _ => 0, fun m tag p au hOcc => ?_⟩
  have hRep : Represents a (laidOut 0 k a) := by
    rcases hk with rfl | rfl <;> exact represents_laidOut hSize (by decide) (by decide)
  have hSmall := hOcc.maxBytes_le
  rw [hRep.erase] at hSmall
  have hCounts : ByteCounts (.customExt m tag p) := .leaf (Nat.zero_le _) rfl
  have hExtSize := Nat.lt_of_le_of_lt hSmall hSize
  exact h.ext _ _ _ m tag p au .start _ hRep hOcc (ready_start hExtSize)
    (emits_start au hCounts hExtSize)

theorem pinned_of_determined (hFloat32 : a.All fun u => u.type ≠ .float32) (hCounts : ByteCounts a)
    (hSize : maxBytes a < 2 ^ 63) (h : Determined a) : Pinned a none := by
  have hRep (z : UInt64) : Represents a (laidOut z 16 a) :=
    represents_laidOut hSize (by decide) (by decide)
  have hVSize (z : UInt64) : maxBytes (laidOut z 16 a).erase < 2 ^ 63 := (hRep z).erase.symm ▸ hSize
  have hEmits (z : UInt64) := emits_start (fun _ => z) (byteCounts_laidOut (z := z) (k := 16) hCounts)
    (hVSize z)
  have hPads : (laidOut 0 16 a).relabel (fun u => u.mem.pad) =
      (laidOut 1 16 a).relabel (fun u => u.mem.pad) := by
    rw [pads_laidOut, pads_laidOut]
  have hBytes := h.same _ _ _ _ _ _ _ _ _ _ (hRep 0) (hRep 1) hPads (ready_start (hVSize 0))
    (ready_start (hVSize 1)) (hEmits 0) (hEmits 1)
  obtain ⟨_, hPin⟩ := lengthens a (h.emptyExts hSize) hFloat32 [] (by simp)
  exact hPin (congrArg List.length hBytes)

/-- What goes out for `a` depends on `a` alone if and only if no extension has a payload and
every float is zero or has a shield behind it. -/
theorem codecBincEncode_determined_iff (a : Value) (hFloat32 : a.All fun u => u.type ≠ .float32)
    (hCounts : ByteCounts a) (hSize : maxBytes a < 2 ^ 63) : Determined a ↔ Pinned a none :=
  ⟨pinned_of_determined hFloat32 hCounts hSize, determined_of_pinned⟩

/-- A float with a string behind it, an extension with no payload, and an array. -/
theorem codecBincEncode_determined_iff_nested :
    Determined (.array () [.float64 () 0x3FF0000000000000, .string () [97], .customExt () 1 [],
      .array () [.nil ()]]) := by
  have hAll {p : Value → Prop} (hRoot : ∀ v, v.type ≠ .float32 → v.count ≤ 4 → p v) : All p
      (.array () [.float64 () 0x3FF0000000000000, .string () [97], .customExt () 1 [],
        .array () [.nil ()]]) := by
    refine .node (hRoot _ (by decide) (by decide)) ?_
    simp only [children, List.forall_mem_cons]
    refine ⟨.leaf (hRoot _ (by decide) (by decide)) rfl, .leaf (hRoot _ (by decide) (by decide)) rfl,
      .leaf (hRoot _ (by decide) (by decide)) rfl, .node (hRoot _ (by decide) (by decide)) ?_,
      List.forall_mem_nil _⟩
    simp only [children, List.forall_mem_cons]
    exact ⟨.leaf (hRoot _ (by decide) (by decide)) rfl, List.forall_mem_nil _⟩
  refine (codecBincEncode_determined_iff _ (hAll fun _ hFloat32 _ => hFloat32)
    (hAll fun _ _ hCount => hCount.trans (by decide)) (by decide)).mpr ?_
  simp [Pinned, PinnedList, Shields]

/-- The payload of an extension, and a float with nothing behind it. -/
theorem not_determined_ext_float :
    ¬ Determined (.customExt () 1 [7]) ∧ ¬ Determined (.float64 () 0x3FF0000000000000) := by
  constructor
  · intro h
    have hNone : ([7] : List UInt8) = [] := pinned_of_determined
      (.leaf (by decide) rfl) (.leaf (by decide) rfl) (by decide) h
    cases hNone
  · intro h
    rcases pinned_of_determined (.leaf (by decide) rfl)
      (.leaf (by decide) rfl) (by decide) h with hZero | ⟨u, hNext, _⟩
    · exact absurd hZero (by decide)
    · cases hNext

end Determined

end CcCommon.Codec.Binc
