import CcCommon.Codec.Simple.DecodeSteps
import CcCommon.Lib.PrefixCode

/-! # The bytes of codec_simple_encode determine the value

The descriptor determines the branch that wrote it and the width of what
follows, so no encoding is a proper prefix of another. -/

namespace CcCommon.Codec.Simple

open Util Lib.Bytes Lib.PrefixCode CodecValue

set_option autoImplicit false

variable {μ : Type}

/-! ## Headers -/

theorem ofNat_add_inj {bd : UInt8} {i j : Nat} (hi : i ≤ 4) (hj : j ≤ 4)
    (h : bd + UInt8.ofNat i = bd + UInt8.ofNat j) : i = j := by
  have hNat := congrArg UInt8.toNat ((UInt8.add_right_inj bd).mp h)
  simp only [UInt8.toNat_ofNat'] at hNat
  omega

theorem header_append_inj {bd : UInt8} (width : Nat → Nat) {i j n m : Nat} {r s : List UInt8}
    (hi : i ≤ 4) (hj : j ≤ 4) (hn : n < 256 ^ width i) (hm : m < 256 ^ width j)
    (h : (bd + UInt8.ofNat i) :: beBytes (width i) n ++ r =
      (bd + UInt8.ofNat j) :: beBytes (width j) m ++ s) : n = m ∧ r = s := by
  obtain ⟨hDesc, hRest⟩ := List.cons.inj h
  have hClass := ofNat_add_inj hi hj hDesc
  subst hClass
  obtain ⟨hNumber, hTail⟩ := List.append_inj hRest (by simp)
  exact ⟨beBytes_inj hn hm hNumber, hTail⟩

theorem lt_lenWidth {n : Nat} (h : n < 2 ^ 64) : n < 256 ^ (lenWidth (lenClass n)).size := by
  unfold lenClass
  split_ifs <;> simp only [lenWidth, ReadWidth.size] <;> omega

theorem lt_intWidth {n : Nat} (h : n < 2 ^ 64) : n < 256 ^ (lenWidth (intClass n + 1)).size := by
  unfold intClass
  split_ifs <;> simp only [lenWidth, ReadWidth.size] <;> omega

theorem lenBytes_append_inj {bd : UInt8} {n m : Nat} {r s : List UInt8} (hn : n < 2 ^ 64)
    (hm : m < 2 ^ 64) (h : lenBytes bd n ++ r = lenBytes bd m ++ s) : n = m ∧ r = s := by
  rw [lenBytes_eq, lenBytes_eq] at h
  exact header_append_inj (fun i => (lenWidth i).size) (lenClass_le n) (lenClass_le m)
    (lt_lenWidth hn) (lt_lenWidth hm) h

theorem intBytes_append_inj {bd : UInt8} {n m : Nat} {r s : List UInt8} (hn : n < 2 ^ 64)
    (hm : m < 2 ^ 64) (h : intBytes bd n ++ r = intBytes bd m ++ s) : n = m ∧ r = s := by
  rw [intBytes_eq, intBytes_eq] at h
  exact header_append_inj (fun i => (lenWidth (i + 1)).size) (Nat.le_succ_of_le (intClass_le n))
    (Nat.le_succ_of_le (intClass_le m)) (lt_intWidth hn) (lt_intWidth hm) h

theorem payload_append_inj {bd : UInt8} {p q r s : List UInt8} (hp : p.length < 2 ^ 64)
    (hq : q.length < 2 ^ 64) (h : lenBytes bd p.length ++ p ++ r = lenBytes bd q.length ++ q ++ s) :
    p = q ∧ r = s := by
  rw [List.append_assoc, List.append_assoc] at h
  obtain ⟨hLength, hRest⟩ := lenBytes_append_inj hp hq h
  exact List.append_inj hRest hLength

theorem leBytes_append_inj {w n m : Nat} {r s : List UInt8} (hn : n < 256 ^ w) (hm : m < 256 ^ w)
    (h : leBytes w n ++ r = leBytes w m ++ s) : n = m ∧ r = s := by
  obtain ⟨hNumber, hRest⟩ := List.append_inj h (by simp)
  exact ⟨by rw [← leNat_leBytes_of_lt hn, hNumber, leNat_leBytes_of_lt hm], hRest⟩

/-! ## The descriptor names the type -/

def CodecSimpleDescType.valueType : CodecSimpleDescType → CodecValueType
  | .nil => .nil
  | .false | .true => .bool
  | .float32 => .float32
  | .float64 => .float64
  | .posInt => .posInt
  | .negInt => .negInt
  | .string => .string
  | .bytes => .bytes
  | .array => .array
  | .map => .map
  | .customExt => .customExt

theorem intBytes_desc {d : CodecSimpleDescType} (hd : d = .posInt ∨ d = .negInt) (n : Nat) :
    ∃ bd cs, intBytes d.toUInt8 n = bd :: cs ∧ codecSimpleDesc bd = some d :=
  ⟨_, _, intBytes_eq d.toUInt8 n, (intDesc_spec hd (intClass_le n)).1⟩

theorem lenBytes_desc {d : CodecSimpleDescType} (hd : IsLengthDesc d) (n : Nat) (r : List UInt8) :
    ∃ bd cs, lenBytes d.toUInt8 n ++ r = bd :: cs ∧ codecSimpleDesc bd = some d := by
  rw [lenBytes_eq, List.cons_append]
  exact ⟨_, _, rfl, (lenDesc_spec hd (lenClass_le n)).1⟩

/-- The first byte of an encoding is a descriptor of the value's type. -/
theorem simpleBytes_desc (v : CodecValue μ) :
    ∃ bd cs d, simpleBytes v = bd :: cs ∧ codecSimpleDesc bd = some d ∧ d.valueType = v.type := by
  have hLength {d : CodecSimpleDescType} {type : CodecValueType} (hd : IsLengthDesc d)
      (hType : d.valueType = type) (n : Nat) (r : List UInt8) :
      ∃ bd cs d', lenBytes d.toUInt8 n ++ r = bd :: cs ∧ codecSimpleDesc bd = some d' ∧
        d'.valueType = type := by
    obtain ⟨bd, cs, hBytes, hDesc⟩ := lenBytes_desc hd n r
    exact ⟨bd, cs, d, hBytes, hDesc, hType⟩
  cases v with
  | nil m => exact ⟨1, [], .nil, rfl, rfl, rfl⟩
  | bool m x =>
    cases x
    · exact ⟨2, [], .false, rfl, rfl, rfl⟩
    · exact ⟨3, [], .true, rfl, rfl, rfl⟩
  | posInt m n =>
    obtain ⟨bd, cs, hBytes, hDesc⟩ := intBytes_desc (Or.inl rfl) n.toNat
    exact ⟨bd, cs, .posInt, hBytes, hDesc, rfl⟩
  | negInt m n =>
    obtain ⟨bd, cs, hBytes, hDesc⟩ := intBytes_desc (Or.inr rfl) n.toNat
    exact ⟨bd, cs, .negInt, hBytes, hDesc, rfl⟩
  | float32 m bits => exact ⟨4, _, .float32, rfl, rfl, rfl⟩
  | float64 m bits => exact ⟨5, _, .float64, rfl, rfl, rfl⟩
  | string m p => exact hLength (Or.inl rfl) rfl p.length p
  | bytes m p => exact hLength (Or.inr (Or.inl rfl)) rfl p.length p
  | array m vs => exact hLength (Or.inr (Or.inr (Or.inl rfl))) rfl vs.length _
  | map m kvs => exact hLength (Or.inr (Or.inr (Or.inr (Or.inl rfl)))) rfl kvs.length _
  | customExt m tag p =>
    exact hLength (Or.inr (Or.inr (Or.inr (Or.inr rfl)))) rfl p.length (tag :: p)

theorem type_eq_of_append {v w : CodecValue μ} {r s : List UInt8}
    (h : simpleBytes v ++ r = simpleBytes w ++ s) : v.type = w.type := by
  obtain ⟨bd, cs, d, hBytes, hDesc, hType⟩ := simpleBytes_desc v
  obtain ⟨bd', cs', d', hBytes', hDesc', hType'⟩ := simpleBytes_desc w
  rw [hBytes, hBytes'] at h
  have hSame := (List.cons.inj h).1
  rw [hSame, hDesc'] at hDesc
  rw [← hType, ← hType', Option.some.inj hDesc]

/-! ## Unique decodability -/

/-- The lengths in the value are lengths of C objects. -/
def Sized (v : CodecValue μ) : Prop := v.All fun w => w.payload.length < 2 ^ 64 ∧ w.count < 2 ^ 64

theorem length_le_flatMap {α β : Type} {f : α → List β} {x : α} {xs : List α} (h : x ∈ xs) :
    (f x).length ≤ (xs.flatMap f).length := by
  obtain ⟨pre, post, rfl⟩ := List.append_of_mem h
  simp only [List.flatMap_append, List.flatMap_cons, List.length_append]
  omega

theorem sized_of_size (v : CodecValue μ) (hCounts : IntCounts v)
    (hSize : (simpleBytes v).length < 2 ^ 63) : Sized v := by
  induction v using CodecValue.ind with
  | h v ih =>
    have hCount : v.count < 2 ^ 64 := Nat.lt_trans hCounts.root (by decide)
    have hChildren : (v.children.flatMap simpleBytes).length ≤ (simpleBytes v).length ∧
        v.payload.length ≤ (simpleBytes v).length := by
      cases v <;> simp [children, payload, simpleBytes, simpleBytesList_eq, simpleBytesPairs_eq]
      omega
    refine .node ⟨by omega, hCount⟩ fun c hc => ih c hc (hCounts.inner c hc) ?_
    have := length_le_flatMap (f := simpleBytes) hc
    omega

theorem simpleBytes_append_inj (v : CodecValue μ) (hv : Sized v) {w : CodecValue μ} (hw : Sized w)
    {r s : List UInt8} (h : simpleBytes v ++ r = simpleBytes w ++ s) : v.erase = w.erase ∧ r = s := by
  induction v using CodecValue.ind generalizing w r s with
  | h v ih =>
    have hType := type_eq_of_append h
    have hvRoot := hv.root
    have hwRoot := hw.root
    cases v with
    | nil m =>
      cases w with
      | nil m' => exact ⟨rfl, (List.cons.inj h).2⟩
      | _ => cases hType
    | bool m x =>
      cases w with
      | bool m' y =>
        obtain ⟨hDesc, hRest⟩ := List.cons.inj h
        refine ⟨?_, hRest⟩
        cases x <;> cases y <;> first | rfl | cases hDesc
      | _ => cases hType
    | posInt m n =>
      cases w with
      | posInt m' k =>
        obtain ⟨hNat, hRest⟩ := intBytes_append_inj n.toNat_lt k.toNat_lt h
        exact ⟨by rw [erase, erase, UInt64.toNat_inj.mp hNat], hRest⟩
      | _ => cases hType
    | negInt m n =>
      cases w with
      | negInt m' k =>
        obtain ⟨hNat, hRest⟩ := intBytes_append_inj n.toNat_lt k.toNat_lt h
        exact ⟨by rw [erase, erase, UInt64.toNat_inj.mp hNat], hRest⟩
      | _ => cases hType
    | float32 m bits =>
      cases w with
      | float32 m' bits' =>
        obtain ⟨hNat, hRest⟩ :=
          leBytes_append_inj (w := 4) bits.toNat_lt bits'.toNat_lt (List.cons.inj h).2
        exact ⟨by rw [erase, erase, UInt32.toNat_inj.mp hNat], hRest⟩
      | _ => cases hType
    | float64 m bits =>
      cases w with
      | float64 m' bits' =>
        obtain ⟨hNat, hRest⟩ :=
          leBytes_append_inj (w := 8) bits.toNat_lt bits'.toNat_lt (List.cons.inj h).2
        exact ⟨by rw [erase, erase, UInt64.toNat_inj.mp hNat], hRest⟩
      | _ => cases hType
    | string m p =>
      cases w with
      | string m' q =>
        obtain ⟨hPayload, hRest⟩ := payload_append_inj (p := p) (q := q) hvRoot.1 hwRoot.1 h
        exact ⟨by rw [erase, erase, hPayload], hRest⟩
      | _ => cases hType
    | bytes m p =>
      cases w with
      | bytes m' q =>
        obtain ⟨hPayload, hRest⟩ := payload_append_inj (p := p) (q := q) hvRoot.1 hwRoot.1 h
        exact ⟨by rw [erase, erase, hPayload], hRest⟩
      | _ => cases hType
    | customExt m tag p =>
      cases w with
      | customExt m' tag' q =>
        rw [simpleBytes, simpleBytes, List.append_assoc, List.append_assoc] at h
        obtain ⟨hLength, hTagged⟩ :=
          lenBytes_append_inj (n := p.length) (m := q.length) hvRoot.1 hwRoot.1 h
        obtain ⟨hTag, hPayload⟩ := List.cons.inj hTagged
        obtain ⟨hBytes, hRest⟩ := List.append_inj hPayload hLength
        exact ⟨by rw [erase, erase, hTag, hBytes], hRest⟩
      | _ => cases hType
    | array m vs =>
      cases w with
      | array m' ws =>
        rw [simpleBytes, simpleBytes, simpleBytesList_eq, simpleBytesList_eq, List.append_assoc,
          List.append_assoc] at h
        obtain ⟨hLength, hElems⟩ :=
          lenBytes_append_inj (n := vs.length) (m := ws.length) hvRoot.2 hwRoot.2 h
        obtain ⟨hMap, hRest⟩ := flatMap_append_inj (f := erase) vs ws
          (fun c hc d hd _ _ => ih c hc (hv.inner c hc) (hw.inner d hd)) hLength hElems
        exact ⟨by rw [erase, erase, eraseList_eq, eraseList_eq, hMap], hRest⟩
      | _ => cases hType
    | map m kvs =>
      cases w with
      | map m' kws =>
        rw [simpleBytes, simpleBytes, simpleBytesPairs_eq, simpleBytesPairs_eq, List.append_assoc,
          List.append_assoc] at h
        obtain ⟨hLength, hElems⟩ :=
          lenBytes_append_inj (n := kvs.length) (m := kws.length) hvRoot.2 hwRoot.2 h
        obtain ⟨hMap, hRest⟩ := flatMap_append_inj (f := erase) (entries kvs) (entries kws)
          (fun c hc d hd _ _ => ih c hc (hv.inner c hc) (hw.inner d hd))
          (by rw [entries_length, entries_length, hLength]) hElems
        rw [← entries_erasePairs, ← entries_erasePairs] at hMap
        refine ⟨?_, hRest⟩
        rw [erase, erase, ← Decoded.pairUp_entries (erasePairs kvs), hMap, Decoded.pairUp_entries]
      | _ => cases hType

/-- The encoder extends any slice by bytes that depend on the value alone, and
whatever follows them they determine the value. -/
theorem codecSimpleEncode_uniquely_decodable :
    (∀ (fresh : Nat → Nat → UInt8) (v : CodecValue μ) (e : EncodeState), IntCounts v →
      e.b.Valid → e.err = none → e.b.len + (simpleBytes v).length < 2 ^ 63 →
      ∃ e', codecSimpleEncode fresh v e = some e' ∧ e'.err = none ∧ e'.b.Valid ∧
        e'.b.contents = e.b.contents ++ simpleBytes v) ∧
    ∀ (v w : CodecValue μ) (r s : List UInt8), IntCounts v → IntCounts w →
      (simpleBytes v).length < 2 ^ 63 → (simpleBytes w).length < 2 ^ 63 →
      simpleBytes v ++ r = simpleBytes w ++ s → v.erase = w.erase ∧ r = s := by
  constructor
  · intro fresh v e hCounts hb hErr hFit
    obtain ⟨e', hRun, hErr', hExt⟩ := codecSimpleEncode_spec fresh v hCounts e hb hErr hFit
    exact ⟨e', hRun, hErr', hExt.valid, hExt.contents⟩
  · intro v w r s hv hw hvSize hwSize h
    exact simpleBytes_append_inj v (sized_of_size v hv hvSize) (sized_of_size w hw hwSize) h

/-- An array of a string and a map, and the same value elsewhere in memory. -/
theorem codecSimpleEncode_uniquely_decodable_nested :
    (∃ e', codecSimpleEncode (fun _ _ => 0)
        (.array 0 [.string 0 [97], .map 0 [(.posInt 0 1, .nil 0)]]) ⟨sliceBytesZero, none⟩ =
        some e' ∧ e'.err = none ∧ e'.b.Valid ∧ e'.b.contents = sliceBytesZero.contents ++
          simpleBytes (.array 0 [.string 0 [97], .map 0 [(.posInt 0 1, .nil 0)]])) ∧
    (CodecValue.array 0 [.string 0 [97], .map 0 [(.posInt 0 1, .nil 0)]]).erase =
      (CodecValue.array 1 [.string 1 [97], .map 1 [(.posInt 1 1, .nil 1)]]).erase := by
  have hCounts (m : Nat) :
      IntCounts (.array m [.string m [97], .map m [(.posInt m 1, .nil m)]]) := by
    have hZero : 0 < intLimit := by decide
    refine .node (show 2 < intLimit by decide) ?_
    simp only [children, List.forall_mem_cons]
    refine ⟨.leaf hZero rfl, .node (show 1 < intLimit by decide) ?_, List.forall_mem_nil _⟩
    simp only [children, entries, List.forall_mem_cons]
    exact ⟨.leaf hZero rfl, .leaf hZero rfl, List.forall_mem_nil _⟩
  obtain ⟨hEncodes, hUnique⟩ := codecSimpleEncode_uniquely_decodable (μ := Nat)
  exact ⟨hEncodes _ _ _ (hCounts 0) sliceBytesZero_valid rfl (by decide),
    (hUnique _ _ [] [] (hCounts 0) (hCounts 1) (by decide) (by decide) rfl).1⟩

end CcCommon.Codec.Simple
