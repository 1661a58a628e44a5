import CcCommon.Codec.Binc.Rejects
import CcCommon.Codec.Reading

/-! # Reference documents

A document for a value is any byte string the format admits: a writer may
choose wide lengths and integers, symbols for strings, and pruned floats.
The decoder reads every document for a value as that value, into every
destination, and its payloads are where the document has them. -/

namespace CcCommon.Codec.Binc

open Util Lib.Bytes Lib.Descent CodecValue

set_option autoImplicit false

/-- A header of family `vd` that carries a length, inline or in one to four bytes. -/
inductive LenForm (vd : CodecBincDescType) : Nat → List UInt8 → Prop where
  | inline (n : Nat) (h : n ≤ 11) : LenForm vd n [bincDesc vd (n + 4)]
  | wide (d : UInt8) (ds : List UInt8) (h : ds.length ≤ 3) :
    LenForm vd (beNat (d :: ds)) (bincDesc vd ds.length :: d :: ds)

mutual
inductive Doc : Value → List UInt8 → Prop where
  | nil : Doc (.nil ()) [specialDesc .nil]
  | bool (x : Bool) : Doc (.bool () x) [specialDesc (if x then .true else .false)]
  | zero : Doc (.posInt () 0) [specialDesc .zero]
  | negone : Doc (.negInt () 1) [specialDesc .negone]
  | smallint (k : Nat) (h : k ≤ 15) :
    Doc (.posInt () (UInt64.ofNat (k + 1))) [bincDesc .smallint k]
  | posint (d : UInt8) (ds : List UInt8) (h : ds.length ≤ 7) :
    Doc (.posInt () (UInt64.ofNat (beNat (d :: ds)))) (bincDesc .posint ds.length :: d :: ds)
  | negint (d : UInt8) (ds : List UInt8) (h : ds.length ≤ 7) :
    Doc (.negInt () (UInt64.ofNat (beNat (d :: ds)))) (bincDesc .negint ds.length :: d :: ds)
  | nan : Doc (.float64 () uvnan) [specialDesc .nan]
  | posinf : Doc (.float64 () uvinf) [specialDesc .posinf]
  | neginf : Doc (.float64 () uvneginf) [specialDesc .neginf]
  | zerofloat : Doc (.float64 () 0) [specialDesc .zerofloat]
  | float64 (ds : List UInt8) (h : ds.length = 8) :
    Doc (.float64 () (UInt64.ofNat (leNat ds))) (bincDesc .float 2 :: ds)
  | pruned (ds : List UInt8) (h : ds.length ≤ 8) :
    Doc (.float64 () (UInt64.ofNat (leNat (ds ++ List.replicate (8 - ds.length) 0))))
      (bincDesc .float 10 :: UInt8.ofNat ds.length :: ds)
  | string (p hdr : List UInt8) (h : LenForm .string p.length hdr) :
    Doc (.string () p) (hdr ++ p)
  | symbol (p hdr : List UInt8) (h : LenForm .symbol p.length hdr) :
    Doc (.string () p) (hdr ++ p)
  | bytes (p hdr : List UInt8) (h : LenForm .bytearray p.length hdr) :
    Doc (.bytes () p) (hdr ++ p)
  | array (vs : List Value) (hdr ds : List UInt8) (h : LenForm .array vs.length hdr)
    (hs : Docs vs ds) : Doc (.array () vs) (hdr ++ ds)
  | map (kvs : List (Value × Value)) (hdr ds : List UInt8) (h : LenForm .map kvs.length hdr)
    (hs : Docs (entries kvs) ds) : Doc (.map () kvs) (hdr ++ ds)
  | ext (tag : UInt8) (p hdr : List UInt8) (h : LenForm .customext p.length hdr) :
    Doc (.customExt () tag p) (hdr ++ tag :: p)

/-- Documents for the values of a list, one after the other. -/
inductive Docs : List Value → List UInt8 → Prop where
  | nil : Docs [] []
  | cons (v : Value) (vs : List Value) (d ds : List UInt8) (h : Doc v d) (hs : Docs vs ds) :
    Docs (v :: vs) (d ++ ds)
end

theorem Docs.split {vs : List Value} {ds : List UInt8} (h : Docs vs ds) :
    ∃ l : List (Value × List UInt8), vs = l.map Prod.fst ∧ ds = l.flatMap Prod.snd ∧
      ∀ x ∈ l, Doc x.1 x.2 := by
  induction vs generalizing ds with
  | nil =>
    cases h
    exact ⟨[], rfl, rfl, by simp⟩
  | cons v vs ih =>
    cases h with
    | cons _ _ d ds hDoc hDocs =>
      obtain ⟨l, rfl, rfl, hAll⟩ := ih hDocs
      refine ⟨(v, d) :: l, rfl, rfl, ?_⟩
      intro x hx
      rcases List.mem_cons.mp hx with rfl | hx
      · exact hDoc
      · exact hAll x hx

/-! ## Where a document has its payloads -/

mutual
/-- The tree of a document that begins at `off`: a payload is the end of its document, and the
elements of a container stand one after the other behind its header. -/
inductive Placed : Nat → List UInt8 → Decoded → Prop where
  | plain {off : Nat} {bs : List UInt8} {d : Decoded} (h : d.slices = []) : Placed off bs d
  | payload {off : Nat} {hdr p : List UInt8} {d : Decoded}
    (h : d.slices = [⟨some (off + hdr.length), p.length, none⟩]) : Placed off (hdr ++ p) d
  | array {off : Nat} {hdr bs : List UInt8} {es : List Decoded} (h : LenForm .array es.length hdr)
    (hs : PlacedAll (off + hdr.length) bs es) :
    Placed off (hdr ++ bs) (.mk .array (.vArray es.length) es)
  | map {off n : Nat} {hdr bs : List UInt8} {es : List Decoded} (h : LenForm .map n hdr)
    (hCount : es.length = 2 * n) (hs : PlacedAll (off + hdr.length) bs es) :
    Placed off (hdr ++ bs) (.mk .map (.vMap n) es)

inductive PlacedAll : Nat → List UInt8 → List Decoded → Prop where
  | nil {off : Nat} : PlacedAll off [] []
  | cons {off : Nat} {v : Value} {bs bss : List UInt8} {d : Decoded} {ds : List Decoded}
    (hDoc : Doc v bs) (h : Placed off bs d) (hs : PlacedAll (off + bs.length) bss ds) :
    PlacedAll off (bs ++ bss) (d :: ds)
end

mutual
theorem Placed.slicesIn {n : Nat} : ∀ {off : Nat} {bs : List UInt8} {d : Decoded},
    Placed off bs d → off + bs.length ≤ n → d.SlicesIn n
  | _, _, _, .plain h, _ => by
    rw [Decoded.SlicesIn, h]
    simp
  | _, _, _, .payload h, hFits => by
    rw [Decoded.SlicesIn, h]
    intro r hr
    rw [List.mem_singleton.mp hr]
    rw [List.length_append] at hFits
    exact ⟨_, rfl, by dsimp only; omega⟩
  | _, _, _, .array _ hs, hFits => by
    rw [List.length_append] at hFits
    exact hs.slicesIn (by omega)
  | _, _, _, .map _ _ hs, hFits => by
    rw [List.length_append] at hFits
    exact hs.slicesIn (by omega)

theorem PlacedAll.slicesIn {n : Nat} : ∀ {off : Nat} {bs : List UInt8} {ds : List Decoded},
    PlacedAll off bs ds → off + bs.length ≤ n → ∀ r ∈ Decoded.slicesList ds, r.In n
  | _, _, _, .nil, _ => by simp [Decoded.slicesList]
  | _, _, _, .cons _ h hs, hFits => by
    rw [List.length_append] at hFits
    rw [Decoded.slicesList, List.forall_mem_append]
    exact ⟨h.slicesIn (by omega), hs.slicesIn (by omega)⟩
end

/-! ## Reading the parts of a document -/

section Read

variable {b : Input} {s : CodecDecodeState}

theorem codecBincDecodeUint64_at {d : UInt8} {ds : List UInt8} (hWidth : ds.length ≤ 7)
    (h : b.At s.pos (d :: ds)) :
    ∃ s', codecBincDecodeUint64 b s ds.length = (s', beNat (d :: ds)) ∧
      s'.pos = s.pos + (d :: ds).length ∧ s'.err = s.err := by
  have hLe := h.le
  have hLen := b.len_lt
  have hSlice : b.slice s.pos (ds.length + 1) = d :: ds := h.slice
  rw [codecBincDecodeUint64_eq hWidth, hSlice]
  exact ⟨_, rfl, copyToX_pos (by rw [List.length_cons] at hLe; omega), rfl⟩

theorem codecBincDecodeHead_at (v : Decoded) {vd : CodecBincDescType} {vs : Nat} (hvs : vs < 16)
    {cs : List UInt8} (h : b.At s.pos (bincDesc vd vs :: cs)) :
    codecBincDecodeHead b s v = codecBincDecodeSwitch b s.enter.next v vd vs ∧
      s.enter.next.pos = s.pos + 1 ∧ b.At s.enter.next.pos cs := by
  obtain ⟨hGet, hLt, hRest⟩ := h.cons
  have hLen := b.len_lt
  have hNext : s.enter.next.pos = s.pos + 1 :=
    CodecDecodeState.next_pos_of_lt _ (by simp; omega)
  rw [codecBincDecodeHead_of_lt v hLt, hGet, (bincDesc_spec vd hvs).1, (bincDesc_spec vd hvs).2,
    hNext]
  exact ⟨rfl, rfl, hRest⟩

theorem codecBincDecodeHead_len (v : Decoded) {vd : CodecBincDescType} {n : Nat}
    {hdr : List UInt8} (hForm : LenForm vd n hdr) (h : b.At s.pos hdr) (hErr : s.err = none) :
    ∃ vs s', codecBincDecodeHead b s v = codecBincDecodeSwitch b s.enter.next v vd vs ∧
      codecBincDecodeLen b s.enter.next vs = (s', n) ∧ s'.pos = s.pos + hdr.length ∧
      s'.failed = false := by
  cases hForm with
  | inline n hn =>
    obtain ⟨hHead, hNext, _⟩ := codecBincDecodeHead_at v (by omega) h
    refine ⟨n + 4, s.enter.next, hHead, ?_, hNext, s.failed_eq_false_iff.mpr hErr⟩
    rw [codecBincDecodeLen, if_neg (by omega), Nat.add_sub_cancel]
  | wide d ds hWidth =>
    obtain ⟨hHead, hNext, hRest⟩ := codecBincDecodeHead_at v (by omega) h
    obtain ⟨s', hRead, hPos, hErr'⟩ := codecBincDecodeUint64_at (by omega) hRest
    refine ⟨ds.length, s', hHead, ?_, ?_, s'.failed_eq_false_iff.mpr (hErr'.trans hErr)⟩
    · rw [codecBincDecodeLen, if_pos hWidth, hRead]
    · rw [hPos, hNext]
      simp only [List.length_cons]
      omega

theorem codecBincDecodeFloat_full {ds : List UInt8} (hEight : ds.length = 8)
    (h : b.At s.pos ds) (hErr : s.err = none) :
    ∃ s', codecBincDecodeFloat b s 2 = (s', UInt64.ofNat (leNat ds)) ∧
      s'.pos = s.pos + ds.length ∧ s'.err = none := by
  have hLe := h.le
  have hLen := b.len_lt
  have hSlice : b.slice s.pos 8 = ds := by rw [← hEight, h.slice]
  refine ⟨copyToX b { s with x := List.replicate 8 0 } 0 8, ?_, ?_, hErr⟩
  · have hOk : (copyToX b { s with x := List.replicate 8 0 } 0 8).failed = false :=
      s.failed_eq_false_iff.mpr hErr
    have hX : (copyToX b { s with x := List.replicate 8 0 } 0 8).x = ds := by
      simp [copyToX, hSlice]
    have hPre : codecBincDecodeFloatPre b s 2 8 =
        copyToX b { s with x := List.replicate 8 0 } 0 8 := rfl
    have hRun : codecBincDecodeFloat b s 2 =
        if (codecBincDecodeFloatPre b s 2 8).failed then (codecBincDecodeFloatPre b s 2 8, 0)
        else (codecBincDecodeFloatPre b s 2 8,
          UInt64.ofNat (leNat (codecBincDecodeFloatPre b s 2 8).x)) := rfl
    rw [hRun, hPre, hOk, hX, if_neg (by decide)]
  · rw [hEight] at hLe ⊢
    exact copyToX_pos (by dsimp only; omega)

theorem codecBincDecodeFloat_pruned {ds : List UInt8} (hEight : ds.length ≤ 8)
    (h : b.At s.pos (UInt8.ofNat ds.length :: ds)) (hErr : s.err = none) :
    ∃ s', codecBincDecodeFloat b s 10 =
        (s', UInt64.ofNat (leNat (ds ++ List.replicate (8 - ds.length) 0))) ∧
      s'.pos = s.pos + (ds.length + 1) ∧ s'.err = none := by
  have hLe := h.le
  have hLen := b.len_lt
  obtain ⟨hGet, hLt, hRest⟩ := h.cons
  have hCount : (b.get s.pos).toNat = ds.length := by
    rw [hGet, UInt8.toNat_ofNat']
    omega
  have hNext : s.next.pos = s.pos + 1 := s.next_pos_of_lt (by omega)
  rw [← hNext] at hRest
  let t : CodecDecodeState := CodecDecodeState.next { s with x := List.replicate 8 0 }
  have hPre : codecBincDecodeFloatPre b s 10 8 = copyToX b t 0 ds.length := by
    have hRun : codecBincDecodeFloatPre b s 10 8 = if (b.get s.pos).toNat > 8 then
        t.fail ("At most 8 bytes used to represent float. Received: " ++
          toString (b.get s.pos).toNat ++ " bytes")
        else copyToX b t 0 (b.get s.pos).toNat := rfl
    rw [hRun, hCount, if_neg (by omega)]
  have hSlice : b.slice t.pos ds.length = ds := hRest.slice
  refine ⟨copyToX b t 0 ds.length, ?_, ?_, hErr⟩
  · have hOk : (copyToX b t 0 ds.length).failed = false := s.failed_eq_false_iff.mpr hErr
    have hX : (copyToX b t 0 ds.length).x = ds ++ List.replicate (8 - ds.length) 0 := by
      simp [copyToX, hSlice]
    have hRun : codecBincDecodeFloat b s 10 =
        if (codecBincDecodeFloatPre b s 10 8).failed then (codecBincDecodeFloatPre b s 10 8, 0)
        else (codecBincDecodeFloatPre b s 10 8,
          UInt64.ofNat (leNat (codecBincDecodeFloatPre b s 10 8).x)) := rfl
    rw [hRun, hPre, hOk, hX, if_neg (by decide)]
  · rw [List.length_cons] at hLe
    have hPos : t.pos = s.pos + 1 := hNext
    rw [copyToX_pos (by omega), hPos]
    omega

end Read

/-! ## Reading a document -/

section Documents

variable {b : Input}

/-- What the decoder is to return for a document of `v` that begins at `off`. -/
def Mirrors (b : Input) (v : Value) (bs : List UInt8) (off : Nat) (d : Decoded) : Prop :=
  d.value b = some v ∧ Placed off bs d

theorem readsTo_desc {v : Value} {vd : CodecBincDescType} (vs : Nat) (hvs : vs < 16) {d : Decoded}
    (hSwitch : ∀ s, codecBincDecodeSwitch b s .zero vd vs = .leaf s d) (hPlain : d.slices = [])
    (hValue : d.value b = some v) :
    ReadsTo (codecBincDecodeHead b) b (Mirrors b v [bincDesc vd vs]) [bincDesc vd vs] := by
  refine readsTo_leaf fun s hAt hErr => ?_
  obtain ⟨hHead, hNext, _⟩ := codecBincDecodeHead_at .zero hvs hAt
  rw [hSwitch] at hHead
  exact ⟨_, d, hHead, ⟨hValue, .plain hPlain⟩, hNext, hErr⟩

theorem readsTo_int {v : Value} {vd : CodecBincDescType} {type : CodecValueType} {d : UInt8}
    {ds : List UInt8} (hWidth : ds.length ≤ 7)
    (hSwitch : ∀ s, codecBincDecodeSwitch b s .zero vd ds.length =
      codecBincDecodeInt b s ds.length type)
    (hValue : (Decoded.mk type (.vUint64 (UInt64.ofNat (beNat (d :: ds)))) []).value b = some v) :
    ReadsTo (codecBincDecodeHead b) b (Mirrors b v (bincDesc vd ds.length :: d :: ds))
      (bincDesc vd ds.length :: d :: ds) := by
  refine readsTo_leaf fun s hAt hErr => ?_
  obtain ⟨hHead, hNext, hRest⟩ := codecBincDecodeHead_at .zero (by omega) hAt
  obtain ⟨s', hRead, hPos, hErr'⟩ := codecBincDecodeUint64_at hWidth hRest
  rw [hSwitch, codecBincDecodeInt, hRead] at hHead
  refine ⟨s', _, hHead, ⟨hValue, .plain rfl⟩, ?_, hErr'.trans hErr⟩
  rw [hPos, hNext]
  simp only [List.length_cons]
  omega

theorem readsTo_float {bits : UInt64} {vs : Nat} {ds : List UInt8} (hvs : vs < 16)
    (hRead : ∀ s, b.At s.pos ds → s.err = none → ∃ s', codecBincDecodeFloat b s vs = (s', bits) ∧
      s'.pos = s.pos + ds.length ∧ s'.err = none) :
    ReadsTo (codecBincDecodeHead b) b (Mirrors b (.float64 () bits) (bincDesc .float vs :: ds))
      (bincDesc .float vs :: ds) := by
  refine readsTo_leaf fun s hAt hErr => ?_
  obtain ⟨hHead, hNext, hRest⟩ := codecBincDecodeHead_at .zero hvs hAt
  obtain ⟨s', hFloat, hPos, hErr'⟩ := hRead s.enter.next hRest hErr
  rw [codecBincDecodeSwitch, hFloat] at hHead
  refine ⟨s', _, hHead, ⟨rfl, .plain rfl⟩, ?_, hErr'⟩
  rw [hPos, hNext, List.length_cons]
  omega

theorem readsTo_bytes {v : Value} {vd : CodecBincDescType} {type : CodecValueType}
    {p hdr : List UInt8} (hForm : LenForm vd p.length hdr)
    (hSwitch : ∀ s vs, codecBincDecodeSwitch b s .zero vd vs = codecBincDecodeBytes b s vs type)
    (hValue : ∀ off, b.slice off p.length = p →
      (Decoded.mk type (.vBytes ⟨some off, p.length, none⟩) []).value b = some v) :
    ReadsTo (codecBincDecodeHead b) b (Mirrors b v (hdr ++ p)) (hdr ++ p) := by
  refine readsTo_leaf fun s hAt hErr => ?_
  have hFits := hAt.le
  have hLen := b.len_lt
  obtain ⟨hHere, hPayload⟩ := hAt.append
  obtain ⟨vs, s', hHead, hRead, hPos, hOk⟩ := codecBincDecodeHead_len .zero hForm hHere hErr
  rw [hSwitch, codecBincDecodeBytes, hRead] at hHead
  dsimp only at hHead
  rw [hOk, if_neg (by decide), hPos] at hHead
  rw [List.length_append] at hFits ⊢
  refine ⟨_, _, hHead, ⟨hValue _ hPayload.slice, .payload rfl⟩, ?_, s'.failed_eq_false_iff.mp hOk⟩
  rw [CodecDecodeState.advance_pos_of_lt _ (by omega), hPos]
  omega

theorem readsTo_ext {tag : UInt8} {p hdr : List UInt8} (hForm : LenForm .customext p.length hdr) :
    ReadsTo (codecBincDecodeHead b) b (Mirrors b (.customExt () tag p) (hdr ++ tag :: p))
      (hdr ++ tag :: p) := by
  refine readsTo_leaf fun s hAt hErr => ?_
  have hFits := hAt.le
  have hLen := b.len_lt
  obtain ⟨hHere, hTagged⟩ := hAt.append
  obtain ⟨hTag, _, hPayload⟩ := hTagged.cons
  obtain ⟨vs, s', hHead, hRead, hPos, hOk⟩ := codecBincDecodeHead_len .zero hForm hHere hErr
  rw [List.length_append, List.length_cons] at hFits ⊢
  have hNext : s'.next.pos = s.pos + hdr.length + 1 := by
    rw [s'.next_pos_of_lt (by omega), hPos]
  rw [codecBincDecodeSwitch, codecBincDecodeExt, hRead] at hHead
  dsimp only at hHead
  rw [hOk, if_neg (by decide), hPos, hTag, hNext] at hHead
  have hPlaced : Placed s.pos (hdr ++ tag :: p)
      (.mk .customExt (.vExt (some tag) ⟨some (s.pos + hdr.length + 1), p.length, none⟩) []) := by
    rw [List.append_cons]
    apply Placed.payload
    rw [List.length_append, List.length_singleton, Nat.add_assoc]
    rfl
  refine ⟨_, _, hHead, ⟨by rw [Decoded.value, hPayload.slice], hPlaced⟩, ?_,
    s'.failed_eq_false_iff.mp hOk⟩
  rw [CodecDecodeState.advance_pos_of_lt _ (by omega), hNext]
  omega

theorem opens_array {n : Nat} {hdr : List UInt8} (hForm : LenForm .array n hdr) :
    Opens (codecBincDecodeHead b) b hdr n intLimit fun es => .mk .array (.vArray n) es := by
  intro s hAt hErr
  obtain ⟨vs, s', hHead, hRead, hPos, hOk⟩ := codecBincDecodeHead_len .zero hForm hAt hErr
  rw [codecBincDecodeSwitch, codecBincDecodeArray, hRead] at hHead
  dsimp only at hHead
  rw [hOk, if_neg (by decide)] at hHead
  exact ⟨s', hHead, hPos, s'.failed_eq_false_iff.mp hOk⟩

theorem opens_map {n : Nat} {hdr : List UInt8} (hForm : LenForm .map n hdr) :
    Opens (codecBincDecodeHead b) b hdr (2 * n) (2 * intLimit) fun es =>
      .mk .map (.vMap n) es := by
  intro s hAt hErr
  obtain ⟨vs, s', hHead, hRead, hPos, hOk⟩ := codecBincDecodeHead_len .zero hForm hAt hErr
  rw [codecBincDecodeSwitch, codecBincDecodeMap, hRead] at hHead
  dsimp only at hHead
  rw [hOk, if_neg (by decide)] at hHead
  exact ⟨s', hHead, hPos, s'.failed_eq_false_iff.mp hOk⟩

/-- The trees of elements that were read one after the other. -/
theorem placedAll {l : List (Value × List UInt8)} {off : Nat} {ds : List Decoded}
    (hAll : ∀ x ∈ l, Doc x.1 x.2)
    (h : Laid (fun x : Value × List UInt8 => Mirrors b x.1 x.2) Prod.snd off l ds) :
    PlacedAll off (l.flatMap Prod.snd) ds ∧ Decoded.values b ds = some (l.map Prod.fst) ∧
      ds.length = l.length := by
  induction h with
  | nil off => exact ⟨.nil, rfl, rfl⟩
  | cons hHead hTail ih =>
    obtain ⟨hDoc, hDocs⟩ := List.forall_mem_cons.mp hAll
    obtain ⟨hPlaced, hValues, hLength⟩ := ih hDocs
    refine ⟨.cons hDoc hHead.2 hPlaced, Decoded.values_cons.mpr ⟨hHead.1, hValues⟩, ?_⟩
    rw [List.length_cons, List.length_cons, hLength]

/-- Whatever forms its writer chose, a document is read as its value. -/
theorem readsTo_of_doc (b : Input) (v : Value) (hCounts : v.IntCounts) {d : List UInt8}
    (hDoc : Doc v d) : ReadsTo (codecBincDecodeHead b) b (Mirrors b v d) d := by
  induction v using CodecValue.ind generalizing d with
  | h v ih =>
    have hInner (c : Value) (hc : c ∈ v.children) {d : List UInt8} (h : Doc c d) :
        ReadsTo (codecBincDecodeHead b) b (Mirrors b c d) d := ih c hc (hCounts.inner c hc) h
    cases hDoc with
    | nil => exact readsTo_desc _ (by decide) (fun _ => rfl) rfl rfl
    | bool x =>
      cases x
      · exact readsTo_desc 1 (by decide) (fun _ => rfl) rfl rfl
      · exact readsTo_desc 2 (by decide) (fun _ => rfl) rfl rfl
    | zero => exact readsTo_desc _ (by decide) (fun _ => rfl) rfl rfl
    | negone => exact readsTo_desc _ (by decide) (fun _ => rfl) rfl rfl
    | nan => exact readsTo_desc _ (by decide) (fun _ => rfl) rfl rfl
    | posinf => exact readsTo_desc _ (by decide) (fun _ => rfl) rfl rfl
    | neginf => exact readsTo_desc _ (by decide) (fun _ => rfl) rfl rfl
    | zerofloat => exact readsTo_desc _ (by decide) (fun _ => rfl) rfl rfl
    | smallint k h => exact readsTo_desc _ (by omega) (fun _ => rfl) rfl rfl
    | posint d ds h => exact readsTo_int h (fun _ => rfl) rfl
    | negint d ds h => exact readsTo_int h (fun _ => rfl) rfl
    | float64 ds h =>
      exact readsTo_float (by decide) fun s hAt hErr => codecBincDecodeFloat_full h hAt hErr
    | pruned ds h =>
      exact readsTo_float (by decide) fun s hAt hErr => codecBincDecodeFloat_pruned h hAt hErr
    | string p hdr h =>
      exact readsTo_bytes h (fun _ _ => rfl) fun off hSlice => by rw [Decoded.value, hSlice]
    | symbol p hdr h =>
      exact readsTo_bytes h (fun _ _ => rfl) fun off hSlice => by rw [Decoded.value, hSlice]
    | bytes p hdr h =>
      exact readsTo_bytes h (fun _ _ => rfl) fun off hSlice => by rw [Decoded.value, hSlice]
    | ext tag p hdr h => exact readsTo_ext h
    | array vs hdr ds h hs =>
      have hCount : vs.length < intLimit := hCounts.root
      obtain ⟨l, rfl, rfl, hAll⟩ := hs.split
      rw [List.length_map] at h hCount
      refine readsTo_container l (opens_array h) rfl hCount (fun off es hLaid => ?_) fun x hx =>
        hInner x.1 (List.mem_map_of_mem hx) (hAll x hx)
      obtain ⟨hPlaced, hValues, hLength⟩ := placedAll hAll hLaid
      rw [← hLength] at h ⊢
      refine ⟨?_, .array h hPlaced⟩
      simp [Decoded.value, hValues, hLength]
    | map kvs hdr ds h hs =>
      have hCount : kvs.length < intLimit := hCounts.root
      obtain ⟨l, hEntries, rfl, hAll⟩ := hs.split
      have hPairs : l.length = 2 * kvs.length := by
        rw [← entries_length kvs, hEntries, List.length_map]
      refine readsTo_container l (opens_map h) hPairs (by omega) (fun off es hLaid => ?_)
        fun x hx => hInner x.1 ?_ (hAll x hx)
      · obtain ⟨hPlaced, hValues, hLength⟩ := placedAll hAll hLaid
        refine ⟨?_, .map h (hLength.trans hPairs) hPlaced⟩
        rw [← hEntries] at hValues
        simp [Decoded.value, hValues, Decoded.pairUp_entries]
      · rw [children, hEntries]
        exact List.mem_map_of_mem hx

theorem readsAs_of_doc (b : Input) (v : Value) (hCounts : v.IntCounts) {d : List UInt8}
    (hDoc : Doc v d) : ReadsAs (codecBincDecodeHead b) b v d :=
  (readsTo_of_doc b v hCounts hDoc).imp fun _ _ hMirrors => hMirrors.1

end Documents

/-- The decoder is correct on every document, whatever follows it and whatever the destination
held: it returns the value, and its payloads are those slices of the input that the document has
there. -/
theorem codecBincDecode_doc {v : Value} {d r : List UInt8} (b : Input) (hDoc : Doc v d)
    (hCounts : v.IntCounts) (hBytes : b.bytes = d ++ r) :
    ∃ fuel s dec, (∀ dest, codecBincDecode b fuel dest = .done s dec) ∧ s.err = none ∧
      dec.value b = some v ∧ Placed 0 d dec ∧ dec.SlicesIn d.length ∧ s.pos = d.length := by
  obtain ⟨s, dec, ⟨fuel, hRun⟩, ⟨hValue, hPlaced⟩, hPos, hErr⟩ :=
    readsTo_of_doc b v hCounts hDoc .init (Input.At.start hBytes) rfl
  -- a destination that is left alone has no value
  have hNamed : ¬ Unnamed b 0 := by
    intro hUnnamed
    have hKept := hRun.symm.trans (codecBincDecodeR_unnamed hRun hErr hUnnamed .zero)
    cases hKept
    cases hValue
  refine ⟨fuel, s, dec, codecBincDecodeR_congr hRun hErr hNamed, hErr, hValue, hPlaced,
    hPlaced.slicesIn (Nat.zero_add _).le, ?_⟩
  rw [hPos]
  exact Nat.zero_add _

/-- An array of a symbol, whose length is in two bytes, and of nil. -/
theorem codecBincDecode_doc_array :
    ∃ fuel s dec, (∀ dest, codecBincDecode ⟨[0x66, 0xb0, 1, 65, 0, 7], fun _ => 0, by decide⟩ fuel
      dest = .done s dec) ∧ s.err = none ∧
      dec.value ⟨[0x66, 0xb0, 1, 65, 0, 7], fun _ => 0, by decide⟩ =
        some (.array () [.string () [65], .nil ()]) ∧
      Placed 0 [0x66, 0xb0, 1, 65, 0] dec ∧ dec.SlicesIn 5 ∧ s.pos = 5 := by
  have hSymbol : Doc (.string () [65]) [0xb0, 1, 65] :=
    .symbol [65] [0xb0, 1] (.wide 1 [] (by decide))
  have hDoc : Doc (.array () [.string () [65], .nil ()]) [0x66, 0xb0, 1, 65, 0] :=
    .array _ [0x66] [0xb0, 1, 65, 0] (.inline 2 (by decide))
      (.cons _ _ [0xb0, 1, 65] [0] hSymbol (.cons _ _ [0] [] .nil .nil))
  refine codecBincDecode_doc (r := [7]) _ hDoc (.node (by decide) ?_) rfl
  simp only [children, List.forall_mem_cons]
  exact ⟨.leaf (by decide) rfl, .leaf (by decide) rfl, List.forall_mem_nil _⟩

end CcCommon.Codec.Binc
