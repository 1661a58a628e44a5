import CcCommon.Codec.Binc.Digits
import CcCommon.Codec.Binc.Reflect

/-! # Which values survive codec_binc_encode and codec_binc_decode

A value comes back if and only if every number in it is written whole. In
one direction what the encoder appends is a document. In the other a wrong
number sends the reader ahead of the writer, and it never falls back. -/

namespace CcCommon.Codec.Binc

open Util Lib.Bytes Lib.Descent Lib.PrefixCode CodecValue

set_option autoImplicit false

variable {μ : Type}

/-- The integers, lengths and counts that come back. -/
def ReadsBackAt : CodecValue μ → Prop
  | .posInt _ n => WrittenWhole true n.toNat
  | .negInt _ n => WrittenWhole false n.toNat
  | .string _ p | .bytes _ p => WrittenWhole false p.length
  | .array _ vs => vs.length ≤ 255
  | .map _ kvs => kvs.length ≤ 255
  | _ => True

/-- Neither a float nor an extension. -/
def IsPlain : CodecValue μ → Prop
  | .float32 _ _ | .float64 _ _ | .customExt _ _ _ => False
  | _ => True

mutual
/-- The same tree, but for a negative zero that may have become a positive one. -/
def MayReturn : CodecValue μ → Value → Prop
  | .nil _, .nil _ => True
  | .bool _ x, .bool _ y => x = y
  | .posInt _ n, .posInt _ m => n = m
  | .negInt _ n, .negInt _ m => n = m
  | .negInt _ n, .posInt _ m => n = 0 ∧ m = 0
  | .string _ p, .string _ q => p = q
  | .bytes _ p, .bytes _ q => p = q
  | .array _ vs, .array _ ws => MayReturnList vs ws
  | .map _ kvs, .map _ lws => MayReturnPairs kvs lws
  | _, _ => False

def MayReturnList : List (CodecValue μ) → List Value → Prop
  | [], [] => True
  | v :: vs, w :: ws => MayReturn v w ∧ MayReturnList vs ws
  | _, _ => False

def MayReturnPairs : List (CodecValue μ × CodecValue μ) → List (Value × Value) → Prop
  | [], [] => True
  | (k, v) :: kvs, (l, w) :: lws => MayReturn k l ∧ MayReturn v w ∧ MayReturnPairs kvs lws
  | _, _ => False
end

theorem mayReturnPairs_iff (kvs : List (CodecValue μ × CodecValue μ))
    (lws : List (Value × Value)) :
    MayReturnPairs kvs lws ↔ MayReturnList (entries kvs) (entries lws) := by
  induction kvs generalizing lws with
  | nil => cases lws <;> simp [MayReturnPairs, MayReturnList, entries]
  | cons kv kvs ih =>
    cases lws with
    | nil => simp [MayReturnPairs, MayReturnList, entries]
    | cons lw lws => simp only [MayReturnPairs, MayReturnList, entries, ih]

theorem MayReturnList.length {vs : List (CodecValue μ)} {ws : List Value}
    (h : MayReturnList vs ws) : ws.length = vs.length := by
  induction vs generalizing ws with
  | nil =>
    cases ws with
    | nil => rfl
    | cons w ws => cases h
  | cons v vs ih =>
    cases ws with
    | nil => cases h
    | cons w ws => rw [List.length_cons, List.length_cons, ih h.2]

theorem MayReturnList.mem {vs : List (CodecValue μ)} {ws : List Value}
    (h : MayReturnList vs ws) {w : Value} (hw : w ∈ ws) : ∃ v ∈ vs, MayReturn v w := by
  induction vs generalizing ws with
  | nil =>
    cases ws with
    | nil => cases hw
    | cons w ws => cases h
  | cons v vs ih =>
    cases ws with
    | nil => cases hw
    | cons u ws =>
      rcases List.mem_cons.mp hw with rfl | hw
      · exact ⟨v, List.mem_cons_self, h.1⟩
      · obtain ⟨v', hv', hRet⟩ := ih h.2 hw
        exact ⟨v', List.mem_cons_of_mem _ hv', hRet⟩

theorem MayReturn.children {v : CodecValue μ} {w : Value} (h : MayReturn v w) :
    MayReturnList v.children w.children := by
  cases v <;> cases w <;>
    first
      | exact h
      | exact (mayReturnPairs_iff _ _).mp h
      | trivial

theorem noFloats_of_mayReturn (v : CodecValue μ) (hPlain : v.All IsPlain) {w : Value}
    (h : MayReturn v w) : w.All fun u => ¬ u.IsFloat := by
  induction v using CodecValue.ind generalizing w with
  | h v ih =>
    refine .node ?_ fun u hu => ?_
    · have hRoot := hPlain.root
      cases v <;> cases w <;> first | exact id | exact absurd h id
    · obtain ⟨c, hc, hRet⟩ := h.children.mem hu
      exact ih c hc (hPlain.inner c hc) hRet

/-! ## What is written is a document -/

section Written

theorem bincUintBytes_length (bd : UInt8) (pos : Bool) {n : Nat} (h : n < 2 ^ 32) :
    (bincUintBytes bd pos n).length ≤ 5 := by
  unfold bincUintBytes
  split_ifs
  · exact Nat.le_add_left 1 4
  · exact Nat.le_add_left 1 4
  · exact Nat.le_add_left 2 3
  · rw [beBytes_length]
    decide
  · rw [prunedBytes, List.length_cons, List.length_drop, uintBytes_four h, beBytes_length]
    omega
  · omega

theorem WrittenWhole.lt {pos : Bool} {n : Nat} (h : WrittenWhole pos n) : n < 2 ^ 32 := by
  rcases h with hByte | ⟨_, hHigh⟩
  · omega
  · split at hHigh <;> omega

theorem lenForm_bincLenBytes (vd : CodecBincDescType) {n : Nat} (h : WrittenWhole false n) :
    LenForm vd n (bincLenBytes (bincDesc vd 0) n) := by
  rw [bincLenBytes]
  split
  · rename_i hShort
    rw [bincDesc_or (by omega)]
    exact .inline n (by omega)
  · rename_i hLong
    obtain ⟨c, cs, _, rfl, hBytes⟩ :=
      wide_bincUintBytes vd (by omega) (by simp) h
    have hFive := bincUintBytes_length (bincDesc vd 0) false h.lt
    rw [hBytes, List.length_cons, List.length_cons] at hFive
    rw [hBytes]
    exact .wide c cs (by omega)

theorem ofNat_toNat_eq {n : UInt64} {k : Nat} (h : k = n.toNat) : UInt64.ofNat k = n := by
  rw [h, UInt64.ofNat_toNat]

theorem doc_posInt {n : UInt64} (h : WrittenWhole true n.toNat) :
    Doc (.posInt () n) (bincUintBytes (bincDesc .posint 0) true n.toNat) := by
  by_cases hZero : n.toNat = 0
  · have hNone : n = 0 := UInt64.toNat_inj.mp hZero
    subst hNone
    exact .zero
  · by_cases hSmall : true ∧ 1 ≤ n.toNat ∧ n.toNat ≤ 16
    · have hDoc := Doc.smallint (n.toNat - 1) (by omega)
      rw [ofNat_toNat_eq (n := n) (by omega)] at hDoc
      rw [bincUintBytes, if_neg hZero, if_pos (by simpa using hSmall)]
      exact hDoc
    · obtain ⟨c, cs, hWidth, hValue, hBytes⟩ :=
        wide_bincUintBytes .posint hZero (by simpa using hSmall) h
      have hDoc := Doc.posint c cs hWidth
      rw [ofNat_toNat_eq hValue] at hDoc
      rwa [hBytes]

theorem doc_negInt {n : UInt64} (hZero : n.toNat ≠ 0) (h : WrittenWhole false n.toNat) :
    Doc (.negInt () n) (bincUintBytes (bincDesc .negint 0) false n.toNat) := by
  obtain ⟨c, cs, hWidth, hValue, hBytes⟩ := wide_bincUintBytes .negint hZero (by simp) h
  have hDoc := Doc.negint c cs hWidth
  rw [ofNat_toNat_eq hValue] at hDoc
  rwa [hBytes]

theorem exists_docs (vs : List (CodecValue Placement))
    (h : ∀ v ∈ vs, ∀ after, ∃ w, MayReturn v w ∧ Doc w (bincBytes v after) ∧ w.IntCounts)
    (behind : Words) :
    ∃ ws, MayReturnList vs ws ∧ Docs ws (bincBytesList vs behind) ∧ ∀ w ∈ ws, w.IntCounts := by
  induction vs with
  | nil => exact ⟨[], trivial, .nil, by simp⟩
  | cons v vs ih =>
    obtain ⟨w, hRet, hDoc, hCounts⟩ := h v List.mem_cons_self (behindIn vs behind)
    obtain ⟨ws, hRets, hDocs, hAll⟩ := ih fun u hu => h u (List.mem_cons_of_mem _ hu)
    refine ⟨w :: ws, ⟨hRet, hRets⟩, .cons w ws _ _ hDoc hDocs, ?_⟩
    intro u hu
    rcases List.mem_cons.mp hu with rfl | hu
    · exact hCounts
    · exact hAll u hu

/-- What is appended for a value that reads back is a document for what may return. -/
theorem exists_doc (v : CodecValue Placement) (hPlain : v.All IsPlain)
    (hReads : v.All ReadsBackAt) (after : Words) :
    ∃ w, MayReturn v w ∧ Doc w (bincBytes v after) ∧ w.IntCounts := by
  induction v using CodecValue.ind generalizing after with
  | h v ih =>
    have hInner := fun c hc => ih c hc (hPlain.inner c hc) (hReads.inner c hc)
    have hRoot := hReads.root
    have hLeaf (w : Value) (hw : w.children = []) (hCount : w.count = 0) : w.IntCounts :=
      .node (by rw [hCount]; decide) (by simp [hw])
    cases v with
    | nil m => exact ⟨.nil (), trivial, .nil, hLeaf _ rfl rfl⟩
    | bool m x => exact ⟨.bool () x, rfl, .bool x, hLeaf _ rfl rfl⟩
    | posInt m n => exact ⟨.posInt () n, rfl, doc_posInt hRoot, hLeaf _ rfl rfl⟩
    | negInt m n =>
      by_cases hZero : n.toNat = 0
      · have hNone : n = 0 := UInt64.toNat_inj.mp hZero
        subst hNone
        exact ⟨.posInt () 0, ⟨rfl, rfl⟩, .zero, hLeaf _ rfl rfl⟩
      · exact ⟨.negInt () n, rfl, doc_negInt hZero hRoot, hLeaf _ rfl rfl⟩
    | float32 m bits => exact absurd hPlain.root id
    | float64 m bits => exact absurd hPlain.root id
    | customExt m tag p => exact absurd hPlain.root id
    | string m p =>
      exact ⟨.string () p, rfl, .string p _ (lenForm_bincLenBytes _ hRoot), hLeaf _ rfl rfl⟩
    | bytes m p =>
      exact ⟨.bytes () p, rfl, .bytes p _ (lenForm_bincLenBytes _ hRoot), hLeaf _ rfl rfl⟩
    | array m vs =>
      obtain ⟨ws, hRets, hDocs, hAll⟩ := exists_docs vs hInner m.behind
      have hCount : vs.length ≤ 255 := hRoot
      have hForm := lenForm_bincLenBytes .array (Or.inl hCount)
      rw [← hRets.length] at hCount hForm
      refine ⟨.array () ws, hRets, ?_, .node (Nat.lt_of_le_of_lt hCount (by decide)) hAll⟩
      rw [bincBytes, ← hRets.length]
      exact .array ws _ _ hForm hDocs
    | map m kvs =>
      obtain ⟨ws, hRets, hDocs, hAll⟩ := exists_docs (entries kvs) hInner m.behind
      have hCount : kvs.length ≤ 255 := hRoot
      have hForm := lenForm_bincLenBytes .map (Or.inl hCount)
      have hEntries : entries (Decoded.pairUp ws) = ws :=
        Decoded.entries_pairUp ws (by rw [hRets.length, entries_length])
      have hPairs : (Decoded.pairUp ws).length = kvs.length := by
        have hTwice := entries_length (Decoded.pairUp ws)
        rw [hEntries, hRets.length, entries_length] at hTwice
        omega
      rw [← hEntries] at hRets hDocs hAll
      rw [← hPairs] at hCount hForm
      refine ⟨.map () (Decoded.pairUp ws), (mayReturnPairs_iff _ _).mpr hRets, ?_,
        .node (Nat.lt_of_le_of_lt hCount (by decide)) hAll⟩
      rw [bincBytes, ← hPairs, bincBytesPairs_eq]
      exact .map _ _ _ hForm hDocs

end Written

/-! ## Where the documents for a value are -/

section Drift

theorem Doc.length_pos {w : Value} {d : List UInt8} (h : Doc w d) : 1 ≤ d.length := by
  have hHeader {vd : CodecBincDescType} {n : Nat} {hdr : List UInt8} (hForm : LenForm vd n hdr) :
      1 ≤ hdr.length := by
    cases hForm <;> simp
  cases h
  case string p hdr hForm => rw [List.length_append]; have := hHeader hForm; omega
  case symbol p hdr hForm => rw [List.length_append]; have := hHeader hForm; omega
  case bytes p hdr hForm => rw [List.length_append]; have := hHeader hForm; omega
  case array vs hdr ds hForm _ => rw [List.length_append]; have := hHeader hForm; omega
  case map kvs hdr ds hForm _ => rw [List.length_append]; have := hHeader hForm; omega
  case ext tag p hdr hForm => rw [List.length_append]; have := hHeader hForm; omega
  all_goals simp

theorem toNat_ofNat_beNat {c : UInt8} {cs : List UInt8} (h : cs.length ≤ 7) :
    (UInt64.ofNat (beNat (c :: cs))).toNat = beNat (c :: cs) := by
  have hBound := beNat_lt (c :: cs)
  have hPow : 256 ^ (c :: cs).length ≤ 256 ^ 8 :=
    Nat.pow_le_pow_right (by decide) (by rw [List.length_cons]; omega)
  rw [UInt64.toNat_ofNat']
  exact Nat.mod_eq_of_lt (by omega)

theorem wide_of_posInt {n : UInt64} {d : List UInt8} (h : Doc (.posInt () n) d)
    (hBig : 16 < n.toNat) : Wide .posint n.toNat d := by
  cases h with
  | zero => exact absurd hBig (by decide)
  | smallint k hk =>
    rw [UInt64.toNat_ofNat'] at hBig
    omega
  | posint c cs hWidth => exact ⟨c, cs, hWidth, (toNat_ofNat_beNat hWidth).symm, rfl⟩

theorem wide_of_negInt {n : UInt64} {d : List UInt8} (h : Doc (.negInt () n) d) :
    (n = 1 ∧ d = [specialDesc .negone]) ∨ Wide .negint n.toNat d := by
  cases h with
  | negone => exact Or.inl ⟨rfl, rfl⟩
  | negint c cs hWidth => exact Or.inr ⟨c, cs, hWidth, (toNat_ofNat_beNat hWidth).symm, rfl⟩

theorem drifts_posInt {n : UInt64} {d : List UInt8} (h : Doc (.posInt () n) d) :
    Drifts (WrittenWhole true n.toNat) (bincUintBytes (bincDesc .posint 0) true n.toNat) d := by
  by_cases hByte : n.toNat ≤ 16
  · have hOne : (bincUintBytes (bincDesc .posint 0) true n.toNat).length = 1 := by
      rw [bincUintBytes]
      by_cases hZero : n.toNat = 0
      · rw [if_pos hZero]
        rfl
      · rw [if_neg hZero, if_pos ⟨rfl, by omega, hByte⟩]
        rfl
    exact .of_le (hOne ▸ h.length_pos) fun _ => Or.inl (by omega)
  · exact drifts_bincUintBytes (by omega) (by simp; omega) (wide_of_posInt h (by omega))

theorem drifts_negInt {m : μ} {n : UInt64} {d : List UInt8} {w : Value}
    (hRet : MayReturn (.negInt m n) w) (h : Doc w d) :
    Drifts (WrittenWhole false n.toNat) (bincUintBytes (bincDesc .negint 0) false n.toNat) d := by
  by_cases hZero : n.toNat = 0
  · rw [hZero]
    exact .of_le h.length_pos fun _ => Or.inl (by decide)
  · cases w with
    | posInt _ m =>
      have hNone : n = 0 := hRet.1
      exact absurd (congrArg UInt64.toNat hNone) hZero
    | negInt _ m =>
      have hSame : n = m := hRet
      subst hSame
      rcases wide_of_negInt h with ⟨rfl, rfl⟩ | hWide
      · refine .of_absent fun t u hEq => ?_
        have hMem : specialDesc .negone ∈
            bincUintBytes (bincDesc .negint 0) false (1 : UInt64).toNat := by
          rw [hEq]
          simp
        exact absurd hMem (by decide)
      · exact drifts_bincUintBytes hZero (by simp) hWide
    | _ => exact absurd hRet id

theorem drifts_lenBytes {vd vd' : CodecBincDescType} {n : Nat} {hdr : List UInt8}
    (h : LenForm vd' n hdr) :
    Drifts (WrittenWhole false n) (bincLenBytes (bincDesc vd 0) n) hdr := by
  rw [bincLenBytes]
  split
  · rename_i hShort
    refine .of_le ?_ fun _ => Or.inl (by omega)
    cases h <;> simp
  · rename_i hLong
    cases h with
    | inline n hn => omega
    | wide c cs hWidth =>
      exact drifts_bincUintBytes (by omega) (by simp) ⟨c, cs, by omega, rfl, rfl⟩

theorem drifts_payload {vd vd' : CodecBincDescType} {p hdr : List UInt8}
    (h : LenForm vd' p.length hdr) :
    Drifts (WrittenWhole false p.length) (bincLenBytes (bincDesc vd 0) p.length ++ p) (hdr ++ p) := by
  have hSame : Drifts True p p := .of_le (Nat.le_refl _) fun _ => trivial
  exact ((drifts_lenBytes h).append hSame).imp And.left

theorem drifts_list (vs : List (CodecValue Placement))
    (h : ∀ v ∈ vs, ∀ after w d, MayReturn v w → Doc w d →
      Drifts (v.All ReadsBackAt) (bincBytes v after) d) (behind : Words) {ws : List Value}
    {ds : List UInt8} (hRets : MayReturnList vs ws) (hDocs : Docs ws ds) :
    Drifts (∀ v ∈ vs, v.All ReadsBackAt) (bincBytesList vs behind) ds := by
  induction vs generalizing ws ds with
  | nil =>
    exact .of_le (Nat.zero_le _) fun _ => by simp
  | cons v vs ih =>
    cases hDocs with
    | nil => cases hRets
    | cons w ws d ds hDoc hDocs =>
      have hHead := h v List.mem_cons_self (behindIn vs behind) w d hRets.1 hDoc
      have hTail := ih (fun u hu => h u (List.mem_cons_of_mem _ hu)) hRets.2 hDocs
      refine (hHead.append hTail).imp ?_
      rintro ⟨hHere, hRest⟩ u hu
      rcases List.mem_cons.mp hu with rfl | hu
      · exact hHere
      · exact hRest u hu

/-- A document for what may return is not found in step with the bytes of a value that does not
read back. -/
theorem drifts (v : CodecValue Placement) (hPlain : v.All IsPlain) (hCounts : ByteCounts v)
    (after : Words) {w : Value} {d : List UInt8} (hRet : MayReturn v w) (hDoc : Doc w d) :
    Drifts (v.All ReadsBackAt) (bincBytes v after) d := by
  induction v using CodecValue.ind generalizing after w d with
  | h v ih =>
    have hInner := fun c hc after w d => @ih c hc (hPlain.inner c hc) (hCounts.inner c hc) after w d
    have hCount : v.count ≤ 255 := hCounts.root
    have hLeaf (hv : v.children = []) (hRoot : ReadsBackAt v) : v.All ReadsBackAt :=
      .node hRoot (by simp [hv])
    cases v with
    | nil m => exact .of_le hDoc.length_pos fun _ => hLeaf rfl trivial
    | bool m x => exact .of_le hDoc.length_pos fun _ => hLeaf rfl trivial
    | posInt m n =>
      cases w with
      | posInt _ k =>
        have hSame : n = k := hRet
        subst hSame
        exact (drifts_posInt hDoc).imp (hLeaf rfl)
      | _ => exact absurd hRet id
    | negInt m n => exact (drifts_negInt hRet hDoc).imp (hLeaf rfl)
    | float32 m bits => exact absurd hPlain.root id
    | float64 m bits => exact absurd hPlain.root id
    | customExt m tag p => exact absurd hPlain.root id
    | string m p =>
      cases w with
      | string _ q =>
        have hSame : p = q := hRet
        subst hSame
        cases hDoc with
        | string _ hdr hForm => exact (drifts_payload hForm).imp (hLeaf rfl)
        | symbol _ hdr hForm => exact (drifts_payload hForm).imp (hLeaf rfl)
      | _ => exact absurd hRet id
    | bytes m p =>
      cases w with
      | bytes _ q =>
        have hSame : p = q := hRet
        subst hSame
        cases hDoc with
        | bytes _ hdr hForm => exact (drifts_payload hForm).imp (hLeaf rfl)
      | _ => exact absurd hRet id
    | array m vs =>
      cases w with
      | array _ ws =>
        have hRets : MayReturnList vs ws := hRet
        cases hDoc with
        | array _ hdr ds hForm hDocs =>
          have hElems := drifts_list vs hInner m.behind hRets hDocs
          rw [hRets.length] at hForm
          exact ((drifts_lenBytes hForm).append hElems).imp fun hAll => .node hCount hAll.2
      | _ => exact absurd hRet id
    | map m kvs =>
      cases w with
      | map _ lws =>
        have hRets : MayReturnList (entries kvs) (entries lws) := (mayReturnPairs_iff _ _).mp hRet
        cases hDoc with
        | map _ hdr ds hForm hDocs =>
          have hElems := drifts_list (entries kvs) hInner m.behind hRets hDocs
          have hLength : lws.length = kvs.length := by
            have hTwice := hRets.length
            rw [entries_length, entries_length] at hTwice
            omega
          rw [hLength] at hForm
          rw [bincBytes, bincBytesPairs_eq]
          exact ((drifts_lenBytes hForm).append hElems).imp fun hAll => .node hCount hAll.2
      | _ => exact absurd hRet id

end Drift

/-! ## Encode, then decode -/

/-- The encoder returns, and the decoder, given what was appended and then `r`, returns what may
return without an error and stops in front of `r`. -/
def RoundTrips (fresh : Nat → Nat → UInt8) (e : EncodeState) (v : CodecValue Placement)
    (after : Words) (r : List UInt8) (beyond : Nat → UInt8) : Prop :=
  ∃ e', EncodesTo fresh v after e e' ∧ e'.err = none ∧
    ∃ hFits, let b : Input := ⟨appended e.b e'.b ++ r, beyond, hFits⟩
      ∃ fuel s d w, codecBincDecode b fuel .zero = .done s d ∧ s.err = none ∧
        d.value b = some w ∧ MayReturn v w ∧ s.pos = (appended e.b e'.b).length

section RoundTrip

variable (fresh : Nat → Nat → UInt8) {e : EncodeState} {v : CodecValue Placement} {after : Words}
  {r : List UInt8} {beyond : Nat → UInt8}

theorem ByteCounts.of_readsBack (h : v.All ReadsBackAt) : ByteCounts v := by
  refine h.imp fun w hw => ?_
  cases w with
  | array m vs => exact hw
  | map m kvs => exact hw
  | _ => exact Nat.zero_le _

theorem roundTrips_of_readsBack (hPlain : v.All IsPlain) (hb : e.b.Valid) (hErr : e.err = none)
    (hSize : e.b.len + ((bincBytes v after).length + r.length) < 2 ^ 63)
    (hReads : v.All ReadsBackAt) : RoundTrips fresh e v after r beyond := by
  obtain ⟨e', hRun, hErr', hBytes⟩ :=
    exists_encodesTo fresh (.of_readsBack hReads) after hb hErr (by omega)
  obtain ⟨w, hRet, hDoc, hCounts⟩ := exists_doc v hPlain hReads after
  have hFits : (appended e.b e'.b ++ r).length < 2 ^ 63 := by
    rw [hBytes, List.length_append]
    omega
  have hStart : (⟨appended e.b e'.b ++ r, beyond, hFits⟩ : Input).At 0 (bincBytes v after) :=
    Input.At.start (congrArg (· ++ r) hBytes)
  obtain ⟨s, d, ⟨fuel, hDone⟩, hValue, hPos, hOk⟩ :=
    readsAs_of_doc _ w hCounts hDoc .init hStart rfl
  refine ⟨e', hRun, hErr', hFits, fuel, s, d, w, hDone, hOk, hValue, hRet, ?_⟩
  rw [hPos, hBytes]
  exact Nat.zero_add _

theorem readsBack_of_roundTrips (hPlain : v.All IsPlain) (hb : e.b.Valid) (hErr : e.err = none)
    (hSize : e.b.len + (bincBytes v after).length < 2 ^ 63)
    (h : RoundTrips fresh e v after r beyond) : v.All ReadsBackAt := by
  obtain ⟨e', hRun, _, hFits, fuel, s, d, w, hDone, hOk, hValue, hRet, hPos⟩ := h
  have hCounts := hRun.byteCounts hErr
  have hBytes := hRun.appended hb hErr hSize
  have hEnd : s.pos ≤ (appended e.b e'.b ++ r).length := by
    rw [hPos, List.length_append]
    exact Nat.le_add_right _ _
  obtain ⟨bs, hDoc, ⟨pre, post, hText, hPre⟩, hStop⟩ :=
    reflects ⟨appended e.b e'.b ++ r, beyond, hFits⟩ w (noFloats_of_mayReturn v hPlain hRet)
      .init s d ⟨fuel, hDone⟩ (Nat.zero_le _) hOk hEnd hValue
  have hText : appended e.b e'.b ++ r = pre ++ (bs ++ post) := hText
  rw [List.length_eq_zero_iff.mp hPre, List.nil_append, hBytes] at hText
  rcases drifts v hPlain hCounts after hRet hDoc [] r post hText with hAhead | ⟨_, _, hReads⟩
  · rw [hPos, hBytes] at hStop
    simp only [CodecDecodeState.init, List.length_nil, Nat.zero_add] at hStop hAhead
    omega
  · exact hReads

/-- A value without floats and extensions round trips if and only if its numbers are written
whole and its counts fit a byte. -/
theorem codecBinc_roundTrips_iff (hPlain : v.All IsPlain) (hb : e.b.Valid) (hErr : e.err = none)
    (hSize : e.b.len + ((bincBytes v after).length + r.length) < 2 ^ 63) :
    RoundTrips fresh e v after r beyond ↔ v.All ReadsBackAt := by
  constructor
  · intro h
    exact readsBack_of_roundTrips fresh hPlain hb hErr (by omega) h
  · intro h
    exact roundTrips_of_readsBack fresh hPlain hb hErr hSize h

end RoundTrip

theorem codecBinc_roundTrips_iff_array :
    RoundTrips (fun _ _ => 0) ⟨sliceBytesZero, none, []⟩ (.array .zero [.posInt .zero 7])
        (fun _ => 0) [1] (fun _ => 0) ↔
      (CodecValue.array Placement.zero [.posInt .zero 7]).All ReadsBackAt := by
  have hInt : ∀ c ∈ (CodecValue.array Placement.zero [.posInt .zero 7]).children,
      c = .posInt .zero 7 := by
    simp [children]
  refine codecBinc_roundTrips_iff _ (.node trivial ?_) sliceBytesZero_valid rfl (by decide)
  intro c hc
  rw [hInt c hc]
  exact .leaf trivial rfl

/-- 256 goes out as the bytes 1 and 0, which read as `false`. -/
theorem codecBinc_not_roundTrips_256 :
    ¬ RoundTrips (fun _ _ => 0) ⟨sliceBytesZero, none, []⟩ (.posInt .zero 256) (fun _ => 0) []
      (fun _ => 0) := by
  intro h
  have hPlain : (CodecValue.posInt Placement.zero 256).All IsPlain :=
    .leaf trivial rfl
  have hReads := readsBack_of_roundTrips _ hPlain sliceBytesZero_valid rfl (by decide) h
  have hRoot : WrittenWhole true 256 := hReads.root
  unfold WrittenWhole at hRoot
  omega

end CcCommon.Codec.Binc
