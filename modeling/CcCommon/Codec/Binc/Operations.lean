import CcCommon.Codec.Binc.EncodeRuns
import CcCommon.Codec.Operations

/-! # The slice operations of codec_binc_encode

The list ends with an append unless the last node is an integer of two bytes,
which the encoder stores without a descriptor. -/

namespace CcCommon.Codec.Binc

open Util Lib.Bytes CodecValue

set_option autoImplicit false

def prunedOps (bd : UInt8) (pos : Bool) (lim v : Nat) : List SliceOp :=
  let x := uintBytes v lim
  let i := codecBincPruneSignExt x pos
  [.append [bd ||| UInt8.ofNat (lim - 1 - i)], .append (x.drop i)]

def bincUintOps (bd : UInt8) (pos : Bool) (v : Nat) : List SliceOp :=
  if v = 0 then [.append [specialDesc .zero]]
  else if pos ∧ 1 ≤ v ∧ v ≤ 16 then [.append [bincDesc .smallint (v - 1)]]
  else if v ≤ 0xff then [.append [bd], .append [UInt8.ofNat v]]
  else if v ≤ 0xffff then [.put (utilBigEndianWriteUint16 (v % 2 ^ 16))]
  else if v ≤ 0xffffffff then prunedOps bd pos 4 v
  else prunedOps bd pos 8 v

def bincLenOps (bd : UInt8) (len : Nat) : List SliceOp :=
  if len < 12 then [.append [bd ||| UInt8.ofNat (len + 4)]] else bincUintOps bd false len

def bincFloatOps (mem : Words) : List SliceOp :=
  if isZeroDouble (mem 0) then [.append [specialDesc .zerofloat]]
  else
    let i := floatPrune mem 7
    if i ≤ 6 then
      [.append [bincDesc .float (0x8 ||| 0x2)], .append [UInt8.ofNat i], .append (bytesAt mem 0 i)]
    else [.append [bincDesc .float 0x2], .append (bytesAt mem 0 8)]

mutual
/-- The slice operations of `codec_binc_encode`. -/
def bincOps : CodecValue Placement → Words → List SliceOp
  | .nil _, _ => [.append [specialDesc .nil]]
  | .bool _ x, _ => [.append [specialDesc (if x then .true else .false)]]
  | .negInt _ n, _ => bincUintOps (bincDesc .negint 0) false n.toNat
  | .posInt _ n, _ => bincUintOps (bincDesc .posint 0) true n.toNat
  | .float32 m bits, after => bincFloatOps (fromUnion (.float32 m bits) after)
  | .float64 m bits, after => bincFloatOps (fromUnion (.float64 m bits) after)
  | .string _ p, _ => bincLenOps (bincDesc .string 0) p.length ++ payloadOps p
  | .bytes _ p, _ => bincLenOps (bincDesc .bytearray 0) p.length ++ payloadOps p
  | .array m vs, _ => bincLenOps (bincDesc .array 0) vs.length ++ bincOpsList vs m.behind
  | .map m kvs, _ => bincLenOps (bincDesc .map 0) kvs.length ++ bincOpsPairs kvs m.behind
  | .customExt m tag p, after => bincLenOps (bincDesc .customext 0) p.length ++
      .append [tag] :: payloadOps (bytesAt (fromUnion (.customExt m tag p) after) 1 p.length)

def bincOpsList : List (CodecValue Placement) → Words → List SliceOp
  | [], _ => []
  | v :: vs, behind => bincOps v (behindIn vs behind) ++ bincOpsList vs behind

def bincOpsPairs : List (CodecValue Placement × CodecValue Placement) → Words → List SliceOp
  | [], _ => []
  | (k, v) :: kvs, behind => bincOps k (behindIn (v :: entries kvs) behind) ++
      (bincOps v (behindIn (entries kvs) behind) ++ bincOpsPairs kvs behind)
end

theorem bincOpsPairs_eq (kvs : List (CodecValue Placement × CodecValue Placement))
    (behind : Words) : bincOpsPairs kvs behind = bincOpsList (entries kvs) behind := by
  induction kvs with
  | nil => rfl
  | cons kv kvs ih => simp only [bincOpsPairs, entries, bincOpsList, ih]

theorem spells_prunedOps (bd : UInt8) (pos : Bool) (lim v : Nat) :
    Spells (prunedOps bd pos lim v) (prunedBytes bd pos lim v) :=
  (spells_append [_]).append (spells_append _)

theorem spells_bincUintOps (bd : UInt8) (pos : Bool) (v : Nat) :
    Spells (bincUintOps bd pos v) (bincUintBytes bd pos v) := by
  unfold bincUintOps bincUintBytes
  split_ifs
  · exact spells_append _
  · exact spells_append _
  · exact (spells_append [bd]).append (spells_append _)
  · rw [Nat.mod_eq_of_lt (by omega), utilBigEndianWriteUint16_eq]
    exact spells_put (List.cons_ne_nil _ _)
  · exact spells_prunedOps bd pos 4 v
  · exact spells_prunedOps bd pos 8 v

theorem spells_bincLenOps (bd : UInt8) (len : Nat) :
    Spells (bincLenOps bd len) (bincLenBytes bd len) := by
  unfold bincLenOps bincLenBytes
  split_ifs
  · exact spells_append _
  · exact spells_bincUintOps bd false len

theorem spells_bincFloatOps (mem : Words) : Spells (bincFloatOps mem) (bincFloatBytes mem) := by
  unfold bincFloatOps bincFloatBytes
  dsimp only
  split_ifs
  · exact spells_append _
  · exact (spells_append [_]).append ((spells_append [_]).append (spells_append _))
  · exact (spells_append [_]).append (spells_append _)

theorem spells_bincOpsList (vs : List (CodecValue Placement))
    (h : ∀ v ∈ vs, ∀ after, Spells (bincOps v after) (bincBytes v after)) (behind : Words) :
    Spells (bincOpsList vs behind) (bincBytesList vs behind) := by
  induction vs with
  | nil => exact spells_nil
  | cons v vs ih =>
    exact (h v List.mem_cons_self _).append (ih fun w hw => h w (List.mem_cons_of_mem _ hw))

theorem spells_bincOps (v : CodecValue Placement) (after : Words) :
    Spells (bincOps v after) (bincBytes v after) := by
  induction v using CodecValue.ind generalizing after with
  | h v ih =>
    cases v with
    | nil m => exact spells_append _
    | bool m x => exact spells_append _
    | posInt m n => exact spells_bincUintOps _ _ _
    | negInt m n => exact spells_bincUintOps _ _ _
    | float32 m bits => exact spells_bincFloatOps _
    | float64 m bits => exact spells_bincFloatOps _
    | string m p => exact (spells_bincLenOps _ _).append (spells_payloadOps p)
    | bytes m p => exact (spells_bincLenOps _ _).append (spells_payloadOps p)
    | array m vs => exact (spells_bincLenOps _ _).append (spells_bincOpsList vs ih m.behind)
    | map m kvs =>
      have hEntries := spells_bincOpsList (entries kvs) ih m.behind
      rw [← bincOpsPairs_eq, ← bincBytesPairs_eq] at hEntries
      exact (spells_bincLenOps _ _).append hEntries
    | customExt m tag p =>
      exact (spells_bincLenOps _ _).append ((spells_append [tag]).append (spells_payloadOps _))

/-! ## The encoder performs them -/

section Performs

variable {fresh : Nat → Nat → UInt8}

theorem performAll_bincUintOps (bd : UInt8) (pos : Bool) (v : Nat) (b : SliceBytes) :
    performAll fresh (bincUintOps bd pos v) b = codecBincEncodeUint fresh bd pos v b := by
  unfold bincUintOps codecBincEncodeUint
  split_ifs <;> rfl

theorem performAll_bincLenOps (bd : UInt8) (len : Nat) (b : SliceBytes) :
    performAll fresh (bincLenOps bd len) b = codecBincEncodeLen fresh bd len b := by
  unfold bincLenOps codecBincEncodeLen
  split_ifs
  · rfl
  · exact performAll_bincUintOps bd false len b

theorem performAll_bincFloatOps (mem : Words) (b : SliceBytes) :
    performAll fresh (bincFloatOps mem) b = codecBincEncodeFloat fresh mem b := by
  unfold bincFloatOps codecBincEncodeFloat
  dsimp only
  split_ifs <;> rfl

mutual
theorem performs_of_returns (f : Nat) {v : CodecValue Placement} {after : Words}
    {path : List Nat} {s s' : EncodeState}
    (h : codecBincEncode fresh f v after path s = some s') (hErr : s.err = none) :
    s'.b = performAll fresh (bincOps v after) s.b := by
  cases f with
  | zero => cases h
  | succ f =>
    cases v with
    | array m vs =>
      simp only [codecBincEncode, hErr, Option.isSome_none, Bool.false_eq_true, if_false] at h
      rw [performs_of_list f h rfl, bincOps, performAll_append, performAll_bincLenOps]
      rfl
    | map m kvs =>
      simp only [codecBincEncode, hErr, Option.isSome_none, Bool.false_eq_true, if_false] at h
      rw [performs_of_pairs f h rfl, bincOps, performAll_append, performAll_bincLenOps]
      rfl
    | posInt m n =>
      cases h
      exact (performAll_bincUintOps _ _ _ _).symm
    | negInt m n =>
      cases h
      exact (performAll_bincUintOps _ _ _ _).symm
    | float32 m bits =>
      cases h
      exact (performAll_bincFloatOps _ _).symm
    | float64 m bits =>
      cases h
      exact (performAll_bincFloatOps _ _).symm
    | nil m =>
      cases h
      rfl
    | bool m x =>
      cases h
      rfl
    | string m p =>
      simp only [codecBincEncode, hErr, Option.isSome_none, Bool.false_eq_true, if_false,
        Option.some.injEq] at h
      rw [← h, bincOps, performAll_append, performAll_bincLenOps, performAll_payloadOps]
    | bytes m p =>
      simp only [codecBincEncode, hErr, Option.isSome_none, Bool.false_eq_true, if_false,
        Option.some.injEq] at h
      rw [← h, bincOps, performAll_append, performAll_bincLenOps, performAll_payloadOps]
    | customExt m tag p =>
      simp only [codecBincEncode, hErr, Option.isSome_none, Bool.false_eq_true, if_false,
        Option.some.injEq] at h
      rw [← h, bincOps, performAll_append, performAll_bincLenOps, performAll_cons,
        performAll_payloadOps]
      rfl

/-- The loop over the elements from `i` on. -/
theorem performs_of_list (f : Nat) {vs : List (CodecValue Placement)} {behind : Words}
    {path : List Nat} {i : UInt8} {s s' : EncodeState}
    (h : codecBincEncodeList fresh f vs behind path i s = some s') (hErr : s.err = none) :
    s'.b = performAll fresh (bincOpsList (vs.drop i.toNat) behind) s.b := by
  obtain ⟨hCount, -⟩ := byteCounts_of_list f h hErr
  cases f with
  | zero => cases h
  | succ f =>
    rw [codecBincEncodeList] at h
    split at h
    · rename_i hLt
      split at h
      · cases h
      · rename_i s₁ hChild
        have hErr₁ := (byteCounts_of_returns f hChild hErr).2
        rw [hErr₁, if_neg (by decide)] at h
        have hNext : (i + 1).toNat = i.toNat + 1 := by
          rw [UInt8.toNat_add]
          exact Nat.mod_eq_of_lt (by have : (1 : UInt8).toNat = 1 := rfl; omega)
        rw [performs_of_list f h hErr₁, performs_of_returns f hChild hErr,
          List.drop_eq_getElem_cons hLt, bincOpsList, performAll_append, hNext]
    · rename_i hEnd
      cases h
      rw [List.drop_of_length_le (Nat.not_lt.mp hEnd)]
      rfl

theorem performs_of_pairs (f : Nat) {kvs : List (CodecValue Placement × CodecValue Placement)}
    {behind : Words} {path : List Nat} {i : UInt8} {s s' : EncodeState}
    (h : codecBincEncodePairs fresh f kvs behind path i s = some s') (hErr : s.err = none) :
    s'.b = performAll fresh (bincOpsPairs (kvs.drop i.toNat) behind) s.b := by
  obtain ⟨hCount, -⟩ := byteCounts_of_pairs f h hErr
  cases f with
  | zero => cases h
  | succ f =>
    rw [codecBincEncodePairs] at h
    split at h
    · rename_i hLt
      dsimp only at h
      split at h
      · cases h
      · rename_i s₁ hKey
        have hErr₁ := (byteCounts_of_returns f hKey hErr).2
        rw [hErr₁, if_neg (by decide)] at h
        split at h
        · cases h
        · rename_i s₂ hValue
          have hErr₂ := (byteCounts_of_returns f hValue hErr₁).2
          rw [hErr₂, if_neg (by decide)] at h
          have hNext : (i + 1).toNat = i.toNat + 1 := by
            rw [UInt8.toNat_add]
            exact Nat.mod_eq_of_lt (by have : (1 : UInt8).toNat = 1 := rfl; omega)
          rw [performs_of_pairs f h hErr₂, performs_of_returns f hValue hErr₁,
            performs_of_returns f hKey hErr, List.drop_eq_getElem_cons hLt, bincOpsPairs,
            performAll_append, performAll_append, hNext]
    · rename_i hEnd
      cases h
      rw [List.drop_of_length_le (Nat.not_lt.mp hEnd)]
      rfl
end

end Performs

/-! ## How they end -/

/-- The integers that are stored in two bytes, without a descriptor. -/
def wide (n : Nat) : Bool := 0xff < n && n ≤ 0xffff

theorem endsWith_bincUintOps (bd : UInt8) (pos : Bool) (v : Nat) :
    EndsWith (bincUintOps bd pos v) (!wide v) := by
  unfold bincUintOps wide
  split_ifs with hZero hSmall h8 h16 h32
  · subst hZero; rfl
  · rw [decide_eq_false (by omega)]; rfl
  · rw [decide_eq_false (by omega)]; rfl
  · rw [decide_eq_true (by omega), decide_eq_true (by omega)]; rfl
  all_goals
    rw [decide_eq_false (p := v ≤ 0xffff) (by omega), Bool.and_false]
    rfl

theorem endsWith_list (vs : List (CodecValue Placement))
    (h : ∀ v ∈ vs, ∀ after, EndsWith (bincOps v after) (!v.last.isInt wide)) (behind : Words)
    {w : CodecValue Placement} (hLast : lastList vs = some w) :
    EndsWith (bincOpsList vs behind) (!w.isInt wide) := by
  induction vs with
  | nil => cases hLast
  | cons v vs ih =>
    have hTail := ih fun u hu => h u (List.mem_cons_of_mem _ hu)
    rw [lastList, Option.some.injEq] at hLast
    subst hLast
    cases vs with
    | nil =>
      rw [bincOpsList, bincOpsList, List.append_nil]
      exact h v List.mem_cons_self _
    | cons u vs => exact (hTail rfl).prepend _

theorem endsWith_bincOps (v : CodecValue Placement) (after : Words) :
    EndsWith (bincOps v after) (!v.last.isInt wide) := by
  induction v using CodecValue.ind generalizing after with
  | h v ih =>
    cases v with
    | nil m => rfl
    | bool m x => rfl
    | posInt m n => exact endsWith_bincUintOps _ _ _
    | negInt m n => exact endsWith_bincUintOps _ _ _
    | float32 m bits =>
      rw [bincOps, bincFloatOps]
      dsimp only
      split_ifs <;> rfl
    | float64 m bits =>
      rw [bincOps, bincFloatOps]
      dsimp only
      split_ifs <;> rfl
    | string m p =>
      apply endsWith_payloadOps
      rintro rfl
      rfl
    | bytes m p =>
      apply endsWith_payloadOps
      rintro rfl
      rfl
    | customExt m tag p =>
      rw [bincOps, List.append_cons]
      apply endsWith_payloadOps
      intro _
      have hTag : EndsWith [.append [tag]] true := rfl
      exact hTag.prepend _
    | array m vs =>
      cases vs with
      | nil => rfl
      | cons u vs => exact (endsWith_list (u :: vs) ih _ rfl).prepend _
    | map m kvs =>
      rw [bincOps, bincOpsPairs_eq]
      cases kvs with
      | nil => rfl
      | cons kv kvs =>
        rw [CodecValue.last, lastPairs_eq]
        exact (endsWith_list (entries (kv :: kvs)) ih _ rfl).prepend _

end CcCommon.Codec.Binc
