import CcCommon.Codec.Binc.Encode
import Mathlib.Tactic.SplitIfs

/-! # Which runs of codec_binc_encode return

A run returns just when every element loop counts to 255 at most. It then
visits the nodes in order and appends bytes that the value and the memory
around it determine. -/

namespace CcCommon.Codec.Binc

open Util Lib.Bytes CodecValue

set_option autoImplicit false

/-! ## What a run appends, and where it goes -/

def prunedBytes (bd : UInt8) (pos : Bool) (lim v : Nat) : List UInt8 :=
  let x := uintBytes v lim
  let i := codecBincPruneSignExt x pos
  (bd ||| UInt8.ofNat (lim - 1 - i)) :: x.drop i

def bincUintBytes (bd : UInt8) (pos : Bool) (v : Nat) : List UInt8 :=
  if v = 0 then [specialDesc .zero]
  else if pos ∧ 1 ≤ v ∧ v ≤ 16 then [bincDesc .smallint (v - 1)]
  else if v ≤ 0xff then [bd, UInt8.ofNat v]
  else if v ≤ 0xffff then beBytes 2 v
  else if v ≤ 0xffffffff then prunedBytes bd pos 4 v
  else prunedBytes bd pos 8 v

def bincLenBytes (bd : UInt8) (len : Nat) : List UInt8 :=
  if len < 12 then [bd ||| UInt8.ofNat (len + 4)] else bincUintBytes bd false len

def bincFloatBytes (mem : Words) : List UInt8 :=
  if isZeroDouble (mem 0) then [specialDesc .zerofloat]
  else
    let i := floatPrune mem 7
    if i ≤ 6 then bincDesc .float (0x8 ||| 0x2) :: UInt8.ofNat i :: bytesAt mem 0 i
    else bincDesc .float 0x2 :: bytesAt mem 0 8

mutual
/-- What `codec_binc_encode` appends for a value with the memory `after` behind its struct. -/
def bincBytes : CodecValue Placement → Words → List UInt8
  | .nil _, _ => [specialDesc .nil]
  | .bool _ x, _ => [specialDesc (if x then .true else .false)]
  | .negInt _ n, _ => bincUintBytes (bincDesc .negint 0) false n.toNat
  | .posInt _ n, _ => bincUintBytes (bincDesc .posint 0) true n.toNat
  | .float32 m bits, after => bincFloatBytes (fromUnion (.float32 m bits) after)
  | .float64 m bits, after => bincFloatBytes (fromUnion (.float64 m bits) after)
  | .string _ p, _ => bincLenBytes (bincDesc .string 0) p.length ++ p
  | .bytes _ p, _ => bincLenBytes (bincDesc .bytearray 0) p.length ++ p
  | .array m vs, _ => bincLenBytes (bincDesc .array 0) vs.length ++ bincBytesList vs m.behind
  | .map m kvs, _ => bincLenBytes (bincDesc .map 0) kvs.length ++ bincBytesPairs kvs m.behind
  | .customExt m tag p, after => bincLenBytes (bincDesc .customext 0) p.length ++
      tag :: bytesAt (fromUnion (.customExt m tag p) after) 1 p.length

def bincBytesList : List (CodecValue Placement) → Words → List UInt8
  | [], _ => []
  | v :: vs, behind => bincBytes v (behindIn vs behind) ++ bincBytesList vs behind

def bincBytesPairs : List (CodecValue Placement × CodecValue Placement) → Words → List UInt8
  | [], _ => []
  | (k, v) :: kvs, behind => bincBytes k (behindIn (v :: entries kvs) behind) ++
      (bincBytes v (behindIn (entries kvs) behind) ++ bincBytesPairs kvs behind)
end

theorem bincBytesPairs_eq (kvs : List (CodecValue Placement × CodecValue Placement))
    (behind : Words) : bincBytesPairs kvs behind = bincBytesList (entries kvs) behind := by
  induction kvs with
  | nil => rfl
  | cons kv kvs ih => simp only [bincBytesPairs, entries, bincBytesList, ih]

mutual
/-- The nodes from `path` on, each followed by its children in order. -/
def callOrder {μ : Type} : CodecValue μ → List Nat → List (List Nat)
  | .array _ vs, path => path :: callOrderList vs 0 path
  | .map _ kvs, path => path :: callOrderPairs kvs 0 path
  | _, path => [path]

def callOrderList {μ : Type} : List (CodecValue μ) → Nat → List Nat → List (List Nat)
  | [], _, _ => []
  | v :: vs, i, path => callOrder v (i :: path) ++ callOrderList vs (i + 1) path

def callOrderPairs {μ : Type} :
    List (CodecValue μ × CodecValue μ) → Nat → List Nat → List (List Nat)
  | [], _, _ => []
  | (k, v) :: kvs, i, path => callOrder k ((2 * i) :: path) ++
      (callOrder v ((2 * i + 1) :: path) ++ callOrderPairs kvs (i + 1) path)
end

/-! ## Appending -/

section Append

variable (fresh : Nat → Nat → UInt8) {b : SliceBytes}

theorem codecBincEncodeUintPrune_spec (hb : b.Valid) (v : Nat) (bd : UInt8) (pos : Bool)
    (lim : Nat) (hFit : b.len + (prunedBytes bd pos lim v).length < 2 ^ 63) :
    Extends b (codecBincEncodeUintPrune fresh v bd pos lim b) (prunedBytes bd pos lim v) := by
  simp only [prunedBytes, List.length_cons] at hFit
  have hDesc := (Extends.refl hb).append fresh hb
    [bd ||| UInt8.ofNat (lim - 1 - codecBincPruneSignExt (uintBytes v lim) pos)] (by simp; omega)
  exact hDesc.append fresh hb _ (by simpa [Nat.add_comm] using hFit)

theorem codecBincEncodeUint_spec (hb : b.Valid) (bd : UInt8) (pos : Bool) (v : Nat)
    (hFit : b.len + (bincUintBytes bd pos v).length < 2 ^ 63) :
    Extends b (codecBincEncodeUint fresh bd pos v b) (bincUintBytes bd pos v) := by
  unfold codecBincEncodeUint
  unfold bincUintBytes at hFit ⊢
  split_ifs at hFit ⊢ with hZero hSmall h8 h16 h32
  · exact (Extends.refl hb).append fresh hb _ hFit
  · exact (Extends.refl hb).append fresh hb _ hFit
  · have hDesc := (Extends.refl hb).append fresh hb [bd] (by simp at hFit ⊢; omega)
    exact hDesc.append fresh hb _ (by simpa using hFit)
  · rw [Nat.mod_eq_of_lt (by omega), utilBigEndianWriteUint16_eq]
    exact sliceBytesPut_spec fresh hb _ (by omega)
  · exact codecBincEncodeUintPrune_spec fresh hb v bd pos 4 hFit
  · exact codecBincEncodeUintPrune_spec fresh hb v bd pos 8 hFit

theorem codecBincEncodeLen_spec (hb : b.Valid) (bd : UInt8) (len : Nat)
    (hFit : b.len + (bincLenBytes bd len).length < 2 ^ 63) :
    Extends b (codecBincEncodeLen fresh bd len b) (bincLenBytes bd len) := by
  unfold codecBincEncodeLen
  unfold bincLenBytes at hFit ⊢
  split_ifs at hFit ⊢
  · exact (Extends.refl hb).append fresh hb _ hFit
  · exact codecBincEncodeUint_spec fresh hb bd false len hFit

theorem codecBincEncodePayload_spec (hb : b.Valid) (bd : UInt8) (p : List UInt8)
    (hFit : b.len + (bincLenBytes bd p.length ++ p).length < 2 ^ 63) :
    Extends b (sliceBytesAppendPayload fresh (codecBincEncodeLen fresh bd p.length b) p)
      (bincLenBytes bd p.length ++ p) := by
  rw [List.length_append] at hFit
  have hLen := codecBincEncodeLen_spec fresh hb bd p.length (by omega)
  exact hLen.payload fresh hb p (by omega)

theorem codecBincEncodeFloat_spec (hb : b.Valid) (mem : Words)
    (hFit : b.len + (bincFloatBytes mem).length < 2 ^ 63) :
    Extends b (codecBincEncodeFloat fresh mem b) (bincFloatBytes mem) := by
  unfold codecBincEncodeFloat
  unfold bincFloatBytes at hFit ⊢
  dsimp only at hFit ⊢
  split_ifs at hFit ⊢
  · exact (Extends.refl hb).append fresh hb _ hFit
  · simp only [List.length_cons, bytesAt_length] at hFit
    have hDesc := (Extends.refl hb).append fresh hb [bincDesc .float (0x8 ||| 0x2)]
      (by simp; omega)
    have hCount := hDesc.append fresh hb [UInt8.ofNat (floatPrune mem 7)] (by simp; omega)
    exact hCount.append fresh hb _ (by simp; omega)
  · simp only [List.length_cons, bytesAt_length] at hFit
    have hDesc := (Extends.refl hb).append fresh hb [bincDesc .float 0x2] (by simp; omega)
    exact hDesc.append fresh hb _ (by simp; omega)

end Append

/-! ## Runs that return -/

/-- With enough fuel the run returns without an error, has visited `log` and,
if there is room, appended `bs`. -/
def Encodes (run : Nat → EncodeState → Option EncodeState) (bs : List UInt8)
    (log : List (List Nat)) : Prop :=
  ∀ s, s.err = none → ∃ f₀ s', (∀ f, f₀ ≤ f → run f s = some s') ∧ s'.err = none ∧
    s'.calls = s.calls ++ log ∧
    (s.b.Valid → s.b.len + bs.length < 2 ^ 63 → Extends s.b s'.b bs)

/-- Every element loop counts to 255 at most. -/
def ByteCounts {μ : Type} (v : CodecValue μ) : Prop := v.All fun w => w.count ≤ 255

/-- One run and then the other, unless the first one sets an error. -/
def andThen (run run' : Nat → EncodeState → Option EncodeState) (f : Nat) (s : EncodeState) :
    Option EncodeState :=
  match run f s with
  | none => none
  | some s => if s.err.isSome then some s else run' f s

section Returns

variable {fresh : Nat → Nat → UInt8} {run run' : Nat → EncodeState → Option EncodeState}
  {bs cs : List UInt8} {log log' : List (List Nat)}

theorem Encodes.andThen (h : Encodes run bs log) (h' : Encodes run' cs log') :
    Encodes (Binc.andThen run run') (bs ++ cs) (log ++ log') := by
  intro s hErr
  obtain ⟨f₁, s₁, hRun₁, hErr₁, hCalls₁, hExt₁⟩ := h s hErr
  obtain ⟨f₂, s₂, hRun₂, hErr₂, hCalls₂, hExt₂⟩ := h' s₁ hErr₁
  refine ⟨max f₁ f₂, s₂, fun f hf => ?_, hErr₂, ?_, fun hb hFit => ?_⟩
  · simp only [Binc.andThen, hRun₁ f (by omega), hErr₁]
    exact hRun₂ f (by omega)
  · rw [hCalls₂, hCalls₁, List.append_assoc]
  · rw [List.length_append] at hFit
    have hFirst := hExt₁ hb (by omega)
    exact hFirst.trans (hExt₂ hFirst.valid (by rw [hFirst.len hb]; omega))

theorem Encodes.succ (h : Encodes run' bs log)
    (hRun : ∀ f s, s.err = none → run (f + 1) s = run' f s) : Encodes run bs log := by
  intro s hErr
  obtain ⟨f₀, s', hDone, hRest⟩ := h s hErr
  refine ⟨f₀ + 1, s', fun f hf => ?_, hRest⟩
  obtain ⟨g, rfl⟩ : ∃ g, f = g + 1 := ⟨f - 1, by omega⟩
  rw [hRun g s hErr]
  exact hDone g (by omega)

section Node

variable {v : CodecValue Placement} {after : Words} {path : List Nat} (step : SliceBytes → SliceBytes)

theorem encodes_call
    (hBytes : ∀ b : SliceBytes, b.Valid → b.len + bs.length < 2 ^ 63 → Extends b (step b) bs) :
    Encodes (fun _ s => some { s with b := step s.b, calls := s.calls ++ [path] }) bs [path] :=
  fun s hErr => ⟨0, _, fun _ _ => rfl, hErr, rfl, hBytes s.b⟩

theorem encodes_leaf
    (hRun : ∀ f s, s.err = none → codecBincEncode fresh (f + 1) v after path s =
      some { s with b := step s.b, calls := s.calls ++ [path] })
    (hBytes : ∀ b : SliceBytes, b.Valid → b.len + bs.length < 2 ^ 63 → Extends b (step b) bs) :
    Encodes (fun f => codecBincEncode fresh f v after path) bs [path] :=
  (encodes_call step hBytes).succ hRun

theorem encodes_loop (loop : Nat → EncodeState → Option EncodeState)
    (hRun : ∀ f s, s.err = none → codecBincEncode fresh (f + 1) v after path s =
      loop f { s with b := step s.b, calls := s.calls ++ [path] })
    (hBytes : ∀ b : SliceBytes, b.Valid → b.len + bs.length < 2 ^ 63 → Extends b (step b) bs)
    (hLoop : Encodes loop cs log) :
    Encodes (fun f => codecBincEncode fresh f v after path) (bs ++ cs) (path :: log) := by
  refine ((encodes_call step hBytes).andThen hLoop).succ fun f s hErr => ?_
  rw [hRun f s hErr]
  simp [Binc.andThen, hErr]

end Node

theorem ofNat_toNat {i : Nat} (h : i ≤ 255) : (UInt8.ofNat i).toNat = i := by
  rw [UInt8.toNat_ofNat']
  omega

theorem ofNat_succ {i : Nat} (h : i + 1 ≤ 255) : UInt8.ofNat i + 1 = UInt8.ofNat (i + 1) := by
  rw [← UInt8.toNat_inj, UInt8.toNat_add, ofNat_toNat (by omega), ofNat_toNat h]
  exact Nat.mod_eq_of_lt (Nat.lt_succ_of_le h)

theorem encodes_nothing (hRun : ∀ f s, run (f + 1) s = some s) : Encodes run [] [] := by
  have hReturn : Encodes (fun _ s => some s) [] [] := fun s hErr =>
    ⟨0, s, fun _ _ => rfl, hErr, (List.append_nil _).symm, fun hb _ => Extends.refl hb⟩
  exact hReturn.succ fun f s _ => hRun f s

theorem codecBincEncodeList_spec {vs : List (CodecValue Placement)} (hCount : vs.length ≤ 255)
    (behind : Words) (path : List Nat)
    (h : ∀ v ∈ vs, ∀ after path, Encodes (fun f => codecBincEncode fresh f v after path)
      (bincBytes v after) (callOrder v path))
    (suf pre : List (CodecValue Placement)) (hSplit : vs = pre ++ suf) :
    Encodes (fun f => codecBincEncodeList fresh f vs behind path (UInt8.ofNat pre.length))
      (bincBytesList suf behind) (callOrderList suf pre.length path) := by
  induction suf generalizing pre with
  | nil =>
    have hEnd : vs.length = pre.length := by simp [hSplit]
    refine encodes_nothing fun f s => ?_
    rw [codecBincEncodeList, dif_neg (by rw [ofNat_toNat (by omega)]; omega)]
  | cons v suf ih =>
    have hLength : vs.length = pre.length + suf.length + 1 := by
      rw [hSplit, List.length_append, List.length_cons]
      omega
    have hIndex : (UInt8.ofNat pre.length).toNat = pre.length := ofNat_toNat (by omega)
    have hLt : (UInt8.ofNat pre.length).toNat < vs.length := by omega
    have hElem : vs[(UInt8.ofNat pre.length).toNat] = v := by simp [hIndex, hSplit]
    have hDrop : vs.drop ((UInt8.ofNat pre.length).toNat + 1) = suf := by simp [hIndex, hSplit]
    have hHead := h v (by simp [hSplit]) (behindIn suf behind) (pre.length :: path)
    have hTail := ih (pre ++ [v]) (by simp [hSplit])
    rw [List.length_append, List.length_singleton, ← ofNat_succ (by omega)] at hTail
    refine (hHead.andThen hTail).succ fun f s _ => ?_
    rewrite [codecBincEncodeList, dif_pos hLt, hElem, hDrop, hIndex]
    rfl

theorem codecBincEncodePairs_spec {kvs : List (CodecValue Placement × CodecValue Placement)}
    (hCount : kvs.length ≤ 255) (behind : Words) (path : List Nat)
    (h : ∀ v ∈ entries kvs, ∀ after path, Encodes (fun f => codecBincEncode fresh f v after path)
      (bincBytes v after) (callOrder v path))
    (suf pre : List (CodecValue Placement × CodecValue Placement)) (hSplit : kvs = pre ++ suf) :
    Encodes (fun f => codecBincEncodePairs fresh f kvs behind path (UInt8.ofNat pre.length))
      (bincBytesPairs suf behind) (callOrderPairs suf pre.length path) := by
  induction suf generalizing pre with
  | nil =>
    have hEnd : kvs.length = pre.length := by simp [hSplit]
    refine encodes_nothing fun f s => ?_
    rw [codecBincEncodePairs, dif_neg (by rw [ofNat_toNat (by omega)]; omega)]
  | cons kv suf ih =>
    obtain ⟨k, v⟩ := kv
    have hLength : kvs.length = pre.length + suf.length + 1 := by
      rw [hSplit, List.length_append, List.length_cons]
      omega
    have hEntries : entries kvs = entries pre ++ k :: v :: entries suf := by
      rw [hSplit, entries_append, entries]
    have hIndex : (UInt8.ofNat pre.length).toNat = pre.length := ofNat_toNat (by omega)
    have hLt : (UInt8.ofNat pre.length).toNat < kvs.length := by omega
    have hElem : kvs[(UInt8.ofNat pre.length).toNat] = (k, v) := by simp [hIndex, hSplit]
    have hDrop : kvs.drop ((UInt8.ofNat pre.length).toNat + 1) = suf := by simp [hIndex, hSplit]
    have hKey := h k (by simp [hEntries]) (behindIn (v :: entries suf) behind)
      ((2 * pre.length) :: path)
    have hValue := h v (by simp [hEntries]) (behindIn (entries suf) behind)
      ((2 * pre.length + 1) :: path)
    have hTail := ih (pre ++ [(k, v)]) (by simp [hSplit])
    rw [List.length_append, List.length_singleton, ← ofNat_succ (by omega)] at hTail
    refine (hKey.andThen (hValue.andThen hTail)).succ fun f s _ => ?_
    rewrite [codecBincEncodePairs, dif_pos hLt, hElem, hDrop, hIndex]
    rfl

theorem codecBincEncode_spec (fresh : Nat → Nat → UInt8) (v : CodecValue Placement)
    (hCounts : ByteCounts v) (after : Words) (path : List Nat) :
    Encodes (fun f => codecBincEncode fresh f v after path) (bincBytes v after)
      (callOrder v path) := by
  induction v using CodecValue.ind generalizing after path with
  | h v ih =>
    have hInner := fun c hc => ih c hc (hCounts.inner c hc)
    have hCount : v.count ≤ 255 := hCounts.root
    cases v with
    | nil m =>
      exact encodes_leaf (fun b => sliceBytesAppend fresh b [specialDesc .nil]) (fun _ _ _ => rfl)
        fun b hb hFit => (Extends.refl hb).append fresh hb _ hFit
    | bool m x =>
      exact encodes_leaf (fun b => sliceBytesAppend fresh b [specialDesc (if x then .true else .false)])
        (fun _ _ _ => rfl) fun b hb hFit => (Extends.refl hb).append fresh hb _ hFit
    | posInt m n =>
      exact encodes_leaf (codecBincEncodeUint fresh (bincDesc .posint 0) true n.toNat)
        (fun _ _ _ => rfl) fun b hb hFit => codecBincEncodeUint_spec fresh hb _ _ _ hFit
    | negInt m n =>
      exact encodes_leaf (codecBincEncodeUint fresh (bincDesc .negint 0) false n.toNat)
        (fun _ _ _ => rfl) fun b hb hFit => codecBincEncodeUint_spec fresh hb _ _ _ hFit
    | float32 m bits =>
      exact encodes_leaf (codecBincEncodeFloat fresh (fromUnion (.float32 m bits) after))
        (fun _ _ _ => rfl) fun b hb hFit => codecBincEncodeFloat_spec fresh hb _ hFit
    | float64 m bits =>
      exact encodes_leaf (codecBincEncodeFloat fresh (fromUnion (.float64 m bits) after))
        (fun _ _ _ => rfl) fun b hb hFit => codecBincEncodeFloat_spec fresh hb _ hFit
    | string m p =>
      exact encodes_leaf (fun b => sliceBytesAppendPayload fresh
        (codecBincEncodeLen fresh (bincDesc .string 0) p.length b) p)
        (fun f s hErr => by simp [codecBincEncode, hErr])
        fun b hb hFit => codecBincEncodePayload_spec fresh hb _ p hFit
    | bytes m p =>
      exact encodes_leaf (fun b => sliceBytesAppendPayload fresh
        (codecBincEncodeLen fresh (bincDesc .bytearray 0) p.length b) p)
        (fun f s hErr => by simp [codecBincEncode, hErr])
        fun b hb hFit => codecBincEncodePayload_spec fresh hb _ p hFit
    | customExt m tag p =>
      refine encodes_leaf (fun b => sliceBytesAppendPayload fresh (sliceBytesAppend fresh
        (codecBincEncodeLen fresh (bincDesc .customext 0) p.length b) [tag])
        (bytesAt (fromUnion (.customExt m tag p) after) 1 p.length))
        (fun f s hErr => by simp [codecBincEncode, hErr]) fun b hb hFit => ?_
      rw [bincBytes, List.length_append, List.length_cons, bytesAt_length] at hFit
      have hLen := codecBincEncodeLen_spec fresh hb (bincDesc .customext 0) p.length (by omega)
      have hTag := hLen.append fresh hb [tag] (by simp; omega)
      have hAll := hTag.payload fresh hb
        (bytesAt (fromUnion (.customExt m tag p) after) 1 p.length) (by simp; omega)
      rw [bincBytes, List.append_cons]
      exact hAll
    | array m vs =>
      refine encodes_loop (fun b => codecBincEncodeLen fresh (bincDesc .array 0) vs.length b)
        (fun f => codecBincEncodeList fresh f vs m.behind path 0)
        (fun f s hErr => by simp [codecBincEncode, hErr])
        (fun b hb hFit => codecBincEncodeLen_spec fresh hb _ _ hFit) ?_
      exact codecBincEncodeList_spec hCount m.behind path hInner vs [] rfl
    | map m kvs =>
      refine encodes_loop (fun b => codecBincEncodeLen fresh (bincDesc .map 0) kvs.length b)
        (fun f => codecBincEncodePairs fresh f kvs m.behind path 0)
        (fun f s hErr => by simp [codecBincEncode, hErr])
        (fun b hb hFit => codecBincEncodeLen_spec fresh hb _ _ hFit) ?_
      exact codecBincEncodePairs_spec hCount m.behind path hInner kvs [] rfl

/-! ## No other run returns -/

mutual
theorem byteCounts_of_returns (f : Nat) {v : CodecValue Placement} {after : Words}
    {path : List Nat} {s s' : EncodeState}
    (h : codecBincEncode fresh f v after path s = some s') (hErr : s.err = none) :
    ByteCounts v ∧ s'.err = none := by
  cases f with
  | zero => cases h
  | succ f =>
    cases v with
    | array m vs =>
      simp only [codecBincEncode, hErr, Option.isSome_none, Bool.false_eq_true, if_false] at h
      obtain ⟨hCount, hElems, hErr'⟩ := byteCounts_of_list f h rfl
      refine ⟨.node hCount fun c hc => ?_, hErr'⟩
      obtain ⟨j, hj, rfl⟩ := List.getElem_of_mem hc
      exact hElems j hj (Nat.zero_le j)
    | map m kvs =>
      simp only [codecBincEncode, hErr, Option.isSome_none, Bool.false_eq_true, if_false] at h
      obtain ⟨hCount, hElems, hErr'⟩ := byteCounts_of_pairs f h rfl
      refine ⟨.node hCount fun c hc => ?_, hErr'⟩
      obtain ⟨kv, hkv, hc⟩ := mem_entries.mp hc
      obtain ⟨j, hj, rfl⟩ := List.getElem_of_mem hkv
      rcases hc with rfl | rfl
      · exact (hElems j hj (Nat.zero_le j)).1
      · exact (hElems j hj (Nat.zero_le j)).2
    | _ =>
      refine ⟨.leaf (Nat.zero_le _) rfl, ?_⟩
      simp only [codecBincEncode, hErr, Option.isSome_none, Bool.false_eq_true, if_false,
        Option.some.injEq] at h
      rw [← h]

/-- An index of type `uint8_t` never reaches a count above 255. -/
theorem byteCounts_of_list (f : Nat) {vs : List (CodecValue Placement)} {behind : Words}
    {path : List Nat} {i : UInt8} {s s' : EncodeState}
    (h : codecBincEncodeList fresh f vs behind path i s = some s') (hErr : s.err = none) :
    vs.length ≤ 255 ∧ (∀ j (hj : j < vs.length), i.toNat ≤ j → ByteCounts vs[j]) ∧
      s'.err = none := by
  cases f with
  | zero => cases h
  | succ f =>
    rw [codecBincEncodeList] at h
    split at h
    · rename_i hLt
      split at h
      · cases h
      · rename_i s₁ hChild
        obtain ⟨hHere, hErr₁⟩ := byteCounts_of_returns f hChild hErr
        rw [hErr₁, if_neg (by decide)] at h
        obtain ⟨hCount, hRest, hErr'⟩ := byteCounts_of_list f h hErr₁
        refine ⟨hCount, fun j hj hij => ?_, hErr'⟩
        rcases Nat.lt_or_eq_of_le hij with hNext | rfl
        · refine hRest j hj ?_
          rw [UInt8.toNat_add]
          have : (1 : UInt8).toNat = 1 := rfl
          omega
        · exact hHere
    · rename_i hEnd
      cases h
      have := i.toNat_lt
      exact ⟨by omega, fun j hj hij => by omega, hErr⟩

theorem byteCounts_of_pairs (f : Nat) {kvs : List (CodecValue Placement × CodecValue Placement)}
    {behind : Words} {path : List Nat} {i : UInt8} {s s' : EncodeState}
    (h : codecBincEncodePairs fresh f kvs behind path i s = some s') (hErr : s.err = none) :
    kvs.length ≤ 255 ∧ (∀ j (hj : j < kvs.length), i.toNat ≤ j →
      ByteCounts kvs[j].1 ∧ ByteCounts kvs[j].2) ∧ s'.err = none := by
  cases f with
  | zero => cases h
  | succ f =>
    rw [codecBincEncodePairs] at h
    split at h
    · rename_i hLt
      dsimp only at h
      split at h
      · cases h
      · rename_i s₁ hKey
        obtain ⟨hKeyCounts, hErr₁⟩ := byteCounts_of_returns f hKey hErr
        rw [hErr₁, if_neg (by decide)] at h
        split at h
        · cases h
        · rename_i s₂ hValue
          obtain ⟨hValueCounts, hErr₂⟩ := byteCounts_of_returns f hValue hErr₁
          rw [hErr₂, if_neg (by decide)] at h
          obtain ⟨hCount, hRest, hErr'⟩ := byteCounts_of_pairs f h hErr₂
          refine ⟨hCount, fun j hj hij => ?_, hErr'⟩
          rcases Nat.lt_or_eq_of_le hij with hNext | rfl
          · refine hRest j hj ?_
            rw [UInt8.toNat_add]
            have : (1 : UInt8).toNat = 1 := rfl
            omega
          · exact ⟨hKeyCounts, hValueCounts⟩
    · rename_i hEnd
      cases h
      have := i.toNat_lt
      exact ⟨by omega, fun j hj hij => by omega, hErr⟩
end

end Returns

/-- With enough fuel the encoder returns from `e` in `e'`. -/
def EncodesTo (fresh : Nat → Nat → UInt8) (v : CodecValue Placement) (after : Words)
    (e e' : EncodeState) : Prop :=
  ∃ f₀, ∀ f, f₀ ≤ f → codecBincEncode fresh f v after [] e = some e'

section EncodesTo

variable {fresh : Nat → Nat → UInt8} {v : CodecValue Placement} {after : Words}
  {e e' e'' : EncodeState}

theorem EncodesTo.unique (h : EncodesTo fresh v after e e') (h' : EncodesTo fresh v after e e'') :
    e' = e'' := by
  obtain ⟨f, hRun⟩ := h
  obtain ⟨f', hRun'⟩ := h'
  have hSame := (hRun (max f f') (Nat.le_max_left f f')).symm.trans
    (hRun' (max f f') (Nat.le_max_right f f'))
  exact Option.some.inj hSame

theorem EncodesTo.byteCounts (h : EncodesTo fresh v after e e') (hErr : e.err = none) :
    ByteCounts v := by
  obtain ⟨f, hRun⟩ := h
  exact (byteCounts_of_returns f (hRun f (Nat.le_refl f)) hErr).1

theorem exists_encodesTo (fresh : Nat → Nat → UInt8) (hCounts : ByteCounts v) (after : Words)
    (hb : e.b.Valid) (hErr : e.err = none) (hSize : e.b.len + (bincBytes v after).length < 2 ^ 63) :
    ∃ e', EncodesTo fresh v after e e' ∧ e'.err = none ∧
      appended e.b e'.b = bincBytes v after := by
  obtain ⟨f, e', hRun, hErr', _, hExt⟩ :=
    codecBincEncode_spec fresh v hCounts after [] e hErr
  exact ⟨e', ⟨f, hRun⟩, hErr', (hExt hb hSize).appended hb⟩

theorem EncodesTo.appended (h : EncodesTo fresh v after e e') (hb : e.b.Valid)
    (hErr : e.err = none) (hSize : e.b.len + (bincBytes v after).length < 2 ^ 63) :
    appended e.b e'.b = bincBytes v after := by
  obtain ⟨e'', hRun, _, hBytes⟩ :=
    exists_encodesTo fresh (h.byteCounts hErr) after hb hErr hSize
  rwa [h.unique hRun]

end EncodesTo

/-- The encoder returns, and has been called once on each node, in order. -/
def VisitsInOrder (fresh : Nat → Nat → UInt8) (v : CodecValue Placement) (after : Words)
    (s : EncodeState) : Prop :=
  ∃ f s', codecBincEncode fresh f v after [] s = some s' ∧ s'.calls = s.calls ++ callOrder v []

/-- That is so if and only if no count exceeds 255. -/
theorem codecBincEncode_visitsInOrder_iff (fresh : Nat → Nat → UInt8) (v : CodecValue Placement)
    (after : Words) (s : EncodeState) (hErr : s.err = none) :
    VisitsInOrder fresh v after s ↔ ByteCounts v := by
  constructor
  · rintro ⟨f, s', hRun, _⟩
    exact (byteCounts_of_returns f hRun hErr).1
  · intro hCounts
    obtain ⟨f, s', hRun, _, hCalls, _⟩ := codecBincEncode_spec fresh v hCounts after [] s hErr
    exact ⟨f, s', hRun f (Nat.le_refl f), hCalls⟩

/-- A map from a number to an array. -/
theorem codecBincEncode_visitsInOrder_iff_nested :
    VisitsInOrder (fun _ _ => 0)
      (.map .zero [(.posInt .zero 1, .array .zero [.nil .zero, .bool .zero true])]) (fun _ => 0)
      ⟨sliceBytesZero, none, []⟩ := by
  refine (codecBincEncode_visitsInOrder_iff _ _ _ _ rfl).mpr (.node (by decide) ?_)
  simp only [children, entries, List.forall_mem_cons]
  refine ⟨.leaf (by decide) rfl, .node (by decide) ?_, List.forall_mem_nil _⟩
  simp only [children, List.forall_mem_cons]
  exact ⟨.leaf (by decide) rfl, .leaf (by decide) rfl, List.forall_mem_nil _⟩

/-- The index of an array of 256 elements wraps around before it reaches the count. -/
theorem not_visitsInOrder_256 :
    ¬ VisitsInOrder (fun _ _ => 0) (.array .zero (List.replicate 256 (.nil .zero))) (fun _ => 0)
      ⟨sliceBytesZero, none, []⟩ := by
  rintro ⟨f, s', hRun, _⟩
  have hCount : (List.replicate 256 (CodecValue.nil Placement.zero)).length ≤ 255 :=
    (byteCounts_of_returns f hRun rfl).1.root
  rw [List.length_replicate] at hCount
  omega

end CcCommon.Codec.Binc
