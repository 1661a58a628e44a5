import CcCommon.Codec.Operations
import CcCommon.Codec.Simple.Encode

/-! # The slice operations of codec_simple_encode

The list ends with an append unless the last node is an integer that takes
more than one byte. -/

namespace CcCommon.Codec.Simple

open Util Lib.Bytes CodecValue

set_option autoImplicit false

variable {μ : Type}

def lenOps (bd : UInt8) (n : Nat) : List SliceOp :=
  if n = 0 then [.append1 bd]
  else if n ≤ 0xff then [.append1 (bd + 1), .append1 (UInt8.ofNat n)]
  else if n ≤ 0xffff then [.append1 (bd + 2), .put (utilBigEndianWriteUint16 (n % 2 ^ 16))]
  else if n ≤ 0xffffffff then [.append1 (bd + 3), .put (utilBigEndianWriteUint32 (n % 2 ^ 32))]
  else [.append1 (bd + 4), .put (utilBigEndianWriteUint64 n)]

def intOps (bd : UInt8) (n : Nat) : List SliceOp :=
  if n ≤ 0xff then [.append1 bd, .append1 (UInt8.ofNat n)]
  else if n ≤ 0xffff then [.append1 (bd + 1), .put (utilBigEndianWriteUint16 (n % 2 ^ 16))]
  else if n ≤ 0xffffffff then [.append1 (bd + 2), .put (utilBigEndianWriteUint32 (n % 2 ^ 32))]
  else [.append1 (bd + 3), .put (utilBigEndianWriteUint64 n)]

mutual
/-- The slice operations of `codec_simple_encode`. -/
def simpleOps : CodecValue μ → List SliceOp
  | .nil _ => [.append1 1]
  | .bool _ v => [.append1 (if v then 3 else 2)]
  | .posInt _ n => intOps 8 n.toNat
  | .negInt _ n => intOps 12 n.toNat
  | .float32 _ bits => [.append1 4, .append (leBytes 4 bits.toNat)]
  | .float64 _ bits => [.append1 5, .append (leBytes 8 bits.toNat)]
  | .string _ p => lenOps 216 p.length ++ payloadOps p
  | .bytes _ p => lenOps 224 p.length ++ payloadOps p
  | .array _ vs => lenOps 232 vs.length ++ simpleOpsList vs
  | .map _ kvs => lenOps 240 kvs.length ++ simpleOpsPairs kvs
  | .customExt _ tag p => lenOps 248 p.length ++ .append [tag] :: payloadOps p

def simpleOpsList : List (CodecValue μ) → List SliceOp
  | [] => []
  | v :: vs => simpleOps v ++ simpleOpsList vs

def simpleOpsPairs : List (CodecValue μ × CodecValue μ) → List SliceOp
  | [] => []
  | (k, v) :: kvs => simpleOps k ++ (simpleOps v ++ simpleOpsPairs kvs)
end

theorem simpleOpsPairs_eq (kvs : List (CodecValue μ × CodecValue μ)) :
    simpleOpsPairs kvs = simpleOpsList (entries kvs) := by
  induction kvs with
  | nil => rfl
  | cons kv kvs ih => simp only [simpleOpsPairs, entries, simpleOpsList, ih]

theorem spells_lenOps (bd : UInt8) (n : Nat) : Spells (lenOps bd n) (lenBytes bd n) := by
  unfold lenOps lenBytes
  split_ifs
  · exact spells_append1 bd
  · have hOne : beBytes 1 n = [UInt8.ofNat n] := by simp [beBytes]
    rw [hOne]
    exact (spells_append1 (bd + 1)).append (spells_append1 _)
  · rw [Nat.mod_eq_of_lt (by omega), utilBigEndianWriteUint16_eq]
    exact (spells_append1 (bd + 2)).append (spells_put (List.cons_ne_nil _ _))
  · rw [Nat.mod_eq_of_lt (by omega), utilBigEndianWriteUint32_eq]
    exact (spells_append1 (bd + 3)).append (spells_put (List.cons_ne_nil _ _))
  · rw [utilBigEndianWriteUint64_eq]
    exact (spells_append1 (bd + 4)).append (spells_put (List.cons_ne_nil _ _))

theorem spells_intOps (bd : UInt8) (n : Nat) : Spells (intOps bd n) (intBytes bd n) := by
  unfold intOps intBytes
  split_ifs
  · have hOne : beBytes 1 n = [UInt8.ofNat n] := by simp [beBytes]
    rw [hOne]
    exact (spells_append1 bd).append (spells_append1 _)
  · rw [Nat.mod_eq_of_lt (by omega), utilBigEndianWriteUint16_eq]
    exact (spells_append1 (bd + 1)).append (spells_put (List.cons_ne_nil _ _))
  · rw [Nat.mod_eq_of_lt (by omega), utilBigEndianWriteUint32_eq]
    exact (spells_append1 (bd + 2)).append (spells_put (List.cons_ne_nil _ _))
  · rw [utilBigEndianWriteUint64_eq]
    exact (spells_append1 (bd + 3)).append (spells_put (List.cons_ne_nil _ _))

theorem spells_simpleOpsList (vs : List (CodecValue μ))
    (h : ∀ v ∈ vs, Spells (simpleOps v) (simpleBytes v)) :
    Spells (simpleOpsList vs) (simpleBytesList vs) := by
  induction vs with
  | nil => exact spells_nil
  | cons v vs ih =>
    exact (h v List.mem_cons_self).append (ih fun w hw => h w (List.mem_cons_of_mem _ hw))

theorem spells_simpleOps (v : CodecValue μ) : Spells (simpleOps v) (simpleBytes v) := by
  induction v using CodecValue.ind with
  | h v ih =>
    cases v with
    | nil m => exact spells_append1 1
    | bool m x => exact spells_append1 _
    | posInt m n => exact spells_intOps 8 _
    | negInt m n => exact spells_intOps 12 _
    | float32 m bits => exact (spells_append1 4).append (spells_append _)
    | float64 m bits => exact (spells_append1 5).append (spells_append _)
    | string m p => exact (spells_lenOps 216 _).append (spells_payloadOps p)
    | bytes m p => exact (spells_lenOps 224 _).append (spells_payloadOps p)
    | array m vs => exact (spells_lenOps 232 _).append (spells_simpleOpsList vs ih)
    | map m kvs =>
      have hEntries := spells_simpleOpsList (entries kvs) ih
      rw [← simpleOpsPairs_eq, simpleBytesList_eq, ← simpleBytesPairs_eq] at hEntries
      exact (spells_lenOps 240 _).append hEntries
    | customExt m tag p =>
      exact (spells_lenOps 248 _).append ((spells_append [tag]).append (spells_payloadOps p))

/-! ## The encoder performs them -/

section Performs

variable (fresh : Nat → Nat → UInt8)

theorem performAll_lenOps (bd : UInt8) (n : Nat) (b : SliceBytes) :
    performAll fresh (lenOps bd n) b = codecSimpleAppendLen fresh b bd n := by
  unfold lenOps codecSimpleAppendLen
  split_ifs <;> rfl

theorem performAll_intOps (bd : UInt8) (n : Nat) (b : SliceBytes) :
    performAll fresh (intOps bd n) b = codecSimpleEncodeInt fresh b bd n := by
  unfold intOps codecSimpleEncodeInt
  split_ifs <;> rfl

/-- The run ends without an error, having performed `ops`. -/
def Performs (run : EncodeState → Option EncodeState) (ops : List SliceOp) : Prop :=
  ∀ b, run ⟨b, none⟩ = some ⟨performAll fresh ops b, none⟩

theorem performs_list (vs : List (CodecValue μ)) (i : Nat) (hi : i + vs.length < intLimit)
    (h : ∀ v ∈ vs, Performs fresh (codecSimpleEncode fresh v) (simpleOps v)) :
    Performs fresh (codecSimpleEncodeList fresh vs i) (simpleOpsList vs) := by
  induction vs generalizing i with
  | nil => exact fun b => rfl
  | cons v vs ih =>
    intro b
    rw [List.length_cons] at hi
    have hTail := ih (i + 1) (by omega) fun w hw => h w (List.mem_cons_of_mem _ hw)
    have hNot : ¬ i + 1 = intLimit := by omega
    simp only [codecSimpleEncodeList, h v List.mem_cons_self b, Option.isSome_none,
      Bool.false_eq_true, if_false, if_neg hNot, simpleOpsList, performAll_append]
    exact hTail _

theorem performs_pairs (kvs : List (CodecValue μ × CodecValue μ)) (i : Nat)
    (hi : i + kvs.length < intLimit)
    (h : ∀ v ∈ entries kvs, Performs fresh (codecSimpleEncode fresh v) (simpleOps v)) :
    Performs fresh (codecSimpleEncodePairs fresh kvs i) (simpleOpsPairs kvs) := by
  induction kvs generalizing i with
  | nil => exact fun b => rfl
  | cons kv kvs ih =>
    obtain ⟨k, v⟩ := kv
    intro b
    rw [List.length_cons] at hi
    have hTail := ih (i + 1) (by omega) fun w hw =>
      h w (List.mem_cons_of_mem _ (List.mem_cons_of_mem _ hw))
    have hNot : ¬ i + 1 = intLimit := by omega
    have hKey := h k List.mem_cons_self b
    have hValue := h v (List.mem_cons_of_mem _ List.mem_cons_self)
    simp only [codecSimpleEncodePairs, hKey, hValue _, Option.isSome_none, Bool.false_eq_true,
      if_false, if_neg hNot, simpleOpsPairs, performAll_append]
    exact hTail _

theorem codecSimpleEncode_performs (v : CodecValue μ) (hCounts : v.IntCounts) :
    Performs fresh (codecSimpleEncode fresh v) (simpleOps v) := by
  induction v using CodecValue.ind with
  | h v ih =>
    have hInner := fun c hc => ih c hc (hCounts.inner c hc)
    have hRoot : v.count < intLimit := hCounts.root
    intro b
    cases v with
    | nil m => rfl
    | bool m x => cases x <;> rfl
    | posInt m n => rw [simpleOps, performAll_intOps]; rfl
    | negInt m n => rw [simpleOps, performAll_intOps]; rfl
    | float32 m bits => rfl
    | float64 m bits => rfl
    | string m p =>
      rw [simpleOps, performAll_append, performAll_lenOps, performAll_payloadOps]
      rfl
    | bytes m p =>
      rw [simpleOps, performAll_append, performAll_lenOps, performAll_payloadOps]
      rfl
    | customExt m tag p =>
      rw [simpleOps, performAll_append, performAll_lenOps, performAll_cons, performAll_payloadOps]
      rfl
    | array m vs =>
      rw [simpleOps, performAll_append, performAll_lenOps]
      exact performs_list fresh vs 0 (by rw [Nat.zero_add]; exact hRoot) hInner _
    | map m kvs =>
      rw [simpleOps, performAll_append, performAll_lenOps]
      exact performs_pairs fresh kvs 0 (by rw [Nat.zero_add]; exact hRoot) hInner _

end Performs

/-! ## How they end -/

/-- The integers that are stored in several bytes. -/
def wide (n : Nat) : Bool := 0xff < n

theorem endsWith_intOps (bd : UInt8) (n : Nat) : EndsWith (intOps bd n) (!wide n) := by
  unfold intOps
  split_ifs with h8 h16 h32
  · rw [wide, decide_eq_false (by omega)]; rfl
  all_goals rw [wide, decide_eq_true (by omega)]; rfl

theorem endsWith_list (vs : List (CodecValue μ))
    (h : ∀ v ∈ vs, EndsWith (simpleOps v) (!v.last.isInt wide)) {w : CodecValue μ}
    (hLast : lastList vs = some w) : EndsWith (simpleOpsList vs) (!w.isInt wide) := by
  induction vs with
  | nil => cases hLast
  | cons v vs ih =>
    have hTail := ih fun u hu => h u (List.mem_cons_of_mem _ hu)
    rw [lastList, Option.some.injEq] at hLast
    subst hLast
    cases vs with
    | nil =>
      rw [simpleOpsList, simpleOpsList, List.append_nil]
      exact h v List.mem_cons_self
    | cons u vs => exact (hTail rfl).prepend (simpleOps v)

theorem endsWith_simpleOps (v : CodecValue μ) : EndsWith (simpleOps v) (!v.last.isInt wide) := by
  induction v using CodecValue.ind with
  | h v ih =>
    cases v with
    | nil m => rfl
    | bool m x => rfl
    | posInt m n => exact endsWith_intOps 8 _
    | negInt m n => exact endsWith_intOps 12 _
    | float32 m bits => rfl
    | float64 m bits => rfl
    | string m p =>
      apply endsWith_payloadOps
      rintro rfl
      rfl
    | bytes m p =>
      apply endsWith_payloadOps
      rintro rfl
      rfl
    | customExt m tag p =>
      rw [simpleOps, List.append_cons]
      apply endsWith_payloadOps
      intro _
      have hTag : EndsWith [.append [tag]] true := rfl
      exact hTag.prepend _
    | array m vs =>
      cases vs with
      | nil => rfl
      | cons u vs => exact (endsWith_list (u :: vs) ih rfl).prepend _
    | map m kvs =>
      rw [simpleOps, simpleOpsPairs_eq]
      cases kvs with
      | nil => rfl
      | cons kv kvs =>
        rw [CodecValue.last, lastPairs_eq]
        exact (endsWith_list (entries (kv :: kvs)) ih rfl).prepend _

end CcCommon.Codec.Simple
