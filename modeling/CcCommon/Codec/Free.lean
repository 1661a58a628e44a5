import CcCommon.Codec.DecodeState
import Mathlib.Data.Finset.Dedup
import Mathlib.Data.Finset.Erase
import Mathlib.Data.Finset.Lattice.Lemmas
import Mathlib.Data.Finset.SDiff

/-! # codec/codec.c: codec_value_free

The heap is the set of the blocks that have been allocated and not freed. What
is undefined behaviour (`free` of anything else, a read through NULL or of a
block that has been freed, an `int` that overflows) has no result.
-/

namespace CcCommon.Codec

set_option autoImplicit false

/-- A `codec_value` in memory. `block` is the memory that `vArray.v` or `vMap.v` points to, NULL
when there is none, and `elems` the values in it, without the zeroed ones behind the last that a
decoder was called for. -/
inductive Cell where
  | mk (type : CodecValueType) (v : CodecValueDiscrim) (block : Option Nat) (elems : List Cell)

namespace Cell

/-- A zeroed `codec_value`. -/
def zero : Cell := mk .unset .stale none []

mutual
/-- Where the memory is left out. -/
def forget : Cell → Decoded
  | mk t v _ es => .mk t v (forgetList es)

def forgetList : List Cell → List Decoded
  | [] => []
  | e :: es => e.forget :: forgetList es
end

@[simp] theorem forgetList_eq (es : List Cell) : forgetList es = es.map forget := by
  induction es with
  | nil => rfl
  | cons e es ih => rw [forgetList, ih, List.map_cons]

mutual
/-- The blocks of a value, from the outermost one in. -/
def blocks : Cell → List Nat
  | mk _ _ block es => block.toList ++ blocksList es

def blocksList : List Cell → List Nat
  | [] => []
  | e :: es => e.blocks ++ blocksList es
end

theorem blocksList_append (es es' : List Cell) :
    blocksList (es ++ es') = blocksList es ++ blocksList es' := by
  induction es with
  | nil => rfl
  | cons e es ih => rw [List.cons_append, blocksList, ih, blocksList, List.append_assoc]

end Cell

/-- What the pointer of a string, a byte string or an extension holds. A decoder stores one into
the input. -/
inductive PayloadPtr where
  | null
  | input (off : Nat)
  deriving DecidableEq

def SliceRef.ptr (r : SliceRef) : PayloadPtr :=
  match r.off with
  | none => .null
  | some off => .input off

namespace CodecValueDiscrim

/-- `vBytes.bytes.v`, or `vExt.v.bytes.v`, of the given type; another member may have been stored
over it. -/
def payloadPtr (type : CodecValueType) : CodecValueDiscrim → Option PayloadPtr
  | .stale => some .null
  | .vBytes r => if type = .customExt then none else some r.ptr
  | .vExt _ r => if type = .customExt then some r.ptr else none
  | _ => none

/-- `vArray.len` or `vMap.len`; another member may have been stored over it. -/
def count (type : CodecValueType) : CodecValueDiscrim → Option Nat
  | .stale => some 0
  | .vArray len => if type = .array then some len else none
  | .vMap len => if type = .map then some len else none
  | _ => none

end CodecValueDiscrim

/-- The values in the block of a container of the given length; an entry of a map is two. -/
def slots (type : CodecValueType) (len : Nat) : Nat := if type = .map then 2 * len else len

section Free

abbrev Live : Type := Finset Nat

/-- `codec_value_free_ptr` on the pointer to a block; the pointer it resets is a copy. -/
def codecValueFreePtr (block : Option Nat) (live : Live) : Option Live :=
  match block with
  | none => some live
  | some p => if p ∈ live then some (live.erase p) else none

/-- `codec_value_free_ptr` on the pointer to a payload, which no `malloc` has returned. -/
def codecValueFreePayload (type : CodecValueType) (v : CodecValueDiscrim) (live : Live) :
    Option Live :=
  match v.payloadPtr type with
  | some .null => some live
  | _ => none

mutual
def codecValueFree : Cell → Live → Option Live
  | .mk type v block elems, live =>
    match type with
    | .string | .bytes | .customExt => codecValueFreePayload type v live
    | .array | .map =>
      match v.count type with
      | none => none
      | some len =>
        -- `int i` against `size_t len`
        if intLimit ≤ len then none
        else if 0 < len ∧ block = none then none
        else (codecValueFreeEach block (slots type len) elems live).bind (codecValueFreePtr block)
    | _ => some live

/-- The loop over the first `n` values of a block. It does nothing with those that are zeroed. -/
def codecValueFreeEach (block : Option Nat) (n : Nat) : List Cell → Live → Option Live
  | [], live => some live
  | e :: es, live =>
    if n = 0 then some live
    else if ∀ p ∈ block, p ∈ live then
      (codecValueFree e live).bind (codecValueFreeEach block (n - 1) es)
    else none
end

end Free

/-! ## What codec_value_free frees -/

namespace Cell

/-- A node that stores no pointer to a payload, and whose count an `int` can hold and has memory
behind it. -/
def FreesNode (v : CodecValueDiscrim) (block : Option Nat) : Prop :=
  match v with
  | .vBytes r | .vExt _ r => r.off = none
  | .vArray len | .vMap len => len < intLimit ∧ (0 < len → block ≠ none)
  | _ => True

instance (block : Option Nat) : DecidablePred fun v => FreesNode v block
  | .vBytes r => inferInstanceAs (Decidable (r.off = none))
  | .vExt _ r => inferInstanceAs (Decidable (r.off = none))
  | .vArray len => inferInstanceAs (Decidable (len < intLimit ∧ (0 < len → block ≠ none)))
  | .vMap len => inferInstanceAs (Decidable (len < intLimit ∧ (0 < len → block ≠ none)))
  | .stale | .vNil _ | .vBool _ | .vUint64 _ | .vFloat32 _ | .vFloat64 _ => isTrue trivial

mutual
/-- Such are all nodes. -/
def Frees : Cell → Prop
  | mk _ v block es => FreesNode v block ∧ FreesList es

def FreesList : List Cell → Prop
  | [] => True
  | e :: es => e.Frees ∧ FreesList es
end

mutual
def decidableFrees : ∀ c : Cell, Decidable c.Frees
  | mk _ v block es =>
    have := decidableFreesList es
    inferInstanceAs (Decidable (FreesNode v block ∧ FreesList es))

def decidableFreesList : ∀ es : List Cell, Decidable (FreesList es)
  | [] => isTrue trivial
  | e :: es =>
    have := decidableFrees e
    have := decidableFreesList es
    inferInstanceAs (Decidable (e.Frees ∧ FreesList es))
end

instance : DecidablePred Frees := decidableFrees
instance : DecidablePred FreesList := decidableFreesList

/-- What a value is when nothing was allocated for it. -/
def LeafNode : CodecValueType → CodecValueDiscrim → Prop
  | .string, .vBytes _ | .bytes, .vBytes _ | .customExt, .vExt _ _ => True
  | .string, v | .bytes, v | .customExt, v | .array, v | .map, v => v = .stale
  | _, .vBytes _ | _, .vExt _ _ | _, .vArray _ | _, .vMap _ => False
  | _, _ => True

inductive BranchNode : CodecValueType → CodecValueDiscrim → Nat → Prop where
  | array (len : Nat) : BranchNode .array (.vArray len) (slots .array len)
  | map (len : Nat) : BranchNode .map (.vMap len) (slots .map len)

mutual
/-- A value that holds what its type says, with no more values in a block than it has room for. -/
def Tidy : Cell → Prop
  | mk t v block es =>
    (LeafNode t v ∧ block = none ∧ es = [] ∨ ∃ n, BranchNode t v n ∧ es.length ≤ n) ∧ TidyList es

def TidyList : List Cell → Prop
  | [] => True
  | e :: es => e.Tidy ∧ TidyList es
end

theorem tidyList_iff {es : List Cell} : TidyList es ↔ ∀ e ∈ es, e.Tidy := by
  induction es with
  | nil => simp [TidyList]
  | cons e es ih => simp [TidyList, ih]

theorem freePayload_iff {type : CodecValueType} {v : CodecValueDiscrim} {r : SliceRef}
    (h : v.payloadPtr type = some r.ptr) (live : Live) :
    codecValueFreePayload type v live = if r.off = none then some live else none := by
  rw [codecValueFreePayload, h, SliceRef.ptr]
  cases r.off <;> rfl

theorem free_leaf {t : CodecValueType} {v : CodecValueDiscrim} (h : LeafNode t v) (live : Live) :
    (FreesNode v none → codecValueFree (mk t v none []) live = some live) ∧
      (¬ FreesNode v none → codecValueFree (mk t v none []) live = none) := by
  cases t with
  | unset | nil | bool | posInt | negInt | float32 | float64 =>
    cases v <;> first
      | exact ⟨fun _ => rfl, fun hNot => absurd trivial hNot⟩
      | cases h
  | string | bytes | customExt =>
    cases v <;> first
      | exact ⟨fun _ => rfl, fun hNot => absurd trivial hNot⟩
      | exact ⟨fun hOff => (freePayload_iff rfl live).trans (if_pos hOff),
          fun hNot => (freePayload_iff rfl live).trans (if_neg hNot)⟩
      | cases h
  | array | map =>
    cases h
    exact ⟨fun _ => rfl, fun hNot => absurd trivial hNot⟩

theorem free_branch {t : CodecValueType} {v : CodecValueDiscrim} {n : Nat} (block : Option Nat)
    (es : List Cell) (h : BranchNode t v n) (live : Live) :
    (FreesNode v block → codecValueFree (mk t v block es) live =
      (codecValueFreeEach block n es live).bind (codecValueFreePtr block)) ∧
      (¬ FreesNode v block → codecValueFree (mk t v block es) live = none) := by
  have hNull {len : Nat} (hNot : ¬ (len < intLimit ∧ (0 < len → block ≠ none)))
      (hLen : ¬ intLimit ≤ len) : 0 < len ∧ block = none := by
    by_contra hBlock
    exact hNot ⟨Nat.not_le.mp hLen, fun hPos hNone => hBlock ⟨hPos, hNone⟩⟩
  cases h with
  | array =>
    rw [codecValueFree]
    simp only [CodecValueDiscrim.count, if_true]
    constructor
    · rintro ⟨hLen, hBlock⟩
      rw [if_neg (Nat.not_le.mpr hLen), if_neg fun hNone => hBlock hNone.1 hNone.2]
    · intro hNot
      split_ifs with hLen hNone
      · rfl
      · rfl
      · exact absurd (hNull hNot hLen) hNone
  | map len =>
    rw [codecValueFree]
    simp only [CodecValueDiscrim.count, if_true]
    constructor
    · rintro ⟨hLen, hBlock⟩
      rw [if_neg (Nat.not_le.mpr hLen), if_neg fun hNone => hBlock hNone.1 hNone.2]
    · intro hNot
      split_ifs with hLen hNone
      · rfl
      · rfl
      · exact absurd (hNull hNot hLen) hNone

/-- The block of a container, which is freed after those inside it. -/
theorem freePtr_after {block : Option Nat} {inner : List Nat} {live : Live}
    (hBlock : ∀ p ∈ block, p ∈ live ∧ p ∉ inner) :
    codecValueFreePtr block (live \ inner.toFinset) =
      some (live \ (block.toList ++ inner).toFinset) := by
  cases block with
  | none => rfl
  | some p =>
    obtain ⟨hLive, hNew⟩ := hBlock p rfl
    have hStill : p ∈ live \ inner.toFinset := by simp [hLive, hNew]
    rw [codecValueFreePtr, if_pos hStill]
    congr 1
    ext q
    simp only [Finset.mem_erase, Finset.mem_sdiff, List.mem_toFinset, Option.toList_some,
      List.singleton_append, List.mem_cons]
    tauto

-- Whatever is freed is distinct and live, so only the nodes themselves can go wrong.
mutual
theorem free_spec : ∀ (c : Cell) (live : Live), c.Tidy → c.blocks.Nodup → (∀ p ∈ c.blocks, p ∈ live) →
    (c.Frees → codecValueFree c live = some (live \ c.blocks.toFinset)) ∧
      (¬ c.Frees → codecValueFree c live = none)
  | mk t v block es, live, ⟨hNode, hTidy⟩, hNodup, hLive => by
    rw [blocks] at hNodup hLive ⊢
    obtain ⟨-, hInner, hApart⟩ := List.nodup_append.mp hNodup
    rcases hNode with ⟨hLeaf, rfl, rfl⟩ | ⟨n, hBranch, hSize⟩
    · obtain ⟨hFrees, hNot⟩ := free_leaf hLeaf live
      constructor
      · rintro ⟨h, -⟩
        simpa [blocksList] using hFrees h
      · intro h
        exact hNot fun hNode => h ⟨hNode, trivial⟩
    · have hBlock : ∀ p ∈ block, p ∈ live ∧ p ∉ blocksList es := by
        intro p hp
        have hMem : p ∈ block.toList := Option.mem_toList.mpr hp
        exact ⟨hLive p (List.mem_append_left _ hMem), fun h => hApart p hMem p h rfl⟩
      obtain ⟨hEach, hEachNot⟩ := freeEach_spec es live block n hSize hTidy hInner
        (fun p hp => hLive p (List.mem_append_right _ hp)) hBlock
      obtain ⟨hFrees, hNot⟩ := free_branch block es hBranch live
      constructor
      · rintro ⟨hv, hes⟩
        rw [hFrees hv, hEach hes]
        exact freePtr_after hBlock
      · intro h
        by_cases hv : FreesNode v block
        · rw [hFrees hv, hEachNot fun hes => h ⟨hv, hes⟩]
          rfl
        · exact hNot hv

theorem freeEach_spec : ∀ (es : List Cell) (live : Live) (block : Option Nat) (n : Nat),
    es.length ≤ n → TidyList es → (blocksList es).Nodup → (∀ p ∈ blocksList es, p ∈ live) →
    (∀ p ∈ block, p ∈ live ∧ p ∉ blocksList es) →
    (FreesList es → codecValueFreeEach block n es live = some (live \ (blocksList es).toFinset)) ∧
      (¬ FreesList es → codecValueFreeEach block n es live = none)
  | [], live, block, n, _, _, _, _, _ => by
    refine ⟨fun _ => ?_, fun hNot => absurd trivial hNot⟩
    simp [codecValueFreeEach, blocksList]
  | e :: es, live, block, n, hSize, ⟨hTidy, hTidyList⟩, hNodup, hLive, hBlock => by
    rw [blocksList] at hNodup hLive hBlock ⊢
    obtain ⟨hHead, hTail, hApart⟩ := List.nodup_append.mp hNodup
    obtain ⟨hFrees, hNot⟩ := free_spec e live hTidy hHead fun p hp =>
      hLive p (List.mem_append_left _ hp)
    have hTailLive : ∀ p ∈ blocksList es, p ∈ live \ e.blocks.toFinset := by
      intro p hp
      simp only [Finset.mem_sdiff, List.mem_toFinset]
      exact ⟨hLive p (List.mem_append_right _ hp), fun h => hApart p h p hp rfl⟩
    have hBlockLive : ∀ p ∈ block, p ∈ live \ e.blocks.toFinset ∧ p ∉ blocksList es := by
      intro p hp
      obtain ⟨hIn, hNew⟩ := hBlock p hp
      rw [List.mem_append] at hNew
      simp only [Finset.mem_sdiff, List.mem_toFinset]
      exact ⟨⟨hIn, fun h => hNew (Or.inl h)⟩, fun h => hNew (Or.inr h)⟩
    obtain ⟨hEach, hEachNot⟩ := freeEach_spec es (live \ e.blocks.toFinset) block (n - 1)
      (Nat.le_sub_of_add_le hSize) hTidyList hTail hTailLive hBlockLive
    have hMore : n ≠ 0 := Nat.ne_of_gt (Nat.lt_of_lt_of_le (Nat.succ_pos _) hSize)
    rw [codecValueFreeEach, if_neg hMore, if_pos fun p hp => (hBlock p hp).1]
    constructor
    · rintro ⟨he, hes⟩
      rw [hFrees he, Option.bind_some, hEach hes, List.toFinset_append, sdiff_sdiff_left]
      rfl
    · intro h
      by_cases he : e.Frees
      · rw [hFrees he, Option.bind_some]
        exact hEachNot fun hes => h ⟨he, hes⟩
      · rw [hNot he]
        rfl
end

end Cell

end CcCommon.Codec
