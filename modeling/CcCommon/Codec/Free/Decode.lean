import CcCommon.Codec.Binc.DecodeSteps
import CcCommon.Codec.Free
import CcCommon.Codec.Simple.Decode

/-! # The blocks that a decoder allocates

Each element loop of the decoders starts with a `calloc` for its values. The
value to be filled in is zeroed, as those that `calloc` returns are.
-/

namespace CcCommon.Codec

open Lib.Descent

set_option autoImplicit false

/-- The blocks are numbered as they are allocated. -/
structure AllocState where
  state : CodecDecodeState
  /-- The calls of `calloc` so far. -/
  calls : Nat
  /-- The blocks so far. -/
  next : Nat

namespace AllocState

def init : AllocState := ⟨.init, 0, 0⟩

def live (t : AllocState) : Live := Finset.range t.next

/-- `grants` says which calls of `calloc` do not return NULL. -/
def calloc (grants : Nat → Bool) (t : AllocState) : AllocState × Option Nat :=
  if grants t.calls then ({ t with calls := t.calls + 1, next := t.next + 1 }, some t.next)
  else ({ t with calls := t.calls + 1 }, none)

end AllocState

section Allocating

variable (grants : Nat → Bool) (head : CodecDecodeState → Decoded → Step CodecDecodeState Decoded)

def allocHead (t : AllocState) (c : Cell) : Step AllocState Cell :=
  match head t.state c.forget with
  | .leaf s d => .leaf { t with state := s } (.mk d.type d.discrim none [])
  | .branch s n limit close =>
    let (t', block) := t.calloc grants
    .branch { t' with state := s } n limit fun es =>
      let d := close (es.map Cell.forget)
      .mk d.type d.discrim block es

/-- A recursive decoder with its memory, given what one call does before its element loop. -/
def allocating : Scheme AllocState Cell where
  head := allocHead grants head
  failed t := t.state.failed
  leave t t' := { t' with state := t.state.leave t'.state }
  blank := .zero

end Allocating

/-! ## What a call does to a zeroed value -/

/-- `I` holds where a call is entered. -/
inductive FillsStep (I : CodecDecodeState → Prop) (s : CodecDecodeState) :
    Step CodecDecodeState Decoded → Prop where
  | leaf (s' : CodecDecodeState) (d : Decoded) (hElems : d.elems = [])
      (hNode : I s → Cell.LeafNode d.type d.discrim) : FillsStep I s (.leaf s' d)
  | branch (s' : CodecDecodeState) (n l : Nat) (t : CodecValueType) (v : CodecValueDiscrim)
      (hNode : Cell.BranchNode t v n) (hKeeps : I s → I s') :
      FillsStep I s (.branch s' n l (Decoded.mk t v))

structure Fills (head : CodecDecodeState → Decoded → Step CodecDecodeState Decoded)
    (I : CodecDecodeState → Prop) : Prop where
  init : I .init
  step : ∀ s, FillsStep I s (head s .zero)
  next : ∀ s, s.failed = false → I s

section Fills

variable {grants : Nat → Bool} {head : CodecDecodeState → Decoded → Step CodecDecodeState Decoded}
  {I : CodecDecodeState → Prop} {t t' : AllocState}

/-- What a call with memory does. -/
inductive AllocStep (grants : Nat → Bool) (I : CodecDecodeState → Prop) (t : AllocState) :
    Step CodecDecodeState Decoded → Step AllocState Cell → Prop where
  | leaf (s' : CodecDecodeState) (d : Decoded) (hElems : d.elems = [])
      (hNode : I t.state → Cell.LeafNode d.type d.discrim) :
      AllocStep grants I t (.leaf s' d) (.leaf { t with state := s' } (.mk d.type d.discrim none []))
  | branch (s' : CodecDecodeState) (n l : Nat) (ty : CodecValueType) (v : CodecValueDiscrim)
      (hNode : Cell.BranchNode ty v n) (hKeeps : I t.state → I s') :
      AllocStep grants I t (.branch s' n l (Decoded.mk ty v))
        (.branch { (t.calloc grants).1 with state := s' } n l (.mk ty v (t.calloc grants).2))

theorem Fills.alloc (h : Fills head I) (grants : Nat → Bool) (t : AllocState) :
    AllocStep grants I t (head t.state .zero) ((allocating grants head).head t .zero) := by
  have hStep := h.step t.state
  have hZero : Cell.zero.forget = .zero := rfl
  simp only [allocating, allocHead, hZero]
  generalize head t.state .zero = step at hStep
  cases hStep with
  | leaf s' d hElems hNode => exact .leaf s' d hElems hNode
  | branch s' n l ty v hNode hKeeps => exact .branch s' n l ty v hNode hKeeps

/-- Without its memory it is the decoder. -/
theorem Fills.forgets (h : Fills head I) (grants : Nat → Bool) :
    Forgets (allocating grants head) (decodeScheme head) AllocState.state Cell.forget where
  blank := rfl
  failed _ := rfl
  leave _ _ := rfl
  leaf := by
    intro t t' w hHead
    have hStep := h.alloc grants t
    rw [show (allocating grants head).head t Cell.zero = _ from hHead] at hStep
    generalize hPlain : head t.state .zero = step at hStep
    cases hStep with
    | leaf s' d hElems hNode =>
      refine hPlain.trans ?_
      cases d with
      | mk ty v es =>
        cases hElems
        rfl
  branch := by
    intro t t' n l c hHead
    have hStep := h.alloc grants t
    rw [show (allocating grants head).head t Cell.zero = _ from hHead] at hStep
    generalize hPlain : head t.state .zero = step at hStep
    cases hStep with
    | branch s' n l ty v hNode hKeeps =>
      refine ⟨Decoded.mk ty v, hPlain, fun ws => ?_⟩
      rw [Cell.forget, Cell.forgetList_eq]

/-! ## Which blocks a value has -/

/-- From `t` to `t'` the blocks `ps` have been allocated, in this order. -/
structure Allocates (t t' : AllocState) (ps : List Nat) : Prop where
  le : t.next ≤ t'.next
  blocks : ps = List.range' t.next (t'.next - t.next)

theorem Allocates.nothing (hNext : t'.next = t.next) : Allocates t t' [] := by
  refine ⟨hNext.ge, ?_⟩
  rw [hNext, Nat.sub_self]
  rfl

theorem Allocates.trans {t'' : AllocState} {ps ps' : List Nat} (h : Allocates t t' ps)
    (h' : Allocates t' t'' ps') : Allocates t t'' (ps ++ ps') := by
  refine ⟨h.le.trans h'.le, ?_⟩
  rw [h.blocks, h'.blocks]
  have hMid : t'.next = t.next + (t'.next - t.next) := (Nat.add_sub_cancel' h.le).symm
  have hSum : t''.next - t.next = (t'.next - t.next) + (t''.next - t'.next) := by
    have := h.le
    have := h'.le
    omega
  rw [hSum, ← List.range'_append_1, ← hMid]

theorem calloc_allocates (grants : Nat → Bool) (t : AllocState) (s : CodecDecodeState) :
    Allocates t { (t.calloc grants).1 with state := s } (t.calloc grants).2.toList := by
  rw [AllocState.calloc]
  split
  · refine ⟨Nat.le_succ _, ?_⟩
    rw [Nat.add_sub_cancel_left]
    rfl
  · exact .nothing rfl

mutual
theorem Fills.node_allocates (h : Fills head I) (f : Nat) (t : AllocState) (hI : I t.state) :
    ∀ t' c, node (allocating grants head) f t .zero = .done t' c →
      Allocates t t' c.blocks ∧ c.Tidy := by
  intro t' c hDone
  cases f with
  | zero => cases hDone
  | succ f =>
    have hStep := h.alloc grants t
    generalize hPlain : head t.state .zero = plain at hStep
    generalize hHead : (allocating grants head).head t .zero = step at hStep
    cases hStep with
    | leaf s' d hElems hNode =>
      rw [node_leaf hHead] at hDone
      cases hDone
      exact ⟨.nothing rfl, Or.inl ⟨hNode hI, rfl, rfl⟩, trivial⟩
    | branch s' n l ty v hNode hKeeps =>
      rw [node_branch hHead] at hDone
      have hCalloc := calloc_allocates grants t s'
      have hKids := h.kids_allocates f
        { (t.calloc grants).1 with state := s' } _ n l 0 [] (hKeeps hI)
        (.nothing rfl) trivial rfl (Nat.zero_le n)
      split at hDone
      · rename_i t'' es hRun
        cases hDone
        obtain ⟨hAlloc, hTidy, hSize⟩ := hKids t'' es hRun
        have hBoth := hCalloc.trans hAlloc
        exact ⟨⟨hBoth.le, hBoth.blocks⟩, Or.inr ⟨n, hNode, hSize⟩, hTidy⟩
      · cases hDone

theorem Fills.kids_allocates (h : Fills head I) (f : Nat) (t₀ t : AllocState) (n l i : Nat)
    (acc : List Cell) (hI : I t.state) (hAcc : Allocates t₀ t (Cell.blocksList acc))
    (hTidy : Cell.TidyList acc) (hLength : acc.length = i) (hi : i ≤ n) :
    ∀ t' es, kids (allocating grants head) f t n l i acc = .done t' es →
      Allocates t₀ t' (Cell.blocksList es) ∧ Cell.TidyList es ∧ es.length ≤ n := by
  intro t' es hDone
  cases f with
  | zero => cases hDone
  | succ f =>
    rw [kids] at hDone
    split at hDone
    · rename_i hLt
      have hNode := h.node_allocates f t hI
      split at hDone
      · cases hDone
      · rename_i t₁ c hRun
        obtain ⟨hHere, hTidyHere⟩ := hNode t₁ c hRun
        have hNext : Allocates t₀ t₁ (Cell.blocksList (acc ++ [c])) := by
          have hBoth := hAcc.trans hHere
          rw [Cell.blocksList_append]
          simpa only [Cell.blocksList, List.append_nil] using hBoth
        have hTidyNext : Cell.TidyList (acc ++ [c]) := by
          rw [Cell.tidyList_iff] at hTidy ⊢
          intro e he
          obtain he | he := List.mem_append.mp he
          · exact hTidy e he
          · rwa [List.mem_singleton.mp he]
        have hSize : (acc ++ [c]).length = i + 1 := by rw [List.length_append, hLength]; rfl
        split at hDone
        · cases hDone
          exact ⟨hNext, hTidyNext, by rw [hSize]; exact hLt⟩
        · rename_i hOk
          split at hDone
          · cases hDone
          · exact h.kids_allocates f t₀ t₁ n l (i + 1) (acc ++ [c])
              (h.next t₁.state (Bool.eq_false_iff.mpr hOk)) hNext hTidyNext hSize hLt t' es hDone
    · cases hDone
      exact ⟨hAcc, hTidy, hLength ▸ hi⟩
end

/-- If `codec_value_free` is called on what a decoder returns, whether it succeeded or failed, then
either it frees every block that the decoder allocated, or its behaviour is undefined. -/
theorem Fills.free (h : Fills head I) {f : Nat} {t' : AllocState} {c : Cell}
    (hDone : node (allocating grants head) f .init .zero = .done t' c) :
    node (decodeScheme head) f .init .zero = .done t'.state c.forget ∧
      codecValueFree c t'.live = if c.Frees then some ∅ else none := by
  have hForget := (h.forgets grants).node_eq f .init
  obtain ⟨hAlloc, hTidy⟩ := h.node_allocates f .init h.init t' c hDone
  have hBlocks : c.blocks = List.range t'.next := by
    rw [hAlloc.blocks, List.range_eq_range']
    rfl
  have hLive : ∀ p ∈ c.blocks, p ∈ t'.live := by
    intro p hp
    rw [hBlocks, List.mem_range] at hp
    exact Finset.mem_range.mpr hp
  have hNodup : c.blocks.Nodup := by
    rw [hBlocks]
    exact List.nodup_range
  have hNone : t'.live \ c.blocks.toFinset = ∅ := by
    rw [hBlocks, List.toFinset_range]
    exact Finset.sdiff_self _
  constructor
  · rw [show (allocating grants head).blank = Cell.zero from rfl, hDone] at hForget
    exact hForget
  · obtain ⟨hFrees, hNot⟩ := Cell.free_spec c t'.live hTidy hNodup hLive
    split
    · rename_i hAll
      rw [hFrees hAll, hNone]
    · rename_i hAll
      exact hNot hAll

end Fills

/-! ## The two decoders -/

section Codecs

open Cell (LeafNode BranchNode)

variable {b : Input} {s₀ s : CodecDecodeState}

namespace Simple

theorem fills_int (bd : UInt8) (type : CodecValueType) (hType : type = .posInt ∨ type = .negInt) :
    FillsStep (fun _ => True) s₀ (codecSimpleDecodeInt b s .zero bd type) := by
  rw [codecSimpleDecodeInt]
  generalize codecSimpleReadn b s (intWidth bd) = r
  obtain ⟨s', n⟩ := r
  dsimp only
  split
  · exact .leaf _ _ rfl fun _ => trivial
  · obtain rfl | rfl := hType <;> exact .leaf _ _ rfl fun _ => trivial

theorem fills_bytes (bd : UInt8) (type : CodecValueType)
    (hType : type = .string ∨ type = .unset) :
    FillsStep (fun _ => True) s₀ (codecSimpleDecodeBytes b s (.blank type) bd) := by
  rw [codecSimpleDecodeBytes]
  generalize codecSimpleDecodeLen b s bd = r
  obtain ⟨s', n⟩ := r
  dsimp only
  split
  · obtain rfl | rfl := hType <;> exact .leaf _ _ rfl fun _ => rfl
  · split <;> obtain rfl | rfl := hType <;> exact .leaf _ _ rfl fun _ => trivial

theorem fills_switch (bd : UInt8) :
    FillsStep (fun _ => True) s₀ (codecSimpleDecodeSwitch b s .zero bd) := by
  rw [codecSimpleDecodeSwitch]
  cases codecSimpleDesc bd with
  | none => exact .leaf _ _ rfl fun _ => trivial
  | some d =>
    cases d with
    | nil | false | true => exact .leaf _ _ rfl fun _ => trivial
    | posInt => exact fills_int bd .posInt (Or.inl rfl)
    | negInt => exact fills_int bd .negInt (Or.inr rfl)
    | float32 =>
      dsimp only
      rw [codecSimpleDecodeFloat32]
      split <;> exact .leaf _ _ rfl fun _ => trivial
    | float64 =>
      dsimp only
      rw [codecSimpleDecodeFloat64]
      split <;> exact .leaf _ _ rfl fun _ => trivial
    | string => exact fills_bytes bd .string (Or.inl rfl)
    | bytes => exact fills_bytes bd .unset (Or.inr rfl)
    | array =>
      dsimp only
      rw [codecSimpleDecodeArray]
      generalize codecSimpleDecodeLen b s bd = r
      obtain ⟨s', n⟩ := r
      dsimp only
      split
      · exact .leaf _ _ rfl fun _ => rfl
      · exact .branch _ _ _ _ _ (BranchNode.array n) fun _ => trivial
    | map => exact .branch _ _ _ _ _ (BranchNode.map _) fun _ => trivial
    | customExt =>
      dsimp only
      rw [codecSimpleDecodeExt]
      generalize codecSimpleDecodeLen b s bd = r
      obtain ⟨s', n⟩ := r
      dsimp only
      split <;> exact .leaf _ _ rfl fun _ => trivial

theorem fills (b : Input) : Fills (codecSimpleDecodeHead b) fun _ => True where
  init := trivial
  step s := by
    rw [codecSimpleDecodeHead]
    split
    · exact .leaf _ _ rfl fun _ => trivial
    · split
      · exact .leaf _ _ rfl fun _ => trivial
      · exact fills_switch _
  next _ _ := trivial

end Simple

namespace Binc

/-- A length is read without an error of its own. -/
theorem decodeLen_failed (vs : Nat) : (codecBincDecodeLen b s vs).1.failed = s.failed := by
  by_cases h : vs ≤ 3
  · rw [codecBincDecodeLen_wide h]
    rfl
  · rw [codecBincDecodeLen_inline (Nat.not_le.mp h)]

theorem fills_special (vs : Nat) :
    FillsStep (fun s => s.failed = false) s₀ (codecBincDecodeSpecial s .zero vs) := by
  rw [codecBincDecodeSpecial]
  split <;> exact .leaf _ _ rfl fun _ => trivial

theorem fills_bytes (vs : Nat) (type : CodecValueType) (hType : type = .string ∨ type = .bytes) :
    FillsStep (fun s => s.failed = false) s₀ (codecBincDecodeBytes b s vs type) := by
  rw [codecBincDecodeBytes]
  generalize codecBincDecodeLen b s vs = r
  obtain ⟨s', n⟩ := r
  dsimp only
  split <;> obtain rfl | rfl := hType <;> exact .leaf _ _ rfl fun _ => trivial

theorem fills_ext (vs : Nat) :
    FillsStep (fun s => s.failed = false) s₀ (codecBincDecodeExt b s vs) := by
  rw [codecBincDecodeExt]
  generalize codecBincDecodeLen b s vs = r
  obtain ⟨s', n⟩ := r
  dsimp only
  split <;> exact .leaf _ _ rfl fun _ => trivial

theorem fills_array (vs : Nat) (h : s.failed = s₀.failed) :
    FillsStep (fun s => s.failed = false) s₀ (codecBincDecodeArray b s vs) := by
  rw [codecBincDecodeArray]
  have hFailed := decodeLen_failed (b := b) (s := s) vs
  generalize codecBincDecodeLen b s vs = r at hFailed
  obtain ⟨s', n⟩ := r
  dsimp only at hFailed ⊢
  split
  · rename_i hNot
    refine .leaf _ _ rfl fun hOk => ?_
    rw [hFailed, h, hOk] at hNot
    cases hNot
  · exact .branch _ _ _ _ _ (BranchNode.array n) fun hOk => hFailed.trans (h.trans hOk)

theorem fills_map (vs : Nat) (h : s.failed = s₀.failed) :
    FillsStep (fun s => s.failed = false) s₀ (codecBincDecodeMap b s vs) := by
  rw [codecBincDecodeMap]
  have hFailed := decodeLen_failed (b := b) (s := s) vs
  generalize codecBincDecodeLen b s vs = r at hFailed
  obtain ⟨s', n⟩ := r
  dsimp only at hFailed ⊢
  split
  · rename_i hNot
    refine .leaf _ _ rfl fun hOk => ?_
    rw [hFailed, h, hOk] at hNot
    cases hNot
  · exact .branch _ _ _ _ _ (BranchNode.map n) fun hOk => hFailed.trans (h.trans hOk)

theorem fills_switch (vd : CodecBincDescType) (vs : Nat) (h : s.failed = s₀.failed) :
    FillsStep (fun s => s.failed = false) s₀ (codecBincDecodeSwitch b s .zero vd vs) := by
  rw [codecBincDecodeSwitch.eq_def]
  cases vd with
  | special => exact fills_special vs
  | symbol | string => exact fills_bytes vs .string (Or.inl rfl)
  | bytearray => exact fills_bytes vs .bytes (Or.inr rfl)
  | customext => exact fills_ext vs
  | array => exact fills_array vs h
  | map => exact fills_map vs h
  | smallint | posint | negint | float | timestamp | unicodeother | decimal | openslot1 | openslot2 =>
    exact .leaf _ _ rfl fun _ => trivial

theorem fills (b : Input) : Fills (codecBincDecodeHead b) fun s => s.failed = false where
  init := rfl
  step s := by
    obtain ⟨hChk, -⟩ | ⟨msg, hChk, -⟩ := codecDecodeStateChk_cases b s.enter 1
    · rw [codecBincDecodeHead, hChk]
      exact fills_switch _ _ rfl
    · rw [codecBincDecodeHead, hChk]
      exact .leaf _ _ rfl fun _ => trivial
  next _ hOk := hOk

end Binc

/-- Whether decoding has succeeded or failed, to call `codec_value_free` on the value afterwards
frees each block that was allocated, once, or the behaviour is undefined: when the decoder has
stored a pointer into the input, a count that an `int` cannot hold, or a NULL that `calloc` returned
for values, through which either it has written or `codec_value_free` reads. -/
theorem codecValueFree_decoded (b : Input) (grants : Nat → Bool) {f : Nat} {t : AllocState}
    {c : Cell} :
    (node (allocating grants (Simple.codecSimpleDecodeHead b)) f .init .zero = .done t c →
      Simple.codecSimpleDecode b f .zero = .done t.state c.forget ∧
        codecValueFree c t.live = if c.Frees then some ∅ else none) ∧
    (node (allocating grants (Binc.codecBincDecodeHead b)) f .init .zero = .done t c →
      Binc.codecBincDecode b f .zero = .done t.state c.forget ∧
        codecValueFree c t.live = if c.Frees then some ∅ else none) :=
  ⟨(Simple.fills b).free, (Binc.fills b).free⟩

/-- An array that holds an empty array, a map that is cut short behind its count, a string, and an
array without its values. -/
def nested : Input := ⟨[233, 1, 232], fun _ => 0, by decide⟩

def cutShort : Input := ⟨[241, 1, 217, 1], fun _ => 0, by decide⟩

def named : Input := ⟨[217, 1, 120], fun _ => 0, by decide⟩

def counted : Input := ⟨[0x73, 0x7F, 0xFF, 0xFF, 0xFF], fun _ => 0, by decide⟩

/-- Two blocks are freed after a success and one after an error; a string is not freed, nor an array
whose `calloc` has returned NULL. -/
theorem codecValueFree_decoded_nested :
    (∃ t c, node (allocating (fun _ => true) (Simple.codecSimpleDecodeHead nested)) 4 .init .zero =
      .done t c ∧ t.next = 2 ∧ codecValueFree c t.live = some ∅) ∧
    (∃ t c, node (allocating (fun _ => true) (Simple.codecSimpleDecodeHead cutShort)) 4 .init .zero =
      .done t c ∧ t.state.failed = true ∧ codecValueFree c t.live = some ∅) ∧
    (∃ t c, node (allocating (fun _ => true) (Simple.codecSimpleDecodeHead named)) 4 .init .zero =
      .done t c ∧ codecValueFree c t.live = none) ∧
    (∃ t c, node (allocating (fun _ => false) (Binc.codecBincDecodeHead counted)) 4 .init .zero =
      .done t c ∧ t.state.failed = true ∧ codecValueFree c t.live = none) := by
  refine ⟨⟨_, _, rfl, rfl, ?_⟩, ⟨_, _, rfl, rfl, ?_⟩, ⟨_, _, rfl, ?_⟩, ⟨_, _, rfl, rfl, ?_⟩⟩
  · exact ((codecValueFree_decoded nested (fun _ => true) (f := 4)).1 rfl).2
  · exact ((codecValueFree_decoded cutShort (fun _ => true) (f := 4)).1 rfl).2
  · exact ((codecValueFree_decoded named (fun _ => true) (f := 4)).1 rfl).2
  · exact ((codecValueFree_decoded counted (fun _ => false) (f := 4)).2 rfl).2

end Codecs

end CcCommon.Codec
