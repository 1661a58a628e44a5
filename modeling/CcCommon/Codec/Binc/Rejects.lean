import CcCommon.Codec.Binc.Progress

/-! # Which inputs codec_binc_decode rejects

Neither switch has a default. A descriptor that no case names is passed over
without an error, and the destination keeps what it held. So the inputs that
are taken wrongly are those that begin with a whole element in which such a
descriptor stands. -/

namespace CcCommon.Codec

set_option autoImplicit false

mutual
/-- A type and a member of the union were stored at every node. -/
def Decoded.assigned : Decoded → Bool
  | .mk type v es => decide (type ≠ .unset) && decide (v ≠ .stale) && assignedList es

def assignedList : List Decoded → Bool
  | [] => true
  | d :: ds => d.assigned && assignedList ds
end

namespace Binc

open Util Lib.Descent

/-- A run that ends without an error has assigned the whole result from the input. -/
def AssignsAll (b : Input) (fuel : Nat) (v : Decoded) : Prop :=
  ∀ s d, codecBincDecode b fuel v = .done s d → s.err = none →
    d.assigned = true ∧ ∀ v', codecBincDecode b fuel v' = .done s d

/-- A descriptor that no case of the two switches names. -/
def Unnamed (b : Input) (p : Nat) : Prop :=
  (family (b.get p) = .special ∧ CodecBincSpecialDescType.ofNibble (nibble (b.get p)) = none) ∨
    family (b.get p) = .unicodeother ∨ family (b.get p) = .decimal ∨
    family (b.get p) = .openslot1 ∨ family (b.get p) = .openslot2

/-- A descriptor whose branch sets `*err`: a timestamp, an integer of more than eight bytes, or a
float that is of another size or is counted to have more than eight bytes. -/
def Refused (b : Input) (p : Nat) : Prop :=
  match family (b.get p) with
  | .timestamp => True
  | .posint | .negint => 7 < nibble (b.get p)
  | .float =>
    ¬ (nibble (b.get p) &&& 0x7 = 1 ∨ nibble (b.get p) &&& 0x7 = 2) ∨
      nibble (b.get p) &&& 0x8 ≠ 0 ∧ 8 < (b.get (p + 1)).toNat
  | _ => False

/-- What the index of an element loop cannot count to. -/
def elemLimit (b : Input) (p : Nat) : Nat :=
  match family (b.get p) with
  | .array => intLimit
  | .map => 2 * intLimit
  | _ => 1

mutual
/-- From `p` to `q` there is one whole element: a descriptor in the buffer that is not refused, the
bytes it takes, and the elements it counts. `ps` is where the descriptors are. -/
inductive Element (b : Input) : Nat → Nat → List Nat → Prop where
  | mk (p q : Nat) (ps : List Nat) (hp : p < b.len) (hRead : ¬ Refused b p)
    (hLimit : elemCount b p < elemLimit b p)
    (h : Elements b (elemCount b p) (payloadEnd b p) q ps) : Element b p q (p :: ps)

inductive Elements (b : Input) : Nat → Nat → Nat → List Nat → Prop where
  | nil (p : Nat) : Elements b 0 p p []
  | cons (n p q r : Nat) (ps ps' : List Nat) (h : Element b p q ps) (hs : Elements b n q r ps') :
    Elements b (n + 1) p r (ps ++ ps')
end

/-- The input begins with a whole element, and a descriptor in it is one that no case names. -/
def BeginsUnnamed (b : Input) : Prop := ∃ q ps, Element b 0 q ps ∧ ∃ p ∈ ps, Unnamed b p

section Heads

variable {b : Input} {s s' : CodecDecodeState} {v d : Decoded}

theorem codecBincDecodeHead_cases (b : Input) (s : CodecDecodeState) :
    (∀ w, codecBincDecodeHead b s w =
      codecBincDecodeSwitch b s.enter.next w (family (b.get s.pos)) (nibble (b.get s.pos))) ∨
    ∃ msg, ∀ w, codecBincDecodeHead b s w = .leaf (s.enter.fail msg) w := by
  rcases codecDecodeStateChk_cases b s.enter 1 with ⟨hPass, -⟩ | ⟨msg, hStop, -⟩
  · refine Or.inl fun w => ?_
    rw [codecBincDecodeHead, hPass]
    rfl
  · refine Or.inr ⟨msg, fun w => ?_⟩
    rw [codecBincDecodeHead, hStop]

/-- A payload branch that ended without an error is past its test of `*err`. -/
theorem assigned_of_checked {t t' : CodecDecodeState} {e e' : Decoded}
    (hHead : (if t.failed then .leaf t e else .leaf t' e' : Step CodecDecodeState Decoded) =
      .leaf s' d) (hOk : s'.err = none) (hAssigned : e'.assigned = true) : d.assigned = true := by
  split at hHead
  · rename_i hFailed
    cases hHead
    exact absurd hOk (CodecDecodeState.err_of_failed hFailed)
  · cases hHead
    exact hAssigned

/-- A leaf without an error: the destination is left alone, or assigned whatever it held. -/
theorem switch_leaf (hHead : codecBincDecodeSwitch b s.enter.next v (family (b.get s.pos))
      (nibble (b.get s.pos)) = .leaf s' d) (hOk : s'.err = none) :
    (Unnamed b s.pos ∧ ∀ w, codecBincDecodeSwitch b s.enter.next w (family (b.get s.pos))
        (nibble (b.get s.pos)) = .leaf s' w) ∨
      (¬ Unnamed b s.pos ∧ d.assigned = true ∧ ∀ w, codecBincDecodeSwitch b s.enter.next w
        (family (b.get s.pos)) (nibble (b.get s.pos)) = .leaf s' d) := by
  unfold Unnamed
  cases hFam : family (b.get s.pos) with
  | special =>
    rw [hFam] at hHead
    simp only [codecBincDecodeSwitch, codecBincDecodeSpecial] at hHead ⊢
    cases hSpecial : CodecBincSpecialDescType.ofNibble (nibble (b.get s.pos)) with
    | none =>
      rw [hSpecial] at hHead
      cases hHead
      exact Or.inl ⟨by simp, fun w => rfl⟩
    | some t =>
      rw [hSpecial] at hHead
      cases t <;> cases hHead <;> exact Or.inr ⟨by simp, rfl, fun w => rfl⟩
  | unicodeother | decimal | openslot1 | openslot2 =>
    rw [hFam] at hHead
    cases hHead
    exact Or.inl ⟨by simp, fun w => rfl⟩
  | timestamp =>
    rw [hFam] at hHead
    cases hHead
    cases hOk
  | smallint =>
    rw [hFam] at hHead
    cases hHead
    exact Or.inr ⟨by simp, rfl, fun w => rfl⟩
  | posint | negint =>
    rw [hFam] at hHead
    simp only [codecBincDecodeSwitch, codecBincDecodeInt] at hHead
    cases hHead
    exact Or.inr ⟨by simp, rfl, fun w => rfl⟩
  | float =>
    rw [hFam] at hHead
    simp only [codecBincDecodeSwitch] at hHead
    cases hHead
    exact Or.inr ⟨by simp, rfl, fun w => rfl⟩
  | symbol | string | bytearray =>
    rw [hFam] at hHead
    refine Or.inr ⟨by simp, ?_, fun w => hHead⟩
    simp only [codecBincDecodeSwitch, codecBincDecodeBytes] at hHead
    exact assigned_of_checked hHead hOk rfl
  | customext =>
    rw [hFam] at hHead
    refine Or.inr ⟨by simp, ?_, fun w => hHead⟩
    simp only [codecBincDecodeSwitch, codecBincDecodeExt] at hHead
    exact assigned_of_checked hHead hOk rfl
  | array | map =>
    rw [hFam] at hHead
    simp only [codecBincDecodeSwitch, codecBincDecodeArray, codecBincDecodeMap] at hHead
    split at hHead
    · rename_i hFailed
      cases hHead
      exact absurd hOk (CodecDecodeState.err_of_failed hFailed)
    · cases hHead

theorem switch_branch {n l : Nat} {c : List Decoded → Decoded}
    (hHead : codecBincDecodeSwitch b s.enter.next v (family (b.get s.pos))
      (nibble (b.get s.pos)) = .branch s' n l c) :
    ¬ Unnamed b s.pos ∧ (∀ vs, (c vs).assigned = assignedList vs) ∧
      ∀ w, codecBincDecodeSwitch b s.enter.next w (family (b.get s.pos))
        (nibble (b.get s.pos)) = .branch s' n l c := by
  unfold Unnamed
  cases hFam : family (b.get s.pos) with
  | array | map =>
    rw [hFam] at hHead
    refine ⟨by simp, ?_, fun w => hHead⟩
    simp only [codecBincDecodeSwitch, codecBincDecodeArray, codecBincDecodeMap] at hHead
    split at hHead
    · cases hHead
    · cases hHead
      intro vs
      simp [Decoded.assigned]
  | special =>
    rw [hFam] at hHead
    simp only [codecBincDecodeSwitch, codecBincDecodeSpecial] at hHead
    split at hHead <;> cases hHead
  | symbol | string | bytearray =>
    rw [hFam] at hHead
    simp only [codecBincDecodeSwitch, codecBincDecodeBytes] at hHead
    split at hHead <;> cases hHead
  | customext =>
    rw [hFam] at hHead
    simp only [codecBincDecodeSwitch, codecBincDecodeExt] at hHead
    split at hHead <;> cases hHead
  | _ =>
    rw [hFam] at hHead
    cases hHead

theorem head_leaf (hHead : codecBincDecodeHead b s v = .leaf s' d) (hOk : s'.err = none) :
    (Unnamed b s.pos ∧ ∀ w, codecBincDecodeHead b s w = .leaf s' w) ∨
      (¬ Unnamed b s.pos ∧ d.assigned = true ∧ ∀ w, codecBincDecodeHead b s w = .leaf s' d) := by
  rcases codecBincDecodeHead_cases b s with hPass | ⟨msg, hStop⟩
  · simp only [hPass] at hHead ⊢
    exact switch_leaf hHead hOk
  · rw [hStop] at hHead
    cases hHead
    cases hOk

theorem head_branch {n l : Nat} {c : List Decoded → Decoded}
    (hHead : codecBincDecodeHead b s v = .branch s' n l c) :
    ¬ Unnamed b s.pos ∧ (∀ vs, (c vs).assigned = assignedList vs) ∧
      ∀ w, codecBincDecodeHead b s w = .branch s' n l c := by
  rcases codecBincDecodeHead_cases b s with hPass | ⟨msg, hStop⟩
  · simp only [hPass] at hHead ⊢
    exact switch_branch hHead
  · rw [hStop] at hHead
    cases hHead

end Heads

/-! ## Descriptors that are refused -/

section Refusals

variable {b : Input} {s : CodecDecodeState}

theorem codecBincDecodeUint64_err (h : s.err = none) (vs : Nat) :
    (codecBincDecodeUint64 b s vs).1.err = none ↔ ¬ 7 < vs := by
  rcases Nat.lt_or_ge 7 vs with hWide | hWidth
  · rw [codecBincDecodeUint64, if_pos hWide]
    exact iff_of_false (Option.some_ne_none _) (not_not_intro hWide)
  · rw [codecBincDecodeUint64_eq hWidth]
    exact iff_of_true h (Nat.not_lt.mpr hWidth)

theorem codecBincDecodeFloatPre_err (h : s.err = none) (vs defLen : Nat) :
    (codecBincDecodeFloatPre b s vs defLen).err = none ↔
      ¬ (vs &&& 0x8 ≠ 0 ∧ 8 < (b.get s.pos).toNat) := by
  rw [codecBincDecodeFloatPre]
  by_cases hBit : vs &&& 0x8 = 0
  · rw [if_pos hBit]
    exact iff_of_true h fun hCounted => hCounted.1 hBit
  · rw [if_neg hBit]
    dsimp only
    by_cases hMore : (b.get s.pos).toNat > 8
    · rw [if_pos hMore]
      exact iff_of_false (Option.some_ne_none _) (not_not_intro ⟨hBit, hMore⟩)
    · rw [if_neg hMore]
      exact iff_of_true h fun hCounted => hMore hCounted.2

theorem codecBincDecodeFloat_err (h : s.err = none) (vs : Nat) :
    (codecBincDecodeFloat b s vs).1.err = none ↔
      ¬ (¬ (vs &&& 0x7 = 1 ∨ vs &&& 0x7 = 2) ∨ vs &&& 0x8 ≠ 0 ∧ 8 < (b.get s.pos).toNat) := by
  have hPre := codecBincDecodeFloatPre_err (b := b) h vs
  unfold codecBincDecodeFloat
  split
  · rename_i hKind
    have hState := hPre 4
    dsimp only
    split <;> simpa [hKind] using hState
  · rename_i hKind
    have hState := hPre 8
    dsimp only
    split <;> simpa [hKind] using hState
  · rename_i hFirst hSecond
    exact iff_of_false (Option.some_ne_none _) fun hNot =>
      hNot (Or.inl (not_or.mpr ⟨hFirst, hSecond⟩))

theorem head_err_iff (hPos : s.pos < b.len) (hErr : s.err = none) (v : Decoded) :
    (codecBincDecodeHead b s v).state.err = none ↔ ¬ Refused b s.pos := by
  have hLen := b.len_lt
  have hNext : s.enter.next.pos = s.pos + 1 := CodecDecodeState.next_pos_of_lt _ (by simp; omega)
  have hErr₁ : s.enter.next.err = none := hErr
  obtain ⟨s₁, hRead, -, hErr₂⟩ := codecBincDecodeLen_head hPos (nibble (b.get s.pos))
  have hOk : s₁.failed = false := s₁.failed_eq_false_iff.mpr (hErr₂.trans hErr)
  rw [codecBincDecodeHead_of_lt v hPos, Refused]
  cases family (b.get s.pos) with
  | special =>
    obtain ⟨v', hLeaf, -⟩ := codecBincDecodeSpecial_leaf s.enter.next v (nibble (b.get s.pos)) 0
    rw [codecBincDecodeSwitch, hLeaf]
    exact iff_of_true hErr id
  | posint | negint => exact codecBincDecodeUint64_err hErr₁ _
  | float =>
    rw [← hNext]
    exact codecBincDecodeFloat_err hErr₁ _
  | timestamp => exact iff_of_false (Option.some_ne_none _) (not_not_intro trivial)
  | smallint | unicodeother | decimal | openslot1 | openslot2 => exact iff_of_true hErr id
  | symbol | string | bytearray =>
    simp only [codecBincDecodeSwitch, codecBincDecodeBytes, hRead, hOk]
    exact iff_of_true (hErr₂.trans hErr) id
  | customext =>
    simp only [codecBincDecodeSwitch, codecBincDecodeExt, hRead, hOk]
    exact iff_of_true (hErr₂.trans hErr) id
  | array =>
    simp only [codecBincDecodeSwitch, codecBincDecodeArray, hRead, hOk]
    exact iff_of_true (hErr₂.trans hErr) id
  | map =>
    simp only [codecBincDecodeSwitch, codecBincDecodeMap, hRead, hOk]
    exact iff_of_true (hErr₂.trans hErr) id

end Refusals

/-! ## Whole elements -/

section Elements

variable {b : Input} {s s' : CodecDecodeState} {d : Decoded}

theorem elemLimit_pos (b : Input) (p : Nat) : 0 < elemLimit b p := by
  rw [elemLimit]
  split <;> decide

theorem head_limit {n l : Nat} {c : List Decoded → Decoded} {v : Decoded} (hPos : s.pos < b.len)
    (hHead : codecBincDecodeHead b s v = .branch s' n l c) : l = elemLimit b s.pos := by
  have hStep := (codecBincDecodeHead_of_lt v hPos).symm.trans hHead
  obtain ⟨hArray, hMap⟩ := branch_limit hStep
  rw [elemLimit]
  rcases (branch_cases hPos hStep).2 with ⟨hFam, -⟩ | ⟨hFam, -⟩
  · rw [hFam]
    exact hArray hFam
  · rw [hFam]
    exact hMap hFam

theorem assigned_leaf (hHead : codecBincDecodeHead b s .zero = .leaf s' d) (hOk : s'.err = none) :
    d.assigned = true ↔ ¬ Unnamed b s.pos := by
  rcases head_leaf hHead hOk with ⟨hUnnamed, hLeaf⟩ | ⟨hNamed, hAssigned, -⟩
  · have hKept := (hLeaf .zero).symm.trans hHead
    cases hKept
    exact iff_of_false Bool.false_ne_true (not_not_intro hUnnamed)
  · exact iff_of_true hAssigned hNamed

theorem element_leaf (hReach : InReach b s.pos)
    (hHead : codecBincDecodeHead b s .zero = .leaf s' d) (hOk : s'.err = none) :
    Element b s.pos s'.pos [s.pos] := by
  obtain ⟨hLt, hSpec⟩ := headSpec_of_ok hReach hHead hOk
  obtain ⟨hErr, hPos⟩ := hSpec.ok hOk
  have hPos : s'.pos = payloadEnd b s.pos := hPos
  have hNone := (hSpec.leaf s' d rfl hOk).1
  refine .mk _ _ [] hLt ((head_err_iff hLt hErr .zero).mp ?_) ?_ ?_
  · rw [hHead]
    exact hOk
  · rw [hNone]
    exact elemLimit_pos b s.pos
  · rw [hNone, hPos]
    exact .nil _

theorem element_branch {s₁ : CodecDecodeState} {n l q : Nat} {c : List Decoded → Decoded}
    {ps : List Nat} (hReach : InReach b s.pos)
    (hHead : codecBincDecodeHead b s .zero = .branch s₁ n l c) (hLimit : n < l)
    (h : Elements b n s₁.pos q ps) : Element b s.pos q (s.pos :: ps) := by
  obtain ⟨hLt, hSpec⟩ := headSpec_of_branch hReach hHead
  obtain ⟨hOk, hCount, -⟩ := hSpec.branch s₁ n l c rfl
  obtain ⟨hErr, hPos⟩ := hSpec.ok hOk
  have hPos : s₁.pos = payloadEnd b s.pos := hPos
  rw [hPos, hCount] at h
  refine .mk _ _ ps hLt ((head_err_iff hLt hErr .zero).mp ?_) ?_ h
  · rw [hHead]
    exact hOk
  · rwa [← hCount, ← head_limit hLt hHead]

/-- What a call that ends without an error has read. -/
def Reads (b : Input) (s s' : CodecDecodeState) (d : Decoded) : Prop :=
  InReach b s.pos → InReach b s'.pos ∧
    ∃ ps, Element b s.pos s'.pos ps ∧ (d.assigned = true ↔ ∀ p ∈ ps, ¬ Unnamed b p)

theorem Reads.links {ds : List Decoded} (h : Links (Reads b) s ds s') (hReach : InReach b s.pos) :
    InReach b s'.pos ∧ ∃ ps, Elements b ds.length s.pos s'.pos ps ∧
      (assignedList ds = true ↔ ∀ p ∈ ps, ¬ Unnamed b p) := by
  induction ds generalizing s with
  | nil =>
    have hSame : s = s' := h
    subst hSame
    exact ⟨hReach, [], .nil _, iff_of_true rfl (by simp)⟩
  | cons d ds ih =>
    obtain ⟨s₁, hHere, hRest⟩ := h
    obtain ⟨hReach₁, ps, hElement, hAssigned⟩ := hHere hReach
    obtain ⟨hReach', ps', hElements, hAll⟩ := ih hRest hReach₁
    refine ⟨hReach', ps ++ ps', .cons _ _ _ _ _ _ hElement hElements, ?_⟩
    rw [assignedList, Bool.and_eq_true, hAssigned, hAll, List.forall_mem_append]

theorem reads_builds (b : Input) : Builds (codecBincScheme b) (Reads b) where
  leave _ _ := rfl
  leaf := by
    intro s s' d hHead hOk hReach
    have hHead : codecBincDecodeHead b s .zero = .leaf s' d := hHead
    have hOk : s'.err = none := s'.failed_eq_false_iff.mp hOk
    have hReach' := codecBincDecodeHead_reach .zero hReach
    rw [hHead] at hReach'
    have hElement : Element b s.pos s'.pos [s.pos] := element_leaf hReach hHead hOk
    refine ⟨hReach', _, hElement, (assigned_leaf hHead hOk).trans ?_⟩
    rw [List.forall_mem_singleton]
  branch := by
    intro s s₁ n l c s₂ ds hHead hCount hLimit hLinks _ hReach
    have hHead : codecBincDecodeHead b s .zero = .branch s₁ n l c := hHead
    have hReach₁ := codecBincDecodeHead_reach .zero hReach
    rw [hHead] at hReach₁
    obtain ⟨hReach', ps, hElements, hAll⟩ := Reads.links hLinks hReach₁
    obtain ⟨hNamed, hClose, -⟩ := head_branch hHead
    have hLess : n < l := by
      obtain ⟨hLt, -⟩ := headSpec_of_branch hReach hHead
      exact hLimit (head_limit hLt hHead ▸ elemLimit_pos b s.pos)
    rw [hCount] at hElements
    refine ⟨hReach', _, element_branch hReach hHead hLess hElements, ?_⟩
    rw [hClose, hAll, List.forall_mem_cons]
    exact (and_iff_right hNamed).symm

mutual
/-- A whole element is read without an error. -/
theorem Element.returns : ∀ {p q : Nat} {ps : List Nat}, Element b p q ps →
    ∀ s : CodecDecodeState, s.pos = p → s.err = none →
      ∃ s' d, Returns (codecBincScheme b) s .zero s' d ∧ s'.pos = q ∧ s'.err = none ∧
        (d.assigned = true ↔ ∀ p ∈ ps, ¬ Unnamed b p)
  | _, q, _, .mk p _ ps hp hRead hLimit h, s, hPos, hErr => by
    have hKids := h.chain
    subst hPos
    have hReach : InReach b s.pos := by
      rw [InReach]
      omega
    have hOk := (head_err_iff hp hErr .zero).mpr hRead
    cases hHead : codecBincDecodeHead b s .zero with
    | leaf s₁ d =>
      rw [hHead] at hOk
      have hSpec := (headSpec_of_ok hReach hHead hOk).2
      have hStop : s₁.pos = payloadEnd b s.pos := (hSpec.ok hOk).2
      rw [(hSpec.leaf s₁ d rfl hOk).1] at h
      cases h
      refine ⟨_, d, returns_leaf hHead, hStop, hOk, ?_⟩
      rw [assigned_leaf hHead hOk, List.forall_mem_singleton]
    | branch s₁ n l c =>
      rw [hHead] at hOk
      have hSpec := (headSpec_of_branch hReach hHead).2
      have hStop : s₁.pos = payloadEnd b s.pos := (hSpec.ok hOk).2
      obtain ⟨-, hCount, -⟩ := hSpec.branch s₁ n l c rfl
      obtain ⟨s₂, ds, hChain, hLength, hEnd, hOk₂, hAll⟩ := hKids s₁ hStop hOk
      obtain ⟨hNamed, hClose, -⟩ := head_branch hHead
      have hLess : n < l := by rwa [hCount, head_limit hp hHead]
      refine ⟨_, _, returns_branch hHead hChain (hLength.trans hCount.symm) hLess, hEnd, hOk₂, ?_⟩
      rw [hClose, hAll, List.forall_mem_cons]
      exact (and_iff_right hNamed).symm

theorem Elements.chain : ∀ {n p q : Nat} {ps : List Nat}, Elements b n p q ps →
    ∀ s : CodecDecodeState, s.pos = p → s.err = none →
      ∃ s' ds, Chain (codecBincScheme b) s ds s' ∧ ds.length = n ∧ s'.pos = q ∧ s'.err = none ∧
        (assignedList ds = true ↔ ∀ p ∈ ps, ¬ Unnamed b p)
  | _, _, _, _, .nil p, s, hPos, hErr => ⟨s, [], rfl, rfl, hPos, hErr, iff_of_true rfl (by simp)⟩
  | _, _, _, _, .cons n p q r ps ps' h hs, s, hPos, hErr => by
    obtain ⟨s₁, d, hRet, hPos₁, hErr₁, hAssigned⟩ := h.returns s hPos hErr
    obtain ⟨s₂, ds, hChain, hLength, hPos₂, hErr₂, hAll⟩ := hs.chain s₁ hPos₁ hErr₁
    refine ⟨s₂, d :: ds, ⟨s₁, hRet, s₁.failed_eq_false_iff.mpr hErr₁, hChain⟩,
      congrArg Nat.succ hLength, hPos₂, hErr₂, ?_⟩
    rw [assignedList, Bool.and_eq_true, hAssigned, hAll, List.forall_mem_append]
end

end Elements

/-! ## Other destinations -/

section Run

variable {b : Input}

/-- A call whose descriptor is named stores the same in every destination. -/
theorem codecBincDecodeR_congr {fuel : Nat} {s s' : CodecDecodeState} {v d : Decoded}
    (hRun : codecBincDecodeR b fuel s v = .done s' d) (hOk : s'.err = none)
    (hNamed : ¬ Unnamed b s.pos) (w : Decoded) : codecBincDecodeR b fuel s w = .done s' d := by
  cases fuel with
  | zero => cases hRun
  | succ fuel =>
    simp only [codecBincDecodeR, node, codecBincScheme, decodeScheme] at hRun ⊢
    cases hHead : codecBincDecodeHead b s v with
    | leaf s₁ v₁ =>
      rw [hHead] at hRun
      cases hRun
      rcases head_leaf hHead hOk with ⟨hUnnamed, -⟩ | ⟨-, -, hSame⟩
      · exact absurd hUnnamed hNamed
      · rw [hSame w]
    | branch s₁ n l c =>
      rw [(head_branch hHead).2.2 w]
      rw [hHead] at hRun
      exact hRun

/-- A call whose descriptor is not named leaves every destination as it is. -/
theorem codecBincDecodeR_unnamed {fuel : Nat} {s s' : CodecDecodeState} {v d : Decoded}
    (hRun : codecBincDecodeR b fuel s v = .done s' d) (hOk : s'.err = none)
    (hUnnamed : Unnamed b s.pos) (w : Decoded) : codecBincDecodeR b fuel s w = .done s' w := by
  cases fuel with
  | zero => cases hRun
  | succ fuel =>
    simp only [codecBincDecodeR, node, codecBincScheme, decodeScheme] at hRun ⊢
    cases hHead : codecBincDecodeHead b s v with
    | leaf s₁ v₁ =>
      rw [hHead] at hRun
      cases hRun
      rcases head_leaf hHead hOk with ⟨-, hSame⟩ | ⟨hNamed, -⟩
      · rw [hSame w]
      · exact absurd hUnnamed hNamed
    | branch s₁ n l c => exact absurd hUnnamed (head_branch hHead).1

theorem Element.mem_start {q : Nat} {ps : List Nat} {p : Nat} (h : Element b p q ps) : p ∈ ps := by
  cases h
  exact List.mem_cons_self

/-- The decoder assigns the whole result, unless the input begins with a whole element in which
some descriptor is one that the switches do not name. -/
theorem codecBincDecode_assignsAll_iff (b : Input) (v : Decoded) :
    (∀ fuel, AssignsAll b fuel v) ↔ ¬ BeginsUnnamed b := by
  constructor
  · rintro h ⟨q, ps, hElement, p, hp, hUnnamed⟩
    obtain ⟨s, d, ⟨fuel, hRun⟩, -, hOk, hAssigned⟩ := hElement.returns .init rfl rfl
    have hNot : ¬ d.assigned = true := fun hAll => hAssigned.mp hAll p hp hUnnamed
    by_cases hStart : Unnamed b 0
    · -- the destination is left alone, but two destinations differ
      obtain ⟨hKept, hSame⟩ := h fuel s v (codecBincDecodeR_unnamed hRun hOk hStart v) hOk
      have hZero := (hSame .zero).symm.trans (codecBincDecodeR_unnamed hRun hOk hStart .zero)
      cases hZero
      cases hKept
    · exact hNot (h fuel s d (codecBincDecodeR_congr hRun hOk hStart v) hOk).1
  · intro h fuel s d hRun hOk
    have hReads (e : Decoded) (hZero : codecBincDecode b fuel .zero = .done s e) :
        ∃ ps, Element b 0 s.pos ps ∧ (e.assigned = true ↔ ∀ p ∈ ps, ¬ Unnamed b p) :=
      ((reads_builds b).returns ⟨fuel, hZero⟩ (s.failed_eq_false_iff.mpr hOk) (Nat.zero_le _)).2
    have hNamed : ¬ Unnamed b 0 := by
      intro hStart
      obtain ⟨ps, hElement, -⟩ := hReads .zero (codecBincDecodeR_unnamed hRun hOk hStart .zero)
      exact h ⟨_, ps, hElement, 0, hElement.mem_start, hStart⟩
    have hSame := codecBincDecodeR_congr hRun hOk hNamed
    obtain ⟨ps, hElement, hAssigned⟩ := hReads d (hSame .zero)
    exact ⟨hAssigned.mpr fun p hp hUnnamed => h ⟨_, ps, hElement, p, hp, hUnnamed⟩, hSame⟩

end Run

/-- The lone byte 09, an unassigned special: no error, and a zeroed destination keeps type 0. -/
theorem not_assignsAll_special : ¬ AssignsAll ⟨[0x09], fun _ => 0, by decide⟩ 1 .zero := by
  intro h
  obtain ⟨hAssigned, -⟩ := h _ _ rfl rfl
  cases hAssigned

end Binc

end CcCommon.Codec
