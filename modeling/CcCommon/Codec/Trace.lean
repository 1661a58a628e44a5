import CcCommon.Codec.DecodeState

/-! # What a decoder run did

Properties of traces, and the moves inside one call: they read only the
buffer, enter no call, and never clear an error. -/

namespace CcCommon.Codec

open Util

set_option autoImplicit false

/-- Every byte read lies in a buffer of length `n`. -/
def ReadsIn (n : Nat) (tr : List Event) : Prop := ∀ i, .read i ∈ tr → i < n

/-- No call was entered at a position of `P`. -/
def NoCallAt (P : Nat → Prop) (tr : List Event) : Prop := ∀ p f, .call p f ∈ tr → ¬ P p

/-- The events of one call between its entry and its first inner call. -/
def Quiet (ev : List Event) : Prop := ∀ e ∈ ev, (∃ i, e = .read i) ∨ ∃ msg, e = .fail msg

def Event.isCall : Event → Bool
  | .call _ _ => true
  | _ => false

def Event.isRet : Event → Bool
  | .ret _ _ _ => true
  | _ => false

/-- How many calls the run has entered. -/
def calls (tr : List Event) : Nat := tr.countP Event.isCall

variable {n p q : Nat} {f : Bool} {P : Nat → Prop} {e : Event} {ev tr : List Event}

@[simp] theorem readsIn_append : ReadsIn n (ev ++ tr) ↔ ReadsIn n ev ∧ ReadsIn n tr := by
  constructor
  · intro h
    exact ⟨fun i hi => h i (List.mem_append_left _ hi), fun i hi => h i (List.mem_append_right _ hi)⟩
  · rintro ⟨hEv, hTr⟩ i hi
    rcases List.mem_append.mp hi with hi | hi
    · exact hEv i hi
    · exact hTr i hi

@[simp] theorem readsIn_nil : ReadsIn n [] := by
  intro i hi
  cases hi

@[simp] theorem readsIn_call : ReadsIn n (.call p f :: tr) ↔ ReadsIn n tr := by simp [ReadsIn]

@[simp] theorem readsIn_ret : ReadsIn n (.ret p q f :: tr) ↔ ReadsIn n tr := by simp [ReadsIn]

@[simp] theorem readsIn_fail {msg : String} : ReadsIn n (.fail msg :: tr) ↔ ReadsIn n tr := by
  simp [ReadsIn]

@[simp] theorem readsIn_read : ReadsIn n (.read p :: tr) ↔ p < n ∧ ReadsIn n tr := by
  simp [ReadsIn]

@[simp] theorem noCallAt_nil : NoCallAt P [] := by
  intro i f hi
  cases hi

@[simp] theorem noCallAt_call : NoCallAt P (.call p f :: tr) ↔ ¬ P p ∧ NoCallAt P tr := by
  constructor
  · intro h
    exact ⟨h p f List.mem_cons_self, fun q g hq => h q g (List.mem_cons_of_mem _ hq)⟩
  · rintro ⟨hHead, hTail⟩ q g hq
    rcases List.mem_cons.mp hq with hq | hq
    · cases hq
      exact hHead
    · exact hTail q g hq

@[simp] theorem noCallAt_ret : NoCallAt P (.ret p q f :: tr) ↔ NoCallAt P tr := by simp [NoCallAt]

theorem noCallAt_append : NoCallAt P (ev ++ tr) ↔ NoCallAt P ev ∧ NoCallAt P tr := by
  constructor
  · intro h
    exact ⟨fun q g hq => h q g (List.mem_append_left _ hq),
      fun q g hq => h q g (List.mem_append_right _ hq)⟩
  · rintro ⟨hEv, hTr⟩ q g hq
    rcases List.mem_append.mp hq with hq | hq
    · exact hEv q g hq
    · exact hTr q g hq

namespace Quiet

theorem nil : Quiet [] := by
  intro e he
  cases he

theorem append {ev' : List Event} (h : Quiet ev) (h' : Quiet ev') : Quiet (ev ++ ev') := by
  intro e he
  rcases List.mem_append.mp he with he | he
  · exact h e he
  · exact h' e he

theorem no_call (h : Quiet ev) : .call p f ∉ ev := by
  intro hMem
  rcases h _ hMem with ⟨i, hEq⟩ | ⟨msg, hEq⟩ <;> cases hEq

theorem no_ret (h : Quiet ev) : .ret p q f ∉ ev := by
  intro hMem
  rcases h _ hMem with ⟨i, hEq⟩ | ⟨msg, hEq⟩ <;> cases hEq

theorem noCallAt (h : Quiet ev) : NoCallAt P (ev ++ tr) ↔ NoCallAt P tr := by
  rw [noCallAt_append]
  exact and_iff_right fun p f hMem => absurd hMem h.no_call

theorem calls (h : Quiet ev) : calls (ev ++ tr) = Codec.calls tr := by
  rw [Codec.calls, List.countP_append, List.countP_eq_zero.mpr, Nat.zero_add]
  · rfl
  · intro e he
    rcases h e he with ⟨i, rfl⟩ | ⟨msg, rfl⟩ <;> simp [Event.isCall]

theorem mem_ret (h : Quiet ev) : .ret p q f ∈ ev ++ tr ↔ .ret p q f ∈ tr := by
  rw [List.mem_append]
  exact or_iff_right h.no_ret

end Quiet

@[simp] theorem calls_call : calls (.call p f :: tr) = calls tr + 1 := by
  rw [calls, List.countP_cons_of_pos rfl]
  rfl

@[simp] theorem calls_ret : calls (.ret p q f :: tr) = calls tr := by
  rw [calls, List.countP_cons_of_neg (by simp [Event.isCall])]
  rfl

/-! ## Moves inside one call -/

/-- From `s` to `s'` only bytes of the buffer are read and nothing is called. -/
structure Walk (b : Input) (s s' : CodecDecodeState) : Prop where
  trace : ∃ ev, s'.trace = ev ++ s.trace ∧ Quiet ev ∧ ReadsIn b.len ev
  err : s'.err = none → s.err = none
  pos : s.pos ≤ s'.pos
  inside : s'.pos ≤ b.len

namespace Walk

variable {b : Input} {s s' s'' : CodecDecodeState}

theorem refl (h : s.pos ≤ b.len) : Walk b s s :=
  ⟨⟨[], rfl, Quiet.nil, readsIn_nil⟩, id, Nat.le_refl _, h⟩

theorem trans (h : Walk b s s') (h' : Walk b s' s'') : Walk b s s'' := by
  obtain ⟨ev, hTrace, hQuiet, hReads⟩ := h.trace
  obtain ⟨ev', hTrace', hQuiet', hReads'⟩ := h'.trace
  refine ⟨⟨ev' ++ ev, ?_, hQuiet'.append hQuiet, readsIn_append.mpr ⟨hReads', hReads⟩⟩,
    fun hErr => h.err (h'.err hErr), Nat.le_trans h.pos h'.pos, h'.inside⟩
  rw [hTrace', hTrace, List.append_assoc]

theorem fail (h : Walk b s s') (msg : String) : Walk b s (s'.fail msg) := by
  refine h.trans ⟨⟨[.fail msg], rfl, ?_, ?_⟩, ?_, Nat.le_refl _, h.inside⟩
  · intro e he
    exact Or.inr ⟨msg, List.mem_singleton.mp he⟩
  · exact readsIn_fail.mpr readsIn_nil
  · intro hErr
    cases hErr

theorem advance (h : Walk b s s') {k : Nat} (hk : s'.pos + k ≤ b.len) :
    Walk b s (s'.advance k) := by
  have hPos : (s'.advance k).pos = s'.pos + k :=
    s'.advance_pos_of_lt (by have := b.len_lt; omega)
  exact h.trans ⟨⟨[], rfl, Quiet.nil, readsIn_nil⟩, id, by omega, by omega⟩

theorem touch (h : Walk b s s') {k : Nat} (hk : s'.pos + k ≤ b.len) : Walk b s (s'.touch k) := by
  refine h.trans ⟨⟨_, rfl, ?_, ?_⟩, id, Nat.le_refl _, h.inside⟩
  · intro e he
    obtain ⟨j, _, rfl⟩ := List.mem_map.mp (List.mem_reverse.mp he)
    exact Or.inl ⟨_, rfl⟩
  · intro i hi
    obtain ⟨j, hj, hEq⟩ := List.mem_map.mp (List.mem_reverse.mp hi)
    cases hEq
    have := List.mem_range.mp hj
    omega

theorem next (h : Walk b s s') (hk : s'.pos < b.len) : Walk b s s'.next :=
  (h.touch hk).advance hk

end Walk

/-- From `s` to `s'` the next `k` bytes are read, in the buffer or not. -/
structure Scan (s s' : CodecDecodeState) (k : Nat) : Prop where
  trace : ∃ ev, s'.trace = ev ++ s.trace ∧ Quiet ev ∧
    ∀ i, .read i ∈ ev ↔ s.pos ≤ i ∧ i < s.pos + k
  pos : s'.pos = s.pos + k
  err : s'.err = none → s.err = none

namespace Scan

variable {s s' s'' : CodecDecodeState} {j k : Nat}

theorem refl (s : CodecDecodeState) : Scan s s 0 := by
  refine ⟨⟨[], rfl, Quiet.nil, fun i => ?_⟩, rfl, id⟩
  constructor
  · intro hi
    cases hi
  · intro hi
    omega

theorem trans (h : Scan s s' j) (h' : Scan s' s'' k) : Scan s s'' (j + k) := by
  obtain ⟨ev, hTrace, hQuiet, hReads⟩ := h.trace
  obtain ⟨ev', hTrace', hQuiet', hReads'⟩ := h'.trace
  have hPos := h.pos
  refine ⟨⟨ev' ++ ev, ?_, hQuiet'.append hQuiet, fun i => ?_⟩, ?_, fun hErr => h.err (h'.err hErr)⟩
  · rw [hTrace', hTrace, List.append_assoc]
  · rw [List.mem_append, hReads, hReads']
    omega
  · rw [h'.pos, hPos, Nat.add_assoc]

theorem fail (h : Scan s s' k) (msg : String) : Scan s (s'.fail msg) k := by
  obtain ⟨ev, hTrace, hQuiet, hReads⟩ := h.trace
  refine ⟨⟨.fail msg :: ev, by rw [CodecDecodeState.fail_trace, hTrace]; rfl, ?_, fun i => ?_⟩,
    h.pos, ?_⟩
  · intro e he
    rcases List.mem_cons.mp he with rfl | he
    · exact Or.inr ⟨msg, rfl⟩
    · exact hQuiet e he
  · rw [← hReads, List.mem_cons]
    exact or_iff_right (by simp)
  · intro hErr
    cases hErr

theorem touch_advance (h : s.pos + k < 2 ^ 64) : Scan s ((s.touch k).advance k) k := by
  refine ⟨⟨_, rfl, ?_, fun i => ?_⟩, CodecDecodeState.advance_pos_of_lt _ h, id⟩
  · intro e he
    obtain ⟨j, _, rfl⟩ := List.mem_map.mp (List.mem_reverse.mp he)
    exact Or.inl ⟨_, rfl⟩
  · rw [List.mem_reverse, List.mem_map]
    constructor
    · rintro ⟨j, hj, hEq⟩
      cases hEq
      have := List.mem_range.mp hj
      omega
    · rintro ⟨hLow, hHigh⟩
      exact ⟨i - s.pos, List.mem_range.mpr (by omega), by rw [Nat.add_sub_cancel' hLow]⟩

theorem next (h : s.pos + 1 < 2 ^ 64) : Scan s s.next 1 := touch_advance h

end Scan

/-! ## The slices and the size of a decoded tree -/

def CodecValueDiscrim.slices : CodecValueDiscrim → List SliceRef
  | .vBytes r => [r]
  | .vExt _ r => [r]
  | _ => []

namespace Decoded

mutual
/-- The payloads of a tree. -/
def slices : Decoded → List SliceRef
  | mk _ v es => v.slices ++ slicesList es

def slicesList : List Decoded → List SliceRef
  | [] => []
  | d :: ds => slices d ++ slicesList ds
end

mutual
/-- How many values a tree holds. -/
def nodes : Decoded → Nat
  | mk _ _ es => 1 + nodesList es

def nodesList : List Decoded → Nat
  | [] => 0
  | d :: ds => nodes d + nodesList ds
end

theorem nodes_eq (d : Decoded) : d.nodes = 1 + nodesList d.elems := by
  cases d
  rfl

theorem nodesList_append (ds es : List Decoded) :
    nodesList (ds ++ es) = nodesList ds + nodesList es := by
  induction ds with
  | nil => exact (Nat.zero_add _).symm
  | cons d ds ih => rw [List.cons_append, nodesList, nodesList, ih, Nat.add_assoc]

theorem slicesList_append (ds es : List Decoded) :
    slicesList (ds ++ es) = slicesList ds ++ slicesList es := by
  induction ds with
  | nil => rfl
  | cons d ds ih => rw [List.cons_append, slicesList, slicesList, ih, List.append_assoc]

end Decoded

def SliceRef.In (n : Nat) (r : SliceRef) : Prop := ∃ off, r.off = some off ∧ off + r.len ≤ n

/-- Every payload of the tree lies in a buffer of length `n`. -/
def Decoded.SlicesIn (n : Nat) (d : Decoded) : Prop := ∀ r ∈ d.slices, r.In n

end CcCommon.Codec
