import CcCommon.Lib.Machine
import CcCommon.Util.Slice

/-! # Runs of slice operations

Whatever the order of the operations and wherever the allocation grows, a
slice holds the concatenation of what they append. -/

namespace CcCommon.Util

open Lib

set_option autoImplicit false

inductive SliceOp where
  | append (b : List UInt8)
  | append1 (bd : UInt8)
  | expand (len : Nat)
  /-- Expand by `k`, store `k` bytes at `len`, add `k` to `len`. -/
  | put (b : List UInt8)

namespace SliceOp

/-- What the operation appends. -/
def bytes : SliceOp → List UInt8
  | append b => b
  | append1 bd => [bd]
  | expand _ => []
  | put b => b

/-- The `n` that the operation is called with. -/
def size : SliceOp → Nat
  | append b => b.length
  | append1 _ => 1
  | expand len => len
  | put b => b.length

/-- An append stores a zero behind its bytes and asks for one byte more. -/
def terminates : SliceOp → Bool
  | append _ | append1 _ => true
  | expand _ | put _ => false

def room (op : SliceOp) : Nat := if op.terminates then op.size + 1 else op.size

def perform (fresh : Nat → Nat → UInt8) : SliceOp → SliceBytes → SliceBytes
  | append b, v => sliceBytesAppend fresh v b
  | append1 bd, v => sliceBytesAppend1 fresh v bd
  | expand len, v => sliceBytesExpand fresh v len
  | put b, v => sliceBytesPut fresh v b

/-- The sizes stay below `2 ^ 64`, rounded up to a cache line. -/
def InRange (op : SliceOp) (v : SliceBytes) : Prop :=
  v.len + op.size + 64 < 2 ^ 64 ∧ v.cap + v.cap / 4 + 64 < 2 ^ 64

instance (op : SliceOp) (v : SliceBytes) : Decidable (op.InRange v) :=
  inferInstanceAs (Decidable (_ ∧ _))

end SliceOp

/-- Operations in range, in any order. -/
def sliceMachine (fresh : Nat → Nat → UInt8) : Machine SliceBytes SliceOp where
  init v := v = sliceBytesZero
  step v op := if op.InRange v then some (op.perform fresh v) else none

/-- The byte at `len` is there and is 0. -/
def SliceBytes.Terminated (v : SliceBytes) : Prop := v.len < v.cap ∧ v.mem[v.len]? = some 0

/-- A slice of whole cache lines, never written outside, that holds `bs`. -/
structure Faithful (bs : List UInt8) (v : SliceBytes) : Prop where
  len_le : v.len ≤ v.cap
  lines : 64 ∣ v.cap
  oob : v.oob = false
  contents : v.contents = bs

theorem sliceBytesZero_faithful : Faithful [] sliceBytesZero :=
  ⟨Nat.le_refl _, Nat.dvd_zero 64, rfl, rfl⟩

theorem Faithful.len {bs : List UInt8} {v : SliceBytes} (h : Faithful bs v) :
    v.len = bs.length := by
  rw [← h.contents, SliceBytes.contents, List.length_take]
  exact (Nat.min_eq_left h.len_le).symm

namespace SliceOp

variable (fresh : Nat → Nat → UInt8) {op : SliceOp} {v : SliceBytes}

theorem InRange.fits (h : op.InRange v) : v.Fits op.room := by
  obtain ⟨hLen, hCap⟩ := h
  constructor
  · rw [room]
    split <;> omega
  · intro _
    omega

theorem bytes_length_le (op : SliceOp) : op.bytes.length ≤ op.size := by
  cases op <;> simp [bytes, size]

/-- What lies behind the bytes that the operation appends. -/
def ending (op : SliceOp) (mem : List UInt8) (n : Nat) : List UInt8 :=
  if op.terminates then 0 :: mem.drop (n + 1) else mem.drop n

theorem perform_eq (hLen : v.len ≤ v.cap) (h : v.Fits op.room) :
    ∃ k, Growth v op.room k ∧ op.perform fresh v =
      ⟨v.contents ++ op.bytes ++ op.ending (grown fresh v k) (v.len + op.bytes.length),
        v.len + op.bytes.length, v.oob⟩ := by
  cases op with
  | append b => exact sliceBytesAppend_eq fresh hLen h
  | append1 bd =>
    have hOne : v.Fits ([bd].length + 1) := h
    exact sliceBytesAppend_eq fresh hLen hOne
  | put b => exact sliceBytesPut_eq fresh hLen h
  | expand len =>
    obtain ⟨k, hGrowth, hExpand⟩ := sliceBytesExpand_eq fresh h
    refine ⟨k, hGrowth, hExpand.trans ?_⟩
    have hWhole : v.contents ++ (grown fresh v k).drop v.len = grown fresh v k := by
      rw [← grown_take fresh v k hLen, List.take_append_drop]
    simp [bytes, ending, terminates, hWhole]

theorem ending_length (op : SliceOp) {mem : List UInt8} {len : Nat}
    (h : len + op.room ≤ mem.length) :
    len + op.bytes.length + (op.ending mem (len + op.bytes.length)).length = mem.length := by
  have hSize := op.bytes_length_le
  unfold room at h
  unfold ending
  split at h
  · rename_i hTerm
    rw [if_pos hTerm, List.length_cons, List.length_drop]
    omega
  · rename_i hTerm
    rw [if_neg hTerm, List.length_drop]
    omega

theorem perform_cap {k : Nat} (hLen : v.len ≤ v.cap) (hGrowth : Growth v op.room k)
    (hEq : op.perform fresh v =
      ⟨v.contents ++ op.bytes ++ op.ending (grown fresh v k) (v.len + op.bytes.length),
        v.len + op.bytes.length, v.oob⟩) : (op.perform fresh v).cap = v.cap + k := by
  have hRoom : v.len + op.room ≤ (grown fresh v k).length := by
    rw [grown_length]
    exact hGrowth.room
  have hEnd := op.ending_length hRoom
  rw [grown_length] at hEnd
  have hLength : v.contents.length = v.len := by
    rw [SliceBytes.contents, List.length_take]
    exact Nat.min_eq_left hLen
  rw [hEq, SliceBytes.cap, List.length_append, List.length_append, hLength]
  exact hEnd

/-- An operation appends its bytes, and the allocation grows by whole lines if at all. -/
theorem perform_faithful {bs : List UInt8} (hv : Faithful bs v) (h : v.Fits op.room) :
    Faithful (bs ++ op.bytes) (op.perform fresh v) := by
  obtain ⟨k, hGrowth, hEq⟩ := perform_eq fresh hv.len_le h
  have hCap := perform_cap fresh hv.len_le hGrowth hEq
  have hBody : (v.contents ++ op.bytes).length = v.len + op.bytes.length := by
    rw [List.length_append, hv.contents, hv.len]
  constructor
  · rw [hEq, SliceBytes.cap, List.length_append, hBody]
    exact Nat.le_add_right _ _
  · rw [hCap]
    exact hGrowth.lines hv.lines
  · rw [hEq]
    exact hv.oob
  · rw [hEq, SliceBytes.contents, List.take_left' hBody, hv.contents]

theorem le_perform_cap (hLen : v.len ≤ v.cap) (h : v.Fits op.room) :
    v.cap ≤ (op.perform fresh v).cap := by
  obtain ⟨k, hGrowth, hEq⟩ := perform_eq fresh hLen h
  rw [perform_cap fresh hLen hGrowth hEq]
  exact Nat.le_add_right _ _

theorem perform_terminated {bs : List UInt8} (hv : Faithful bs v) (h : v.Fits op.room)
    (hTerm : op.terminates = true) : (op.perform fresh v).Terminated := by
  obtain ⟨k, -, hEq⟩ := perform_eq fresh hv.len_le h
  have hBody : (v.contents ++ op.bytes).length = v.len + op.bytes.length := by
    rw [List.length_append, hv.contents, hv.len]
  rw [hEq]
  constructor
  · rw [SliceBytes.cap, List.length_append, hBody, ending, if_pos hTerm, List.length_cons]
    exact Nat.lt_add_of_pos_right (Nat.succ_pos _)
  · rw [List.getElem?_append_right (Nat.le_of_eq hBody), hBody, Nat.sub_self, ending, if_pos hTerm]
    rfl

end SliceOp

/-! ## Every run -/

section Runs

variable {fresh : Nat → Nat → UInt8} {v w : SliceBytes} {op : SliceOp} {ops : List SliceOp}

theorem sliceMachine_step (h : (sliceMachine fresh).step v op = some w) :
    op.InRange v ∧ w = op.perform fresh v := by
  simp only [sliceMachine] at h
  split at h
  · rename_i hRange
    exact ⟨hRange, (Option.some.inj h).symm⟩
  · cases h

theorem sliceMachine_run {bs : List UInt8} (hv : Faithful bs v)
    (hRun : (sliceMachine fresh).run v ops = some w) :
    Faithful (bs ++ ops.flatMap SliceOp.bytes) w ∧ v.cap ≤ w.cap ∧
      ∀ op, ops.getLast? = some op → op.terminates = true → w.Terminated := by
  induction ops using List.reverseRecOn generalizing w with
  | nil =>
    cases hRun
    refine ⟨?_, Nat.le_refl _, ?_⟩
    · rw [List.flatMap_nil, List.append_nil]
      exact hv
    · intro op hLast
      cases hLast
  | append_singleton ops op ih =>
    obtain ⟨u, hu, hStep⟩ := Machine.run_concat_some hRun
    obtain ⟨hFaithful, hGrown, -⟩ := ih hu
    obtain ⟨hRange, rfl⟩ := sliceMachine_step hStep
    have hFits := hRange.fits
    refine ⟨?_, ?_, ?_⟩
    · rw [List.flatMap_append, List.flatMap_singleton, ← List.append_assoc]
      exact op.perform_faithful fresh hFaithful hFits
    · exact Nat.le_trans hGrown (op.le_perform_cap fresh hFaithful.len_le hFits)
    · intro op' hLast hTerm
      rw [List.getLast?_concat, Option.some.injEq] at hLast
      subst hLast
      exact op.perform_terminated fresh hFaithful hFits hTerm

/-- A slice is a faithful growable buffer in every run from the empty slice. -/
theorem sliceBytes_faithful (fresh : Nat → Nat → UInt8) (ops : List SliceOp) (v : SliceBytes)
    (hRun : (sliceMachine fresh).run sliceBytesZero ops = some v) :
    v.len ≤ v.cap ∧ 64 ∣ v.cap ∧ v.oob = false ∧ v.contents = ops.flatMap SliceOp.bytes ∧
      (∀ done u, done <+: ops → (sliceMachine fresh).run sliceBytesZero done = some u →
        u.cap ≤ v.cap) ∧
      (∀ op, ops.getLast? = some op → op.terminates = true → v.Terminated) := by
  obtain ⟨hFaithful, -, hLast⟩ := sliceMachine_run sliceBytesZero_faithful hRun
  refine ⟨hFaithful.len_le, hFaithful.lines, hFaithful.oob, hFaithful.contents, ?_, hLast⟩
  rintro done u ⟨rest, rfl⟩ hDone
  rw [Machine.run_trans hDone] at hRun
  exact (sliceMachine_run (sliceMachine_run sliceBytesZero_faithful hDone).1 hRun).2.1

theorem sliceBytes_faithful_mixed :
    ∃ v, (sliceMachine fun _ _ => 7).run sliceBytesZero
        [.append [1, 2], .put [3, 4], .expand 5, .append1 6] = some v ∧
      v.contents = [1, 2, 3, 4, 6] ∧ v.Terminated := by
  have h := sliceBytes_faithful (fun _ _ => 7) [.append [1, 2], .put [3, 4], .expand 5, .append1 6]
    _ rfl
  exact ⟨_, rfl, h.2.2.2.1, h.2.2.2.2.2 _ rfl rfl⟩

end Runs

/-! ## Lists of operations -/

section Lists

variable {v : SliceBytes} {bs : List UInt8} {ops ops' : List SliceOp}

def performAll (fresh : Nat → Nat → UInt8) (ops : List SliceOp) (v : SliceBytes) : SliceBytes :=
  ops.foldl (fun v op => op.perform fresh v) v

theorem performAll_cons (fresh : Nat → Nat → UInt8) (op : SliceOp) (ops : List SliceOp)
    (v : SliceBytes) : performAll fresh (op :: ops) v = performAll fresh ops (op.perform fresh v) :=
  rfl

theorem performAll_append (fresh : Nat → Nat → UInt8) (ops ops' : List SliceOp) (v : SliceBytes) :
    performAll fresh (ops ++ ops') v = performAll fresh ops' (performAll fresh ops v) :=
  List.foldl_append

/-- No operation asks for more than it appends, and each put stores something. -/
def Writes (ops : List SliceOp) : Prop :=
  ∀ op ∈ ops, op.size = op.bytes.length ∧ (op.terminates = false → op.bytes ≠ [])

theorem Writes.append (h : Writes ops) (h' : Writes ops') : Writes (ops ++ ops') := by
  intro op hOp
  rcases List.mem_append.mp hOp with hOp | hOp
  · exact h op hOp
  · exact h' op hOp

/-- The last operation is there, and `terminates` is what it does. -/
def EndsWith (ops : List SliceOp) (terminates : Bool) : Prop :=
  ops.getLast?.map SliceOp.terminates = some terminates

theorem EndsWith.prepend {t : Bool} (h : EndsWith ops' t) (ops : List SliceOp) :
    EndsWith (ops ++ ops') t := by
  unfold EndsWith at h ⊢
  rw [List.getLast?_append]
  cases hLast : ops'.getLast? with
  | none =>
    rw [hLast] at h
    cases h
  | some op =>
    rw [hLast] at h
    exact h

/-- What each operation preserves on a slice with room for it, a list of operations preserves. -/
theorem performAll_induct (fresh : Nat → Nat → UInt8) {P : SliceBytes → Prop}
    (hStep : ∀ (op : SliceOp) bs v, Faithful bs v → v.Fits op.room → P v → P (op.perform fresh v))
    (hv : Faithful bs v) (hP : P v) (hWrites : Writes ops)
    (hSize : (bs ++ ops.flatMap SliceOp.bytes).length < 2 ^ 63) :
    Faithful (bs ++ ops.flatMap SliceOp.bytes) (performAll fresh ops v) ∧
      P (performAll fresh ops v) := by
  induction ops generalizing bs v with
  | nil =>
    rw [List.flatMap_nil, List.append_nil]
    exact ⟨hv, hP⟩
  | cons op ops ih =>
    rw [List.flatMap_cons, ← List.append_assoc] at hSize ⊢
    have hOp := hWrites op List.mem_cons_self
    have hFits : v.Fits op.room := by
      apply SliceBytes.fits_of_le
      rw [List.length_append, List.length_append] at hSize
      rw [hv.len, SliceOp.room, hOp.1]
      split <;> omega
    exact ih (op.perform_faithful fresh hv hFits) (hStep op bs v hv hFits hP)
      (fun o ho => hWrites o (List.mem_cons_of_mem _ ho)) hSize

end Lists

/-! ## A put does not terminate

Over fresh bytes that are all 1 no byte behind the terminator is 0. -/

section Put

variable {v : SliceBytes} {bs : List UInt8} {op : SliceOp} {ops : List SliceOp}

def ones (_ _ : Nat) : UInt8 := 1

/-- Behind the byte at `len` there are only ones. -/
def OnesBehind (v : SliceBytes) : Prop := ∀ x ∈ v.mem.drop (v.len + 1), x = 1

theorem ones_of_mem_grown {k n : Nat} (h : OnesBehind v) (hn : v.len < n) :
    ∀ x ∈ (grown ones v k).drop n, x = 1 := by
  intro x hx
  rw [grown, List.drop_append] at hx
  rcases List.mem_append.mp hx with hx | hx
  · apply h x
    have hSplit : n = v.len + 1 + (n - (v.len + 1)) := by omega
    rw [hSplit, ← List.drop_drop] at hx
    exact List.mem_of_mem_drop hx
  · obtain ⟨i, -, rfl⟩ := List.mem_map.mp (List.mem_of_mem_drop hx)
    rfl

theorem onesBehind_perform (hv : Faithful bs v) (hFits : v.Fits op.room) (h : OnesBehind v) :
    OnesBehind (op.perform ones v) := by
  obtain ⟨k, -, hEq⟩ := op.perform_eq ones hv.len_le hFits
  have hBody : (v.contents ++ op.bytes).length = v.len + op.bytes.length := by
    rw [List.length_append, hv.contents, hv.len]
  have hBehind : (op.perform ones v).mem.drop ((op.perform ones v).len + 1) =
      (grown ones v k).drop (v.len + op.bytes.length + 1) := by
    rw [hEq]
    dsimp only
    rw [← List.drop_drop, List.drop_left' hBody, SliceOp.ending]
    split
    · rfl
    · rw [List.drop_drop]
  rw [OnesBehind, hBehind]
  exact ones_of_mem_grown h (by omega)

theorem not_terminated_perform (hv : Faithful bs v) (hFits : v.Fits op.room) (h : OnesBehind v)
    (hTerm : op.terminates = false) (hBytes : op.bytes ≠ []) :
    ¬ (op.perform ones v).Terminated := by
  rintro ⟨-, hZero⟩
  obtain ⟨k, -, hEq⟩ := op.perform_eq ones hv.len_le hFits
  have hBody : (v.contents ++ op.bytes).length = v.len + op.bytes.length := by
    rw [List.length_append, hv.contents, hv.len]
  have hNot : ¬ op.terminates = true := by
    rw [hTerm]
    decide
  rw [hEq] at hZero
  dsimp only at hZero
  rw [List.getElem?_append_right (Nat.le_of_eq hBody), hBody, Nat.sub_self, SliceOp.ending,
    if_neg hNot] at hZero
  have hPos := List.length_pos_of_ne_nil hBytes
  have hOne := ones_of_mem_grown h (by omega) 0 (List.mem_of_getElem? hZero)
  cases hOne

end Put

/-- After operations from the empty slice that end with an append the slice is terminated,
whatever fresh bytes hold; after others it need not be. -/
theorem performAll_terminated_iff {ops : List SliceOp} {t : Bool} (hWrites : Writes ops)
    (hSize : (ops.flatMap SliceOp.bytes).length < 2 ^ 63) (hEnds : EndsWith ops t) :
    (∀ fresh, (performAll fresh ops sliceBytesZero).Terminated) ↔ t = true := by
  obtain ⟨before, op, rfl, hOp⟩ : ∃ before op, ops = before ++ [op] ∧ op.terminates = t := by
    cases ops using List.reverseRecOn with
    | nil => cases hEnds
    | append_singleton before op =>
      rw [EndsWith, List.getLast?_concat] at hEnds
      exact ⟨before, op, rfl, Option.some.inj hEnds⟩
  have hBefore : Writes before := fun o ho => hWrites o (List.mem_append_left _ ho)
  obtain ⟨hLast, hStored⟩ := hWrites op (by simp)
  rw [List.flatMap_append, List.flatMap_singleton, List.length_append] at hSize
  have hFits (v : SliceBytes) (hv : Faithful ([] ++ before.flatMap SliceOp.bytes) v) :
      v.Fits op.room := by
    apply SliceBytes.fits_of_le
    rw [hv.len, List.nil_append, SliceOp.room, hLast]
    split <;> omega
  constructor
  · intro h
    cases t with
    | true => rfl
    | false =>
      obtain ⟨hFaithful, hOnes⟩ := performAll_induct ones (P := OnesBehind)
        (fun op bs v => onesBehind_perform) sliceBytesZero_faithful (by intro x hx; cases hx)
        hBefore (by rw [List.nil_append]; omega)
      have hNot := not_terminated_perform hFaithful (hFits _ hFaithful) hOnes hOp (hStored hOp)
      have hTerm := h ones
      rw [performAll_append] at hTerm
      exact absurd hTerm hNot
  · rintro rfl fresh
    obtain ⟨hFaithful, -⟩ := performAll_induct fresh (P := fun _ => True)
      (fun _ _ _ _ _ _ => trivial) sliceBytesZero_faithful trivial hBefore
      (by rw [List.nil_append]; omega)
    rw [performAll_append]
    exact op.perform_terminated fresh hFaithful (hFits _ hFaithful) hOp

end CcCommon.Util
