import CcCommon.Codec.Value
import CcCommon.Lib.Descent
import CcCommon.Util.Slice

/-! # codec/codec.c: codec_decode_state

The decoders read through `b.bytes.v[i]` at whatever index they compute, so
the input carries the memory behind the buffer too. No C object is larger
than `PTRDIFF_MAX`, which bounds the buffer.

The trace is not part of the program. It records, newest first, each call of
the recursive decoder, each byte read, each error set and each return.
-/

namespace CcCommon.Codec

open Util

set_option autoImplicit false

structure Input where
  bytes : List UInt8
  beyond : Nat → UInt8
  fits : bytes.length < 2 ^ 63

namespace Input

def len (b : Input) : Nat := b.bytes.length

/-- `b.bytes.v[i]` -/
def get (b : Input) (i : Nat) : UInt8 := b.bytes[i]?.getD (b.beyond i)

/-- The `k` bytes at `&b.bytes.v[i]`. -/
def slice (b : Input) (i k : Nat) : List UInt8 := (List.range k).map fun j => b.get (i + j)

@[simp] theorem slice_length (b : Input) (i k : Nat) : (b.slice i k).length = k := by simp [slice]

theorem slice_add (b : Input) (p j k : Nat) :
    b.slice p (j + k) = b.slice p j ++ b.slice (p + j) k := by
  simp only [slice, List.range_add, List.map_append, List.map_map]
  congr 1
  apply List.map_congr_left
  intro i _
  simp only [Function.comp_apply, Nat.add_assoc]

theorem slice_succ (b : Input) (p k : Nat) :
    b.slice p (k + 1) = b.get p :: b.slice (p + 1) k := by
  rw [Nat.add_comm, slice_add]
  rfl

theorem len_lt (b : Input) : b.len < 2 ^ 63 := b.fits

/-- `bs` lies in the buffer from index `p` on. -/
def At (b : Input) (p : Nat) (bs : List UInt8) : Prop :=
  ∃ pre post, b.bytes = pre ++ (bs ++ post) ∧ pre.length = p

theorem At.start {b : Input} {bs r : List UInt8} (h : b.bytes = bs ++ r) : b.At 0 bs :=
  ⟨[], r, h, rfl⟩

theorem exists_at (bs : List UInt8) (h : bs.length < 2 ^ 63) : ∃ b : Input, b.At 0 bs :=
  ⟨⟨bs, fun _ => 0, h⟩, .start (List.append_nil bs).symm⟩

theorem At.le {b : Input} {p : Nat} {bs : List UInt8} (h : b.At p bs) : p + bs.length ≤ b.len := by
  obtain ⟨pre, post, hBytes, rfl⟩ := h
  simp only [len, hBytes, List.length_append]
  omega

theorem At.append {b : Input} {p : Nat} {bs cs : List UInt8} (h : b.At p (bs ++ cs)) :
    b.At p bs ∧ b.At (p + bs.length) cs := by
  obtain ⟨pre, post, hBytes, rfl⟩ := h
  refine ⟨⟨pre, cs ++ post, by simp [hBytes], rfl⟩, ⟨pre ++ bs, post, by simp [hBytes], by simp⟩⟩

theorem At.cons {b : Input} {p : Nat} {c : UInt8} {cs : List UInt8} (h : b.At p (c :: cs)) :
    b.get p = c ∧ p < b.len ∧ b.At (p + 1) cs := by
  have hLt := h.le
  simp only [List.length_cons] at hLt
  obtain ⟨pre, post, hBytes, rfl⟩ := h
  refine ⟨?_, by omega, ⟨pre ++ [c], post, by simp [hBytes], by simp⟩⟩
  simp [get, hBytes]

theorem At.slice {b : Input} {p : Nat} {bs : List UInt8} (h : b.At p bs) :
    b.slice p bs.length = bs := by
  induction bs generalizing p with
  | nil => rfl
  | cons c cs ih =>
    obtain ⟨hGet, _, hRest⟩ := h.cons
    rw [List.length_cons, slice_succ, hGet, ih hRest]

theorem At.of_slice {b : Input} {p k : Nat} (h : p + k ≤ b.len) : b.At p (b.slice p k) := by
  rw [len] at h
  refine ⟨b.bytes.take p, b.bytes.drop (p + k), ?_, by rw [List.length_take]; omega⟩
  have hSlice : b.slice p k = (b.bytes.drop p).take k := by
    apply List.ext_getElem
    · rw [slice_length, List.length_take, List.length_drop]
      omega
    · intro i hi _
      rw [slice_length] at hi
      have hLt : p + i < b.bytes.length := by omega
      simp [Input.slice, get, List.getElem?_eq_getElem hLt]
  rw [hSlice, ← List.drop_drop, List.take_append_drop, List.take_append_drop]

theorem At.join {b : Input} {p : Nat} {bs cs : List UInt8} (h : b.At p bs)
    (h' : b.At (p + bs.length) cs) : b.At p (bs ++ cs) := by
  obtain ⟨pre, post, hBytes, rfl⟩ := h
  obtain ⟨pre', post', hBytes', hLength⟩ := h'
  rw [hBytes, ← List.append_assoc] at hBytes'
  obtain ⟨_, rfl⟩ := List.append_inj hBytes' (by rw [List.length_append, hLength])
  exact ⟨pre, post', by rw [hBytes, List.append_assoc], rfl⟩

end Input

inductive Event where
  /-- A call entered at `pos`; `failed` when `*err` was already set. -/
  | call (pos : Nat) (failed : Bool)
  | read (i : Nat)
  | fail (msg : String)
  | ret (entry exit : Nat) (failed : Bool)
  deriving DecidableEq

structure CodecDecodeState where
  x : List UInt8
  pos : Nat
  err : Option String
  trace : List Event

namespace CodecDecodeState

/-- `memset` to 0, with `*err` NULL. -/
def init : CodecDecodeState := ⟨List.replicate 8 0, 0, none, []⟩

def failed (s : CodecDecodeState) : Bool := s.err.isSome

def fail (s : CodecDecodeState) (msg : String) : CodecDecodeState :=
  { s with err := some msg, trace := .fail msg :: s.trace }

/-- The `k` bytes at `pos` are read. -/
def touch (s : CodecDecodeState) (k : Nat) : CodecDecodeState :=
  { s with trace := ((List.range k).map fun j => Event.read (s.pos + j)).reverse ++ s.trace }

/-- `b->pos += k` -/
def advance (s : CodecDecodeState) (k : Nat) : CodecDecodeState :=
  { s with pos := sizeT (s.pos + k) }

/-- `b->b.bytes.v[b->pos++]` -/
def next (s : CodecDecodeState) : CodecDecodeState := (s.touch 1).advance 1

def enter (s : CodecDecodeState) : CodecDecodeState :=
  { s with trace := .call s.pos s.failed :: s.trace }

/-- The call entered at `s` returns in `s'`. -/
def leave (s s' : CodecDecodeState) : CodecDecodeState :=
  { s' with trace := .ret s.pos s'.pos s'.failed :: s'.trace }

variable (s s' : CodecDecodeState)

@[simp] theorem fail_pos (msg : String) : (s.fail msg).pos = s.pos := rfl
@[simp] theorem fail_err (msg : String) : (s.fail msg).err = some msg := rfl
@[simp] theorem fail_trace (msg : String) : (s.fail msg).trace = .fail msg :: s.trace := rfl
@[simp] theorem touch_pos (k : Nat) : (s.touch k).pos = s.pos := rfl
@[simp] theorem touch_err (k : Nat) : (s.touch k).err = s.err := rfl
@[simp] theorem advance_pos (k : Nat) : (s.advance k).pos = sizeT (s.pos + k) := rfl
@[simp] theorem advance_err (k : Nat) : (s.advance k).err = s.err := rfl
@[simp] theorem advance_trace (k : Nat) : (s.advance k).trace = s.trace := rfl
@[simp] theorem next_pos : s.next.pos = sizeT (s.pos + 1) := rfl
@[simp] theorem next_err : s.next.err = s.err := rfl
@[simp] theorem next_trace : s.next.trace = .read s.pos :: s.trace := rfl
@[simp] theorem enter_pos : s.enter.pos = s.pos := rfl
@[simp] theorem enter_err : s.enter.err = s.err := rfl
@[simp] theorem enter_trace : s.enter.trace = .call s.pos s.failed :: s.trace := rfl
@[simp] theorem leave_pos : (s.leave s').pos = s'.pos := rfl
@[simp] theorem leave_err : (s.leave s').err = s'.err := rfl
@[simp] theorem leave_failed : (s.leave s').failed = s'.failed := rfl
@[simp] theorem leave_trace : (s.leave s').trace = .ret s.pos s'.pos s'.failed :: s'.trace := rfl

theorem failed_eq_false_iff : s.failed = false ↔ s.err = none := by
  simp [failed]

theorem err_of_failed {s : CodecDecodeState} (h : s.failed = true) : s.err ≠ none := by
  intro hOk
  rw [s.failed_eq_false_iff.mpr hOk] at h
  cases h

theorem err_of_not_failed {s : CodecDecodeState} (h : ¬ s.failed = true) : s.err = none :=
  s.failed_eq_false_iff.mp (Bool.eq_false_iff.mpr h)

theorem advance_pos_of_lt {k : Nat} (h : s.pos + k < 2 ^ 64) : (s.advance k).pos = s.pos + k :=
  Nat.mod_eq_of_lt h

theorem next_pos_of_lt (h : s.pos + 1 < 2 ^ 64) : s.next.pos = s.pos + 1 := Nat.mod_eq_of_lt h

end CodecDecodeState

def codecDecodeStateChk (b : Input) (s : CodecDecodeState) (len : Nat) :
    CodecDecodeState × Bool :=
  if sizeT (len + s.pos) > b.len then
    (s.fail ("codec_decode_state: past bytes bound: pos: " ++ toString s.pos ++ " >= len: " ++
      toString b.len), true)
  else (s, false)

def codecDecodeStateChk2 (b : Input) (s : CodecDecodeState) : CodecDecodeState × Bool :=
  if s.pos ≥ b.len then
    (s.fail ("codec_decode_state: pos: " ++ toString s.pos ++ " >= len: " ++ toString b.len), true)
  else (s, false)

section Checks

variable {b : Input} {s : CodecDecodeState}

theorem codecDecodeStateChk_pass {k : Nat} (h : k + s.pos ≤ b.len) :
    codecDecodeStateChk b s k = (s, false) := by
  have hSize : sizeT (k + s.pos) = k + s.pos := Nat.mod_eq_of_lt (by have := b.len_lt; omega)
  rw [codecDecodeStateChk, hSize, if_neg (by omega)]

theorem codecDecodeStateChk_stop {k : Nat} (h : b.len < k + s.pos) (hSize : k + s.pos < 2 ^ 64) :
    codecDecodeStateChk b s k = (s.fail ("codec_decode_state: past bytes bound: pos: " ++
      toString s.pos ++ " >= len: " ++ toString b.len), true) := by
  rw [codecDecodeStateChk, sizeT, Nat.mod_eq_of_lt hSize, if_pos h]

theorem codecDecodeStateChk_wrap {k : Nat} (hk : k < 2 ^ 64) (hPos : s.pos ≤ b.len)
    (hWrap : 2 ^ 64 ≤ k + s.pos) : codecDecodeStateChk b s k = (s, false) := by
  have hLen := b.len_lt
  have hSize : sizeT (k + s.pos) = k + s.pos - 2 ^ 64 := by rw [sizeT]; omega
  rw [codecDecodeStateChk, hSize, if_neg (by omega)]

theorem codecDecodeStateChk_cases (b : Input) (s : CodecDecodeState) (k : Nat) :
    (codecDecodeStateChk b s k = (s, false) ∧ sizeT (k + s.pos) ≤ b.len) ∨
      ∃ msg, codecDecodeStateChk b s k = (s.fail msg, true) ∧ b.len < sizeT (k + s.pos) := by
  rw [codecDecodeStateChk]
  split
  · rename_i hPast
    exact Or.inr ⟨_, rfl, hPast⟩
  · rename_i hFits
    exact Or.inl ⟨rfl, Nat.not_lt.mp hFits⟩

theorem codecDecodeStateChk2_pass (h : s.pos < b.len) : codecDecodeStateChk2 b s = (s, false) := by
  rw [codecDecodeStateChk2, if_neg (by omega)]

theorem codecDecodeStateChk2_stop (h : b.len ≤ s.pos) : codecDecodeStateChk2 b s =
    (s.fail ("codec_decode_state: pos: " ++ toString s.pos ++ " >= len: " ++ toString b.len),
      true) := by
  rw [codecDecodeStateChk2, if_pos h]

end Checks

/-! ## The value a decoder fills in -/

/-- A `slice_bytes` as a decoder leaves it. `none` is a field it did not store;
the pointer is an offset into the input. -/
structure SliceRef where
  off : Option Nat
  len : Nat
  cap : Option Nat
  deriving DecidableEq

/-- The member of the union stored last; `stale` is what the memory held before. -/
inductive CodecValueDiscrim where
  | stale
  | vNil (b : Bool)
  | vBool (b : Bool)
  | vUint64 (n : UInt64)
  | vFloat32 (bits : UInt32)
  | vFloat64 (bits : UInt64)
  | vBytes (r : SliceRef)
  | vArray (len : Nat)
  | vMap (len : Nat)
  | vExt (tag : Option UInt8) (r : SliceRef)
  deriving DecidableEq

/-- A decoded `codec_value`. `elems` is what `vArray.v` or `vMap.v` points to. -/
inductive Decoded where
  | mk (type : CodecValueType) (v : CodecValueDiscrim) (elems : List Decoded)

namespace Decoded

def type : Decoded → CodecValueType
  | mk t _ _ => t

def discrim : Decoded → CodecValueDiscrim
  | mk _ v _ => v

def elems : Decoded → List Decoded
  | mk _ _ es => es

/-- A `codec_value` that nothing was stored in yet. -/
def blank (type : CodecValueType) : Decoded := mk type .stale []

/-- A zeroed `codec_value`. -/
def zero : Decoded := blank .unset

def withType : Decoded → CodecValueType → Decoded
  | mk _ v es, t => mk t v es

def pairUp {α : Type} : List α → List (α × α)
  | k :: v :: rest => (k, v) :: pairUp rest
  | _ => []

theorem entries_pairUp {α : Type} (l : List α) {n : Nat} (h : l.length = 2 * n) :
    CodecValue.entries (pairUp l) = l := by
  induction n generalizing l with
  | zero => rw [List.length_eq_zero_iff.mp h]; rfl
  | succ n ih =>
    match l, h with
    | k :: v :: rest, h =>
      rw [pairUp, CodecValue.entries, ih rest (by simp at h; omega)]

theorem pairUp_entries {α : Type} (kvs : List (α × α)) : pairUp (CodecValue.entries kvs) = kvs := by
  induction kvs with
  | nil => rfl
  | cons kv kvs ih => rw [CodecValue.entries, pairUp, ih]

mutual
/-- The abstract value that the type and the stored member denote. -/
def value (b : Input) : Decoded → Option Value
  | mk .nil _ _ => some (.nil ())
  | mk .bool (.vBool x) _ => some (.bool () x)
  | mk .posInt (.vUint64 n) _ => some (.posInt () n)
  | mk .negInt (.vUint64 n) _ => some (.negInt () n)
  | mk .float32 (.vFloat32 bits) _ => some (.float32 () bits)
  | mk .float64 (.vFloat64 bits) _ => some (.float64 () bits)
  | mk .string (.vBytes ⟨some off, len, _⟩) _ => some (.string () (b.slice off len))
  | mk .bytes (.vBytes ⟨some off, len, _⟩) _ => some (.bytes () (b.slice off len))
  | mk .array (.vArray len) es =>
    match values b es with
    | some vs => if vs.length = len then some (.array () vs) else none
    | none => none
  | mk .map (.vMap len) es =>
    match values b es with
    | some vs => if vs.length = 2 * len then some (.map () (pairUp vs)) else none
    | none => none
  | mk .customExt (.vExt (some tag) ⟨some off, len, _⟩) _ =>
    some (.customExt () tag (b.slice off len))
  | mk _ _ _ => none

def values (b : Input) : List Decoded → Option (List Value)
  | [] => some []
  | d :: ds =>
    match value b d, values b ds with
    | some v, some vs => some (v :: vs)
    | _, _ => none
end

theorem values_cons {b : Input} {d : Decoded} {ds : List Decoded} {w : Value} {ws : List Value} :
    values b (d :: ds) = some (w :: ws) ↔ value b d = some w ∧ values b ds = some ws := by
  rw [values]
  cases value b d with
  | none => simp
  | some v => cases values b ds <;> simp

theorem values_length {b : Input} {ds : List Decoded} {ws : List Value}
    (h : values b ds = some ws) : ws.length = ds.length := by
  induction ds generalizing ws with
  | nil => cases h; rfl
  | cons d ds ih =>
    cases ws with
    | nil =>
      rw [values] at h
      cases hHead : value b d with
      | none => simp [hHead] at h
      | some v => cases hTail : values b ds <;> simp [hHead, hTail] at h
    | cons w ws => rw [List.length_cons, List.length_cons, ih (values_cons.mp h).2]

theorem value_array {b : Input} {len : Nat} {es : List Decoded} {w : Value}
    (h : (mk .array (.vArray len) es).value b = some w) :
    ∃ ws, w = .array () ws ∧ ws.length = len ∧ values b es = some ws := by
  rw [value] at h
  split at h
  · rename_i ws hWs
    split at h
    · rename_i hLength
      exact ⟨ws, (Option.some.inj h).symm, hLength, hWs⟩
    · cases h
  · cases h

theorem value_map {b : Input} {len : Nat} {es : List Decoded} {w : Value}
    (h : (mk .map (.vMap len) es).value b = some w) :
    ∃ kvs, w = .map () kvs ∧ kvs.length = len ∧ values b es = some (CodecValue.entries kvs) := by
  rw [value] at h
  split at h
  · rename_i ws hWs
    split at h
    · rename_i hEven
      have hEntries := entries_pairUp ws hEven
      have hTwice := CodecValue.entries_length (pairUp ws)
      rw [hEntries, hEven] at hTwice
      exact ⟨pairUp ws, (Option.some.inj h).symm, by omega, by rw [hEntries, hWs]⟩
    · cases h
  · cases h

end Decoded

open Lib.Descent in
/-- A recursive decoder, given what one call does before its element loop. -/
def decodeScheme (head : CodecDecodeState → Decoded → Step CodecDecodeState Decoded) :
    Scheme CodecDecodeState Decoded where
  head := head
  failed := CodecDecodeState.failed
  leave := CodecDecodeState.leave
  blank := .zero

end CcCommon.Codec
