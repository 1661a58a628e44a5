import CcCommon.Codec.Value
import CcCommon.Util.Slice.Operations

/-! # Encoders as lists of slice operations

An encoder performs a list of slice operations that the value determines. The
last of them belongs to the last node of the value. -/

namespace CcCommon.Codec

open Util CodecValue

set_option autoImplicit false

mutual
/-- The node that an encoder comes to last. -/
def CodecValue.last {μ : Type} : CodecValue μ → CodecValue μ
  | .array m vs => (lastList vs).getD (.array m vs)
  | .map m kvs => (lastPairs kvs).getD (.map m kvs)
  | v => v

def lastList {μ : Type} : List (CodecValue μ) → Option (CodecValue μ)
  | [] => none
  | v :: vs => some ((lastList vs).getD v.last)

def lastPairs {μ : Type} : List (CodecValue μ × CodecValue μ) → Option (CodecValue μ)
  | [] => none
  | (_, v) :: kvs => some ((lastPairs kvs).getD v.last)
end

/-- The node is an integer of the given kind. -/
def CodecValue.isInt {μ : Type} (kind : Nat → Bool) : CodecValue μ → Bool
  | .posInt _ n | .negInt _ n => kind n.toNat
  | _ => false

theorem lastPairs_eq {μ : Type} (kvs : List (CodecValue μ × CodecValue μ)) :
    lastPairs kvs = lastList (entries kvs) := by
  induction kvs with
  | nil => rfl
  | cons kv kvs ih => simp [lastPairs, entries, lastList, ih]

def payloadOps (p : List UInt8) : List SliceOp := if p.length > 0 then [.append p] else []

theorem performAll_payloadOps (fresh : Nat → Nat → UInt8) (p : List UInt8) (b : SliceBytes) :
    performAll fresh (payloadOps p) b = sliceBytesAppendPayload fresh b p := by
  unfold payloadOps sliceBytesAppendPayload
  split <;> rfl

/-- The operations write `bs`, byte for byte. -/
structure Spells (ops : List SliceOp) (bs : List UInt8) : Prop where
  writes : Writes ops
  bytes : ops.flatMap SliceOp.bytes = bs

theorem Spells.append {ops ops' : List SliceOp} {bs bs' : List UInt8} (h : Spells ops bs)
    (h' : Spells ops' bs') : Spells (ops ++ ops') (bs ++ bs') :=
  ⟨h.writes.append h'.writes, by rw [List.flatMap_append, h.bytes, h'.bytes]⟩

theorem spells_nil : Spells [] [] := ⟨by simp [Writes], rfl⟩

theorem spells_append (b : List UInt8) : Spells [.append b] b := by
  constructor
  · simp [Writes, SliceOp.size, SliceOp.bytes, SliceOp.terminates]
  · simp [SliceOp.bytes]

theorem spells_append1 (bd : UInt8) : Spells [.append1 bd] [bd] := by
  constructor
  · simp [Writes, SliceOp.size, SliceOp.bytes]
  · rfl

theorem spells_put {b : List UInt8} (h : b ≠ []) : Spells [.put b] b := by
  constructor
  · simp [Writes, SliceOp.size, SliceOp.bytes, h]
  · simp [SliceOp.bytes]

theorem spells_payloadOps (p : List UInt8) : Spells (payloadOps p) p := by
  cases p with
  | nil => exact spells_nil
  | cons x p => exact spells_append (x :: p)

/-- A payload is appended if there is one, so nothing but an empty one leaves the end as it was. -/
theorem endsWith_payloadOps {ops : List SliceOp} {p : List UInt8}
    (h : p = [] → EndsWith ops true) : EndsWith (ops ++ payloadOps p) true := by
  cases p with
  | nil => simpa [payloadOps] using h rfl
  | cons x p =>
    have hAppend : EndsWith (payloadOps (x :: p)) true := rfl
    exact hAppend.prepend ops

end CcCommon.Codec
