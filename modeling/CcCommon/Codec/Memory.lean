import CcCommon.Codec.Value
import CcCommon.Lib.Bytes

/-! # codec/codec.h: the layout of codec_value

A `codec_value` is five 8-byte words: the type with its padding, then the
union, whose largest member is `codec_value_ext`. The elements of an array
and the entries of a map are consecutive such structs.
-/

namespace CcCommon.Codec

open Lib.Bytes

set_option autoImplicit false

/-- The contents of the words from some address on. -/
abbrev Words : Type := Nat → UInt64

/-- The memory of a node besides its content. -/
structure Placement where
  /-- The padding behind the type. -/
  pad : UInt32
  /-- The bytes of the first word of the union behind a member shorter than a word. -/
  fill : UInt64
  /-- The other words of the union where no member is selected. -/
  rest : Words
  /-- The address of the payload, the elements or the entries. -/
  addr : UInt64
  cap : UInt64
  /-- The memory behind the last element or entry. -/
  behind : Words

/-- Memory full of zeros. -/
def Placement.zero : Placement := ⟨0, 0, fun _ => 0, 0, 0, fun _ => 0⟩

def CodecValueType.toNat : CodecValueType → Nat
  | .unset => 0
  | .nil => 1
  | .bool => 2
  | .posInt => 3
  | .negInt => 4
  | .float32 => 5
  | .float64 => 6
  | .string => 7
  | .bytes => 8
  | .array => 9
  | .map => 10
  | .customExt => 11

/-- A member of `k` bytes in a word filled up with `fill`. -/
def partWord (k n : Nat) (fill : UInt64) : UInt64 :=
  UInt64.ofNat (n + fill.toNat / 256 ^ k * 256 ^ k)

/-- The four words of the union. -/
def unionWords : CodecValue Placement → List UInt64
  | .nil m => [m.fill, m.rest 1, m.rest 2, m.rest 3]
  | .bool m v => [partWord 1 v.toNat m.fill, m.rest 1, m.rest 2, m.rest 3]
  | .posInt m n | .negInt m n => [n, m.rest 1, m.rest 2, m.rest 3]
  | .float32 m bits => [partWord 4 bits.toNat m.fill, m.rest 1, m.rest 2, m.rest 3]
  | .float64 m bits => [bits, m.rest 1, m.rest 2, m.rest 3]
  | .string m p | .bytes m p => [m.addr, UInt64.ofNat p.length, m.cap, m.rest 3]
  | .array m vs => [UInt64.ofNat vs.length, m.addr, m.rest 2, m.rest 3]
  | .map m kvs => [UInt64.ofNat kvs.length, m.addr, m.rest 2, m.rest 3]
  | .customExt m tag p => [partWord 1 tag.toNat m.fill, m.addr, UInt64.ofNat p.length, m.cap]

def typeWord (v : CodecValue Placement) (pad : UInt32) : UInt64 :=
  UInt64.ofNat (v.type.toNat + pad.toNat * 2 ^ 32)

def CodecValue.mem {μ : Type} : CodecValue μ → μ
  | .nil m | .bool m _ | .posInt m _ | .negInt m _ | .float32 m _ | .float64 m _ | .string m _
  | .bytes m _ | .array m _ | .map m _ | .customExt m _ _ => m

/-- The struct of a value. -/
def words (v : CodecValue Placement) : List UInt64 := typeWord v v.mem.pad :: unionWords v

def followedBy (ws : List UInt64) (after : Words) : Words := fun k =>
  ws[k]?.getD (after (k - ws.length))

/-- The memory behind a struct that the structs of `vs` follow. -/
def behindIn (vs : List (CodecValue Placement)) (behind : Words) : Words :=
  followedBy (vs.flatMap words) behind

/-- The memory from the union of `v` on, where `after` is behind the struct. -/
def fromUnion (v : CodecValue Placement) (after : Words) : Words := followedBy (unionWords v) after

/-- The `n` bytes from word `k` on, on a little-endian host. -/
def bytesAt (mem : Words) (k n : Nat) : List UInt8 :=
  (List.range n).map fun j => (leBytes 8 (mem (k + j / 8)).toNat).getD (j % 8) 0

@[simp] theorem bytesAt_length (mem : Words) (k n : Nat) : (bytesAt mem k n).length = n := by
  simp [bytesAt]

end CcCommon.Codec
