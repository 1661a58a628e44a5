import CcCommon.Codec.Binc.Desc
import CcCommon.Codec.Memory
import CcCommon.Util.BigEndian
import CcCommon.Util.Slice

/-! # codec/binc.c: codec_binc_encode

The index of an element loop is a `uint8_t`, so a loop need not end: a run is
`none` as long as its fuel does not suffice. The encoder reads memory around
the value, which is a parameter. `calls` is not part of the program: it lists
the nodes the encoder was called on, by their paths from the root. -/

namespace CcCommon.Codec.Binc

open Util Lib.Bytes CodecValue

set_option autoImplicit false

structure EncodeState where
  b : SliceBytes
  err : Option String
  calls : List (List Nat)

/-- The loops of `codec_binc_prune_sign_ext`: how many bytes `lead` can go
because the next one has the top bit `top`. -/
def pruneCount (lead : UInt8) (top : Bool) : List UInt8 → Nat
  | a :: c :: rest => if a = lead ∧ decide (128 ≤ c.toNat) = top then
      pruneCount lead top (c :: rest) + 1
    else 0
  | _ => 0

def codecBincPruneSignExt (v : List UInt8) (pos : Bool) : Nat :=
  if pos then pruneCount 0 false v else pruneCount 0xff true v

/-- Both branches write 32 bits, so the last four of eight bytes stay 0. -/
def uintBytes (v lim : Nat) : List UInt8 :=
  if lim = 4 then utilBigEndianWriteUint32 (v % 2 ^ 32)
  else utilBigEndianWriteUint32 (v % 2 ^ 32) ++ List.replicate (lim - 4) 0

section Encoder

variable (fresh : Nat → Nat → UInt8)

def codecBincEncodeUintPrune (v : Nat) (bd : UInt8) (pos : Bool) (lim : Nat) (b : SliceBytes) :
    SliceBytes :=
  let x := uintBytes v lim
  let i := codecBincPruneSignExt x pos
  let bd := bd ||| UInt8.ofNat (lim - 1 - i)
  sliceBytesAppend fresh (sliceBytesAppend fresh b [bd]) (x.drop i)

def codecBincEncodeUint (bd : UInt8) (pos : Bool) (v : Nat) (b : SliceBytes) : SliceBytes :=
  if v = 0 then sliceBytesAppend fresh b [specialDesc .zero]
  else if pos ∧ 1 ≤ v ∧ v ≤ 16 then sliceBytesAppend fresh b [bincDesc .smallint (v - 1)]
  else if v ≤ 0xff then sliceBytesAppend fresh (sliceBytesAppend fresh b [bd]) [UInt8.ofNat v]
  else if v ≤ 0xffff then
    -- `bd` is computed and not appended
    sliceBytesPut fresh b (utilBigEndianWriteUint16 (v % 2 ^ 16))
  else if v ≤ 0xffffffff then codecBincEncodeUintPrune fresh v bd pos 4 b
  else codecBincEncodeUintPrune fresh v bd pos 8 b

def codecBincEncodeLen (bd : UInt8) (len : Nat) (b : SliceBytes) : SliceBytes :=
  if len < 12 then sliceBytesAppend fresh b [bd ||| UInt8.ofNat (len + 4)]
  else codecBincEncodeUint fresh bd false len b

/-- A double that compares equal to 0. -/
def isZeroDouble (bits : UInt64) : Bool := bits.toNat % 2 ^ 63 = 0

/-- `for(; i < 8 && (&v->v.vFloat64)[i] == 0; i--)`, then `i++`, for `i` downwards; the
double at `i = 0` is not zero. -/
def floatPrune (mem : Words) : Nat → Nat
  | 0 => 1
  | i + 1 => if isZeroDouble (mem (i + 1)) then floatPrune mem i else i + 2

/-- The branch of both float types, given the memory from the union on. -/
def codecBincEncodeFloat (mem : Words) (b : SliceBytes) : SliceBytes :=
  if isZeroDouble (mem 0) then sliceBytesAppend fresh b [specialDesc .zerofloat]
  else
    let i := floatPrune mem 7
    if i ≤ 6 then
      let b := sliceBytesAppend fresh b [bincDesc .float (0x8 ||| 0x2)]
      let b := sliceBytesAppend fresh b [UInt8.ofNat i]
      sliceBytesAppend fresh b (bytesAt mem 0 i)
    else
      let b := sliceBytesAppend fresh b [bincDesc .float 0x2]
      sliceBytesAppend fresh b (bytesAt mem 0 8)

mutual
/-- `codec_binc_encode` on the node at `path`, where `after` is the memory behind its struct. -/
def codecBincEncode : Nat → CodecValue Placement → Words → List Nat → EncodeState →
    Option EncodeState
  | 0, _, _, _, _ => none
  | f + 1, v, after, path, s =>
    let s := { s with calls := s.calls ++ [path] }
    match v with
    | .nil _ => some { s with b := sliceBytesAppend fresh s.b [specialDesc .nil] }
    | .bool _ x =>
      let d := if x then CodecBincSpecialDescType.true else CodecBincSpecialDescType.false
      some { s with b := sliceBytesAppend fresh s.b [specialDesc d] }
    | .negInt _ n =>
      some { s with b := codecBincEncodeUint fresh (bincDesc .negint 0) false n.toNat s.b }
    | .posInt _ n =>
      some { s with b := codecBincEncodeUint fresh (bincDesc .posint 0) true n.toNat s.b }
    | .float32 _ _ | .float64 _ _ =>
      some { s with b := codecBincEncodeFloat fresh (fromUnion v after) s.b }
    | .string _ p =>
      let s := { s with b := codecBincEncodeLen fresh (bincDesc .string 0) p.length s.b }
      if s.err.isSome then some s else some { s with b := sliceBytesAppendPayload fresh s.b p }
    | .bytes _ p =>
      let s := { s with b := codecBincEncodeLen fresh (bincDesc .bytearray 0) p.length s.b }
      if s.err.isSome then some s else some { s with b := sliceBytesAppendPayload fresh s.b p }
    | .array m vs =>
      let s := { s with b := codecBincEncodeLen fresh (bincDesc .array 0) vs.length s.b }
      if s.err.isSome then some s else codecBincEncodeList f vs m.behind path 0 s
    | .map m kvs =>
      let s := { s with b := codecBincEncodeLen fresh (bincDesc .map 0) kvs.length s.b }
      if s.err.isSome then some s else codecBincEncodePairs f kvs m.behind path 0 s
    | .customExt _ tag p =>
      let s := { s with b := codecBincEncodeLen fresh (bincDesc .customext 0) p.length s.b }
      if s.err.isSome then some s
      else
        let b := sliceBytesAppend fresh s.b [tag]
        -- `&v->v.vExt.v.bytes.v` is the address of the pointer, the second word of the union
        some { s with b := sliceBytesAppendPayload fresh b (bytesAt (fromUnion v after) 1 p.length) }

/-- The loop over `vArray.v[i]`. -/
def codecBincEncodeList : Nat → List (CodecValue Placement) → Words → List Nat → UInt8 →
    EncodeState → Option EncodeState
  | 0, _, _, _, _, _ => none
  | f + 1, vs, behind, path, i, s =>
    if h : i.toNat < vs.length then
      match codecBincEncode f vs[i.toNat] (behindIn (vs.drop (i.toNat + 1)) behind)
          (i.toNat :: path) s with
      | none => none
      | some s =>
        if s.err.isSome then some s
        else codecBincEncodeList f vs behind path (i + 1) s
    else some s

/-- The loop over `vMap.v[i]`. -/
def codecBincEncodePairs : Nat → List (CodecValue Placement × CodecValue Placement) → Words →
    List Nat → UInt8 → EncodeState → Option EncodeState
  | 0, _, _, _, _, _ => none
  | f + 1, kvs, behind, path, i, s =>
    if h : i.toNat < kvs.length then
      let kv := kvs[i.toNat]
      let rest := entries (kvs.drop (i.toNat + 1))
      match codecBincEncode f kv.1 (behindIn (kv.2 :: rest) behind) ((2 * i.toNat) :: path) s with
      | none => none
      | some s =>
        if s.err.isSome then some s
        else
          match codecBincEncode f kv.2 (behindIn rest behind) ((2 * i.toNat + 1) :: path) s with
          | none => none
          | some s =>
            if s.err.isSome then some s
            else codecBincEncodePairs f kvs behind path (i + 1) s
    else some s
end

end Encoder

end CcCommon.Codec.Binc
