import CcCommon.Codec.DecodeState
import CcCommon.Codec.Float
import CcCommon.Codec.Simple.Encode

/-! # codec/simplecodec.c: codec_simple_decode

`codec_simple_decode_r` is a descent: its switch either finishes a leaf or
opens an element loop whose calls fill zeroed values. `char` is signed.

`calloc` is taken to succeed. It never does for the lengths from 2^64-128 on
that `codec_simple_readn` makes of a `char` below zero, nor for the 2^64-1 of a
length that is not there: there the code faults when it stores the first value,
where the run goes on here. -/

namespace CcCommon.Codec.Simple

open Util Lib.Descent

set_option autoImplicit false

/-- The widths `codec_simple_readn` knows; it aborts on any other. -/
inductive ReadWidth where
  | w0 | w1 | w2 | w4 | w8
  deriving DecidableEq

def ReadWidth.size : ReadWidth → Nat
  | .w0 => 0
  | .w1 => 1
  | .w2 => 2
  | .w4 => 4
  | .w8 => 8

/-- A `char` converted to an unsigned type of `bits` bits. -/
def ofChar (c : UInt8) (bits : Nat) : Nat :=
  if c.toNat < 128 then c.toNat else 2 ^ bits - 256 + c.toNat

/-- What the switch of `codec_simple_readn` assigns: one `char`, whatever the width. -/
def readnValue (n : ReadWidth) (c : UInt8) : Nat :=
  match n with
  | .w0 => 0
  | .w1 => ofChar c 8
  | .w2 => ofChar c 16
  | .w4 => ofChar c 32
  | .w8 => ofChar c 64

def codecSimpleReadn (b : Input) (s : CodecDecodeState) (n : ReadWidth) :
    CodecDecodeState × Nat :=
  match codecDecodeStateChk b s n.size with
  | (s, true) => (s, 2 ^ 64 - 1)
  | (s, false) =>
    let v := readnValue n (b.get s.pos)
    let s := if n = .w0 then s else s.touch 1
    (s.advance n.size, v)

/-- `sizeof(size_t)` is 8, so case 4 reads the length. -/
def codecSimpleDecodeLen (b : Input) (s : CodecDecodeState) (bd : UInt8) :
    CodecDecodeState × Nat :=
  match bd.toNat % 8 with
  | 0 => (s, 0)
  | 1 => codecSimpleReadn b s .w1
  | 2 => codecSimpleReadn b s .w2
  | 3 => codecSimpleReadn b s .w4
  | 4 => codecSimpleReadn b s .w8
  | _ => (s.fail ("codec_simple_decode_len: invalid descriptor: " ++ toString bd.toNat), 2 ^ 64 - 1)

/-- The case labels of `codec_simple_decode_r`; `none` is its default. -/
def codecSimpleDesc (bd : UInt8) : Option CodecSimpleDescType :=
  let n := bd.toNat
  if n = 1 then some .nil
  else if n = 2 then some .false
  else if n = 3 then some .true
  else if n = 4 then some .float32
  else if n = 5 then some .float64
  else if 8 ≤ n ∧ n ≤ 11 then some .posInt
  else if 12 ≤ n ∧ n ≤ 15 then some .negInt
  else if 216 ≤ n ∧ n ≤ 220 then some .string
  else if 224 ≤ n ∧ n ≤ 228 then some .bytes
  else if 232 ≤ n ∧ n ≤ 236 then some .array
  else if 240 ≤ n ∧ n ≤ 244 then some .map
  else if 248 ≤ n ∧ n ≤ 252 then some .customExt
  else none

/-- `switch(bd%4)` of the integer branches. -/
def intWidth (bd : UInt8) : ReadWidth :=
  match bd.toNat % 4 with
  | 0 => .w1
  | 1 => .w2
  | 2 => .w4
  | _ => .w8

/-- The branches of POS_INT and NEG_INT. -/
def codecSimpleDecodeInt (b : Input) (s : CodecDecodeState) (v : Decoded) (bd : UInt8)
    (type : CodecValueType) : Step CodecDecodeState Decoded :=
  let (s, tmp64) := codecSimpleReadn b s (intWidth bd)
  if s.failed then .leaf s v
  else .leaf s (.mk type (.vUint64 (UInt64.ofNat tmp64)) [])

/-- The common part of the STRING and BYTES branches. -/
def codecSimpleDecodeBytes (b : Input) (s : CodecDecodeState) (v : Decoded) (bd : UInt8) :
    Step CodecDecodeState Decoded :=
  let v := if v.type = .unset then v.withType .bytes else v
  let (s, tmp64) := codecSimpleDecodeLen b s bd
  if s.failed then .leaf s v
  else
    match codecDecodeStateChk b s tmp64 with
    | (s, true) => .leaf s (.mk v.type (.vBytes ⟨none, tmp64, some tmp64⟩) [])
    | (s, false) => .leaf (s.advance tmp64) (.mk v.type (.vBytes ⟨some s.pos, tmp64, some tmp64⟩) [])

def codecSimpleDecodeFloat32 (b : Input) (s : CodecDecodeState) (v : Decoded) :
    Step CodecDecodeState Decoded :=
  match codecDecodeStateChk b s 4 with
  | (s, true) => .leaf s (v.withType .float32)
  | (s, false) =>
    let tmp32 := utilBigEndianReadUint32 fun j => b.get (s.pos + j)
    .leaf ((s.touch 4).advance 4) (.mk .float32 (.vFloat32 (float32OfUint32 tmp32)) [])

def codecSimpleDecodeFloat64 (b : Input) (s : CodecDecodeState) (v : Decoded) :
    Step CodecDecodeState Decoded :=
  match codecDecodeStateChk b s 8 with
  | (s, true) => .leaf s (v.withType .float64)
  | (s, false) =>
    let tmp64 := utilBigEndianReadUint64 fun j => b.get (s.pos + j)
    .leaf ((s.touch 8).advance 8) (.mk .float64 (.vFloat64 (float64OfUint64 tmp64)) [])

/-- The values are zeroed, as after a `calloc` that has succeeded. -/
def codecSimpleDecodeArray (b : Input) (s : CodecDecodeState) (v : Decoded) (bd : UInt8) :
    Step CodecDecodeState Decoded :=
  let (s, tmp64) := codecSimpleDecodeLen b s bd
  if s.failed then .leaf s (v.withType .array)
  else .branch s tmp64 intLimit fun vs => .mk .array (.vArray tmp64) vs

/-- Unlike the array branch this one does not look at `*err` before its loop. Here too `calloc` is
taken to succeed, also for the 2^64-1 entries of a length that is not there. -/
def codecSimpleDecodeMap (b : Input) (s : CodecDecodeState) (bd : UInt8) :
    Step CodecDecodeState Decoded :=
  let (s, tmp64) := codecSimpleDecodeLen b s bd
  .branch s (2 * tmp64) (2 * intLimit) fun vs => .mk .map (.vMap tmp64) vs

/-- Nor does this one before its bound check. -/
def codecSimpleDecodeExt (b : Input) (s : CodecDecodeState) (bd : UInt8) :
    Step CodecDecodeState Decoded :=
  let (s, tmp64) := codecSimpleDecodeLen b s bd
  match codecDecodeStateChk b s (sizeT (1 + tmp64)) with
  | (s, true) => .leaf s (.mk .customExt (.vExt none ⟨none, tmp64, none⟩) [])
  | (s, false) =>
    let tag := b.get s.pos
    let s := s.next
    .leaf (s.advance tmp64) (.mk .customExt (.vExt (some tag) ⟨some s.pos, tmp64, none⟩) [])

/-- The switch of `codec_simple_decode_r`, once the descriptor is read. -/
def codecSimpleDecodeSwitch (b : Input) (s : CodecDecodeState) (v : Decoded) (bd : UInt8) :
    Step CodecDecodeState Decoded :=
  match codecSimpleDesc bd with
  | some .nil => .leaf s (.mk .nil (.vNil true) [])
  | some .false => .leaf s (.mk .bool (.vBool false) [])
  | some .true => .leaf s (.mk .bool (.vBool true) [])
  | some .posInt => codecSimpleDecodeInt b s v bd .posInt
  | some .negInt => codecSimpleDecodeInt b s v bd .negInt
  | some .float32 => codecSimpleDecodeFloat32 b s v
  | some .float64 => codecSimpleDecodeFloat64 b s v
  | some .string => codecSimpleDecodeBytes b s (v.withType .string) bd
  | some .bytes => codecSimpleDecodeBytes b s v bd
  | some .array => codecSimpleDecodeArray b s v bd
  | some .map => codecSimpleDecodeMap b s bd
  | some .customExt => codecSimpleDecodeExt b s bd
  | none =>
    .leaf (s.fail ("codec_simple_decode_r: invalid descriptor: " ++ toString bd.toNat)) v

def codecSimpleDecodeHead (b : Input) (s : CodecDecodeState) (v : Decoded) :
    Step CodecDecodeState Decoded :=
  match codecDecodeStateChk2 b s.enter with
  | (s, true) => .leaf s v
  | (s, false) =>
    match codecDecodeStateChk b s 1 with
    | (s, true) => .leaf s v
    | (s, false) => codecSimpleDecodeSwitch b s.next v (b.get s.pos)

def codecSimpleScheme (b : Input) : Scheme CodecDecodeState Decoded :=
  decodeScheme (codecSimpleDecodeHead b)

def codecSimpleDecodeR (b : Input) (fuel : Nat) (s : CodecDecodeState) (v : Decoded) :
    Outcome CodecDecodeState Decoded :=
  node (codecSimpleScheme b) fuel s v

/-- The position returned is `pos` of the final state. -/
def codecSimpleDecode (b : Input) (fuel : Nat) (v : Decoded) : Outcome CodecDecodeState Decoded :=
  codecSimpleDecodeR b fuel .init v

end CcCommon.Codec.Simple
