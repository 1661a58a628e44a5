import CcCommon.Codec.Binc.Desc
import CcCommon.Codec.DecodeState
import CcCommon.Codec.Float
import CcCommon.Util.BigEndian

/-! # codec/binc.c: codec_binc_decode

Only the descriptor of a call is checked against the bound. -/

namespace CcCommon.Codec.Binc

open Util Lib.Bytes Lib.Descent

set_option autoImplicit false

/-- CODEC_uvnan -/
def uvnan : UInt64 := 0x7FF8000000000001

/-- CODEC_uvinf -/
def uvinf : UInt64 := 0x7FF0000000000000

/-- CODEC_uvneginf -/
def uvneginf : UInt64 := 0xFFF0000000000000

/-- `memcpy` of `k` bytes from `pos` into the zeroed scratch, behind `limit` zeros. -/
def copyToX (b : Input) (s : CodecDecodeState) (limit k : Nat) : CodecDecodeState :=
  { (s.touch k).advance k with
    x := List.replicate limit 0 ++ b.slice s.pos k ++ List.replicate (8 - limit - k) 0 }

def codecBincDecodeUint64 (b : Input) (s : CodecDecodeState) (vs : Nat) :
    CodecDecodeState × Nat :=
  if vs > 7 then (s.fail "uint with greater than 64 bits of precision not supported", 0)
  else
    let limit := 7 - vs
    let s := copyToX b s limit (8 - limit)
    (s, utilBigEndianReadUint64 fun j => s.x.getD j 0)

def codecBincDecodeLen (b : Input) (s : CodecDecodeState) (vs : Nat) : CodecDecodeState × Nat :=
  if vs ≤ 3 then codecBincDecodeUint64 b s vs else (s, vs - 4)

def codecBincDecodeFloatPre (b : Input) (s : CodecDecodeState) (vs defLen : Nat) :
    CodecDecodeState :=
  let s := { s with x := List.replicate 8 0 }
  if vs &&& 0x8 = 0 then copyToX b s 0 defLen
  else
    let l := (b.get s.pos).toNat
    let s := s.next
    if l > 8 then
      s.fail ("At most 8 bytes used to represent float. Received: " ++ toString l ++ " bytes")
    else copyToX b s 0 l

/-- `%x` of a nibble. -/
def hexDigit (n : Nat) : String := String.ofList [Nat.digitChar n]

def codecBincDecodeFloat (b : Input) (s : CodecDecodeState) (vs : Nat) :
    CodecDecodeState × UInt64 :=
  match vs &&& 0x7 with
  | 1 =>
    let s := codecBincDecodeFloatPre b s vs 4
    if s.failed then (s, 0) else (s, float64OfFloat32 (leNat (s.x.take 4)))
  | 2 =>
    let s := codecBincDecodeFloatPre b s vs 8
    if s.failed then (s, 0) else (s, UInt64.ofNat (leNat s.x))
  | _ => (s.fail ("only float32 and float64 are supported. vs: 0x" ++ hexDigit vs), 0)

def codecBincDecodeSpecial (s : CodecDecodeState) (v : Decoded) (vs : Nat) :
    Step CodecDecodeState Decoded :=
  match CodecBincSpecialDescType.ofNibble vs with
  | some .nil => .leaf s (.mk .nil (.vNil true) [])
  | some .false => .leaf s (.mk .bool (.vBool false) [])
  | some .true => .leaf s (.mk .bool (.vBool true) [])
  | some .nan => .leaf s (.mk .float64 (.vFloat64 uvnan) [])
  | some .posinf => .leaf s (.mk .float64 (.vFloat64 uvinf) [])
  | some .neginf => .leaf s (.mk .float64 (.vFloat64 uvneginf) [])
  | some .zerofloat => .leaf s (.mk .float64 (.vFloat64 0) [])
  | some .zero => .leaf s (.mk .posInt (.vUint64 0) [])
  | some .negone => .leaf s (.mk .negInt (.vUint64 1) [])
  | none => .leaf s v

/-- The branches of POSINT and NEGINT, which store even after an error. -/
def codecBincDecodeInt (b : Input) (s : CodecDecodeState) (vs : Nat) (type : CodecValueType) :
    Step CodecDecodeState Decoded :=
  let (s, n) := codecBincDecodeUint64 b s vs
  .leaf s (.mk type (.vUint64 (UInt64.ofNat n)) [])

/-- The branches of STRING, SYMBOL and BYTEARRAY. `cap` is not stored. -/
def codecBincDecodeBytes (b : Input) (s : CodecDecodeState) (vs : Nat) (type : CodecValueType) :
    Step CodecDecodeState Decoded :=
  let (s, len) := codecBincDecodeLen b s vs
  if s.failed then .leaf s (.mk type (.vBytes ⟨none, len, none⟩) [])
  else .leaf (s.advance len) (.mk type (.vBytes ⟨some s.pos, len, none⟩) [])

def codecBincDecodeExt (b : Input) (s : CodecDecodeState) (vs : Nat) :
    Step CodecDecodeState Decoded :=
  let (s, len) := codecBincDecodeLen b s vs
  if s.failed then .leaf s (.mk .customExt (.vExt none ⟨none, len, none⟩) [])
  else
    let tag := b.get s.pos
    let s := s.next
    .leaf (s.advance len) (.mk .customExt (.vExt (some tag) ⟨some s.pos, len, none⟩) [])

def codecBincDecodeArray (b : Input) (s : CodecDecodeState) (vs : Nat) :
    Step CodecDecodeState Decoded :=
  let (s, len) := codecBincDecodeLen b s vs
  if s.failed then .leaf s (.mk .array (.vArray len) [])
  else .branch s len intLimit fun es => .mk .array (.vArray len) es

def codecBincDecodeMap (b : Input) (s : CodecDecodeState) (vs : Nat) :
    Step CodecDecodeState Decoded :=
  let (s, len) := codecBincDecodeLen b s vs
  if s.failed then .leaf s (.mk .map (.vMap len) [])
  else .branch s (2 * len) (2 * intLimit) fun es => .mk .map (.vMap len) es

/-- The switch of `codec_binc_decode_r`, which has no default. -/
def codecBincDecodeSwitch (b : Input) (s : CodecDecodeState) (v : Decoded)
    (vd : CodecBincDescType) (vs : Nat) : Step CodecDecodeState Decoded :=
  match vd with
  | .special => codecBincDecodeSpecial s v vs
  | .smallint => .leaf s (.mk .posInt (.vUint64 (UInt64.ofNat (vs + 1))) [])
  | .posint => codecBincDecodeInt b s vs .posInt
  | .negint => codecBincDecodeInt b s vs .negInt
  | .float =>
    let (s, bits) := codecBincDecodeFloat b s vs
    .leaf s (.mk .float64 (.vFloat64 bits) [])
  | .symbol | .string => codecBincDecodeBytes b s vs .string
  | .bytearray => codecBincDecodeBytes b s vs .bytes
  | .timestamp => .leaf (s.fail "TIMESTAMP NOT SUPPORTED") v
  | .customext => codecBincDecodeExt b s vs
  | .array => codecBincDecodeArray b s vs
  | .map => codecBincDecodeMap b s vs
  | .unicodeother | .decimal | .openslot1 | .openslot2 => .leaf s v

def codecBincDecodeHead (b : Input) (s : CodecDecodeState) (v : Decoded) :
    Step CodecDecodeState Decoded :=
  match codecDecodeStateChk b s.enter 1 with
  | (s, true) => .leaf s v
  | (s, false) =>
    let bd := b.get s.pos
    codecBincDecodeSwitch b s.next v (family bd) (nibble bd)

def codecBincScheme (b : Input) : Scheme CodecDecodeState Decoded :=
  decodeScheme (codecBincDecodeHead b)

def codecBincDecodeR (b : Input) (fuel : Nat) (s : CodecDecodeState) (v : Decoded) :
    Outcome CodecDecodeState Decoded :=
  node (codecBincScheme b) fuel s v

/-- The position returned is `pos` of the final state. -/
def codecBincDecode (b : Input) (fuel : Nat) (v : Decoded) : Outcome CodecDecodeState Decoded :=
  codecBincDecodeR b fuel .init v

end CcCommon.Codec.Binc
