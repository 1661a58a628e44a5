import CcCommon.Codec.Memory
import CcCommon.Lib.Text
import CcCommon.Util.Slice

/-! # codec/codec.c: codec_value_print

A run is `none` where the C program is undefined, that is where the `int`
counter of a loop overflows. What `%f` gives for a float is the library's, so
it is a parameter: `floatText v` for the node `v`.
-/

namespace CcCommon.Codec

open Util
open Lib.Text (chars numeral)

set_option autoImplicit false

/-- `b->bytes.len += snprintf(&b->bytes.v[b->bytes.len], size, ..)`, where `text` is all that there
is to print: at most `size - 1` characters of it are written, and a NUL behind them, and its whole
length is returned. -/
def snprintf (b : SliceBytes) (size : Nat) (text : List UInt8) : SliceBytes :=
  let b := b.store b.len (text.take (size - 1) ++ [0])
  { b with len := sizeT (b.len + text.length) }

/-- `%hhd` of a `char`, which is signed. -/
def hhd (c : UInt8) : List UInt8 :=
  if c.toNat < 128 then numeral 10 c.toNat else chars ['-'] ++ numeral 10 (256 - c.toNat)

/-- `%0x` of a `char`, which is extended to an `int` with its sign. -/
def hex (c : UInt8) : List UInt8 :=
  numeral 16 (if c.toNat < 128 then c.toNat else 2 ^ 32 - (256 - c.toNat))

/-- The loop over the bytes of a byte string or an extension from `x` on. -/
def codecValuePrintBytes (text : UInt8 → List UInt8) :
    List UInt8 → Nat → SliceBytes → Option SliceBytes
  | [], _, b => some b
  | c :: cs, x, b =>
    let b := snprintf b 3 (text c)
    if x + 1 = intLimit then none else codecValuePrintBytes text cs (x + 1) b

section Print

variable (fresh : Nat → Nat → UInt8) (floatText : CodecValue Placement → List UInt8)

/-- Expand by `k`, and print with a size of `k`. -/
def expandPrint (b : SliceBytes) (k : Nat) (text : List UInt8) : SliceBytes :=
  snprintf (sliceBytesExpand fresh b k) k text

/-- `"%d:"` of `v->type` -/
def printType (b : SliceBytes) (type : CodecValueType) : SliceBytes :=
  expandPrint fresh b 4 (numeral 10 type.toNat ++ chars [':'])

mutual
def codecValuePrintR : CodecValue Placement → SliceBytes → Option SliceBytes
  | .nil m, b =>
    let b := printType fresh b .nil
    -- `vNil` is one byte of the union
    some (expandPrint fresh b 16 (numeral 10 (m.fill.toNat % 256)))
  | .bool _ v, b =>
    let b := printType fresh b .bool
    some (expandPrint fresh b 16 (numeral 10 v.toNat))
  | .posInt _ n, b =>
    let b := printType fresh b .posInt
    some (expandPrint fresh b 16 (numeral 10 n.toNat))
  | .negInt _ n, b =>
    let b := printType fresh b .negInt
    some (expandPrint fresh b 16 (chars ['-'] ++ numeral 10 n.toNat))
  | .float32 m bits, b =>
    let b := printType fresh b .float32
    some (expandPrint fresh b 16 (floatText (.float32 m bits)))
  | .float64 m bits, b =>
    let b := printType fresh b .float64
    some (expandPrint fresh b 16 (floatText (.float64 m bits)))
  | .string _ p, b =>
    let b := printType fresh b .string
    some (sliceBytesAppend fresh b p)
  | .bytes _ p, b =>
    let b := printType fresh b .bytes
    let b := sliceBytesExpand fresh b (sizeT (p.length * 2 + 8))
    let b := snprintf b 3 (chars ['0', 'x'])
    codecValuePrintBytes hhd p 0 b
  | .array _ vs, b =>
    let b := printType fresh b .array
    let b := expandPrint fresh b 3 (chars ['[', ' '])
    match codecValuePrintList vs 0 b with
    | none => none
    | some b => some (expandPrint fresh b 3 (chars [' ', ']']))
  | .map _ kvs, b =>
    let b := printType fresh b .map
    let b := expandPrint fresh b 3 (chars ['\x7b', ' '])
    match codecValuePrintPairs kvs 0 b with
    | none => none
    | some b => some (expandPrint fresh b 3 (chars [' ', '\x7d']))
  | .customExt _ tag p, b =>
    let b := printType fresh b .customExt
    let b := expandPrint fresh b 3 (chars ['(', ' '])
    let b := expandPrint fresh b 12
      (chars ['0', 'x'] ++ numeral 16 tag.toNat ++ chars [',', ' ', '0', 'x'])
    let b := sliceBytesExpand fresh b (sizeT (p.length * 2 + 8))
    match codecValuePrintBytes hex p 0 b with
    | none => none
    | some b => some (expandPrint fresh b 3 (chars [' ', ')']))

/-- The loop over `vArray.v[i..]`. -/
def codecValuePrintList : List (CodecValue Placement) → Nat → SliceBytes → Option SliceBytes
  | [], _, b => some b
  | v :: vs, i, b =>
    let b := if i ≠ 0 then expandPrint fresh b 3 (chars [',', ' ']) else b
    match codecValuePrintR v b with
    | none => none
    | some b => if i + 1 = intLimit then none else codecValuePrintList vs (i + 1) b

/-- The loop over `vMap.v[i..]`. -/
def codecValuePrintPairs :
    List (CodecValue Placement × CodecValue Placement) → Nat → SliceBytes → Option SliceBytes
  | [], _, b => some b
  | (k, v) :: kvs, i, b =>
    let b := if i ≠ 0 then expandPrint fresh b 3 (chars [',', ' ']) else b
    match codecValuePrintR k b with
    | none => none
    | some b =>
      let b := expandPrint fresh b 4 (chars [' ', '=', ' '])
      match codecValuePrintR v b with
      | none => none
      | some b => if i + 1 = intLimit then none else codecValuePrintPairs kvs (i + 1) b
end

def codecValuePrint (v : CodecValue Placement) (b : SliceBytes) : Option SliceBytes :=
  match codecValuePrintR fresh floatText v b with
  | none => none
  | some b =>
    let b := sliceBytesAppend fresh b [0]
    some { b with len := sizeT (b.len + (2 ^ 64 - 1)) }

end Print

end CcCommon.Codec
