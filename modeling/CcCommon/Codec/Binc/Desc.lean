/-! # codec/binc.h: the descriptors

A descriptor byte holds a family in its high and a variant in its low nibble. -/

namespace CcCommon.Codec.Binc

set_option autoImplicit false

inductive CodecBincDescType where
  | special | posint | negint | float | string | bytearray | array | map
  | timestamp | smallint | unicodeother | symbol | decimal | openslot1 | openslot2 | customext
  deriving DecidableEq

def CodecBincDescType.toNat : CodecBincDescType → Nat
  | .special => 0
  | .posint => 1
  | .negint => 2
  | .float => 3
  | .string => 4
  | .bytearray => 5
  | .array => 6
  | .map => 7
  | .timestamp => 8
  | .smallint => 9
  | .unicodeother => 10
  | .symbol => 11
  | .decimal => 12
  | .openslot1 => 13
  | .openslot2 => 14
  | .customext => 15

/-- The case labels of `switch(vd)`. -/
def CodecBincDescType.ofNibble : Nat → CodecBincDescType
  | 0 => .special
  | 1 => .posint
  | 2 => .negint
  | 3 => .float
  | 4 => .string
  | 5 => .bytearray
  | 6 => .array
  | 7 => .map
  | 8 => .timestamp
  | 9 => .smallint
  | 10 => .unicodeother
  | 11 => .symbol
  | 12 => .decimal
  | 13 => .openslot1
  | 14 => .openslot2
  | _ => .customext

inductive CodecBincSpecialDescType where
  | nil | false | true | nan | posinf | neginf | zerofloat | zero | negone
  deriving DecidableEq

def CodecBincSpecialDescType.toNat : CodecBincSpecialDescType → Nat
  | .nil => 0
  | .false => 1
  | .true => 2
  | .nan => 3
  | .posinf => 4
  | .neginf => 5
  | .zerofloat => 6
  | .zero => 7
  | .negone => 8

/-- The case labels of `switch(vs)` in the SPECIAL branch, which has no default. -/
def CodecBincSpecialDescType.ofNibble : Nat → Option CodecBincSpecialDescType
  | 0 => some .nil
  | 1 => some .false
  | 2 => some .true
  | 3 => some .nan
  | 4 => some .posinf
  | 5 => some .neginf
  | 6 => some .zerofloat
  | 7 => some .zero
  | 8 => some .negone
  | _ => none

/-- `(uint8_t)vd << 4 | vs` -/
def bincDesc (vd : CodecBincDescType) (vs : Nat) : UInt8 := UInt8.ofNat (vd.toNat <<< 4 ||| vs)

def specialDesc (d : CodecBincSpecialDescType) : UInt8 := bincDesc .special d.toNat

/-- `bd >> 4` -/
def family (bd : UInt8) : CodecBincDescType := .ofNibble (bd.toNat >>> 4)

/-- `bd & 0x0f` -/
def nibble (bd : UInt8) : Nat := bd.toNat &&& 0x0f

theorem nibble_lt (bd : UInt8) : nibble bd < 16 := Nat.lt_of_le_of_lt Nat.and_le_right (by decide)

theorem bincDesc_spec (vd : CodecBincDescType) {vs : Nat} (h : vs < 16) :
    family (bincDesc vd vs) = vd ∧ nibble (bincDesc vd vs) = vs := by
  have hAll : ∀ vs : Fin 16, family (bincDesc vd vs) = vd ∧ nibble (bincDesc vd vs) = vs := by
    cases vd <;> decide
  exact hAll ⟨vs, h⟩

/-- A descriptor is its family and its variant. -/
theorem bincDesc_family_nibble (bd : UInt8) : bincDesc (family bd) (nibble bd) = bd := by
  have hAll : ∀ n : Fin 256,
      bincDesc (family (UInt8.ofNat n)) (nibble (UInt8.ofNat n)) = UInt8.ofNat n := by
    decide +kernel
  simpa using hAll ⟨bd.toNat, bd.toNat_lt⟩

end CcCommon.Codec.Binc
