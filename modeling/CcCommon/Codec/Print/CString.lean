import CcCommon.Codec.Print.Value
import CcCommon.Util.Slice.Operations

/-! # When a print is a C string

The room for a text is a constant: 16 bytes for an integer of up to 20 digits,
3 for a byte of up to 4 characters in decimal and up to 8 in hexadecimal.
-/

namespace CcCommon.Codec

open Util CodecValue
open Lib.Text

set_option autoImplicit false

/-- No float, and no NUL in a string. -/
def TextOnly : CodecValue Placement → Prop
  | .float32 _ _ | .float64 _ _ => False
  | .string _ p => 0 ∉ p
  | _ => True

/-- Every text is shorter than the room for it, and no `int` counter overflows. -/
def Printable : CodecValue Placement → Prop
  | .posInt _ n => n.toNat < 10 ^ 15
  | .negInt _ n => n.toNat < 10 ^ 14
  | .bytes _ p => p.length < intLimit ∧ ∀ c ∈ p, c.toNat < 100 ∨ 247 ≤ c.toNat
  | .customExt _ _ p => p.length < intLimit ∧ ∀ c ∈ p, c.toNat < 128
  | .array _ vs => vs.length < intLimit
  | .map _ kvs => kvs.length < intLimit
  | _ => True

/-! ## Bytes as text -/

theorem zero_not_mem_hhd (c : UInt8) : 0 ∉ hhd c := by
  have hNumeral (n : Nat) : 0 ∉ numeral 10 n := zero_not_mem_numeral (by decide) n
  rw [hhd]
  split
  · exact hNumeral _
  · rw [List.mem_append, not_or]
    exact ⟨by decide, hNumeral _⟩

theorem hhd_length_pos (c : UInt8) : 0 < (hhd c).length := by
  rw [hhd]
  split
  · exact numeral_length_pos _ _
  · exact Nat.succ_pos _

/-- Two characters are enough from -9 to 99. -/
theorem hhd_length_lt_iff (c : UInt8) :
    (hhd c).length < 3 ↔ c.toNat < 100 ∨ 247 ≤ c.toNat := by
  have hByte : c.toNat < 256 := c.toNat_lt
  rw [hhd]
  split
  · rw [Nat.lt_succ_iff, numeral_length_le_iff (by decide) (by decide)]
    omega
  · have hDigits := numeral_length_le_iff (b := 10) (n := 256 - c.toNat) (k := 1) (by decide)
      Nat.one_pos
    have hSign : (chars ['-']).length = 1 := rfl
    rw [List.length_append, hSign, Nat.lt_succ_iff]
    omega

theorem zero_not_mem_hex (c : UInt8) : 0 ∉ hex c := zero_not_mem_numeral (by decide) _

theorem hex_length_pos (c : UInt8) : 0 < (hex c).length := numeral_length_pos _ _

theorem hex_length_lt_iff (c : UInt8) : (hex c).length < 3 ↔ c.toNat < 128 := by
  have hByte : c.toNat < 256 := c.toNat_lt
  rw [hex, Nat.lt_succ_iff, numeral_length_le_iff (by decide) (by decide)]
  split <;> omega

/-! ## The pieces are sound -/

theorem piece_text (k : Nat) (text : List UInt8) : (piece k text).text = text :=
  List.append_nil text

theorem piece_sound {k : Nat} {text : List UInt8} (hPos : 0 < k) (hSmall : k ≤ 16)
    (hNul : 0 ∉ text) : (piece k text).Sound where
  noNul := by
    rw [piece_text]
    exact hNul
  sizes := by
    rintro k' texts ⟨⟩ t ht
    rw [List.mem_singleton.mp ht]
    exact hPos
  room := by
    rintro k' texts ⟨⟩ hWhole -
    have hLess : text.length < k := hWhole _ List.mem_cons_self
    rw [piece_text]
    exact hLess
  modest := by
    rintro k' texts ⟨⟩
    omega

theorem piece_whole_iff {k : Nat} {text : List UInt8} :
    (piece k text).Whole ↔ text.length < k := by
  simp [piece, Piece.Whole]

theorem append_sound {p : List UInt8} (hNul : 0 ∉ p) : (Piece.append p).Sound where
  noNul := hNul
  sizes := by rintro k texts ⟨⟩
  room := by rintro k texts ⟨⟩
  modest := by rintro k texts ⟨⟩

theorem overflowIf_sound (n : Nat) : ∀ pc ∈ overflowIf n, pc.Sound := by
  rw [overflowIf]
  split
  · simp
  · rintro pc hpc
    rw [List.mem_singleton.mp hpc]
    exact ⟨by simp [Piece.text], by rintro k texts ⟨⟩, by rintro k texts ⟨⟩, by rintro k texts ⟨⟩⟩

theorem overflowIf_whole_iff (n : Nat) : (∀ pc ∈ overflowIf n, pc.Whole) ↔ n < intLimit := by
  rw [overflowIf]
  split
  · simp [*]
  · simp [*, Piece.Whole]

section Payload

variable {before : List (Nat × List UInt8)} {text : UInt8 → List UInt8} {p : List UInt8}

theorem le_flatMap_length (hPos : ∀ c, 0 < (text c).length) (p : List UInt8) :
    p.length ≤ (p.flatMap text).length := by
  induction p with
  | nil => exact Nat.le_refl _
  | cons c p ih =>
    have hFirst := hPos c
    rw [List.flatMap_cons, List.length_append, List.length_cons]
    omega

theorem flatMap_length_le {k : Nat} (h : ∀ c ∈ p, (text c).length ≤ k) :
    (p.flatMap text).length ≤ p.length * k := by
  induction p with
  | nil => exact Nat.zero_le _
  | cons c p ih =>
    have hFirst := h c List.mem_cons_self
    have hRest := ih fun c' hc' => h c' (List.mem_cons_of_mem _ hc')
    rw [List.flatMap_cons, List.length_append, List.length_cons, Nat.succ_mul]
    omega

theorem payloadPiece_text :
    (payloadPiece before text p).text = before.flatMap Prod.snd ++ p.flatMap text := by
  rw [payloadPiece, Piece.text, List.flatMap_append, List.flatMap_map]

theorem payloadPiece_whole_iff : (payloadPiece before text p).Whole ↔
    (∀ t ∈ before, t.2.length < t.1) ∧ ∀ c ∈ p, (text c).length < 3 := by
  rw [payloadPiece, Piece.Whole, List.forall_mem_append, List.forall_mem_map]

/-- Two bytes for each character, and eight more. -/
theorem payloadPiece_sound (hSizes : ∀ t ∈ before, 0 < t.1)
    (hBefore : 0 ∉ before.flatMap Prod.snd) (hShort : (before.flatMap Prod.snd).length < 8)
    (hNul : ∀ c, 0 ∉ text c) (hPos : ∀ c, 0 < (text c).length) :
    (payloadPiece before text p).Sound where
  noNul := by
    rw [payloadPiece_text, List.mem_append, not_or]
    refine ⟨hBefore, ?_⟩
    intro hMem
    obtain ⟨c, -, hc⟩ := List.mem_flatMap.mp hMem
    exact hNul c hc
  sizes := by
    rintro k texts ⟨⟩ t ht
    rcases List.mem_append.mp ht with ht | ht
    · exact hSizes t ht
    · obtain ⟨c, -, rfl⟩ := List.mem_map.mp ht
      exact Nat.succ_pos 2
  room := by
    rintro k texts ⟨⟩ hWhole hFit
    have hTwo : (p.flatMap text).length ≤ p.length * 2 :=
      flatMap_length_le fun c hc => Nat.le_of_lt_succ ((payloadPiece_whole_iff.mp hWhole).2 c hc)
    have hLess := le_flatMap_length hPos p
    rw [payloadPiece_text, List.length_append] at hFit ⊢
    rw [sizeT, Nat.mod_eq_of_lt (by omega)]
    omega
  modest := by
    rintro k texts ⟨⟩
    have hLess := le_flatMap_length hPos p
    have hMod := Nat.mod_le (p.length * 2 + 8) (2 ^ 64)
    rw [payloadPiece_text, List.length_append, sizeT]
    omega

end Payload

/-! ## The pieces of a value -/

section Value

variable {floatText : CodecValue Placement → List UInt8} {v : CodecValue Placement}

theorem typePiece_sound (type : CodecValueType) : (typePiece type).Sound := by
  apply piece_sound (by decide) (by decide)
  rw [List.mem_append, not_or]
  exact ⟨zero_not_mem_numeral (by decide) _, by decide⟩

theorem typePiece_whole (type : CodecValueType) : (typePiece type).Whole := by
  apply piece_whole_iff.mpr
  cases type <;> decide

theorem numeralPiece_sound (n : Nat) : (piece 16 (numeral 10 n)).Sound :=
  piece_sound (by decide) (by decide) (zero_not_mem_numeral (by decide) n)

theorem numeralPiece_whole_iff (n : Nat) :
    (piece 16 (numeral 10 n)).Whole ↔ n < 10 ^ 15 := by
  rw [piece_whole_iff, Nat.lt_succ_iff, numeral_length_le_iff (by decide) (by decide)]

theorem signPiece_sound (n : Nat) : (piece 16 (chars ['-'] ++ numeral 10 n)).Sound := by
  apply piece_sound (by decide) (by decide)
  rw [List.mem_append, not_or]
  exact ⟨by decide, zero_not_mem_numeral (by decide) n⟩

theorem signPiece_whole_iff (n : Nat) :
    (piece 16 (chars ['-'] ++ numeral 10 n)).Whole ↔ n < 10 ^ 14 := by
  have hDigits : (numeral 10 n).length ≤ 14 ↔ n < 10 ^ 14 :=
    numeral_length_le_iff (by decide) (by decide)
  have hSign : (chars ['-']).length = 1 := rfl
  rw [piece_whole_iff, List.length_append, hSign, ← hDigits]
  omega

theorem bracket_sound {text : List UInt8} (hNul : 0 ∉ text) : (piece 3 text).Sound :=
  piece_sound (by decide) (by decide) hNul

theorem tagPiece_sound (tag : UInt8) : (piece 12 (chars ['0', 'x'] ++ numeral 16 tag.toNat ++
    chars [',', ' ', '0', 'x'])).Sound := by
  apply piece_sound (by decide) (by decide)
  rw [List.mem_append, List.mem_append, not_or, not_or]
  exact ⟨⟨by decide, zero_not_mem_numeral (by decide) _⟩, by decide⟩

theorem tagPiece_whole (tag : UInt8) : (piece 12 (chars ['0', 'x'] ++ numeral 16 tag.toNat ++
    chars [',', ' ', '0', 'x'])).Whole := by
  have hDigits : (numeral 16 tag.toNat).length ≤ 2 :=
    (numeral_length_le_iff (by decide) (by decide)).mpr tag.toNat_lt
  have hBefore : (chars ['0', 'x']).length = 2 := rfl
  have hBehind : (chars [',', ' ', '0', 'x']).length = 4 := rfl
  rw [piece_whole_iff, List.length_append, List.length_append, hBefore, hBehind]
  omega

theorem bytesPiece_sound (p : List UInt8) : (payloadPiece [(3, chars ['0', 'x'])] hhd p).Sound :=
  payloadPiece_sound (by decide) (by decide) (by decide) zero_not_mem_hhd hhd_length_pos

theorem bytesPiece_whole_iff (p : List UInt8) :
    (payloadPiece [(3, chars ['0', 'x'])] hhd p).Whole ↔
      ∀ c ∈ p, c.toNat < 100 ∨ 247 ≤ c.toNat := by
  simp only [payloadPiece_whole_iff, hhd_length_lt_iff]
  exact and_iff_right (by decide)

theorem extPiece_sound (p : List UInt8) : (payloadPiece [] hex p).Sound :=
  payloadPiece_sound (by simp) (by simp) (by simp) zero_not_mem_hex hex_length_pos

theorem extPiece_whole_iff (p : List UInt8) :
    (payloadPiece [] hex p).Whole ↔ ∀ c ∈ p, c.toNat < 128 := by
  simp only [payloadPiece_whole_iff, hex_length_lt_iff]
  exact and_iff_right (by simp)

theorem ownPieces_sound (h : TextOnly v) : ∀ pc ∈ ownPieces floatText v, pc.Sound := by
  cases v with
  | float32 m bits => exact h.elim
  | float64 m bits => exact h.elim
  | nil m => simp [ownPieces, typePiece_sound, numeralPiece_sound]
  | bool m b => simp [ownPieces, typePiece_sound, numeralPiece_sound]
  | posInt m n => simp [ownPieces, typePiece_sound, numeralPiece_sound]
  | negInt m n => simp [ownPieces, typePiece_sound, signPiece_sound]
  | string m p => simp [ownPieces, typePiece_sound, append_sound h]
  | bytes m p =>
    rw [ownPieces, List.forall_mem_append]
    exact ⟨by simp [typePiece_sound, bytesPiece_sound], overflowIf_sound _⟩
  | array m vs =>
    have hOpen : (piece 3 (chars ['[', ' '])).Sound := bracket_sound (by decide)
    have hClose : (piece 3 (chars [' ', ']'])).Sound := bracket_sound (by decide)
    rw [ownPieces, List.forall_mem_append]
    exact ⟨by simp [typePiece_sound, hOpen, hClose], overflowIf_sound _⟩
  | map m kvs =>
    have hOpen : (piece 3 (chars ['\x7b', ' '])).Sound := bracket_sound (by decide)
    have hClose : (piece 3 (chars [' ', '\x7d'])).Sound := bracket_sound (by decide)
    rw [ownPieces, List.forall_mem_append]
    exact ⟨by simp [typePiece_sound, hOpen, hClose], overflowIf_sound _⟩
  | customExt m tag p =>
    have hOpen : (piece 3 (chars ['(', ' '])).Sound := bracket_sound (by decide)
    have hClose : (piece 3 (chars [' ', ')'])).Sound := bracket_sound (by decide)
    have hTag := tagPiece_sound tag
    rw [ownPieces, List.forall_mem_append, List.forall_mem_append]
    exact ⟨⟨by simp [typePiece_sound, hOpen, hTag, extPiece_sound, -List.append_assoc],
      overflowIf_sound _⟩, by simp [hClose]⟩

theorem ownPieces_whole_iff (h : TextOnly v) :
    (∀ pc ∈ ownPieces floatText v, pc.Whole) ↔ Printable v := by
  have hShort {n : Nat} (hn : n < 256) : (piece 16 (numeral 10 n)).Whole :=
    (numeralPiece_whole_iff n).mpr (by omega)
  cases v with
  | float32 m bits => exact h.elim
  | float64 m bits => exact h.elim
  | nil m =>
    have hByte := hShort (Nat.mod_lt m.fill.toNat (by decide))
    simp [ownPieces, typePiece_whole, Printable, hByte]
  | bool m b =>
    have hBit := hShort (Nat.lt_of_le_of_lt b.toNat_le (by decide))
    simp [ownPieces, typePiece_whole, Printable, hBit]
  | posInt m n => simp [ownPieces, typePiece_whole, Printable, numeralPiece_whole_iff]
  | negInt m n => simp [ownPieces, typePiece_whole, Printable, signPiece_whole_iff]
  | string m p =>
    have hAppend : (Piece.append p).Whole := trivial
    simp [ownPieces, typePiece_whole, Printable, hAppend]
  | bytes m p =>
    rw [ownPieces, List.forall_mem_append, overflowIf_whole_iff, Printable, and_comm]
    simp [typePiece_whole, bytesPiece_whole_iff]
  | array m vs =>
    have hOpen : (piece 3 (chars ['[', ' '])).Whole := piece_whole_iff.mpr (by decide)
    have hClose : (piece 3 (chars [' ', ']'])).Whole := piece_whole_iff.mpr (by decide)
    rw [ownPieces, List.forall_mem_append, overflowIf_whole_iff, Printable]
    simp [typePiece_whole, hOpen, hClose]
  | map m kvs =>
    have hOpen : (piece 3 (chars ['\x7b', ' '])).Whole := piece_whole_iff.mpr (by decide)
    have hClose : (piece 3 (chars [' ', '\x7d'])).Whole := piece_whole_iff.mpr (by decide)
    rw [ownPieces, List.forall_mem_append, overflowIf_whole_iff, Printable]
    simp [typePiece_whole, hOpen, hClose]
  | customExt m tag p =>
    have hOpen : (piece 3 (chars ['(', ' '])).Whole := piece_whole_iff.mpr (by decide)
    have hClose : (piece 3 (chars [' ', ')'])).Whole := piece_whole_iff.mpr (by decide)
    have hTag := tagPiece_whole tag
    rw [ownPieces, List.forall_mem_append, List.forall_mem_append, overflowIf_whole_iff, Printable]
    simp [typePiece_whole, hOpen, hClose, hTag, extPiece_whole_iff, and_comm, -List.append_assoc]

theorem pieces_sound (h : v.All TextOnly) : ∀ pc ∈ pieces floatText v, pc.Sound := by
  have hComma : comma.Sound := piece_sound (by decide) (by decide) (by decide)
  have hEquals : equals.Sound := piece_sound (by decide) (by decide) (by decide)
  induction h with
  | node root _ ih => exact (forall_pieces hComma hEquals _).mpr ⟨ownPieces_sound root, ih⟩

theorem pieces_whole_iff (h : v.All TextOnly) :
    (∀ pc ∈ pieces floatText v, pc.Whole) ↔ v.All Printable := by
  have hComma : comma.Whole := piece_whole_iff.mpr (by decide)
  have hEquals : equals.Whole := piece_whole_iff.mpr (by decide)
  induction h with
  | node root _ ih =>
    rw [forall_pieces hComma hEquals, ownPieces_whole_iff root]
    constructor
    · rintro ⟨hRoot, hInner⟩
      exact .node hRoot fun c hc => (ih c hc).mp (hInner c hc)
    · intro hAll
      exact ⟨hAll.root, fun c hc => (ih c hc).mpr (hAll.inner c hc)⟩

end Value

/-! ## The whole print -/

/-- Nothing is written outside, there is a 0 behind the text, and none in it. -/
structure IsCString (b : SliceBytes) : Prop where
  oob : b.oob = false
  terminated : b.Terminated
  zero_not_mem : 0 ∉ b.contents

def PrintsCString (floatText : CodecValue Placement → List UInt8) (v : CodecValue Placement) :
    Prop :=
  ∀ fresh, ∃ b, codecValuePrint fresh floatText v sliceBytesZero = some b ∧ IsCString b

section Main

variable {fresh : Nat → Nat → UInt8} {floatText : CodecValue Placement → List UInt8}

/-- The last step: a 0 is appended, and not included in the length. -/
def terminate (fresh : Nat → Nat → UInt8) (b : SliceBytes) : SliceBytes :=
  let b := sliceBytesAppend fresh b [0]
  { b with len := sizeT (b.len + (2 ^ 64 - 1)) }

theorem codecValuePrint_pieces (v : CodecValue Placement) (b : SliceBytes) :
    codecValuePrint fresh floatText v b =
      (printAll fresh (pieces floatText v) b).map (terminate fresh) := by
  rw [codecValuePrint, codecValuePrintR_pieces]
  cases printAll fresh (pieces floatText v) b <;> rfl

theorem terminate_eq {b : SliceBytes} (hFit : b.len < 2 ^ 61) :
    terminate fresh b = { sliceBytesAppend fresh b [0] with len := b.len } := by
  have hOne : b.len + [(0 : UInt8)].length < 2 ^ 62 := by
    rw [List.length_singleton]
    omega
  have hSize : (b.len + [(0 : UInt8)].length + (2 ^ 64 - 1)) % 2 ^ 64 = b.len := by
    rw [List.length_singleton]
    omega
  rw [terminate]
  dsimp only
  rw [append_len fresh hOne, sizeT, hSize]

theorem terminate_isCString {b : SliceBytes} (hv : b.Valid) (hNul : 0 ∉ b.contents)
    (hFit : b.len < 2 ^ 61) : IsCString (terminate fresh b) := by
  have hFits : b.Fits ([(0 : UInt8)].length + 1) := by
    apply SliceBytes.fits_of_le
    rw [List.length_singleton]
    omega
  obtain ⟨k, -, hAppend⟩ := sliceBytesAppend_eq fresh hv.len_le hFits
  rw [terminate_eq hFit, hAppend]
  have hBody := hv.contents_length
  refine ⟨hv.oob, ⟨?_, ?_⟩, ?_⟩
  · simp only [SliceBytes.cap, List.length_append, List.length_cons, hBody]
    omega
  · dsimp only
    rw [List.append_assoc, List.getElem?_append_right (Nat.le_of_eq hBody), hBody, Nat.sub_self]
    rfl
  · rw [SliceBytes.contents, List.append_assoc]
    dsimp only
    rw [List.take_left' hBody]
    exact hNul

theorem Spoiled.terminate {b : SliceBytes} (h : Spoiled b) (hFit : b.len < 2 ^ 61) :
    Spoiled (terminate fresh b) := by
  have hFits : b.Fits 2 := SliceBytes.fits_of_le (by omega)
  have hLen : (sliceBytesExpand fresh b 2).len = b.len := expand_len fresh hFits
  have hExpand : Spoiled (sliceBytesExpand fresh b 2) := h.expand fresh hFits
  have hTwo : sizeT ([(0 : UInt8)].length + 1) = 2 := rfl
  rw [terminate_eq hFit, sliceBytesAppend, hTwo]
  generalize sliceBytesExpand fresh b 2 = b' at hExpand hLen
  have hOne : sizeT (b'.len + [(0 : UInt8)].length) = b'.len + 1 := by
    rw [List.length_singleton, sizeT, Nat.mod_eq_of_lt (by omega)]
  have hFirst := hExpand.store (Nat.le_refl _) (Nat.le_refl _) [0]
  have hSecond := hFirst.store (i := b'.len + 1) (Nat.le_succ _) (Nat.le_refl _) [0]
  have hStored : (b'.store b'.len [0]).len = b'.len := rfl
  rw [← hLen]
  dsimp only
  rw [hStored, hOne]
  exact hSecond

theorem not_isCString_of_spoiled {b : SliceBytes} (h : Spoiled b) : ¬ IsCString b := by
  rintro ⟨hOob, -, hNul⟩
  rcases h with h | ⟨j, hj, hZero⟩
  · rw [hOob] at h
    cases h
  · apply hNul
    apply List.mem_of_getElem? (i := j)
    rw [SliceBytes.contents, List.getElem?_take_of_lt hj, hZero]

/-- The print is a C string if and only if every integer is below `10 ^ 15`, or `10 ^ 14` after a
sign, every byte of a byte string has two characters, every byte of an extension is below 128, and
every count fits an `int`. -/
theorem codecValuePrint_cString_iff (floatText : CodecValue Placement → List UInt8)
    (v : CodecValue Placement) (hText : v.All TextOnly)
    (hFit : (printed (pieces floatText v)).length < 2 ^ 61) :
    PrintsCString floatText v ↔ v.All Printable := by
  have hSound : ∀ pc ∈ pieces floatText v, pc.Sound := pieces_sound hText
  have hZero : sliceBytesZero.len + (printed (pieces floatText v)).length < 2 ^ 61 := by
    rw [sliceBytesZero, Nat.zero_add]
    exact hFit
  rw [← pieces_whole_iff hText]
  constructor
  · intro hPrints
    by_contra hCut
    simp only [not_forall] at hCut
    obtain ⟨pc, hpc, hCut⟩ := hCut
    obtain ⟨b, hPrint, hString⟩ := hPrints fun _ _ => 0
    rw [codecValuePrint_pieces, Option.map_eq_some_iff] at hPrint
    obtain ⟨b', hAll, rfl⟩ := hPrint
    obtain ⟨hLen, hSpoils⟩ := printAll_spoiled _ hSound hZero hAll
    have hSpoiled := hSpoils (.inr ⟨pc, hpc, hCut⟩)
    exact not_isCString_of_spoiled (hSpoiled.terminate (by rw [hLen]; exact hZero)) hString
  · intro hWhole fresh
    obtain ⟨b, hAll, hExtends⟩ := printAll_whole fresh hSound hWhole sliceBytesZero_valid
      hZero
    have hLen := hExtends.len sliceBytesZero_valid
    refine ⟨terminate fresh b, ?_, ?_⟩
    · rw [codecValuePrint_pieces, hAll]
      rfl
    · apply terminate_isCString hExtends.valid
      · rw [hExtends.contents]
        intro hMem
        obtain ⟨pc, hpc, hMem⟩ := List.mem_flatMap.mp (show 0 ∈ printed (pieces floatText v) from hMem)
        exact (hSound pc hpc).noNul hMem
      · rw [hLen]
        exact hZero

end Main

theorem codecValuePrint_cString_iff_array :
    PrintsCString (fun _ => []) (.array .zero [.posInt .zero 7, .bytes .zero [99, 255]]) ↔
      (CodecValue.array .zero [.posInt .zero 7, .bytes .zero [99, 255]]).All Printable := by
  apply codecValuePrint_cString_iff
  · apply All.node trivial
    intro c hc
    have hLeaf : c = .posInt .zero 7 ∨ c = .bytes .zero [99, 255] := by simpa [children] using hc
    rcases hLeaf with rfl | rfl
    · exact .leaf trivial rfl
    · exact .leaf trivial rfl
  · decide +kernel

/-- The last of 16 digits is cut off, and a NUL is there instead. -/
theorem not_printsCString_sixteenDigits :
    ¬ ∀ (floatText : CodecValue Placement → List UInt8) (v : CodecValue Placement),
      v.All TextOnly → PrintsCString floatText v := by
  intro h
  have hText : (CodecValue.posInt .zero 1000000000000000).All TextOnly :=
    .leaf trivial rfl
  obtain ⟨b, hPrint, hString⟩ := h (fun _ => []) _ hText fun _ _ => 1
  have hCut : (codecValuePrint (fun _ _ => 1) (fun _ => []) (.posInt .zero 1000000000000000)
      sliceBytesZero).any (fun b => b.contents.contains 0) = true := by decide +kernel
  rw [hPrint] at hCut
  exact hString.zero_not_mem (List.contains_iff_mem.mp hCut)

end CcCommon.Codec
