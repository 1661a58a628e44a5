import CcCommon.Codec.Print.Pieces

/-! # The pieces of a value

What `codec_value_print_r` does for a value is to print a list of pieces,
which depends on nothing but the value.
-/

namespace CcCommon.Codec

open Util CodecValue
open Lib.Text

set_option autoImplicit false

/-- Expand by `k`, and print with a size of `k`. -/
def piece (k : Nat) (text : List UInt8) : Piece := .reserve k [(k, text)]

def typePiece (type : CodecValueType) : Piece := piece 4 (numeral 10 type.toNat ++ chars [':'])

def comma : Piece := piece 3 (chars [',', ' '])

def equals : Piece := piece 4 (chars [' ', '=', ' '])

/-- At the end of a loop over `n` elements. -/
def overflowIf (n : Nat) : List Piece := if n < intLimit then [] else [.overflow]

def payloadPiece (before : List (Nat × List UInt8)) (text : UInt8 → List UInt8) (p : List UInt8) :
    Piece :=
  .reserve (sizeT (p.length * 2 + 8)) (before ++ p.map fun c => (3, text c))

section Pieces

variable (floatText : CodecValue Placement → List UInt8)

/-- What the node itself prints, without the elements and the separators. -/
def ownPieces : CodecValue Placement → List Piece
  | .nil m => [typePiece .nil, piece 16 (numeral 10 (m.fill.toNat % 256))]
  | .bool _ v => [typePiece .bool, piece 16 (numeral 10 v.toNat)]
  | .posInt _ n => [typePiece .posInt, piece 16 (numeral 10 n.toNat)]
  | .negInt _ n => [typePiece .negInt, piece 16 (chars ['-'] ++ numeral 10 n.toNat)]
  | .float32 m bits => [typePiece .float32, piece 16 (floatText (.float32 m bits))]
  | .float64 m bits => [typePiece .float64, piece 16 (floatText (.float64 m bits))]
  | .string _ p => [typePiece .string, .append p]
  | .bytes _ p =>
    [typePiece .bytes, payloadPiece [(3, chars ['0', 'x'])] hhd p] ++ overflowIf p.length
  | .array _ vs =>
    [typePiece .array, piece 3 (chars ['[', ' ']), piece 3 (chars [' ', ']'])] ++
      overflowIf vs.length
  | .map _ kvs =>
    [typePiece .map, piece 3 (chars ['\x7b', ' ']), piece 3 (chars [' ', '\x7d'])] ++
      overflowIf kvs.length
  | .customExt _ tag p =>
    [typePiece .customExt, piece 3 (chars ['(', ' ']),
      piece 12 (chars ['0', 'x'] ++ numeral 16 tag.toNat ++ chars [',', ' ', '0', 'x']),
      payloadPiece [] hex p] ++ overflowIf p.length ++ [piece 3 (chars [' ', ')'])]

mutual
def pieces : CodecValue Placement → List Piece
  | .array _ vs =>
    typePiece .array :: piece 3 (chars ['[', ' ']) ::
      (piecesList vs 0 ++ overflowIf vs.length ++ [piece 3 (chars [' ', ']'])])
  | .map _ kvs =>
    typePiece .map :: piece 3 (chars ['\x7b', ' ']) ::
      (piecesPairs kvs 0 ++ overflowIf kvs.length ++ [piece 3 (chars [' ', '\x7d'])])
  | v => ownPieces floatText v

def piecesList : List (CodecValue Placement) → Nat → List Piece
  | [], _ => []
  | v :: vs, i => (if i ≠ 0 then [comma] else []) ++ pieces v ++ piecesList vs (i + 1)

def piecesPairs : List (CodecValue Placement × CodecValue Placement) → Nat → List Piece
  | [], _ => []
  | (k, v) :: kvs, i =>
    (if i ≠ 0 then [comma] else []) ++ pieces k ++ [equals] ++ pieces v ++ piecesPairs kvs (i + 1)
end

end Pieces

section Equation

variable (fresh : Nat → Nat → UInt8) {floatText : CodecValue Placement → List UInt8}

theorem printAll_cons (pc : Piece) (pcs : List Piece) (b : SliceBytes) :
    printAll fresh (pc :: pcs) b = (pc.print fresh b).bind (printAll fresh pcs) := rfl

theorem printAll_overflow (pcs : List Piece) (b : SliceBytes) :
    printAll fresh (pcs ++ [.overflow]) b = none := by
  rw [printAll_append]
  cases printAll fresh pcs b <;> rfl

theorem printBytes_pieces (text : UInt8 → List UInt8) (p : List UInt8) {x : Nat}
    (hx : x < intLimit) (b : SliceBytes) :
    codecValuePrintBytes text p x b =
      printAll fresh (overflowIf (x + p.length))
        ((p.map fun c => (3, text c)).foldl (fun b t => snprintf b t.1 t.2) b) := by
  induction p generalizing x b with
  | nil =>
    rw [codecValuePrintBytes, overflowIf, if_pos (by simpa using hx)]
    rfl
  | cons c p ih =>
    rw [codecValuePrintBytes]
    split
    · rename_i hLimit
      rw [overflowIf, if_neg (by rw [List.length_cons]; omega)]
      rfl
    · rename_i hLimit
      rw [ih (by omega), List.length_cons, Nat.add_right_comm, Nat.add_assoc, List.map_cons,
        List.foldl_cons]

theorem printAll_comma (i : Nat) (b : SliceBytes) :
    printAll fresh (if i ≠ 0 then [comma] else []) b =
      some (if i ≠ 0 then expandPrint fresh b 3 (chars [',', ' ']) else b) := by
  split <;> rfl

theorem printAll_last (pcs : List Piece) (k : Nat) (text : List UInt8) (b : SliceBytes) :
    printAll fresh (pcs ++ [piece k text]) b =
      match printAll fresh pcs b with
      | none => none
      | some b => some (expandPrint fresh b k text) := by
  rw [printAll_append]
  cases printAll fresh pcs b <;> rfl

mutual
theorem codecValuePrintR_pieces :
    ∀ (v : CodecValue Placement) (b : SliceBytes),
      codecValuePrintR fresh floatText v b = printAll fresh (pieces floatText v) b
  | .nil _, _ | .bool _ _, _ | .posInt _ _, _ | .negInt _ _, _ | .float32 _ _, _
  | .float64 _ _, _ | .string _ _, _ => rfl
  | .bytes _ p, b => by
    have hLimit : 0 < intLimit := by decide
    have hLoop (b : SliceBytes) := printBytes_pieces fresh hhd p hLimit b
    rw [Nat.zero_add] at hLoop
    rw [codecValuePrintR, hLoop]
    rfl
  | .customExt _ tag p, b => by
    have hLimit : 0 < intLimit := by decide
    have hLoop (b : SliceBytes) := printBytes_pieces fresh hex p hLimit b
    rw [Nat.zero_add] at hLoop
    rw [codecValuePrintR, hLoop]
    exact (printAll_last fresh (overflowIf p.length) 3 _ _).symm
  | .array _ vs, b => by
    have hLimit : 0 < intLimit := by decide
    have hLoop (b : SliceBytes) := codecValuePrintList_pieces vs hLimit b
    rw [Nat.zero_add] at hLoop
    rw [codecValuePrintR, hLoop]
    exact (printAll_last fresh (piecesList floatText vs 0 ++ overflowIf vs.length) 3 _ _).symm
  | .map _ kvs, b => by
    have hLimit : 0 < intLimit := by decide
    have hLoop (b : SliceBytes) := codecValuePrintPairs_pieces kvs hLimit b
    rw [Nat.zero_add] at hLoop
    rw [codecValuePrintR, hLoop]
    exact (printAll_last fresh (piecesPairs floatText kvs 0 ++ overflowIf kvs.length) 3 _ _).symm

theorem codecValuePrintList_pieces :
    ∀ (vs : List (CodecValue Placement)) {i : Nat} (_ : i < intLimit) (b : SliceBytes),
      codecValuePrintList fresh floatText vs i b =
        printAll fresh (piecesList floatText vs i ++ overflowIf (i + vs.length)) b
  | [], i, hi, b => by
    rw [codecValuePrintList, overflowIf, if_pos (by simpa using hi)]
    rfl
  | v :: vs, i, hi, b => by
    rw [codecValuePrintList, codecValuePrintR_pieces v, piecesList, List.append_assoc,
      List.append_assoc, printAll_append, printAll_comma, Option.bind_some, printAll_append,
      List.length_cons]
    cases printAll fresh (pieces floatText v)
        (if i ≠ 0 then expandPrint fresh b 3 (chars [',', ' ']) else b) with
    | none => rfl
    | some b' =>
      rw [Option.bind_some]
      dsimp only
      split
      · rw [overflowIf, if_neg (by omega), printAll_overflow]
      · rw [codecValuePrintList_pieces vs (by omega), Nat.add_assoc, Nat.add_comm 1]

theorem codecValuePrintPairs_pieces :
    ∀ (kvs : List (CodecValue Placement × CodecValue Placement)) {i : Nat} (_ : i < intLimit)
      (b : SliceBytes),
      codecValuePrintPairs fresh floatText kvs i b =
        printAll fresh (piecesPairs floatText kvs i ++ overflowIf (i + kvs.length)) b
  | [], i, hi, b => by
    rw [codecValuePrintPairs, overflowIf, if_pos (by simpa using hi)]
    rfl
  | (k, v) :: kvs, i, hi, b => by
    rw [codecValuePrintPairs, codecValuePrintR_pieces k, piecesPairs]
    simp only [List.append_assoc]
    rw [printAll_append, printAll_comma, Option.bind_some, printAll_append, List.length_cons]
    cases printAll fresh (pieces floatText k)
        (if i ≠ 0 then expandPrint fresh b 3 (chars [',', ' ']) else b) with
    | none => rfl
    | some b' =>
      have hEquals : equals.print fresh b' = some (expandPrint fresh b' 4 (chars [' ', '=', ' '])) :=
        rfl
      rw [Option.bind_some, List.singleton_append, printAll_cons, hEquals, Option.bind_some,
        printAll_append]
      dsimp only
      rw [codecValuePrintR_pieces v]
      cases printAll fresh (pieces floatText v)
          (expandPrint fresh b' 4 (chars [' ', '=', ' '])) with
      | none => rfl
      | some b'' =>
        rw [Option.bind_some]
        dsimp only
        split
        · rw [overflowIf, if_neg (by omega), printAll_overflow]
        · rw [codecValuePrintPairs_pieces kvs (by omega), Nat.add_assoc, Nat.add_comm 1]
end

end Equation

section Nodes

variable {floatText : CodecValue Placement → List UInt8} {P : Piece → Prop}

theorem forall_before (hComma : P comma) (i : Nat) :
    (∀ pc ∈ (if i ≠ 0 then [comma] else []), P pc) ↔ True := by
  split <;> simp [hComma]

theorem forall_piecesList (hComma : P comma) (vs : List (CodecValue Placement)) (i : Nat) :
    (∀ pc ∈ piecesList floatText vs i, P pc) ↔
      ∀ c ∈ vs, ∀ pc ∈ pieces floatText c, P pc := by
  induction vs generalizing i with
  | nil => simp [piecesList]
  | cons v vs ih =>
    rw [piecesList, List.forall_mem_append, List.forall_mem_append, List.forall_mem_cons, ih,
      forall_before hComma, true_and]

theorem forall_piecesPairs (hComma : P comma) (hEquals : P equals)
    (kvs : List (CodecValue Placement × CodecValue Placement)) (i : Nat) :
    (∀ pc ∈ piecesPairs floatText kvs i, P pc) ↔
      ∀ c ∈ entries kvs, ∀ pc ∈ pieces floatText c, P pc := by
  induction kvs generalizing i with
  | nil => simp [piecesPairs, entries]
  | cons kv kvs ih =>
    obtain ⟨k, v⟩ := kv
    simp only [piecesPairs, entries, List.forall_mem_append, List.forall_mem_cons, ih,
      forall_before hComma, hEquals, List.not_mem_nil, IsEmpty.forall_iff, implies_true, true_and,
      and_assoc]

/-- What holds of the separators holds of all pieces if it holds of every node's own. -/
theorem forall_pieces (hComma : P comma) (hEquals : P equals) (v : CodecValue Placement) :
    (∀ pc ∈ pieces floatText v, P pc) ↔
      (∀ pc ∈ ownPieces floatText v, P pc) ∧
        ∀ c ∈ v.children, ∀ pc ∈ pieces floatText c, P pc := by
  cases v with
  | array m vs =>
    simp only [pieces, ownPieces, children, List.forall_mem_append, List.forall_mem_cons,
      forall_piecesList hComma]
    tauto
  | map m kvs =>
    simp only [pieces, ownPieces, children, List.forall_mem_append, List.forall_mem_cons,
      forall_piecesPairs hComma hEquals]
    tauto
  | _ => simp [pieces, children]

end Nodes

end CcCommon.Codec
