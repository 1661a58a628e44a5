import CcCommon.Codec.Print

/-! # Printing piece by piece

A print is a list of pieces, each of which reserves so much room and prints
texts into it. A text that is cut off leaves its NUL inside the print, where
nothing that follows overwrites it.
-/

namespace CcCommon.Codec

open Util

set_option autoImplicit false

/-! ## Pieces -/

inductive Piece where
  /-- Expand by `k`, and print each text with the size given for it. -/
  | reserve (k : Nat) (texts : List (Nat × List UInt8))
  | append (p : List UInt8)
  /-- An `int` counter overflows. -/
  | overflow

namespace Piece

/-- What the piece prints if nothing is cut off. -/
def text : Piece → List UInt8
  | reserve _ texts => texts.flatMap Prod.snd
  | append p => p
  | overflow => []

def print (fresh : Nat → Nat → UInt8) : Piece → SliceBytes → Option SliceBytes
  | reserve k texts, b =>
    some (texts.foldl (fun b t => snprintf b t.1 t.2) (sliceBytesExpand fresh b k))
  | append p, b => some (sliceBytesAppend fresh b p)
  | overflow, _ => none

/-- Nothing is cut off. -/
def Whole : Piece → Prop
  | reserve _ texts => ∀ t ∈ texts, t.2.length < t.1
  | append _ => True
  | overflow => False

/-- No text has a NUL in it, the room is enough if nothing is cut off, and it is no more than is
reasonable. -/
structure Sound (pc : Piece) : Prop where
  noNul : 0 ∉ pc.text
  sizes : ∀ k texts, pc = reserve k texts → ∀ t ∈ texts, 0 < t.1
  room : ∀ k texts, pc = reserve k texts → pc.Whole → pc.text.length < 2 ^ 61 →
    pc.text.length + 1 ≤ k
  modest : ∀ k texts, pc = reserve k texts → k ≤ 2 * pc.text.length + 16

end Piece

def printAll (fresh : Nat → Nat → UInt8) : List Piece → SliceBytes → Option SliceBytes
  | [], b => some b
  | pc :: pcs, b => (pc.print fresh b).bind (printAll fresh pcs)

/-- What the pieces print if nothing is cut off. -/
def printed (pcs : List Piece) : List UInt8 := pcs.flatMap Piece.text

theorem printAll_append (fresh : Nat → Nat → UInt8) (pcs pcs' : List Piece) (b : SliceBytes) :
    printAll fresh (pcs ++ pcs') b = (printAll fresh pcs b).bind (printAll fresh pcs') := by
  induction pcs generalizing b with
  | nil => rfl
  | cons pc pcs ih =>
    rw [List.cons_append, printAll, printAll]
    cases pc.print fresh b with
    | none => rfl
    | some b' => exact ih b'

/-! ## Whole texts -/

section Whole

variable (fresh : Nat → Nat → UInt8) {v : SliceBytes}

theorem snprintf_eq {size : Nat} {text : List UInt8} (hWhole : text.length < size)
    (hRoom : v.len + text.length + 1 ≤ v.cap) (hFit : v.len + text.length < 2 ^ 64) :
    snprintf v size text = ⟨v.contents ++ text ++ 0 :: v.mem.drop (v.len + text.length + 1),
      v.len + text.length, v.oob⟩ := by
  have hTake : text.take (size - 1) = text := List.take_of_length_le (by omega)
  have hSize : sizeT (v.len + text.length) = v.len + text.length := Nat.mod_eq_of_lt hFit
  have hStore : v.len + (text ++ [0]).length ≤ v.cap := by
    rw [List.length_append]
    exact hRoom
  rw [snprintf, hTake, SliceBytes.store_eq hStore]
  dsimp only
  rw [hSize, List.length_append, List.length_singleton, ← Nat.add_assoc, ← List.append_assoc,
    List.append_assoc (List.take v.len v.mem ++ text)]
  rfl

theorem snprintf_whole (hv : v.Valid) {size : Nat} {text : List UInt8}
    (hWhole : text.length < size) (hRoom : v.len + text.length + 1 ≤ v.cap)
    (hFit : v.len + text.length < 2 ^ 64) :
    Extends v (snprintf v size text) text ∧ (snprintf v size text).cap = v.cap := by
  rw [snprintf_eq hWhole hRoom hFit]
  refine ⟨Extends.of_body hv, ?_⟩
  have hMem : v.mem.length = v.cap := rfl
  simp only [SliceBytes.cap, List.length_append, hv.contents_length, List.length_cons,
    List.length_drop]
  omega

/-- Texts that are not cut off, in room that has been reserved. -/
theorem prints_whole {texts : List (Nat × List UInt8)} (hv : v.Valid)
    (hWhole : ∀ t ∈ texts, t.2.length < t.1)
    (hRoom : v.len + (texts.flatMap Prod.snd).length + 1 ≤ v.cap)
    (hFit : v.len + (texts.flatMap Prod.snd).length < 2 ^ 64) :
    Extends v (texts.foldl (fun b t => snprintf b t.1 t.2) v) (texts.flatMap Prod.snd) := by
  induction texts generalizing v with
  | nil => exact Extends.refl hv
  | cons t texts ih =>
    rw [List.flatMap_cons, List.length_append] at hRoom hFit
    obtain ⟨hFirst, hCap⟩ := snprintf_whole hv (hWhole t List.mem_cons_self) (by omega) (by omega)
    have hLen := hFirst.len hv
    rw [List.foldl_cons, List.flatMap_cons]
    apply hFirst.trans
    apply ih hFirst.valid fun t' ht' => hWhole t' (List.mem_cons_of_mem _ ht')
    · rw [hLen, hCap]
      omega
    · rw [hLen]
      omega

theorem Piece.Sound.prints {pc : Piece} (hSound : pc.Sound) (hWhole : pc.Whole) (hv : v.Valid)
    (hFit : v.len + pc.text.length < 2 ^ 61) :
    ∃ v', pc.print fresh v = some v' ∧ Extends v v' pc.text := by
  cases pc with
  | reserve k texts =>
    have hRoom := hSound.room k texts rfl hWhole (by omega)
    have hModest := hSound.modest k texts rfl
    obtain ⟨hExpand, hLen, hCap⟩ := sliceBytesExpand_spec fresh hv k (by omega)
    refine ⟨_, rfl, ?_⟩
    apply hExpand.trans
    apply prints_whole hExpand.valid hWhole
    · rw [hLen]
      rw [text] at hRoom
      omega
    · rw [hLen]
      rw [text] at hFit
      omega
  | append p => exact ⟨_, rfl, sliceBytesAppend_spec fresh hv p (by rw [text] at hFit; omega)⟩
  | overflow => exact hWhole.elim

theorem printAll_whole {pcs : List Piece} (hSound : ∀ pc ∈ pcs, pc.Sound)
    (hWhole : ∀ pc ∈ pcs, pc.Whole) (hv : v.Valid)
    (hFit : v.len + (printed pcs).length < 2 ^ 61) :
    ∃ v', printAll fresh pcs v = some v' ∧ Extends v v' (printed pcs) := by
  induction pcs generalizing v with
  | nil => exact ⟨v, rfl, Extends.refl hv⟩
  | cons pc pcs ih =>
    rw [printed, List.flatMap_cons, List.length_append] at hFit
    obtain ⟨v', hPrint, hFirst⟩ := (hSound pc List.mem_cons_self).prints fresh
      (hWhole pc List.mem_cons_self) hv (by omega)
    obtain ⟨v'', hRest, hSecond⟩ := ih (fun pc' h => hSound pc' (List.mem_cons_of_mem _ h))
      (fun pc' h => hWhole pc' (List.mem_cons_of_mem _ h)) hFirst.valid
      (by rw [hFirst.len hv, printed]; omega)
    refine ⟨v'', ?_, hFirst.trans hSecond⟩
    rw [printAll, hPrint]
    exact hRest

end Whole

/-! ## A text that is cut off -/

/-- A byte was stored outside, or there is a NUL before the end. -/
def Spoiled (v : SliceBytes) : Prop := v.oob = true ∨ ∃ j < v.len, v.mem[j]? = some 0

section Spoiled

variable (fresh : Nat → Nat → UInt8) {v : SliceBytes}

theorem Spoiled.store (h : Spoiled v) {i n : Nat} (hi : v.len ≤ i) (hn : v.len ≤ n)
    (bs : List UInt8) : Spoiled { v.store i bs with len := n } := by
  rcases h with hOob | ⟨j, hj, hZero⟩
  · left
    rw [SliceBytes.store, hOob]
    rfl
  · right
    have hLess : j < v.cap := (List.getElem?_eq_some_iff.mp hZero).1
    refine ⟨j, by dsimp only; omega, ?_⟩
    have hTake : j < (v.mem.take i).length := by
      rw [List.length_take]
      exact lt_min (by omega) hLess
    rw [SliceBytes.store]
    dsimp only
    rw [List.getElem?_take_of_lt hLess, List.append_assoc, List.getElem?_append_left hTake,
      List.getElem?_take_of_lt (by omega), hZero]

theorem expand_len {n : Nat} (hFit : v.Fits n) : (sliceBytesExpand fresh v n).len = v.len := by
  obtain ⟨k, -, hExpand⟩ := sliceBytesExpand_eq fresh hFit
  rw [hExpand]

theorem Spoiled.expand (h : Spoiled v) {n : Nat} (hFit : v.Fits n) :
    Spoiled (sliceBytesExpand fresh v n) := by
  obtain ⟨k, -, hExpand⟩ := sliceBytesExpand_eq fresh hFit
  rw [hExpand]
  rcases h with hOob | ⟨j, hj, hZero⟩
  · exact .inl hOob
  · right
    refine ⟨j, hj, ?_⟩
    dsimp only
    rw [grown, List.getElem?_append_left (List.getElem?_eq_some_iff.mp hZero).1, hZero]

theorem snprintf_len {size : Nat} {text : List UInt8} (hFit : v.len + text.length < 2 ^ 64) :
    (snprintf v size text).len = v.len + text.length := Nat.mod_eq_of_lt hFit

theorem Spoiled.snprintf (h : Spoiled v) {size : Nat} {text : List UInt8}
    (hFit : v.len + text.length < 2 ^ 64) : Spoiled (snprintf v size text) := by
  have hLen : sizeT (v.len + text.length) = v.len + text.length := Nat.mod_eq_of_lt hFit
  apply h.store (Nat.le_refl _)
  show v.len ≤ sizeT (v.len + text.length)
  rw [hLen]
  exact Nat.le_add_right _ _

/-- The NUL stands before the end of the text, or outside. -/
theorem spoiled_snprintf {size : Nat} {text : List UInt8} (hPos : 0 < size)
    (hCut : size ≤ text.length) (hFit : v.len + text.length < 2 ^ 64) :
    Spoiled (snprintf v size text) := by
  have hOut : (text.take (size - 1) ++ [0]).length = size := by
    rw [List.length_append, List.length_take, List.length_singleton]
    omega
  by_cases hRoom : v.len + size ≤ v.cap
  · right
    have hBody : (v.mem.take v.len ++ text.take (size - 1)).length = v.len + (size - 1) := by
      have hMem : v.mem.length = v.cap := rfl
      rw [List.length_append, List.length_take, List.length_take]
      omega
    refine ⟨v.len + (size - 1), ?_, ?_⟩
    · rw [snprintf_len hFit]
      omega
    · rw [Codec.snprintf, SliceBytes.store_eq (by rw [hOut]; exact hRoom)]
      dsimp only
      rw [← List.append_assoc, List.append_assoc _ [0],
        List.getElem?_append_right (Nat.le_of_eq hBody), hBody, Nat.sub_self]
      rfl
  · left
    have hSome : (text.take (size - 1) ++ [0]).isEmpty = false := by simp
    simp only [Codec.snprintf, SliceBytes.store, hOut, hSome]
    simp [Nat.not_le.mp hRoom]

theorem append_len {p : List UInt8} (hFit : v.len + p.length < 2 ^ 62) :
    (sliceBytesAppend fresh v p).len = v.len + p.length := by
  have hWide : sizeT (p.length + 1) = p.length + 1 := Nat.mod_eq_of_lt (by omega)
  have hSize : sizeT (v.len + p.length) = v.len + p.length := Nat.mod_eq_of_lt (by omega)
  have hLen := expand_len fresh (v := v) (n := p.length + 1)
    (SliceBytes.fits_of_le (by omega))
  rw [← hSize, ← hLen, ← hWide]
  rfl

theorem Spoiled.append (h : Spoiled v) {p : List UInt8} (hFit : v.len + p.length < 2 ^ 62) :
    Spoiled (sliceBytesAppend fresh v p) := by
  have hWide : sizeT (p.length + 1) = p.length + 1 := Nat.mod_eq_of_lt (by omega)
  have hSize : sizeT (v.len + p.length) = v.len + p.length := Nat.mod_eq_of_lt (by omega)
  have hFits : v.Fits (p.length + 1) := SliceBytes.fits_of_le (by omega)
  have hExpand := h.expand fresh hFits
  rw [← expand_len fresh hFits] at hSize
  rw [sliceBytesAppend, hWide]
  generalize sliceBytesExpand fresh v (p.length + 1) = v' at hExpand hSize
  have hLess : v'.len ≤ sizeT (v'.len + p.length) := by
    rw [hSize]
    exact Nat.le_add_right _ _
  have hStored := hExpand.store (Nat.le_refl _) hLess p
  exact hStored.store (Nat.le_refl _) (Nat.le_refl _) [0]

theorem prints_spoiled {texts : List (Nat × List UInt8)} (hSizes : ∀ t ∈ texts, 0 < t.1)
    (hFit : v.len + (texts.flatMap Prod.snd).length < 2 ^ 64) :
    (texts.foldl (fun b t => snprintf b t.1 t.2) v).len =
        v.len + (texts.flatMap Prod.snd).length ∧
      ((Spoiled v ∨ ∃ t ∈ texts, t.1 ≤ t.2.length) →
        Spoiled (texts.foldl (fun b t => snprintf b t.1 t.2) v)) := by
  induction texts generalizing v with
  | nil =>
    refine ⟨rfl, ?_⟩
    rintro (h | ⟨t, ht, -⟩)
    · exact h
    · cases ht
  | cons t texts ih =>
    rw [List.flatMap_cons, List.length_append] at hFit ⊢
    have hLen : (snprintf v t.1 t.2).len = v.len + t.2.length := snprintf_len (by omega)
    obtain ⟨hAll, hSpoiled⟩ := ih (v := snprintf v t.1 t.2)
      (fun t' ht' => hSizes t' (List.mem_cons_of_mem _ ht')) (by rw [hLen]; omega)
    refine ⟨by rw [List.foldl_cons, hAll, hLen, Nat.add_assoc], ?_⟩
    intro h
    apply hSpoiled
    rcases h with h | ⟨t', ht', hCut⟩
    · exact .inl (h.snprintf (by omega))
    · rcases List.mem_cons.mp ht' with rfl | ht'
      · exact .inl (spoiled_snprintf (hSizes _ List.mem_cons_self) hCut (by omega))
      · exact .inr ⟨t', ht', hCut⟩

/-- A print that was spoiled stays so, and a piece that is not whole spoils it. -/
theorem Piece.Sound.spoils {pc : Piece} (hSound : pc.Sound)
    (hFit : v.len + pc.text.length < 2 ^ 61) {v' : SliceBytes} (hPrint : pc.print fresh v = some v') :
    v'.len = v.len + pc.text.length ∧ (Spoiled v ∨ ¬ pc.Whole → Spoiled v') := by
  cases pc with
  | reserve k texts =>
    have hModest := hSound.modest k texts rfl
    have hFits : v.Fits k := SliceBytes.fits_of_le (by omega)
    have hLen := expand_len fresh hFits
    cases hPrint
    rw [text] at hFit
    obtain ⟨hAll, hSpoiled⟩ := prints_spoiled (v := sliceBytesExpand fresh v k)
      (hSound.sizes k texts rfl) (by rw [hLen]; omega)
    refine ⟨by rw [hAll, hLen, text], ?_⟩
    intro h
    apply hSpoiled
    rcases h with h | hCut
    · exact .inl (h.expand fresh hFits)
    · simp only [Whole, not_forall, Nat.not_lt] at hCut
      obtain ⟨t, ht, hCut⟩ := hCut
      exact .inr ⟨t, ht, hCut⟩
  | append p =>
    cases hPrint
    rw [text] at hFit
    refine ⟨append_len fresh (by omega), ?_⟩
    rintro (h | hCut)
    · exact h.append fresh (by omega)
    · exact absurd trivial hCut
  | overflow => cases hPrint

theorem printAll_spoiled {pcs : List Piece} (hSound : ∀ pc ∈ pcs, pc.Sound)
    (hFit : v.len + (printed pcs).length < 2 ^ 61) {v' : SliceBytes}
    (hPrint : printAll fresh pcs v = some v') :
    v'.len = v.len + (printed pcs).length ∧
      ((Spoiled v ∨ ∃ pc ∈ pcs, ¬ pc.Whole) → Spoiled v') := by
  induction pcs generalizing v with
  | nil =>
    cases hPrint
    refine ⟨rfl, ?_⟩
    rintro (h | ⟨pc, hpc, -⟩)
    · exact h
    · cases hpc
  | cons pc pcs ih =>
    obtain ⟨u, hFirst, hRest⟩ := Option.bind_eq_some_iff.mp hPrint
    rw [printed, List.flatMap_cons, List.length_append] at hFit ⊢
    obtain ⟨hLen, hSpoils⟩ := (hSound pc List.mem_cons_self).spoils fresh (by omega) hFirst
    obtain ⟨hAll, hSpoiled⟩ := ih (fun pc' h => hSound pc' (List.mem_cons_of_mem _ h))
      (by rw [hLen, printed]; omega) hRest
    refine ⟨by rw [hAll, hLen, printed, Nat.add_assoc], ?_⟩
    intro h
    apply hSpoiled
    rcases h with h | ⟨pc', hpc', hCut⟩
    · exact .inl (hSpoils (.inl h))
    · rcases List.mem_cons.mp hpc' with rfl | hpc'
      · exact .inl (hSpoils (.inr hCut))
      · exact .inr ⟨pc', hpc', hCut⟩

end Spoiled

end CcCommon.Codec
