import CcCommon.Codec.DecodeState
import Mathlib.Data.List.Forall2

/-! # Decoders that read a value back

`ReadsTo head b Q bs`: wherever `bs` lies in the buffer, a call there returns
a tree of which `Q` holds, without an error, and stops behind `bs`. A
container is read if its header opens a loop and its elements are read. -/

namespace CcCommon.Codec

open Util Lib.Descent CodecValue

set_option autoImplicit false

variable {head : CodecDecodeState → Decoded → Step CodecDecodeState Decoded} {b : Input}

/-- `Q` is of the position where the call begins and the tree that is returned. -/
def ReadsTo (head : CodecDecodeState → Decoded → Step CodecDecodeState Decoded) (b : Input)
    (Q : Nat → Decoded → Prop) (bs : List UInt8) : Prop :=
  ∀ s, b.At s.pos bs → s.err = none → ∃ s' d, Returns (decodeScheme head) s .zero s' d ∧
    Q s.pos d ∧ s'.pos = s.pos + bs.length ∧ s'.err = none

theorem ReadsTo.imp {Q R : Nat → Decoded → Prop} {bs : List UInt8} (h : ReadsTo head b Q bs)
    (hImp : ∀ p d, Q p d → R p d) : ReadsTo head b R bs := by
  intro s hAt hErr
  obtain ⟨s', d, hReturns, hTree, hEnd⟩ := h s hAt hErr
  exact ⟨s', d, hReturns, hImp s.pos d hTree, hEnd⟩

theorem readsTo_leaf {Q : Nat → Decoded → Prop} {bs : List UInt8}
    (h : ∀ s, b.At s.pos bs → s.err = none → ∃ s' d, head s .zero = .leaf s' d ∧
      Q s.pos d ∧ s'.pos = s.pos + bs.length ∧ s'.err = none) : ReadsTo head b Q bs := by
  intro s hAt hErr
  obtain ⟨s', d, hHead, hTree, hPos, hErr'⟩ := h s hAt hErr
  exact ⟨_, d, returns_leaf hHead, hTree, hPos, hErr'⟩

/-! ## Elements -/

/-- Each tree is what it is to be where its bytes begin, the first of them at `p`. -/
inductive Laid {α : Type} (Q : α → Nat → Decoded → Prop) (enc : α → List UInt8) :
    Nat → List α → List Decoded → Prop where
  | nil (p : Nat) : Laid Q enc p [] []
  | cons {p : Nat} {x : α} {xs : List α} {d : Decoded} {ds : List Decoded} (hHead : Q x p d)
    (hTail : Laid Q enc (p + (enc x).length) xs ds) : Laid Q enc p (x :: xs) (d :: ds)

theorem Laid.forall₂ {α : Type} {Q : α → Nat → Decoded → Prop} {R : α → Decoded → Prop}
    {enc : α → List UInt8} {p : Nat} {xs : List α} {ds : List Decoded} (h : Laid Q enc p xs ds)
    (hImp : ∀ x p d, Q x p d → R x d) : List.Forall₂ R xs ds := by
  induction h with
  | nil p => exact .nil
  | cons hHead _ ih => exact .cons (hImp _ _ _ hHead) ih

theorem ReadsTo.chain {α : Type} {Q : α → Nat → Decoded → Prop} {enc : α → List UInt8}
    (xs : List α) (h : ∀ x ∈ xs, ReadsTo head b (Q x) (enc x)) (s : CodecDecodeState)
    (hAt : b.At s.pos (xs.flatMap enc)) (hErr : s.err = none) :
    ∃ s' ds, Chain (decodeScheme head) s ds s' ∧ Laid Q enc s.pos xs ds ∧
      s'.pos = s.pos + (xs.flatMap enc).length ∧ s'.err = none := by
  induction xs generalizing s with
  | nil => exact ⟨s, [], rfl, .nil _, rfl, hErr⟩
  | cons x xs ih =>
    rw [List.flatMap_cons] at hAt
    obtain ⟨hHere, hRest⟩ := hAt.append
    obtain ⟨s₁, d, hRet, hTree, hPos₁, hErr₁⟩ := h x List.mem_cons_self s hHere hErr
    rw [← hPos₁] at hRest
    obtain ⟨s₂, ds, hChain, hTrees, hPos₂, hErr₂⟩ :=
      ih (fun y hy => h y (List.mem_cons_of_mem _ hy)) s₁ hRest hErr₁
    refine ⟨s₂, d :: ds, ⟨s₁, hRet, s₁.failed_eq_false_iff.mpr hErr₁, hChain⟩,
      .cons hTree (hPos₁ ▸ hTrees), ?_, hErr₂⟩
    rw [hPos₂, hPos₁, List.flatMap_cons, List.length_append, Nat.add_assoc]

/-- A header that opens a loop over `n` elements. -/
def Opens (head : CodecDecodeState → Decoded → Step CodecDecodeState Decoded) (b : Input)
    (hdr : List UInt8) (n limit : Nat) (close : List Decoded → Decoded) : Prop :=
  ∀ s, b.At s.pos hdr → s.err = none → ∃ s', head s .zero = .branch s' n limit close ∧
    s'.pos = s.pos + hdr.length ∧ s'.err = none

theorem readsTo_container {α : Type} {Q : α → Nat → Decoded → Prop} {R : Nat → Decoded → Prop}
    {enc : α → List UInt8} {hdr : List UInt8} {n limit : Nat} {close : List Decoded → Decoded}
    (xs : List α) (hHead : Opens head b hdr n limit close) (hCount : xs.length = n)
    (hLimit : n < limit) (hClose : ∀ p ds, Laid Q enc (p + hdr.length) xs ds → R p (close ds))
    (h : ∀ x ∈ xs, ReadsTo head b (Q x) (enc x)) : ReadsTo head b R (hdr ++ xs.flatMap enc) := by
  intro s hAt hErr
  obtain ⟨hHere, hRest⟩ := hAt.append
  obtain ⟨s₁, hStep, hPos₁, hErr₁⟩ := hHead s hHere hErr
  rw [← hPos₁] at hRest
  obtain ⟨s₂, ds, hChain, hTrees, hPos₂, hErr₂⟩ := ReadsTo.chain xs h s₁ hRest hErr₁
  have hLength : ds.length = n := by
    rw [← (hTrees.forall₂ (R := fun _ _ => True) fun _ _ _ _ => trivial).length_eq, hCount]
  refine ⟨_, _, returns_branch hStep hChain hLength hLimit, hClose s.pos ds (hPos₁ ▸ hTrees), ?_,
    hErr₂⟩
  rw [List.length_append, ← Nat.add_assoc, ← hPos₁]
  exact hPos₂

/-! ## Values -/

/-- The tree that is returned has the value `v`. -/
def ReadsAs (head : CodecDecodeState → Decoded → Step CodecDecodeState Decoded) (b : Input)
    (v : Value) (bs : List UInt8) : Prop := ReadsTo head b (fun _ d => d.value b = some v) bs

theorem values_of_forall₂ {α : Type} {val : α → Value} {xs : List α} {ds : List Decoded}
    (h : List.Forall₂ (fun x d => d.value b = some (val x)) xs ds) :
    Decoded.values b ds = some (xs.map val) := by
  induction h with
  | nil => rfl
  | cons hHead _ ih => exact Decoded.values_cons.mpr ⟨hHead, ih⟩

theorem readsAs_array {α : Type} {val : α → Value} {enc : α → List UInt8} {hdr : List UInt8}
    (xs : List α) (hCount : xs.length < intLimit)
    (hHead : Opens head b hdr xs.length intLimit fun es => .mk .array (.vArray xs.length) es)
    (h : ∀ x ∈ xs, ReadsAs head b (val x) (enc x)) :
    ReadsAs head b (.array () (xs.map val)) (hdr ++ xs.flatMap enc) := by
  refine readsTo_container xs hHead rfl hCount (fun p ds hTrees => ?_) h
  have hValues := values_of_forall₂ (hTrees.forall₂ fun _ _ _ hValue => hValue)
  simp [Decoded.value, hValues]

theorem readsAs_map {α : Type} {val : α → Value} {enc : α → List UInt8} {hdr : List UInt8}
    {kvs : List (Value × Value)} (xs : List α) (hEntries : entries kvs = xs.map val)
    (hCount : kvs.length < intLimit)
    (hHead : Opens head b hdr (2 * kvs.length) (2 * intLimit) fun es =>
      .mk .map (.vMap kvs.length) es)
    (h : ∀ x ∈ xs, ReadsAs head b (val x) (enc x)) :
    ReadsAs head b (.map () kvs) (hdr ++ xs.flatMap enc) := by
  have hLength : xs.length = 2 * kvs.length := by
    rw [← entries_length kvs, hEntries, List.length_map]
  refine readsTo_container xs hHead hLength (by omega) (fun p ds hTrees => ?_) h
  have hValues := values_of_forall₂ (hTrees.forall₂ fun _ _ _ hValue => hValue)
  rw [← hEntries] at hValues
  simp [Decoded.value, hValues, Decoded.pairUp_entries]

end CcCommon.Codec
