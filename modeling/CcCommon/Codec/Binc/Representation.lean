import CcCommon.Codec.Binc.Documents
import CcCommon.Codec.Binc.EncodeRuns

/-! # What codec_binc_encode writes of an abstract value

The pruning loop of a float looks at the memory behind it, and an extension
sends its pointer in place of its payload. The bytes are a function of the
abstract value where no extension has a payload and a struct behind every
float holds a word that no representation can clear. -/

namespace CcCommon.Codec.Binc

open Util Lib.Bytes CodecValue

set_option autoImplicit false

variable {μ : Type}

/-! ## Representations -/

/-- How many bytes, elements or entries a node points to. -/
def pointees (v : CodecValue μ) : Nat := v.count + v.payload.length

/-- A node that points to something has an address, and no object is larger than `PTRDIFF_MAX`. -/
def PlacedAt (v : CodecValue Placement) : Prop :=
  pointees v < 2 ^ 63 ∧ (0 < pointees v → 0 < v.mem.addr.toNat ∧ v.mem.addr.toNat < 2 ^ 63)

structure Represents (a : Value) (v : CodecValue Placement) : Prop where
  erase : v.erase = a
  placed : v.All PlacedAt

/-- The call on `u`, with `au` behind its struct, is one of those that the call on a value makes. -/
inductive Occurs : CodecValue Placement → Words → CodecValue Placement → Words → Prop where
  | root (v : CodecValue Placement) (after : Words) : Occurs v after v after
  | array {m : Placement} {vs pre sibs : List (CodecValue Placement)}
    {c u : CodecValue Placement} {after au : Words} (hSplit : vs = pre ++ c :: sibs)
    (h : Occurs c (behindIn sibs m.behind) u au) : Occurs (.array m vs) after u au
  | map {m : Placement} {kvs : List (CodecValue Placement × CodecValue Placement)}
    {pre sibs : List (CodecValue Placement)} {c u : CodecValue Placement} {after au : Words}
    (hSplit : entries kvs = pre ++ c :: sibs)
    (h : Occurs c (behindIn sibs m.behind) u au) : Occurs (.map m kvs) after u au

mutual
/-- As many bytes as any representation of the value takes. -/
def maxBytes : Value → Nat
  | .string _ p | .bytes _ p | .customExt _ _ p => 10 + p.length
  | .array _ vs => 9 + maxBytesList vs
  | .map _ kvs => 9 + maxBytesPairs kvs
  | _ => 9

def maxBytesList : List Value → Nat
  | [] => 0
  | v :: vs => maxBytes v + maxBytesList vs

def maxBytesPairs : List (Value × Value) → Nat
  | [] => 0
  | (k, v) :: kvs => maxBytes k + (maxBytes v + maxBytesPairs kvs)
end

/-- The encoder can start at `e`: there is no error, and there is room for the value. -/
structure Ready (e : EncodeState) (v : CodecValue Placement) : Prop where
  valid : e.b.Valid
  err : e.err = none
  room : e.b.len + maxBytes v.erase < 2 ^ 63

def Emits (fresh : Nat → Nat → UInt8) (v : CodecValue Placement) (after : Words)
    (e : EncodeState) (bs : List UInt8) : Prop :=
  ∃ e', EncodesTo fresh v after e e' ∧ appended e.b e'.b = bs

/-- What the encoder appends for `a` depends on nothing else. Every extension contributes its
payload behind its header and its tag, and every float that is not zero reads back. -/
structure Determined (a : Value) : Prop where
  same : ∀ fresh fresh' v v' after after' e e' bs bs', Represents a v → Represents a v' →
    v.relabel (fun u => u.mem.pad) = v'.relabel (fun u => u.mem.pad) → Ready e v → Ready e' v' →
    Emits fresh v after e bs → Emits fresh' v' after' e' bs' → bs = bs'
  ext : ∀ fresh v after m tag p au e bs, Represents a v →
    Occurs v after (.customExt m tag p) au → Ready e (.customExt m tag p) →
    Emits fresh (.customExt m tag p) au e bs →
    bs = bincLenBytes (bincDesc .customext 0) p.length ++ tag :: p
  float : ∀ fresh v after m bits au e bs beyond hFits, Represents a v →
    Occurs v after (.float64 m bits) au → isZeroDouble bits = false → Ready e (.float64 m bits) →
    Emits fresh (.float64 m bits) au e bs →
    ∃ fuel s d, codecBincDecode ⟨bs, beyond, hFits⟩ fuel .zero = .done s d ∧ s.err = none ∧
      d.value ⟨bs, beyond, hFits⟩ = some (.float64 () bits)

/-! ## The condition -/

/-- Behind the type word of such a struct stands a word that is never zero. -/
def Shields : Value → Prop
  | .string _ p | .bytes _ p => p ≠ []
  | .array _ vs => vs ≠ []
  | .map _ kvs => kvs ≠ []
  | _ => False

mutual
/-- No extension has a payload, and every float is zero or has a shield behind it; `next` is the
struct behind the value, if there is one in the tree. -/
def Pinned : Value → Option Value → Prop
  | .float32 _ _, _ => False
  | .float64 _ bits, next => isZeroDouble bits = true ∨ ∃ u, next = some u ∧ Shields u
  | .customExt _ _ p, _ => p = []
  | .array _ vs, _ => PinnedList vs
  | .map _ kvs, _ => PinnedPairs kvs
  | _, _ => True

def PinnedList : List Value → Prop
  | [] => True
  | v :: vs => Pinned v vs.head? ∧ PinnedList vs

def PinnedPairs : List (Value × Value) → Prop
  | [] => True
  | (k, v) :: kvs => Pinned k (some v) ∧ Pinned v (kvs.head?.map Prod.fst) ∧ PinnedPairs kvs
end

theorem entries_head? {α : Type} (kvs : List (α × α)) :
    (entries kvs).head? = kvs.head?.map Prod.fst := by
  cases kvs <;> rfl

theorem pinnedPairs_iff (kvs : List (Value × Value)) :
    PinnedPairs kvs ↔ PinnedList (entries kvs) := by
  induction kvs with
  | nil => exact Iff.rfl
  | cons kv kvs ih => simp only [PinnedPairs, entries, PinnedList, List.head?_cons, entries_head?, ih]

theorem PinnedList.split {pre sibs : List Value} {v : Value}
    (h : PinnedList (pre ++ v :: sibs)) : Pinned v sibs.head? := by
  induction pre with
  | nil => exact h.1
  | cons u pre ih => exact ih h.2

mutual
/-- The bytes that the abstract value determines. -/
def abstractBytes : Value → List UInt8
  | .nil _ => [specialDesc .nil]
  | .bool _ x => [specialDesc (if x then .true else .false)]
  | .negInt _ n => bincUintBytes (bincDesc .negint 0) false n.toNat
  | .posInt _ n => bincUintBytes (bincDesc .posint 0) true n.toNat
  | .float32 _ bits => bincDesc .float 1 :: leBytes 4 bits.toNat
  | .float64 _ bits =>
    if isZeroDouble bits then [specialDesc .zerofloat]
    else bincDesc .float 2 :: leBytes 8 bits.toNat
  | .string _ p => bincLenBytes (bincDesc .string 0) p.length ++ p
  | .bytes _ p => bincLenBytes (bincDesc .bytearray 0) p.length ++ p
  | .array _ vs => bincLenBytes (bincDesc .array 0) vs.length ++ abstractBytesList vs
  | .map _ kvs => bincLenBytes (bincDesc .map 0) kvs.length ++ abstractBytesPairs kvs
  | .customExt _ tag p => bincLenBytes (bincDesc .customext 0) p.length ++ tag :: p

def abstractBytesList : List Value → List UInt8
  | [] => []
  | v :: vs => abstractBytes v ++ abstractBytesList vs

def abstractBytesPairs : List (Value × Value) → List UInt8
  | [] => []
  | (k, v) :: kvs => abstractBytes k ++ (abstractBytes v ++ abstractBytesPairs kvs)
end

theorem abstractBytesPairs_eq (kvs : List (Value × Value)) :
    abstractBytesPairs kvs = abstractBytesList (entries kvs) := by
  induction kvs with
  | nil => rfl
  | cons kv kvs ih => simp only [abstractBytesPairs, entries, abstractBytesList, ih]

/-! ## Floats -/

section Floats

variable {mem : Words}

theorem floatPrune_le (mem : Words) (i : Nat) : floatPrune mem i ≤ i + 1 := by
  induction i with
  | zero => exact Nat.le_refl 1
  | succ i ih =>
    rw [floatPrune]
    split <;> omega

theorem floatPrune_seven (mem : Words) :
    floatPrune mem 7 ≤ 6 ↔ isZeroDouble (mem 6) = true ∧ isZeroDouble (mem 7) = true := by
  have hRest := floatPrune_le mem 5
  rw [floatPrune]
  split
  · rename_i hSeven
    rw [floatPrune]
    split
    · rename_i hSix
      exact iff_of_true hRest ⟨hSix, hSeven⟩
    · rename_i hSix
      exact iff_of_false (by omega) fun h => hSix h.1
  · rename_i hSeven
    exact iff_of_false (by omega) fun h => hSeven h.2

theorem bytesAt_word (mem : Words) : bytesAt mem 0 8 = leBytes 8 (mem 0).toNat := by
  have hRange : bytesAt mem 0 8 = (List.range 8).map fun j => (leBytes 8 (mem 0).toNat).getD j 0 := by
    apply List.map_congr_left
    intro j hj
    have hLt := List.mem_range.mp hj
    rw [Nat.div_eq_of_lt hLt, Nat.mod_eq_of_lt hLt]
  have hWhole := map_getD_range (x := leBytes 8 (mem 0).toNat)
  rw [leBytes_length] at hWhole
  rw [hRange, hWhole]

theorem bincFloatBytes_full (hBits : isZeroDouble (mem 0) = false)
    (h : ¬ (isZeroDouble (mem 6) = true ∧ isZeroDouble (mem 7) = true)) :
    bincFloatBytes mem = bincDesc .float 2 :: leBytes 8 (mem 0).toNat := by
  have hFull := mt (floatPrune_seven mem).mp h
  rw [bincFloatBytes, hBits]
  simp only [Bool.false_eq_true, if_false, if_neg hFull, bytesAt_word]

theorem bincFloatBytes_pruned (hBits : isZeroDouble (mem 0) = false)
    (h : isZeroDouble (mem 6) = true ∧ isZeroDouble (mem 7) = true) :
    (bincFloatBytes mem).length ≤ 8 := by
  have hShort := (floatPrune_seven mem).mpr h
  rw [bincFloatBytes, hBits]
  simp only [Bool.false_eq_true, if_false, if_pos hShort, List.length_cons, bytesAt_length]
  omega

theorem bincFloatBytes_length (mem : Words) : (bincFloatBytes mem).length ≤ 9 := by
  unfold bincFloatBytes
  dsimp only
  split_ifs
  · exact Nat.le_add_left 1 8
  · rw [List.length_cons, List.length_cons, bytesAt_length]
    omega
  · rw [List.length_cons, bytesAt_length]

theorem fromUnion_behind (v : CodecValue Placement) (after : Words) :
    fromUnion v after 6 = after 2 ∧ fromUnion v after 7 = after 3 := by
  cases v <;> exact ⟨rfl, rfl⟩

theorem behindIn_cons (u : CodecValue Placement) (sibs : List (CodecValue Placement))
    (behind : Words) : behindIn (u :: sibs) behind 2 = (unionWords u).getD 1 0 ∧
      behindIn (u :: sibs) behind 3 = (unionWords u).getD 2 0 := by
  cases u <;> exact ⟨rfl, rfl⟩

theorem isZeroDouble_false {w : UInt64} (hLow : 0 < w.toNat) (hHigh : w.toNat < 2 ^ 63) :
    isZeroDouble w = false := by
  rw [isZeroDouble, Nat.mod_eq_of_lt hHigh]
  simp only [decide_eq_false_iff_not]
  omega

theorem isZeroDouble_ofNat {n : Nat} (hLow : 0 < n) (hHigh : n < 2 ^ 63) :
    isZeroDouble (UInt64.ofNat n) = false := by
  have hSame : (UInt64.ofNat n).toNat = n := by
    rw [UInt64.toNat_ofNat']
    exact Nat.mod_eq_of_lt (by omega)
  exact isZeroDouble_false (hSame.symm ▸ hLow) (hSame.symm ▸ hHigh)

theorem full_of_shields {u : CodecValue Placement} (hPlaced : PlacedAt u) (h : Shields u.erase)
    (sibs : List (CodecValue Placement)) (behind : Words) :
    ¬ (isZeroDouble (behindIn (u :: sibs) behind 2) = true ∧
      isZeroDouble (behindIn (u :: sibs) behind 3) = true) := by
  rintro ⟨hZero, _⟩
  rw [(behindIn_cons u sibs behind).1] at hZero
  obtain ⟨hRoom, hAddr⟩ := hPlaced
  cases u with
  | string m p | bytes m p =>
    have hSome : 0 < p.length := List.length_pos_iff.mpr h
    have hLen : p.length < 2 ^ 63 := by simpa [pointees, count, payload] using hRoom
    have hWord : isZeroDouble (UInt64.ofNat p.length) = true := hZero
    rw [isZeroDouble_ofNat hSome hLen] at hWord
    cases hWord
  | array m vs =>
    have hSome : 0 < vs.length := by
      have hErased : eraseList vs ≠ [] := h
      rw [eraseList_eq] at hErased
      exact List.length_pos_iff.mpr fun hNil => hErased (by rw [hNil]; rfl)
    obtain ⟨hLow, hHigh⟩ := hAddr (Nat.lt_of_lt_of_le hSome (Nat.le_add_right _ _))
    have hWord : isZeroDouble m.addr = true := hZero
    have hNot : isZeroDouble m.addr = false := isZeroDouble_false hLow hHigh
    rw [hNot] at hWord
    cases hWord
  | map m kvs =>
    have hSome : 0 < kvs.length := by
      have hErased : erasePairs kvs ≠ [] := h
      exact List.length_pos_iff.mpr fun hNil => hErased (by rw [hNil]; rfl)
    obtain ⟨hLow, hHigh⟩ := hAddr (Nat.lt_of_lt_of_le hSome (Nat.le_add_right _ _))
    have hWord : isZeroDouble m.addr = true := hZero
    have hNot : isZeroDouble m.addr = false := isZeroDouble_false hLow hHigh
    rw [hNot] at hWord
    cases hWord
  | _ => exact absurd h id

theorem head?_eraseList (vs : List (CodecValue μ)) :
    (eraseList vs).head? = vs.head?.map erase := by
  cases vs <;> rfl

theorem bincFloatBytes_of_pinned {m : Placement} {bits : UInt64}
    {sibs : List (CodecValue Placement)} (hSibs : ∀ u ∈ sibs, PlacedAt u) (behind : Words)
    (hPin : Pinned (.float64 () bits) (sibs.head?.map erase)) :
    bincFloatBytes (fromUnion (.float64 m bits) (behindIn sibs behind)) =
      abstractBytes (.float64 () bits) := by
  have hFirst : fromUnion (.float64 m bits) (behindIn sibs behind) 0 = bits := rfl
  rw [abstractBytes]
  split
  · rename_i hZero
    rw [bincFloatBytes, hFirst, if_pos hZero]
  · rename_i hBits
    rcases hPin with hZero | ⟨w, hNext, hShield⟩
    · exact absurd hZero hBits
    · cases sibs with
      | nil => cases hNext
      | cons u sibs =>
        cases hNext
        obtain ⟨hSix, hSeven⟩ := fromUnion_behind (.float64 m bits) (behindIn (u :: sibs) behind)
        have hFull := full_of_shields (hSibs u List.mem_cons_self) hShield sibs behind
        rw [← hSix, ← hSeven] at hFull
        have hBytes := bincFloatBytes_full (by rw [hFirst]; exact Bool.eq_false_iff.mpr hBits) hFull
        rwa [hFirst] at hBytes

end Floats

/-! ## Pinned values are written as such -/

section Pinned

theorem bincBytesList_of_pinned (vs : List (CodecValue Placement))
    (h : ∀ v ∈ vs, ∀ sibs : List (CodecValue Placement), (∀ u ∈ sibs, PlacedAt u) → ∀ behind,
      Pinned v.erase (sibs.head?.map erase) →
        bincBytes v (behindIn sibs behind) = abstractBytes v.erase)
    (hPlaced : ∀ v ∈ vs, PlacedAt v) (hPin : PinnedList (eraseList vs)) (behind : Words) :
    bincBytesList vs behind = abstractBytesList (eraseList vs) := by
  induction vs with
  | nil => rfl
  | cons v vs ih =>
    rw [eraseList, PinnedList, head?_eraseList] at hPin
    have hBehind : ∀ u ∈ vs, PlacedAt u := fun u hu => hPlaced u (List.mem_cons_of_mem _ hu)
    rw [bincBytesList, eraseList, abstractBytesList, h v List.mem_cons_self vs hBehind behind hPin.1,
      ih (fun u hu => h u (List.mem_cons_of_mem _ hu)) hBehind hPin.2]

/-- The memory around a pinned value leaves no trace. -/
theorem bincBytes_of_pinned (v : CodecValue Placement) (hPlaced : v.All PlacedAt)
    (sibs : List (CodecValue Placement)) (hSibs : ∀ u ∈ sibs, PlacedAt u) (behind : Words)
    (hPin : Pinned v.erase (sibs.head?.map erase)) :
    bincBytes v (behindIn sibs behind) = abstractBytes v.erase := by
  induction v using CodecValue.ind generalizing sibs behind with
  | h v ih =>
    have hInner := fun c hc => ih c hc (hPlaced.inner c hc)
    have hRoots : ∀ c ∈ v.children, PlacedAt c := fun c hc => (hPlaced.inner c hc).root
    cases v with
    | float32 m bits => exact absurd hPin id
    | float64 m bits => exact bincFloatBytes_of_pinned hSibs behind hPin
    | customExt m tag p =>
      have hNone : p = [] := hPin
      subst hNone
      rfl
    | array m vs =>
      have hPin : PinnedList (eraseList vs) := hPin
      have hElems := bincBytesList_of_pinned vs hInner hRoots hPin m.behind
      rw [bincBytes, erase, abstractBytes, hElems, eraseList_eq, List.length_map]
    | map m kvs =>
      have hPin : PinnedPairs (erasePairs kvs) := hPin
      rw [pinnedPairs_iff, entries_erasePairs, ← eraseList_eq] at hPin
      have hElems := bincBytesList_of_pinned (entries kvs) hInner hRoots hPin m.behind
      rw [bincBytes, erase, abstractBytes, bincBytesPairs_eq, hElems, abstractBytesPairs_eq,
        entries_erasePairs, erasePairs_length, eraseList_eq]
    | _ => rfl

/-- What occurs in a pinned value is pinned. -/
theorem Occurs.pinned {v u : CodecValue Placement} {after au : Words} (h : Occurs v after u au)
    (hPlaced : v.All PlacedAt) (sibs : List (CodecValue Placement))
    (hSibs : ∀ u ∈ sibs, PlacedAt u) (behind : Words) (hAfter : after = behindIn sibs behind)
    (hPin : Pinned v.erase (sibs.head?.map erase)) : bincBytes u au = abstractBytes u.erase := by
  induction h generalizing sibs behind with
  | root v after =>
    rw [hAfter]
    exact bincBytes_of_pinned v hPlaced sibs hSibs behind hPin
  | @array m vs pre cs c u after au hSplit h ih =>
    have hPin : PinnedList (eraseList vs) := hPin
    rw [hSplit, eraseList_eq, List.map_append, List.map_cons] at hPin
    have hMem : ∀ d ∈ c :: cs, d ∈ (CodecValue.array m vs).children := by
      intro d hd
      rw [children, hSplit]
      exact List.mem_append_right _ hd
    refine ih (hPlaced.inner c (hMem c List.mem_cons_self)) cs (fun d hd =>
      (hPlaced.inner d (hMem d (List.mem_cons_of_mem _ hd))).root) m.behind rfl ?_
    rw [← List.head?_map]
    exact hPin.split
  | @map m kvs pre cs c u after au hSplit h ih =>
    have hPin : PinnedPairs (erasePairs kvs) := hPin
    rw [pinnedPairs_iff, entries_erasePairs, hSplit, List.map_append, List.map_cons] at hPin
    have hMem : ∀ d ∈ c :: cs, d ∈ (CodecValue.map m kvs).children := by
      intro d hd
      rw [children, hSplit]
      exact List.mem_append_right _ hd
    refine ih (hPlaced.inner c (hMem c List.mem_cons_self)) cs (fun d hd =>
      (hPlaced.inner d (hMem d (List.mem_cons_of_mem _ hd))).root) m.behind rfl ?_
    rw [← List.head?_map]
    exact hPin.split

end Pinned

/-! ## Room -/

section Room

theorem uintBytes_length (n : Nat) {lim : Nat} (h : 4 ≤ lim) : (uintBytes n lim).length = lim := by
  rw [uintBytes]
  split
  · rename_i hFour
    rw [utilBigEndianWriteUint32_eq, beBytes_length, hFour]
  · rw [utilBigEndianWriteUint32_eq, List.length_append, beBytes_length, List.length_replicate]
    omega

theorem bincUintBytes_length_le (bd : UInt8) (pos : Bool) (n : Nat) :
    (bincUintBytes bd pos n).length ≤ 9 := by
  unfold bincUintBytes
  split_ifs
  · exact Nat.le_add_left 1 8
  · exact Nat.le_add_left 1 8
  · exact Nat.le_add_left 2 7
  · rw [beBytes_length]
    decide
  · rw [prunedBytes, List.length_cons, List.length_drop, uintBytes_length n (by decide)]
    omega
  · rw [prunedBytes, List.length_cons, List.length_drop, uintBytes_length n (by decide)]
    omega

theorem bincLenBytes_length_le (bd : UInt8) (n : Nat) : (bincLenBytes bd n).length ≤ 9 := by
  rw [bincLenBytes]
  split
  · exact Nat.le_add_left 1 8
  · exact bincUintBytes_length_le bd false n

theorem bincBytesList_length_le (vs : List (CodecValue Placement))
    (h : ∀ v ∈ vs, ∀ after, (bincBytes v after).length ≤ maxBytes v.erase) (behind : Words) :
    (bincBytesList vs behind).length ≤ maxBytesList (eraseList vs) := by
  induction vs with
  | nil => exact Nat.le_refl 0
  | cons v vs ih =>
    rw [bincBytesList, eraseList, maxBytesList, List.length_append]
    exact Nat.add_le_add (h v List.mem_cons_self _)
      (ih fun u hu => h u (List.mem_cons_of_mem _ hu))

theorem maxBytesPairs_eq (kvs : List (Value × Value)) :
    maxBytesPairs kvs = maxBytesList (entries kvs) := by
  induction kvs with
  | nil => rfl
  | cons kv kvs ih => simp only [maxBytesPairs, entries, maxBytesList, ih]

theorem bincBytes_length_le (v : CodecValue Placement) (after : Words) :
    (bincBytes v after).length ≤ maxBytes v.erase := by
  induction v using CodecValue.ind generalizing after with
  | h v ih =>
    cases v with
    | nil m => exact Nat.le_add_left 1 8
    | bool m x => exact Nat.le_add_left 1 8
    | posInt m n => exact bincUintBytes_length_le _ _ _
    | negInt m n => exact bincUintBytes_length_le _ _ _
    | float32 m bits => exact bincFloatBytes_length _
    | float64 m bits => exact bincFloatBytes_length _
    | string m p =>
      have hLen := bincLenBytes_length_le (bincDesc .string 0) p.length
      simp only [bincBytes, erase, maxBytes, List.length_append]
      omega
    | bytes m p =>
      have hLen := bincLenBytes_length_le (bincDesc .bytearray 0) p.length
      simp only [bincBytes, erase, maxBytes, List.length_append]
      omega
    | customExt m tag p =>
      have hLen := bincLenBytes_length_le (bincDesc .customext 0) p.length
      simp only [bincBytes, erase, maxBytes, List.length_append, List.length_cons, bytesAt_length]
      omega
    | array m vs =>
      have hLen := bincLenBytes_length_le (bincDesc .array 0) vs.length
      have hElems := bincBytesList_length_le vs ih m.behind
      rw [bincBytes, erase, maxBytes, List.length_append]
      omega
    | map m kvs =>
      have hLen := bincLenBytes_length_le (bincDesc .map 0) kvs.length
      have hElems := bincBytesList_length_le (entries kvs) ih m.behind
      rw [bincBytes, erase, maxBytes, List.length_append, bincBytesPairs_eq, maxBytesPairs_eq,
        entries_erasePairs, ← eraseList_eq]
      omega

theorem Emits.eq {fresh : Nat → Nat → UInt8} {v : CodecValue Placement} {after : Words}
    {e : EncodeState} {bs : List UInt8} (h : Emits fresh v after e bs) (hReady : Ready e v) :
    bs = bincBytes v after := by
  obtain ⟨e', hRun, rfl⟩ := h
  have hLength := bincBytes_length_le v after
  have hRoom := hReady.room
  exact hRun.appended hReady.valid hReady.err (by omega)

end Room

end CcCommon.Codec.Binc
