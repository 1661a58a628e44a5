import CcCommon.Lib.Cursor
import CcCommon.Util.Fdbuf
import Mathlib.Data.List.GetD

/-! # util/fdbuf.cc: the input side

A position is its distance from `inbuf_`. The overlapping copies of `underflow`
move each character as `std::copy` does, from the front on.
-/

namespace CcCommon.Util

open Lib (Cursor store store_length take_store)

set_option autoImplicit false

/-! ## The code -/

structure FdbufInput where
  inbuf_ : List UInt8
  eback : Nat
  gptr : Nat
  egptr : Nat
  delivered : List UInt8

namespace FdbufInput

open Fdbuf (bufsize eof to_int_type to_char_type)

/-- `16 - sizeof(int)` -/
def reserve : Nat := 16 - 4

def inbufSize : Nat := bufsize + reserve

/-- What `read(2)` returns, and the bytes that it delivers: it fails, or there are so many. -/
def read : Option (List UInt8) → Int × List UInt8
  | none => (-1, [])
  | some bs => ((bs.take bufsize).length, bs.take bufsize)

/-- `traits_type::to_int_type(*gptr())` -/
def get (fb : FdbufInput) : Int := to_int_type (fb.inbuf_.getD fb.gptr 0)

/-- What `underflow` does if `gptr() == egptr()`. -/
def refill (fb : FdbufInput) (outcome : Option (List UInt8)) : FdbufInput :=
  let pback := min (fb.gptr - fb.eback) reserve
  let inbuf_ := store fb.inbuf_ fb.eback ((fb.inbuf_.take fb.egptr).drop (fb.egptr - pback))
  let (done, got) := read outcome
  { fb with
    inbuf_ := store inbuf_ (fb.eback + pback) got
    gptr := fb.eback + pback
    egptr := fb.eback + pback + (max 0 done).toNat
    delivered := fb.delivered ++ got }

def underflow (fb : FdbufInput) (outcome : Option (List UInt8)) : Int × FdbufInput :=
  let fb := if fb.gptr = fb.egptr then fb.refill outcome else fb
  (if fb.gptr = fb.egptr then eof else fb.get, fb)

/-- `gbump(1)` -/
def bump (fb : FdbufInput) : FdbufInput := { fb with gptr := fb.gptr + 1 }

/-! `std::streambuf` -/

def sgetc (fb : FdbufInput) (outcome : Option (List UInt8)) : Int × FdbufInput :=
  if fb.gptr < fb.egptr then (fb.get, fb) else fb.underflow outcome

def uflow (fb : FdbufInput) (outcome : Option (List UInt8)) : Int × FdbufInput :=
  let (res, fb) := fb.underflow outcome
  if res = eof then (eof, fb) else (fb.get, fb.bump)

def sbumpc (fb : FdbufInput) (outcome : Option (List UInt8)) : Int × FdbufInput :=
  if fb.gptr < fb.egptr then (fb.get, fb.bump) else fb.uflow outcome

/-- There are two outcomes, for the two calls that may each read. -/
def snextc (fb : FdbufInput) (outcome outcome' : Option (List UInt8)) : Int × FdbufInput :=
  let (res, fb) := fb.sbumpc outcome
  if res = eof then (eof, fb) else fb.sgetc outcome'

def pbackfail : Int := eof

def sungetc (fb : FdbufInput) : Int × FdbufInput :=
  if fb.eback < fb.gptr then
    let fb := { fb with gptr := fb.gptr - 1 }
    (fb.get, fb)
  else (pbackfail, fb)

/-- The results of so many calls of `sungetc`. -/
def sungetcs (fb : FdbufInput) : Nat → List Int
  | 0 => []
  | k + 1 => fb.sungetc.1 :: sungetcs fb.sungetc.2 k

/-- `open(fd)`, with what is in `inbuf_` before. -/
def opened (inbuf_ : List UInt8) : FdbufInput := ⟨inbuf_, 0, 0, 0, []⟩

end FdbufInput

/-! ## Every sequence of calls -/

/-- A call, and the outcome of each `read(2)` if the call makes it. -/
inductive FdbufInputCall where
  | sgetc (outcome : Option (List UInt8))
  | sbumpc (outcome : Option (List UInt8))
  | snextc (outcome outcome' : Option (List UInt8))
  | sungetc

/-- An `fdbuf`, and the characters that were taken from it and not put back. -/
structure Getting where
  fb : FdbufInput
  consumed : List UInt8

namespace Getting

open Fdbuf (eof to_int_type to_char_type)

/-- `sbumpc` takes the character that it returns. -/
def take (s : Getting) (res : Int) : List UInt8 :=
  if res = eof then s.consumed else s.consumed ++ [to_char_type res]

def result (s : Getting) : FdbufInputCall → Int
  | .sgetc outcome => (s.fb.sgetc outcome).1
  | .sbumpc outcome => (s.fb.sbumpc outcome).1
  | .snextc outcome outcome' => (s.fb.snextc outcome outcome').1
  | .sungetc => s.fb.sungetc.1

def call (s : Getting) : FdbufInputCall → Getting
  | .sgetc outcome => { s with fb := (s.fb.sgetc outcome).2 }
  | .sbumpc outcome => ⟨(s.fb.sbumpc outcome).2, s.take (s.fb.sbumpc outcome).1⟩
  | .snextc outcome outcome' =>
    ⟨(s.fb.snextc outcome outcome').2, s.take (s.fb.sbumpc outcome).1⟩
  | .sungetc =>
    ⟨s.fb.sungetc.2, if s.fb.sungetc.1 = eof then s.consumed else s.consumed.dropLast⟩

end Getting

def getting : Lib.Machine Getting FdbufInputCall where
  init s := ∃ inbuf_, inbuf_.length = FdbufInput.inbufSize ∧ s = ⟨FdbufInput.opened inbuf_, []⟩
  step s c := some (s.call c)

/-! ## The buffer is a cursor in the stream -/

namespace FdbufInput

open Fdbuf (bufsize eof to_int_type to_int_type_ne)

structure Valid (fb : FdbufInput) : Prop where
  eback : fb.eback = 0
  ordered : fb.gptr ≤ fb.egptr
  bounded : fb.egptr ≤ inbufSize
  sized : fb.inbuf_.length = inbufSize

def cursor (fb : FdbufInput) : Cursor UInt8 :=
  ⟨(fb.inbuf_.take fb.gptr).drop fb.eback, (fb.inbuf_.take fb.egptr).drop fb.gptr⟩

/-- What is returned for a character, or for none. -/
def returned : Option UInt8 → Int
  | none => eof
  | some c => to_int_type c

/-- The cursor before a character is taken: it is refilled if it has nothing. -/
def filled (c : Cursor UInt8) (outcome : Option (List UInt8)) : Cursor UInt8 :=
  if c.after = [] then c.refill reserve (read outcome).2 else c

variable {fb : FdbufInput}

theorem Valid.after_eq_nil_iff (h : fb.Valid) : fb.cursor.after = [] ↔ fb.gptr = fb.egptr := by
  have hOrdered := h.ordered
  have hBounded := h.bounded
  rw [cursor, List.drop_eq_nil_iff, List.length_take, h.sized]
  omega

theorem Valid.length_before (h : fb.Valid) : fb.cursor.before.length = fb.gptr := by
  have hOrdered := h.ordered
  have hBounded := h.bounded
  rw [cursor, List.length_drop, List.length_take, h.sized, h.eback]
  omega

theorem Valid.bump (h : fb.Valid) (hSome : fb.gptr < fb.egptr) :
    ∃ c, fb.get = to_int_type c ∧ fb.cursor.after = c :: fb.bump.cursor.after ∧
      fb.bump.cursor.before = fb.cursor.before ++ [c] ∧ fb.bump.Valid := by
  have hBounded := h.bounded
  have hIndex : fb.gptr < fb.inbuf_.length := by
    rw [h.sized]
    omega
  have hAfter : fb.gptr < (fb.inbuf_.take fb.egptr).length := by
    rw [List.length_take]
    omega
  refine ⟨fb.inbuf_[fb.gptr], ?_, ?_, ?_, ⟨h.eback, hSome, hBounded, h.sized⟩⟩
  · rw [get, List.getD_eq_getElem _ _ hIndex]
  · simp only [cursor, FdbufInput.bump]
    rw [List.drop_eq_getElem_cons hAfter, List.getElem_take]
  · simp only [cursor, FdbufInput.bump]
    rw [h.eback, List.drop_zero, List.drop_zero, List.take_succ_eq_append_getElem hIndex]

theorem Valid.next_eq (h : fb.Valid) (hSome : fb.gptr < fb.egptr) :
    fb.bump.cursor = fb.cursor.next := by
  obtain ⟨c, -, hAfter, hBefore, -⟩ := h.bump hSome
  generalize fb.bump.cursor = c' at hAfter hBefore ⊢
  generalize fb.cursor = c at hAfter hBefore ⊢
  obtain ⟨before, after⟩ := c
  obtain ⟨before', after'⟩ := c'
  dsimp only at hAfter hBefore
  rw [hAfter, hBefore]
  rfl

theorem get_ne_eof (fb : FdbufInput) : fb.get ≠ eof := to_int_type_ne _

/-- What a call does that has to have a character: it returns that character. -/
structure Fetches (fb : FdbufInput) (outcome : Option (List UInt8)) (res : Int)
    (fb' : FdbufInput) : Prop where
  valid : fb'.Valid
  cursor : fb'.cursor = filled fb.cursor outcome
  delivered : fb'.delivered = fb.delivered ++ if fb.cursor.after = [] then (read outcome).2 else []
  result : res = if fb'.gptr = fb'.egptr then eof else fb'.get

theorem length_read (outcome : Option (List UInt8)) :
    (max 0 (read outcome).1).toNat = (read outcome).2.length ∧
      (read outcome).2.length ≤ bufsize := by
  cases outcome with
  | none => exact ⟨rfl, Nat.zero_le _⟩
  | some bs =>
    refine ⟨?_, List.length_take_le _ _⟩
    simp only [read]
    omega

/-- The kept characters at the front and the new ones behind them. -/
theorem store_store (mem kept got : List UInt8) (hLength : kept.length + got.length ≤ mem.length) :
    (store (store mem 0 kept) kept.length got).length = mem.length ∧
      (store (store mem 0 kept) kept.length got).take kept.length = kept ∧
      (store (store mem 0 kept) kept.length got).take (kept.length + got.length) = kept ++ got := by
  have hInner : (store mem 0 kept).length = mem.length := store_length (by omega)
  have hKept : (store mem 0 kept).take kept.length = kept := by
    have hTake : (store mem 0 kept).take (0 + kept.length) = mem.take 0 ++ kept :=
      take_store (Nat.zero_le mem.length)
    rwa [Nat.zero_add] at hTake
  have hBoth : (store (store mem 0 kept) kept.length got).take (kept.length + got.length) =
      kept ++ got := by
    rw [take_store (by omega), hKept]
  refine ⟨(store_length (by omega)).trans hInner, ?_, hBoth⟩
  have hLess : kept.length = min kept.length (kept.length + got.length) := by omega
  rw [hLess, ← List.take_take, ← hLess, hBoth, List.take_left]

theorem refill_spec (h : fb.Valid) (hNone : fb.gptr = fb.egptr) (outcome : Option (List UInt8)) :
    (fb.refill outcome).Valid ∧
      (fb.refill outcome).cursor = fb.cursor.refill reserve (read outcome).2 := by
  obtain ⟨hDone, hGot⟩ := length_read outcome
  have hBounded := h.bounded
  have hLength := h.length_before
  have hAfter := h.after_eq_nil_iff.mpr hNone
  have hSize : inbufSize = bufsize + reserve := rfl
  have hKept : (fb.inbuf_.take fb.egptr).drop (fb.egptr - min fb.gptr reserve) =
      fb.cursor.before.drop (fb.cursor.before.length - reserve) := by
    have hFrom : fb.gptr - min fb.gptr reserve = fb.gptr - reserve := by omega
    rw [hLength, cursor, h.eback, List.drop_zero, ← hNone, hFrom]
  have hPback : min fb.gptr reserve =
      (fb.cursor.before.drop (fb.cursor.before.length - reserve)).length := by
    rw [List.length_drop, hLength]
    omega
  simp only [refill, hDone, h.eback, Nat.zero_add, Nat.sub_zero, hKept]
  simp only [hPback, Cursor.refill, hAfter, List.nil_append]
  generalize fb.cursor.before.drop (fb.cursor.before.length - reserve) = kept at hPback
  generalize (read outcome).2 = got at hGot
  obtain ⟨hStored, hBefore, hBoth⟩ := store_store fb.inbuf_ kept got
    (by rw [h.sized]; omega)
  refine ⟨⟨rfl, Nat.le_add_right _ _, ?_, hStored.trans h.sized⟩, ?_⟩
  · dsimp only
    omega
  · rw [cursor]
    dsimp only
    rw [hBefore, hBoth, List.drop_zero, List.drop_left]

theorem underflow_fetches (h : fb.Valid) (hNone : fb.gptr = fb.egptr)
    (outcome : Option (List UInt8)) :
    Fetches fb outcome (fb.underflow outcome).1 (fb.underflow outcome).2 := by
  obtain ⟨hValid, hCursor⟩ := refill_spec h hNone outcome
  have hAfter := h.after_eq_nil_iff.mpr hNone
  rw [underflow, if_pos hNone]
  refine ⟨hValid, ?_, ?_, rfl⟩
  · rw [filled, if_pos hAfter, ← hCursor]
  · rw [if_pos hAfter]
    rfl

theorem sgetc_fetches (h : fb.Valid) (outcome : Option (List UInt8)) :
    Fetches fb outcome (fb.sgetc outcome).1 (fb.sgetc outcome).2 := by
  rw [sgetc]
  split
  · rename_i hSome
    have hAfter : fb.cursor.after ≠ [] := fun hNil => hSome.ne (h.after_eq_nil_iff.mp hNil)
    refine ⟨h, ?_, ?_, ?_⟩
    · rw [filled, if_neg hAfter]
    · rw [if_neg hAfter, List.append_nil]
    · rw [if_neg hSome.ne]
  · rename_i hNone
    have hOrdered := h.ordered
    exact underflow_fetches h (by omega) outcome

/-- `sbumpc` is `sgetc`, and then the character is passed. -/
theorem sbumpc_eq (fb : FdbufInput) (outcome : Option (List UInt8)) :
    fb.sbumpc outcome = ((fb.sgetc outcome).1,
      if (fb.sgetc outcome).1 = eof then (fb.sgetc outcome).2 else (fb.sgetc outcome).2.bump) := by
  rw [sbumpc, sgetc]
  split
  · rw [if_neg fb.get_ne_eof]
  · rw [uflow, underflow]
    generalize (if fb.gptr = fb.egptr then fb.refill outcome else fb) = fb'
    dsimp only
    by_cases hNone : fb'.gptr = fb'.egptr
    · rw [if_pos hNone, if_pos rfl, if_pos rfl]
    · rw [if_neg hNone, if_neg fb'.get_ne_eof, if_neg fb'.get_ne_eof]

/-- What `sungetc` does: it goes back to the last character before it, if there is one. -/
theorem sungetc_spec (h : fb.Valid) (hSome : fb.eback < fb.gptr) :
    ∃ init c, fb.cursor.before = init ++ [c] ∧ fb.sungetc.1 = to_int_type c ∧
      fb.sungetc.2.Valid ∧ fb.sungetc.2.delivered = fb.delivered ∧
      fb.sungetc.2.cursor = ⟨init, c :: fb.cursor.after⟩ := by
  have hOrdered := h.ordered
  have hBack : FdbufInput.Valid { fb with gptr := fb.gptr - 1 } :=
    ⟨h.eback, by dsimp only; omega, h.bounded, h.sized⟩
  have hLess : fb.gptr - 1 < fb.egptr := by omega
  have hBump : FdbufInput.bump { fb with gptr := fb.gptr - 1 } = fb := by
    have hSucc : fb.gptr - 1 + 1 = fb.gptr := by omega
    simp only [bump, hSucc]
  obtain ⟨c, hGet, hAfter, hBefore, -⟩ := hBack.bump hLess
  rw [hBump] at hAfter hBefore
  rw [sungetc, if_pos hSome]
  exact ⟨_, c, hBefore, hGet, hBack, rfl, by rw [← hAfter]⟩

theorem sungetcs_eq (h : fb.Valid) {k : Nat} (hk : k ≤ fb.cursor.before.length) :
    fb.sungetcs k = (fb.cursor.before.reverse.take k).map to_int_type := by
  induction k generalizing fb with
  | zero => rfl
  | succ k ih =>
    have hSome : fb.eback < fb.gptr := by
      rw [h.length_before] at hk
      rw [h.eback]
      omega
    obtain ⟨init, c, hBefore, hResult, hValid, -, hCursor⟩ := sungetc_spec h hSome
    have hLength : k ≤ fb.sungetc.2.cursor.before.length := by
      rw [hBefore, List.length_append, List.length_singleton] at hk
      rw [hCursor]
      exact Nat.le_of_succ_le_succ hk
    rw [sungetcs, ih hValid hLength, hResult, hCursor, hBefore]
    simp

theorem Fetches.result_eq {outcome : Option (List UInt8)} {res : Int} {fb' : FdbufInput}
    (h : Fetches fb outcome res fb') : res = returned fb'.cursor.after.head? := by
  rw [h.result]
  rcases h.valid.ordered.eq_or_lt with hNone | hSome
  · rw [if_pos hNone, h.valid.after_eq_nil_iff.mpr hNone]
    rfl
  · obtain ⟨c, hGet, hAfter, -⟩ := h.valid.bump hSome
    rw [if_neg hSome.ne, hAfter, hGet]
    rfl

end FdbufInput

namespace Getting

open FdbufInput Fdbuf

/-- The buffer is a cursor that has passed what was consumed. -/
structure Inv (s : Getting) : Prop where
  valid : s.fb.Valid
  place : s.fb.cursor.At reserve s.consumed s.fb.delivered

variable {s : Getting}

/-- What a call returns that asks for the character at index `i` of the stream. -/
def charAt (s : Getting) (i : Nat) : Int := returned s.fb.delivered[i]?

theorem Inv.charAt_next (h : s.Inv) :
    s.charAt s.consumed.length = returned s.fb.cursor.after.head? := by
  have hPlace := h.place.getElem? 0
  rw [Nat.add_zero] at hPlace
  rw [Getting.charAt, hPlace, List.head?_eq_getElem?]

theorem Inv.fetches (h : s.Inv) {outcome : Option (List UInt8)} {res : Int} {fb : FdbufInput}
    (hFetches : Fetches s.fb outcome res fb) :
    Inv ⟨fb, s.consumed⟩ ∧ res = Getting.charAt ⟨fb, s.consumed⟩ s.consumed.length := by
  have hInv : Inv ⟨fb, s.consumed⟩ := by
    refine ⟨hFetches.valid, ?_⟩
    dsimp only
    rw [hFetches.cursor, hFetches.delivered, filled]
    split
    · exact h.place.refill _
    · rw [List.append_nil]
      exact h.place
  exact ⟨hInv, hFetches.result_eq.trans hInv.charAt_next.symm⟩

theorem Inv.sgetc (h : s.Inv) (outcome : Option (List UInt8)) :
    (s.call (.sgetc outcome)).Inv ∧
      s.result (.sgetc outcome) = (s.call (.sgetc outcome)).charAt s.consumed.length :=
  h.fetches (sgetc_fetches h.valid outcome)

theorem Inv.sbumpc (h : s.Inv) (outcome : Option (List UInt8)) :
    (s.call (.sbumpc outcome)).Inv ∧
      s.result (.sbumpc outcome) = (s.call (.sbumpc outcome)).charAt s.consumed.length := by
  have hFetches := sgetc_fetches h.valid outcome
  obtain ⟨hInv, hResult⟩ := h.fetches hFetches
  have hCursor := hFetches.result_eq
  rw [result, call, take, sbumpc_eq]
  generalize s.fb.sgetc outcome = p at hInv hResult hCursor ⊢
  obtain ⟨res, fb⟩ := p
  dsimp only at hInv hResult hCursor ⊢
  constructor
  · split
    · exact hInv
    · rename_i hRes
      have hSome : fb.gptr < fb.egptr := by
        apply lt_of_le_of_ne hInv.valid.ordered
        intro hNone
        rw [hInv.valid.after_eq_nil_iff.mpr hNone] at hCursor
        exact hRes hCursor
      obtain ⟨c, -, hAfter, -, hValid⟩ := hInv.valid.bump hSome
      have hChar : to_char_type res = c := by
        rw [hCursor, hAfter]
        exact Fdbuf.to_char_type_to_int_type c
      refine ⟨hValid, ?_⟩
      dsimp only
      rw [hInv.valid.next_eq hSome, hChar]
      exact hInv.place.next hAfter
  · rw [hResult]
    split <;> rfl

theorem snextc_none {outcome : Option (List UInt8)} (h : s.result (.sbumpc outcome) = eof)
    (outcome' : Option (List UInt8)) : s.result (.snextc outcome outcome') = eof ∧
      s.call (.snextc outcome outcome') = s.call (.sbumpc outcome) := by
  rw [result] at h
  simp only [result, call, FdbufInput.snextc, if_pos h, and_self]

/-- `snextc` is `sbumpc`, and then `sgetc` if that took a character. -/
theorem snextc_some {outcome : Option (List UInt8)} (h : s.result (.sbumpc outcome) ≠ eof)
    (outcome' : Option (List UInt8)) :
    s.result (.snextc outcome outcome') = (s.call (.sbumpc outcome)).result (.sgetc outcome') ∧
      s.call (.snextc outcome outcome') = (s.call (.sbumpc outcome)).call (.sgetc outcome') := by
  rw [result] at h
  simp only [result, call, FdbufInput.snextc, if_neg h, and_self]

theorem charAt_eq_eof_iff {i : Nat} : s.charAt i = eof ↔ s.fb.delivered.length ≤ i := by
  rw [charAt, ← List.getElem?_eq_none_iff]
  cases s.fb.delivered[i]? with
  | none => exact iff_of_true rfl rfl
  | some c => exact iff_of_false (to_int_type_ne c) (Option.some_ne_none c)

theorem Inv.snextc (h : s.Inv) (outcome outcome' : Option (List UInt8)) :
    (s.call (.snextc outcome outcome')).Inv ∧ s.result (.snextc outcome outcome') =
      (s.call (.snextc outcome outcome')).charAt (s.consumed.length + 1) := by
  obtain ⟨hInv, hResult⟩ := h.sbumpc outcome
  by_cases hNone : s.result (.sbumpc outcome) = eof
  · obtain ⟨hRes, hCall⟩ := snextc_none hNone outcome'
    rw [hRes, hCall]
    rw [hNone] at hResult
    exact ⟨hInv, (charAt_eq_eof_iff.mpr (Nat.le_succ_of_le
      (charAt_eq_eof_iff.mp hResult.symm))).symm⟩
  · obtain ⟨hRes, hCall⟩ := snextc_some hNone outcome'
    obtain ⟨hNext, hResult'⟩ := hInv.sgetc outcome'
    have hConsumed : (s.call (.sbumpc outcome)).consumed =
        s.consumed ++ [to_char_type (s.result (.sbumpc outcome))] := if_neg hNone
    rw [hRes, hCall]
    refine ⟨hNext, ?_⟩
    rw [hResult', hConsumed, List.length_append]
    rfl

theorem Inv.sungetc (h : s.Inv) : (s.call .sungetc).Inv ∧
    (s.result .sungetc = eof ↔ s.fb.gptr = s.fb.eback) ∧
    (s.result .sungetc ≠ eof → 0 < s.consumed.length ∧
      s.result .sungetc = s.charAt (s.consumed.length - 1)) := by
  by_cases hSome : s.fb.eback < s.fb.gptr
  · obtain ⟨init, c, hBefore, hResult, hValid, hDelivered, hCursor⟩ := sungetc_spec h.valid hSome
    obtain ⟨hPlace, hConsumed⟩ := h.place.back hBefore
    have hRes : s.fb.sungetc.1 ≠ eof := by
      rw [hResult]
      exact to_int_type_ne c
    refine ⟨⟨hValid, ?_⟩, iff_of_false hRes hSome.ne', ?_⟩
    · simp only [call]
      rw [if_neg hRes, hCursor, hDelivered]
      exact hPlace
    · intro _
      have hLength := congrArg List.length hConsumed
      rw [List.length_append, List.length_singleton] at hLength
      refine ⟨by omega, ?_⟩
      have hAt := hPlace.getElem? 0
      rw [List.length_dropLast, Nat.add_zero] at hAt
      rw [charAt, hAt]
      exact hResult
  · have hNone : s.fb.sungetc = (eof, s.fb) := by
      rw [FdbufInput.sungetc, if_neg hSome]
      rfl
    have hBack := h.valid.eback
    have hResult : s.result .sungetc = eof := by
      rw [result, hNone]
    refine ⟨?_, iff_of_true hResult (by omega), fun hRes => absurd hResult hRes⟩
    rw [call, hNone, if_pos rfl]
    exact h

theorem Inv.call (h : s.Inv) (c : FdbufInputCall) : (s.call c).Inv := by
  cases c with
  | sgetc outcome => exact (h.sgetc outcome).1
  | sbumpc outcome => exact (h.sbumpc outcome).1
  | snextc outcome outcome' => exact (h.snextc outcome outcome').1
  | sungetc => exact h.sungetc.1

theorem reachable_inv (h : getting.Reachable s) : s.Inv := by
  refine h.induct ?_ ?_
  · rintro _ ⟨inbuf_, hSize, rfl⟩
    exact ⟨⟨rfl, Nat.le_refl _, Nat.zero_le _, hSize⟩, Lib.Cursor.At.start⟩
  · rintro t c _ hInv ⟨⟩
    exact hInv.call c

/-- What the call returns: the next character of the stream, the one behind it, or the last one that
was consumed. -/
def Returns (s : Getting) : FdbufInputCall → Prop
  | .sgetc outcome =>
    s.result (.sgetc outcome) = (s.call (.sgetc outcome)).charAt s.consumed.length
  | .sbumpc outcome =>
    s.result (.sbumpc outcome) = (s.call (.sbumpc outcome)).charAt s.consumed.length
  | .snextc outcome outcome' => s.result (.snextc outcome outcome') =
      (s.call (.snextc outcome outcome')).charAt (s.consumed.length + 1)
  | .sungetc => (s.result .sungetc = eof ↔ s.fb.gptr = s.fb.eback) ∧
      (s.result .sungetc ≠ eof → 0 < s.consumed.length ∧
        s.result .sungetc = s.charAt (s.consumed.length - 1))

theorem Inv.returns (h : s.Inv) (c : FdbufInputCall) : s.Returns c := by
  cases c with
  | sgetc outcome => exact (h.sgetc outcome).2
  | sbumpc outcome => exact (h.sbumpc outcome).2
  | snextc outcome outcome' => exact (h.snextc outcome outcome').2
  | sungetc => exact h.sungetc.2

/-- What the buffer holds of what was consumed is enough for its reserve. -/
theorem Inv.reserved (h : s.Inv) (hNone : s.fb.gptr = s.fb.egptr) :
    min reserve s.fb.gptr = min reserve s.consumed.length := by
  have hAfter := h.valid.after_eq_nil_iff.mpr hNone
  have hStream := h.place.exact
  have hRemembered := h.place.remembered
  have hKept := h.place.kept.length_le
  rw [hAfter, List.append_nil] at hStream
  rw [← hStream, hAfter, List.length_nil, Nat.add_zero] at hRemembered
  rw [h.valid.length_before] at hRemembered hKept
  omega

/-- Right after a refill, the last characters that were consumed can be put back. -/
theorem Inv.sungetcs (h : s.Inv) (hNone : s.fb.gptr = s.fb.egptr) (outcome : Option (List UInt8))
    {k : Nat} (hk : k ≤ min reserve s.fb.gptr) :
    (s.fb.underflow outcome).2.sungetcs k = (s.consumed.reverse.take k).map to_int_type := by
  obtain ⟨hValid, hCursor, -, -⟩ := underflow_fetches h.valid hNone outcome
  rw [filled, if_pos (h.valid.after_eq_nil_iff.mpr hNone)] at hCursor
  have hLength : k ≤ (s.fb.underflow outcome).2.cursor.before.length := by
    rwa [hCursor, Lib.Cursor.length_refill, h.valid.length_before]
  have hPlace := h.place.refill (read outcome).2
  rw [← hCursor] at hPlace
  rw [sungetcs_eq hValid hLength, hPlace.take_reverse hLength]

/-- The characters in the buffer are the last ones of the stream. -/
theorem Inv.window (h : s.Inv) :
    (s.fb.inbuf_.take s.fb.egptr).drop s.fb.eback <:+ s.fb.delivered := by
  obtain ⟨forgotten, hKept⟩ := h.place.kept
  have hExact := h.place.exact
  rw [cursor, h.valid.eback, List.drop_zero] at hKept hExact
  have hLess : s.fb.gptr = min s.fb.gptr s.fb.egptr := (Nat.min_eq_left h.valid.ordered).symm
  have hSplit : s.fb.inbuf_.take s.fb.egptr =
      s.fb.inbuf_.take s.fb.gptr ++ (s.fb.inbuf_.take s.fb.egptr).drop s.fb.gptr := by
    conv_rhs => rw [hLess, ← List.take_take, ← hLess]
    exact (List.take_append_drop _ _).symm
  rw [h.valid.eback, List.drop_zero, hSplit]
  exact ⟨forgotten, by rw [← List.append_assoc, hKept, hExact]⟩

end Getting

/-- After every sequence of calls, the buffer holds the last characters of the stream, and
`gptr()` is where it goes on behind what was consumed; each call returns the character at that
place; and after a refill up to 12 characters can be put back. -/
theorem fdbuf_input_exact {s : Getting} (h : getting.Reachable s) :
    (s.fb.eback ≤ s.fb.gptr ∧ s.fb.gptr ≤ s.fb.egptr ∧ s.fb.egptr ≤ 1036 ∧
      s.fb.inbuf_.length = 1036) ∧
    ((s.fb.inbuf_.take s.fb.egptr).drop s.fb.eback <:+ s.fb.delivered ∧
      s.consumed ++ (s.fb.inbuf_.take s.fb.egptr).drop s.fb.gptr = s.fb.delivered) ∧
    (∀ c, s.Returns c) ∧
    (s.fb.gptr = s.fb.egptr →
      min 12 (s.fb.gptr - s.fb.eback) = min 12 s.consumed.length ∧
      ∀ outcome, ∀ k ≤ min 12 (s.fb.gptr - s.fb.eback),
        (s.fb.underflow outcome).2.sungetcs k =
          (s.consumed.reverse.take k).map Fdbuf.to_int_type) := by
  have hInv := Getting.reachable_inv h
  rw [hInv.valid.eback, Nat.sub_zero]
  refine ⟨⟨Nat.zero_le _, hInv.valid.ordered, hInv.valid.bounded, hInv.valid.sized⟩, ⟨?_,
    hInv.place.exact⟩, hInv.returns, ?_⟩
  · have hWindow := hInv.window
    rwa [hInv.valid.eback] at hWindow
  · intro hNone
    exact ⟨hInv.reserved hNone, fun outcome k hk => hInv.sungetcs hNone outcome hk⟩

theorem fdbuf_input_exact_short :
    ∃ s, getting.run ⟨FdbufInput.opened (List.replicate FdbufInput.inbufSize 0), []⟩
        [.sbumpc (some [7, 8]), .snextc none none, .sungetc] = some s ∧
      s.consumed ++ (s.fb.inbuf_.take s.fb.egptr).drop s.fb.gptr = s.fb.delivered :=
  ⟨_, rfl, (fdbuf_input_exact ⟨_, [.sbumpc (some [7, 8]), .snextc none none, .sungetc],
    ⟨_, List.length_replicate, rfl⟩, rfl⟩).2.1.2⟩

end CcCommon.Util
