import CcCommon.Lib.Buffer
import CcCommon.Lib.Machine
import Mathlib.Algebra.Group.Nat.Defs

/-! # util/fdbuf.cc: the output side

A position is its distance from `pbase()`, which is `outbuf_`. Behind `epptr()`
the buffer has room for one character more, and `overflow` stores there before
it knows whether `write(2)` makes room: it may not, or it may make so little
that `overflow` says it has failed when it has not.
-/

namespace CcCommon.Util

open Lib (Pipe store store_length take_store)

set_option autoImplicit false

/-! ## The code -/

structure Fdbuf where
  outbuf_ : List UInt8
  pptr : Nat
  epptr : Nat
  written : List UInt8
  /-- A character was stored outside `outbuf_`. -/
  outside : Bool

namespace Fdbuf

def bufsize : Nat := 1024

def eof : Int := -1

def not_eof (c : Int) : Int := if c = eof then 0 else c

def to_char_type (c : Int) : UInt8 := UInt8.ofNat (c % 256).toNat

def to_int_type (c : UInt8) : Int := c.toNat

/-- `*pptr() = c; pbump(1);` -/
def put (fb : Fdbuf) (c : UInt8) : Fdbuf :=
  if fb.pptr < bufsize then
    { fb with outbuf_ := store fb.outbuf_ fb.pptr [c], pptr := fb.pptr + 1 }
  else { fb with outside := true, pptr := fb.pptr + 1 }

/-- What `write(2)` returns for `size` bytes: it fails, or it takes so many or all of them. -/
def done (outcome : Option Nat) (size : Nat) : Int :=
  match outcome with
  | none => -1
  | some k => min k size

def sync (fb : Fdbuf) (outcome : Option Nat) : Int × Fdbuf :=
  let fb :=
    if fb.pptr ≠ 0 then
      let size := fb.pptr
      let n := done outcome size
      if 0 < n then
        { fb with
          written := fb.written ++ (fb.outbuf_.take size).take n.toNat
          outbuf_ := store fb.outbuf_ 0 ((fb.outbuf_.take size).drop n.toNat)
          pptr := size - n.toNat }
      else fb
    else fb
  (if fb.pptr ≠ fb.epptr then 0 else -1, fb)

def overflow (fb : Fdbuf) (c : Int) (outcome : Option Nat) : Int × Fdbuf :=
  let fb := if c ≠ eof then fb.put (to_char_type c) else fb
  let (res, fb) := fb.sync outcome
  (if res = -1 then eof else not_eof c, fb)

/-- `std::streambuf::sputc` -/
def sputc (fb : Fdbuf) (c : UInt8) (outcome : Option Nat) : Int × Fdbuf :=
  if fb.pptr < fb.epptr then (to_int_type c, fb.put c) else fb.overflow (to_int_type c) outcome

/-- `open(fd)`, with what is in `outbuf_` before. -/
def opened (outbuf_ : List UInt8) : Fdbuf := ⟨outbuf_, 0, bufsize - 1, [], false⟩

end Fdbuf

/-! ## Every sequence of puts and syncs -/

/-- A call, and the outcome of `write(2)` if the call makes one. -/
inductive FdbufCall where
  | put (c : UInt8) (outcome : Option Nat)
  | sync (outcome : Option Nat)

/-- An `fdbuf`, and the characters whose put was reported as successful. -/
structure Putting where
  fb : Fdbuf
  reported : List UInt8

def Putting.call (s : Putting) : FdbufCall → Putting
  | .put c outcome =>
    let (res, fb) := s.fb.sputc c outcome
    ⟨fb, if res ≠ Fdbuf.eof then s.reported ++ [c] else s.reported⟩
  | .sync outcome => { s with fb := (s.fb.sync outcome).2 }

def putting : Lib.Machine Putting FdbufCall where
  init s := ∃ outbuf_, outbuf_.length = Fdbuf.bufsize ∧ s = ⟨Fdbuf.opened outbuf_, []⟩
  step s c := some (s.call c)

/-! ## The buffer is a pipe to the descriptor -/

namespace Fdbuf

variable {fb : Fdbuf}

def pipe (fb : Fdbuf) : Pipe UInt8 := ⟨fb.written, fb.outbuf_.take fb.pptr⟩

theorem put_pipe (c : UInt8) (hRoom : fb.pptr < bufsize) (hSize : fb.outbuf_.length = bufsize) :
    (fb.put c).pipe = fb.pipe.put [c] := by
  have hTake : (store fb.outbuf_ fb.pptr [c]).take (fb.pptr + [c].length) =
      fb.outbuf_.take fb.pptr ++ [c] :=
    take_store (hRoom.le.trans hSize.ge)
  rw [List.length_singleton] at hTake
  rw [put, if_pos hRoom, pipe, pipe, Pipe.put]
  dsimp only
  rw [hTake]

theorem done_le (outcome : Option Nat) (size : Nat) : done outcome size ≤ size := by
  unfold done
  split
  · omega
  · exact Int.min_le_right _ _

/-- What `sync` does: so much goes to the descriptor as `write(2)` takes. -/
structure Syncs (fb : Fdbuf) (n : Nat) (res : Int) (fb' : Fdbuf) : Prop where
  pipe : fb'.pipe = fb.pipe.take n
  pptr : fb'.pptr = fb.pptr - n
  epptr : fb'.epptr = fb.epptr
  outside : fb'.outside = fb.outside
  size : fb'.outbuf_.length = bufsize
  failed : res = -1 ↔ fb'.pptr = fb.epptr

theorem sync_spec (outcome : Option Nat) (hBound : fb.pptr ≤ bufsize)
    (hSize : fb.outbuf_.length = bufsize) :
    Syncs fb (done outcome fb.pptr).toNat (fb.sync outcome).1 (fb.sync outcome).2 := by
  have hLe := done_le outcome fb.pptr
  have hNone : (done outcome fb.pptr).toNat = 0 →
      Syncs fb (done outcome fb.pptr).toNat (if fb.pptr ≠ fb.epptr then 0 else -1) fb := by
    intro hZero
    refine ⟨?_, by omega, rfl, rfl, hSize, by simp⟩
    rw [hZero, Pipe.take_zero]
  rw [sync]
  by_cases hEmpty : fb.pptr = 0
  · rw [if_neg (not_not.mpr hEmpty)]
    exact hNone (by omega)
  · rw [if_pos hEmpty]
    by_cases hPos : 0 < done outcome fb.pptr
    · dsimp only
      rw [if_pos hPos]
      generalize done outcome fb.pptr = n at hLe hPos
      have hLength : ((fb.outbuf_.take fb.pptr).drop n.toNat).length = fb.pptr - n.toNat := by
        rw [List.length_drop, List.length_take, hSize, Nat.min_eq_left hBound]
      generalize hRest : (fb.outbuf_.take fb.pptr).drop n.toNat = rest at hLength
      have hTake : (store fb.outbuf_ 0 rest).take (0 + rest.length) = fb.outbuf_.take 0 ++ rest :=
        take_store (Nat.zero_le _)
      rw [Nat.zero_add, hLength, List.take_zero, List.nil_append] at hTake
      refine ⟨?_, rfl, rfl, rfl, ?_, by simp⟩
      · rw [pipe, pipe, Pipe.take]
        dsimp only
        rw [hTake, hRest]
      · dsimp only
        rw [store_length, hSize]
        omega
    · dsimp only
      rw [if_neg hPos]
      exact hNone (by omega)

theorem sync_outside (fb : Fdbuf) (outcome : Option Nat) :
    (fb.sync outcome).2.outside = fb.outside := by
  rw [sync]
  dsimp only
  split
  · split <;> rfl
  · rfl

theorem to_int_type_ne (c : UInt8) : to_int_type c ≠ eof := by
  unfold to_int_type eof
  omega

theorem to_char_type_to_int_type (c : UInt8) : to_char_type (to_int_type c) = c := by
  have hLt := c.toNat_lt
  have hMod : ((c.toNat : Int) % 256).toNat = c.toNat := by omega
  rw [to_char_type, to_int_type, hMod, UInt8.ofNat_toNat]

end Fdbuf

namespace Putting

/-- No character was stored outside the buffer, and what was written and what is in the buffer is
what was reported. -/
structure Exact (s : Putting) : Prop where
  bounded : s.fb.pptr ≤ Fdbuf.bufsize
  inside : s.fb.outside = false
  exact : s.fb.written ++ s.fb.outbuf_.take s.fb.pptr = s.reported

/-- `overflow(c)` returns `eof` exactly if `c` is not accepted into the buffer. -/
def Faithful (s : Putting) : FdbufCall → Prop
  | .put c outcome => ¬ s.fb.pptr < s.fb.epptr →
    let (res, fb) := s.fb.overflow (Fdbuf.to_int_type c) outcome
    res = Fdbuf.eof ↔ ¬ fb.pipe.total = s.fb.pipe.total ++ [c]
  | .sync _ => True

/-- A put finds room for its character, and `write(2)`, if it takes any of a full buffer, takes more
than one character. -/
def Fits (s : Putting) : FdbufCall → Prop
  | .put _ outcome =>
    s.fb.pptr ≠ Fdbuf.bufsize ∧
      (s.fb.pptr = Fdbuf.bufsize - 1 → Fdbuf.done outcome Fdbuf.bufsize ≠ 1)
  | .sync _ => True

instance (s : Putting) : DecidablePred s.Fits
  | .put _ _ => inferInstanceAs (Decidable (_ ∧ _))
  | .sync _ => instDecidableTrue

structure Sized (s : Putting) : Prop where
  size : s.fb.outbuf_.length = Fdbuf.bufsize
  epptr : s.fb.epptr = Fdbuf.bufsize - 1

open Fdbuf

variable {s : Putting}

theorem Exact.total (h : s.Exact) : s.fb.pipe.total = s.reported := h.exact

theorem sync_exact (hSized : s.Sized) (h : s.Exact) (outcome : Option Nat) :
    (s.call (.sync outcome)).Exact ∧ (s.call (.sync outcome)).Sized := by
  have hSync := sync_spec outcome h.bounded hSized.size
  refine ⟨⟨?_, ?_, ?_⟩, hSync.size, hSync.epptr.trans hSized.epptr⟩
  · exact hSync.pptr.trans_le ((Nat.sub_le _ _).trans h.bounded)
  · exact hSync.outside.trans h.inside
  · exact (congrArg Pipe.total hSync.pipe).trans ((Pipe.total_take _ _).trans h.exact)

theorem put_exact (hSized : s.Sized) (h : s.Exact) (c : UInt8) (outcome : Option Nat)
    (hRoom : s.fb.pptr < s.fb.epptr) :
    (s.call (.put c outcome)).Exact ∧ (s.call (.put c outcome)).Sized := by
  have hBufsize : s.fb.pptr < bufsize := by
    rw [hSized.epptr] at hRoom
    omega
  have hPipe := put_pipe c hBufsize hSized.size
  have hCall : s.call (.put c outcome) = ⟨s.fb.put c, s.reported ++ [c]⟩ := by
    rw [call, sputc, if_pos hRoom]
    dsimp only
    rw [if_pos (to_int_type_ne c)]
  have hTotal : (s.fb.put c).pipe.total = s.reported ++ [c] := by
    rw [hPipe, Pipe.total_put, h.total]
  rw [hCall]
  refine ⟨⟨?_, ?_, hTotal⟩, ?_, ?_⟩
  · rw [put, if_pos hBufsize]
    exact hBufsize
  · rw [put, if_pos hBufsize]
    exact h.inside
  · rw [put, if_pos hBufsize]
    dsimp only
    rw [store_length, hSized.size]
    rw [hSized.size]
    exact hBufsize
  · rw [put, if_pos hBufsize]
    exact hSized.epptr

theorem call_full (hFull : ¬ s.fb.pptr < s.fb.epptr) (c : UInt8) (outcome : Option Nat) :
    s.call (.put c outcome) = ⟨((s.fb.put c).sync outcome).2,
      if ((s.fb.put c).sync outcome).1 = -1 then s.reported else s.reported ++ [c]⟩ := by
  rw [call, sputc, if_neg hFull, overflow, if_pos (to_int_type_ne c), to_char_type_to_int_type]
  dsimp only
  split
  · rw [if_neg (not_not.mpr rfl)]
  · rw [not_eof, if_neg (to_int_type_ne c), if_pos (to_int_type_ne c)]

/-- A put of the character for which the buffer has its reserve. -/
theorem reserve_exact_iff (hSized : s.Sized) (h : s.Exact) (c : UInt8) (outcome : Option Nat)
    (hLast : s.fb.pptr = bufsize - 1) :
    ((s.call (.put c outcome)).Exact ↔ done outcome bufsize ≠ 1) ∧
      (s.call (.put c outcome)).Sized := by
  have hRoom : s.fb.pptr < bufsize := by
    rw [hLast]
    decide
  have hFull : ¬ s.fb.pptr < s.fb.epptr := by
    rw [hLast, hSized.epptr]
    exact lt_irrefl _
  have hPut : (s.fb.put c).pptr = bufsize ∧ (s.fb.put c).outbuf_.length = bufsize ∧
      (s.fb.put c).epptr = bufsize - 1 ∧ (s.fb.put c).outside = false := by
    rw [put, if_pos hRoom]
    refine ⟨?_, ?_, hSized.epptr, h.inside⟩
    · dsimp only
      rw [hLast]
      rfl
    · dsimp only
      rw [store_length, hSized.size]
      rw [hSized.size]
      exact hRoom
  obtain ⟨hPptr, hSize, hEpptr, hInside⟩ := hPut
  have hSync := sync_spec outcome hPptr.le hSize
  rw [hPptr] at hSync
  have hTotal : ((s.fb.put c).sync outcome).2.pipe.total = s.reported ++ [c] := by
    rw [hSync.pipe, Pipe.total_take, put_pipe c hRoom hSized.size, Pipe.total_put, h.total]
  have hFailed : ((s.fb.put c).sync outcome).1 = -1 ↔ done outcome bufsize = 1 := by
    have hLe := done_le outcome bufsize
    rw [hSync.failed, hSync.pptr, hEpptr, hPptr]
    generalize done outcome bufsize = n at hLe
    have hBufsize : bufsize = 1024 := rfl
    omega
  rw [call_full hFull]
  refine ⟨?_, hSync.size, hSync.epptr.trans hEpptr⟩
  constructor
  · intro hExact hOne
    have hFalse := hExact.total
    dsimp only at hFalse
    rw [if_pos (hFailed.mpr hOne), hTotal] at hFalse
    simp at hFalse
  · intro hOther
    rw [if_neg (fun hFalse => hOther (hFailed.mp hFalse))]
    refine ⟨?_, hSync.outside.trans hInside, hTotal⟩
    exact hSync.pptr.trans_le ((Nat.sub_le _ _).trans hPptr.le)

theorem call_exact_iff (hSized : s.Sized) (h : s.Exact) (c : FdbufCall) :
    (s.Fits c ↔ (s.call c).Exact) ∧ (s.Fits c → (s.call c).Sized) := by
  cases c with
  | sync outcome =>
    have hSync := sync_exact hSized h outcome
    exact ⟨iff_of_true trivial hSync.1, fun _ => hSync.2⟩
  | put c outcome =>
    by_cases hRoom : s.fb.pptr < s.fb.epptr
    · have hPut := put_exact hSized h c outcome hRoom
      refine ⟨iff_of_true ⟨?_, ?_⟩ hPut.1, fun _ => hPut.2⟩
      · rw [hSized.epptr] at hRoom
        omega
      · rw [hSized.epptr] at hRoom
        omega
    · by_cases hLast : s.fb.pptr = bufsize - 1
      · have hReserve := reserve_exact_iff hSized h c outcome hLast
        refine ⟨?_, fun _ => hReserve.2⟩
        rw [hReserve.1]
        constructor
        · exact fun hFits => hFits.2 hLast
        · intro hOther
          refine ⟨?_, fun _ => hOther⟩
          rw [hLast]
          decide
      · have hBeyond : s.fb.pptr = bufsize := by
          have hBounded := h.bounded
          rw [hSized.epptr] at hRoom
          omega
        have hNot : ¬ s.Fits (.put c outcome) := fun hFalse => hFalse.1 hBeyond
        refine ⟨iff_of_false hNot ?_, fun hFalse => absurd hFalse hNot⟩
        intro hExact
        have hInside := hExact.inside
        rw [call_full hRoom, sync_outside, put, if_neg (by rw [hBeyond]; exact lt_irrefl _)] at hInside
        cases hInside

/-- What `overflow` returns is right if no character gets lost or is added. -/
theorem faithful_of_exact (h : s.Exact) {c : FdbufCall} (h' : (s.call c).Exact) :
    s.Faithful c := by
  cases c with
  | sync outcome => trivial
  | put c outcome =>
    intro hFull
    have hTotal := h'.total
    rw [call, sputc, if_neg hFull] at hTotal
    generalize s.fb.overflow (to_int_type c) outcome = p at hTotal ⊢
    obtain ⟨res, fb⟩ := p
    dsimp only at hTotal ⊢
    rw [hTotal, h.total]
    by_cases hEof : res = eof
    · rw [if_neg (not_not.mpr hEof)]
      exact iff_of_true hEof (by simp)
    · rw [if_pos hEof]
      exact iff_of_false hEof (by simp)

end Putting

/-- Exactly in the runs in which each put finds room and `write(2)` never takes just one character
of a full buffer, everything is stored inside the buffer, what was written and what is in the
buffer is what was reported, and `overflow` returns `eof` only for what is not accepted. -/
theorem fdbuf_exact_iff {s t : Putting} {cs : List FdbufCall} (hOpened : putting.init s)
    (hRun : putting.run s cs = some t) :
    (putting.Throughout Putting.Exact s cs ∧ putting.EachStep Putting.Faithful s cs) ↔
      putting.EachStep Putting.Fits s cs := by
  obtain ⟨outbuf_, hSize, rfl⟩ := hOpened
  have hIff : putting.Throughout Putting.Exact ⟨Fdbuf.opened outbuf_, []⟩ cs ↔
      putting.EachStep Putting.Fits ⟨Fdbuf.opened outbuf_, []⟩ cs := by
    apply Lib.Machine.throughout_iff_eachStep (I := Putting.Sized) ?_ ?_ hRun
    · rintro u c u' hSized hExact ⟨⟩
      exact Putting.call_exact_iff hSized hExact c
    · exact ⟨⟨hSize, rfl⟩, ⟨Nat.zero_le _, rfl, rfl⟩⟩
  rw [← hIff]
  refine ⟨fun h => h.1, fun h => ⟨h, ?_⟩⟩
  intro done c hDone u hu
  apply Putting.faithful_of_exact
  · exact h done ((List.prefix_append done [c]).trans hDone) u hu
  · apply h (done ++ [c]) hDone
    rw [Lib.Machine.run_concat, hu]
    rfl

def emptyPutting : Putting := ⟨Fdbuf.opened (List.replicate Fdbuf.bufsize 0), []⟩

theorem emptyPutting_init : putting.init emptyPutting :=
  ⟨_, List.length_replicate, rfl⟩

theorem fdbuf_exact_iff_short :
    putting.Throughout Putting.Exact emptyPutting [.put 7 none, .put 8 none, .sync (some 1)] ∧
      putting.EachStep Putting.Faithful emptyPutting
        [.put 7 none, .put 8 none, .sync (some 1)] :=
  (fdbuf_exact_iff emptyPutting_init rfl).mpr (by decide)

section Full

open Fdbuf

theorem puts_run (c : UInt8) {n : Nat} (hn : n < bufsize) :
    ∃ t, putting.run emptyPutting (List.replicate n (.put c none)) = some t ∧ t.Exact ∧ t.Sized ∧
      t.fb.pptr = n := by
  induction n with
  | zero =>
    exact ⟨emptyPutting, rfl, ⟨Nat.zero_le _, rfl, rfl⟩, ⟨List.length_replicate, rfl⟩, rfl⟩
  | succ n ih =>
    obtain ⟨t, hRun, hExact, hSized, hPptr⟩ := ih (by omega)
    have hRoom : t.fb.pptr < t.fb.epptr := by
      rw [hSized.epptr, hPptr]
      omega
    have hPut := Putting.put_exact hSized hExact c none hRoom
    refine ⟨t.call (.put c none), ?_, hPut.1, hPut.2, ?_⟩
    · rw [List.replicate_succ', Lib.Machine.run_concat, hRun]
      rfl
    · rw [Putting.call, sputc, if_pos hRoom, put, if_pos (by omega), hPptr]

theorem reserve_run (c : UInt8) :
    ∃ t, putting.run emptyPutting (List.replicate bufsize (.put c none)) = some t ∧
      t.Exact ∧ t.Sized ∧ t.fb.pptr = bufsize := by
  obtain ⟨t, hRun, hExact, hSized, hPptr⟩ := puts_run c (n := bufsize - 1) (by decide)
  have hReserve := Putting.reserve_exact_iff hSized hExact c none hPptr
  refine ⟨t.call (.put c none), ?_, hReserve.1.mpr (by decide), hReserve.2, ?_⟩
  · have hSucc : bufsize = bufsize - 1 + 1 := rfl
    rw [hSucc, List.replicate_succ', Lib.Machine.run_concat, hRun]
    rfl
  · have hFull : ¬ t.fb.pptr < t.fb.epptr := by
      rw [hPptr, hSized.epptr]
      exact lt_irrefl _
    have hSync : ((t.fb.put c).sync none).2 = t.fb.put c := by
      simp [sync, done]
    rw [Putting.call_full hFull, hSync, put, if_pos (by rw [hPptr]; decide), hPptr]
    rfl

/-- `write(2)` fails twice at a full buffer: the second character is stored behind `outbuf_`. And
`write(2)` takes one of 1024 characters: the put is reported as failed, and the character is in the
buffer. -/
theorem fdbuf_inexact :
    (∃ t, putting.run emptyPutting (List.replicate (bufsize + 1) (.put 7 none)) = some t ∧
      t.fb.outside = true) ∧
    (∃ t, putting.run emptyPutting (List.replicate (bufsize - 1) (.put 7 none) ++
        [.put 7 (some 1)]) = some t ∧ ¬ t.Exact) := by
  constructor
  · obtain ⟨t, hRun, -, hSized, hPptr⟩ := reserve_run 7
    refine ⟨t.call (.put 7 none), ?_, ?_⟩
    · rw [List.replicate_succ', Lib.Machine.run_concat, hRun]
      rfl
    · have hFull : ¬ t.fb.pptr < t.fb.epptr := by
        rw [hPptr, hSized.epptr]
        decide
      rw [Putting.call_full hFull, sync_outside, put, if_neg (by rw [hPptr]; exact lt_irrefl _)]
  · obtain ⟨t, hRun, hExact, hSized, hPptr⟩ := puts_run 7 (n := bufsize - 1) (by decide)
    refine ⟨t.call (.put 7 (some 1)), ?_, ?_⟩
    · rw [Lib.Machine.run_concat, hRun]
      rfl
    · intro hFalse
      exact (Putting.reserve_exact_iff hSized hExact 7 (some 1) hPptr).1.mp hFalse (by decide)

end Full

end CcCommon.Util
