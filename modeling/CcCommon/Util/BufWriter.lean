import CcCommon.Lib.Buffer
import CcCommon.Lib.Machine
import Mathlib.Algebra.Group.Nat.Defs

/-! # util/bufio.cc: BufWriter

`write(2)` fails or writes at least one of the bytes it is given, as an
arbitrary sequence of outcomes says. The callers of `writen` keep `n + 4096`
within `int`, so no addition overflows.
-/

namespace CcCommon.Util

open Lib (Pipe store store_length take_store)

set_option autoImplicit false

/-! ## write(2) -/

/-- The outcome of `write(fd, _, n)`: an error, or `i + 1` bytes for some `i < n`. -/
abbrev WriteOutcome (n : Nat) := Option (Fin n)

structure WriteFd where
  /-- The outcome of each call, by its number. -/
  outcome : Nat → (n : Nat) → WriteOutcome n
  calls : Nat
  written : List UInt8

def WriteFd.write (fd : WriteFd) (b : List UInt8) : Int × WriteFd :=
  match fd.outcome fd.calls b.length with
  | none => (-1, { fd with calls := fd.calls + 1 })
  | some i =>
    (i.val + 1, { fd with calls := fd.calls + 1, written := fd.written ++ b.take (i.val + 1) })

theorem WriteFd.write_cases (fd : WriteFd) (b : List UInt8) :
    ((fd.write b).1 = -1 ∧ (fd.write b).2.written = fd.written) ∨
      ∃ k, 0 < k ∧ k ≤ b.length ∧ (fd.write b).1 = k ∧
        (fd.write b).2.written = fd.written ++ b.take k := by
  unfold write
  split
  · exact Or.inl ⟨rfl, rfl⟩
  · rename_i i _
    exact Or.inr ⟨i.val + 1, Nat.succ_pos _, i.isLt, rfl, rfl⟩

theorem WriteFd.write_pos {fd : WriteFd} {b : List UInt8} (h : ¬ (fd.write b).1 < 0) :
    0 < (fd.write b).1.toNat := by
  rcases fd.write_cases b with ⟨hRet, _⟩ | ⟨k, hk, _, hRet, _⟩
  · rw [hRet] at h
    exact absurd (by decide) h
  · rw [hRet]
    exact hk

/-! ## The code -/

structure BufWriter where
  fd_ : Int
  n_ : Nat
  buf_ : List UInt8

namespace BufWriter

def bufsize_ : Nat := 4096

/-- The loop of `flush`, and what follows it. -/
def flushLoop (bw : BufWriter) (fd : WriteFd) (n w : Nat) : Int × BufWriter × WriteFd :=
  if n ≠ 0 then
    let r := fd.write ((bw.buf_.drop w).take n)
    let i := r.1
    if i < 0 then
      let buf_ := if w ≠ 0 then store bw.buf_ 0 ((bw.buf_.drop w).take n) else bw.buf_
      (i, { bw with buf_ := buf_, n_ := bw.n_ - w }, r.2)
    else flushLoop bw r.2 (n - i.toNat) (w + i.toNat)
  else (0, { bw with n_ := 0 }, fd)
termination_by n
decreasing_by
  rename_i hn hi
  have hPos := WriteFd.write_pos hi
  omega

def flush (bw : BufWriter) (fd : WriteFd) : Int × BufWriter × WriteFd :=
  if bw.fd_ < 0 then (-1, bw, fd)
  else bw.flushLoop fd bw.n_ 0

/-- `writen(b, n)`, where `b` are the `n` bytes. -/
def writen (bw : BufWriter) (fd : WriteFd) (b : List UInt8) : Int × BufWriter × WriteFd :=
  if bw.fd_ < 0 then (0, bw, fd)
  else if b.length + bw.n_ > bufsize_ then
    let (w, bw, fd) := bw.flush fd
    if w < 0 then (w, bw, fd)
    else if b.length > bufsize_ then
      let (w, fd) := fd.write b
      (w, bw, fd)
    else (b.length, { bw with buf_ := store bw.buf_ bw.n_ b, n_ := bw.n_ + b.length }, fd)
  else (b.length, { bw with buf_ := store bw.buf_ bw.n_ b, n_ := bw.n_ + b.length }, fd)

end BufWriter

/-! ## Every sequence of calls -/

inductive BufWriterCall where
  | writen (b : List UInt8) (hFits : b.length + 4096 < 2 ^ 31)
  | flush

/-- A writer, the descriptor, and what the callers were told was accepted. -/
structure Writing where
  writer : BufWriter
  fd : WriteFd
  accepted : List UInt8

def Writing.call (s : Writing) : BufWriterCall → Writing
  | .writen b _ =>
    let (ret, writer, fd) := s.writer.writen s.fd b
    ⟨writer, fd, s.accepted ++ b.take ret.toNat⟩
  | .flush =>
    let (_, writer, fd) := s.writer.flush s.fd
    ⟨writer, fd, s.accepted⟩

/-- After `reset(fd)` with `fd >= 0`. -/
structure Writing.Fresh (s : Writing) : Prop where
  fd_ : 0 ≤ s.writer.fd_
  n_ : s.writer.n_ = 0
  buf_ : s.writer.buf_.length = BufWriter.bufsize_
  written : s.fd.written = []
  accepted : s.accepted = []

def Writing.ret (s : Writing) : BufWriterCall → Int
  | .writen b _ => (s.writer.writen s.fd b).1
  | .flush => (s.writer.flush s.fd).1

def writing : Lib.Machine Writing BufWriterCall where
  init := Writing.Fresh
  step s c := some (s.call c)

/-! ## The buffer is a pipe to the descriptor -/

namespace BufWriter

def contents (bw : BufWriter) : List UInt8 := bw.buf_.take bw.n_

def pipe (bw : BufWriter) (fd : WriteFd) : Pipe UInt8 := ⟨fd.written, bw.contents⟩

structure Valid (bw : BufWriter) : Prop where
  opened : 0 ≤ bw.fd_
  bounded : bw.n_ ≤ bufsize_
  sized : bw.buf_.length = bufsize_

theorem Valid.contents_length {bw : BufWriter} (h : bw.Valid) :
    bw.contents.length = bw.n_ := by
  rw [contents, List.length_take, h.sized]
  exact Nat.min_eq_left h.bounded

/-- A flush takes bytes out of the pipe, all of them if it returns 0. -/
structure Flushes (p : Pipe UInt8) (ret : Int) (bw' : BufWriter) (fd' : WriteFd) : Prop where
  valid : bw'.Valid
  taken : ∃ k, bw'.pipe fd' = p.take k
  code : ret = 0 ∨ ret = -1
  emptied : ret = 0 ↔ bw'.n_ = 0

theorem flushLoop_spec {bw : BufWriter} (hValid : bw.Valid) (fd : WriteFd) (n w : Nat)
    (hSplit : bw.n_ = w + n) :
    Flushes ⟨fd.written, (bw.buf_.drop w).take n⟩ (bw.flushLoop fd n w).1
      (bw.flushLoop fd n w).2.1 (bw.flushLoop fd n w).2.2 := by
  have hBounded := hValid.bounded
  have hSized := hValid.sized
  induction n using Nat.strongRecOn generalizing fd w with
  | ind n ih =>
    have hLength : ((bw.buf_.drop w).take n).length = n := by
      rw [List.length_take, List.length_drop]
      omega
    rw [flushLoop]
    by_cases hn : n = 0
    · rw [if_neg (not_not_intro hn)]
      subst hn
      exact ⟨⟨hValid.opened, Nat.zero_le _, hSized⟩, ⟨0, by simp [pipe, contents]⟩, Or.inl rfl,
        by simp⟩
    · rw [if_pos hn]
      rcases fd.write_cases ((bw.buf_.drop w).take n) with
        ⟨hRet, hWritten⟩ | ⟨k, hk, hkn, hRet, hWritten⟩
      · -- what was not written moves to the front
        have hRest : n ≤ bufsize_ := by omega
        simp only [hRet, if_pos (show (-1 : Int) < 0 by decide), hSplit, Nat.add_sub_cancel_left]
        refine ⟨⟨hValid.opened, hRest, ?_⟩, ⟨0, ?_⟩, Or.inr rfl, by simp [hn]⟩
        · dsimp only
          split
          · rw [store_length (by omega), hSized]
          · exact hSized
        · rw [Pipe.take_zero, pipe, contents, hWritten]
          congr 1
          dsimp only
          split
          · have hFront := @take_store _ bw.buf_ ((bw.buf_.drop w).take n) 0 (Nat.zero_le _)
            rw [hLength, Nat.zero_add] at hFront
            exact hFront
          · rename_i hw
            rw [not_not.mp hw, List.drop_zero]
      · rw [hLength] at hkn
        have hPos : ¬ ((k : Int) < 0) := by omega
        simp only [hRet, if_neg hPos, Int.toNat_natCast]
        obtain ⟨hValid', ⟨j, hj⟩, hCode, hEmptied⟩ := ih (n - k) (by omega)
          (fd.write ((bw.buf_.drop w).take n)).2 (w + k) (by omega)
        refine ⟨hValid', ⟨k + j, ?_⟩, hCode, hEmptied⟩
        rw [hj, ← Pipe.take_take]
        congr 1
        rw [Pipe.take, hWritten]
        congr 1
        rw [List.drop_take, List.drop_drop]

theorem flush_spec {bw : BufWriter} (hValid : bw.Valid) (fd : WriteFd) :
    Flushes (bw.pipe fd) (bw.flush fd).1 (bw.flush fd).2.1 (bw.flush fd).2.2 := by
  have hLoop := flushLoop_spec hValid fd bw.n_ 0 (Nat.zero_add _).symm
  have hOpen : ¬ bw.fd_ < 0 := by
    have := hValid.opened
    omega
  rw [flush, if_neg hOpen]
  exact hLoop

/-- What `writen` adds to the pipe is what its result says. -/
structure Writes (p : Pipe UInt8) (b : List UInt8) (ret : Int) (bw' : BufWriter)
    (fd' : WriteFd) : Prop where
  valid : bw'.Valid
  total : (bw'.pipe fd').total = p.total ++ b.take ret.toNat
  failed : ret < 0 → ∃ k, bw'.pipe fd' = p.take k

theorem put_spec {bw : BufWriter} (hValid : bw.Valid) (fd : WriteFd) {b : List UInt8}
    (hRoom : b.length + bw.n_ ≤ bufsize_) :
    Writes (bw.pipe fd) b b.length
      { bw with buf_ := store bw.buf_ bw.n_ b, n_ := bw.n_ + b.length } fd := by
  have hSized := hValid.sized
  constructor
  · refine ⟨hValid.opened, ?_, ?_⟩
    · dsimp only
      omega
    · rw [store_length (by omega), hSized]
  · have hPut : BufWriter.pipe
        { bw with buf_ := store bw.buf_ bw.n_ b, n_ := bw.n_ + b.length } fd =
          (bw.pipe fd).put b := by
      rw [pipe, contents, take_store (by omega)]
      rfl
    rw [hPut, Pipe.total_put, Int.toNat_natCast, List.take_length]
  · intro hNeg
    omega

theorem Writes.flushed {p q : Pipe UInt8} {b : List UInt8} {ret : Int} {bw' : BufWriter}
    {fd' : WriteFd} {k : Nat} (h : Writes q b ret bw' fd') (hq : q = p.take k) :
    Writes p b ret bw' fd' := by
  constructor
  · exact h.valid
  · rw [h.total, hq, Pipe.total_take]
  · intro hNeg
    obtain ⟨j, hj⟩ := h.failed hNeg
    exact ⟨k + j, by rw [hj, hq, Pipe.take_take]⟩

/-- More than the buffer can hold goes to the descriptor, past the empty buffer. -/
theorem direct_spec {bw : BufWriter} (hValid : bw.Valid) (fd : WriteFd) (b : List UInt8)
    (hEmpty : bw.n_ = 0) : Writes (bw.pipe fd) b (fd.write b).1 bw (fd.write b).2 := by
  have hNil : bw.contents = [] := by rw [contents, hEmpty, List.take_zero]
  rcases fd.write_cases b with ⟨hRet, hWritten⟩ | ⟨k, hk, hkn, hRet, hWritten⟩
  · have hSame : bw.pipe (fd.write b).2 = bw.pipe fd := by rw [pipe, hWritten, pipe]
    refine ⟨hValid, ?_, fun _ => ⟨0, by rw [hSame, Pipe.take_zero]⟩⟩
    rw [hSame, hRet]
    simp
  · refine ⟨hValid, ?_, fun hNeg => by omega⟩
    rw [hRet, Int.toNat_natCast, pipe, pipe, Pipe.total, Pipe.total, hWritten, hNil,
      List.append_nil, List.append_nil]

theorem writen_spec {bw : BufWriter} (hValid : bw.Valid) (fd : WriteFd) (b : List UInt8) :
    Writes (bw.pipe fd) b (bw.writen fd b).1 (bw.writen fd b).2.1 (bw.writen fd b).2.2 := by
  have hOpen : ¬ bw.fd_ < 0 := by
    have := hValid.opened
    omega
  rw [writen, if_neg hOpen]
  by_cases hFull : b.length + bw.n_ > bufsize_
  · rw [if_pos hFull]
    have hFlush := flush_spec hValid fd
    generalize bw.flush fd = r at hFlush
    obtain ⟨w, bw', fd'⟩ := r
    obtain ⟨hValid', ⟨k, hk⟩, hCode, hEmptied⟩ := hFlush
    dsimp only at hk hCode hEmptied ⊢
    by_cases hw : w < 0
    · rw [if_pos hw]
      refine ⟨hValid', ?_, fun _ => ⟨k, hk⟩⟩
      rw [hk, Pipe.total_take, Int.toNat_of_nonpos (by omega), List.take_zero, List.append_nil]
    · have hEmpty : bw'.n_ = 0 := hEmptied.mp (by omega)
      rw [if_neg hw]
      by_cases hBig : b.length > bufsize_
      · rw [if_pos hBig]
        exact (direct_spec hValid' fd' b hEmpty).flushed hk
      · rw [if_neg hBig]
        exact (put_spec hValid' fd' (by rw [hEmpty]; omega)).flushed hk
  · rw [if_neg hFull]
    exact put_spec hValid fd (by omega)

end BufWriter

namespace Writing

structure Inv (s : Writing) : Prop where
  valid : s.writer.Valid
  exact : (s.writer.pipe s.fd).total = s.accepted

theorem Fresh.inv {s : Writing} (h : s.Fresh) : s.Inv := by
  refine ⟨⟨h.fd_, ?_, h.buf_⟩, ?_⟩
  · rw [h.n_]
    exact Nat.zero_le _
  · rw [BufWriter.pipe, BufWriter.contents, h.n_, h.written, h.accepted]
    rfl

theorem Inv.call {s : Writing} (h : s.Inv) (c : BufWriterCall) : (s.call c).Inv := by
  cases c with
  | writen b hFits =>
    have hSpec := BufWriter.writen_spec h.valid s.fd b
    refine ⟨hSpec.valid, ?_⟩
    exact hSpec.total.trans (by rw [h.exact]; rfl)
  | flush =>
    have hSpec := BufWriter.flush_spec h.valid s.fd
    obtain ⟨k, hk⟩ := hSpec.taken
    exact ⟨hSpec.valid, (congrArg Pipe.total hk).trans ((Pipe.total_take _ k).trans h.exact)⟩

theorem reachable_inv {s : Writing} (h : writing.Reachable s) : s.Inv := by
  refine h.induct (fun _ (hFresh : Fresh _) => hFresh.inv) ?_
  intro t c t' hInv hStep
  obtain rfl := Option.some.inj hStep
  exact hInv.call c

end Writing

/-- After every sequence of calls, what was written and what is in the buffer is what was accepted;
the next flush returns 0 if and only if it empties the buffer; and a call that fails leaves at the
front of the buffer what it did not write. -/
theorem bufWriter_exact {s : Writing} (h : writing.Reachable s) :
    (s.writer.n_ ≤ 4096 ∧ s.fd.written ++ s.writer.buf_.take s.writer.n_ = s.accepted) ∧
    (s.ret .flush = 0 ↔ (s.call .flush).writer.n_ = 0) ∧
    ∀ c, s.ret c < 0 → ∃ k,
      (s.call c).fd.written = s.fd.written ++ (s.writer.buf_.take s.writer.n_).take k ∧
      (s.call c).writer.buf_.take (s.call c).writer.n_ =
        (s.writer.buf_.take s.writer.n_).drop k := by
  have hInv := Writing.reachable_inv h
  have hFlush := BufWriter.flush_spec hInv.valid s.fd
  refine ⟨⟨hInv.valid.bounded, hInv.exact⟩, hFlush.emptied, ?_⟩
  intro c hNeg
  have hTaken : ∃ k, (s.call c).writer.pipe (s.call c).fd = (s.writer.pipe s.fd).take k := by
    cases c with
    | writen b hFits => exact (BufWriter.writen_spec hInv.valid s.fd b).failed hNeg
    | flush => exact hFlush.taken
  obtain ⟨k, hk⟩ := hTaken
  exact ⟨k, congrArg Pipe.passed hk, congrArg Pipe.inside hk⟩

/-- A writer on descriptor 3, whose writes all fail. -/
def failingWriter : Writing :=
  ⟨⟨3, 0, List.replicate BufWriter.bufsize_ 0⟩, ⟨fun _ _ => none, 0, []⟩, []⟩

theorem bufWriter_exact_failing :
    ∃ s, writing.run failingWriter [.writen [7, 8] (by decide), .flush] = some s ∧
      s.fd.written ++ s.writer.buf_.take s.writer.n_ = s.accepted := by
  refine ⟨_, rfl, ?_⟩
  have hFresh : failingWriter.Fresh := ⟨by decide, rfl, List.length_replicate, rfl, rfl⟩
  exact (bufWriter_exact ⟨_, [.writen [7, 8] (by decide), .flush], hFresh, rfl⟩).1.2

end CcCommon.Util
