import CcCommon.Lib.Buffer
import CcCommon.Lib.Machine
import Mathlib.Algebra.Group.Nat.Defs

/-! # util/bufio.cc: BufReader

The outcomes of `read(2)` come from an arbitrary list. A call that needs one
more than the list has is still waiting in `read(2)`: so a call that never
returns is seen waiting at every point of its run. A failing `read(2)` sets
the thread's `errno`, and one that does not fail leaves it as it was. The `LOG`
that `readfull` makes after a retry may put another number there (`isatty`
fails on a file): neither is 0, and of an `errno` that is left over the code
asks only that.
-/

namespace CcCommon.Util

open Lib (store store_length take_store)

set_option autoImplicit false

/-! ## read(2) -/

/-- An error, or bytes that are there to be read; none of them at the end of the file. -/
inductive ReadOutcome where
  | error (errno : Nat) (hErrno : 0 < errno)
  | bytes (bs : List UInt8)

structure ReadFd where
  outcomes : List ReadOutcome
  errno : Nat
  delivered : List UInt8

def EINTR : Nat := 4
def EAGAIN : Nat := 11
def EWOULDBLOCK : Nat := EAGAIN

/-! ## The code -/

structure BufReader where
  buf_ : List UInt8
  fd_ : Int
  r_ : Nat
  w_ : Nat
  errno_ : Nat
  eof_ : Bool

namespace BufReader

def bufsize_ : Nat := 4096

/-- The loop of `fill`, which reads once in each round. It returns whether it ended. -/
def fillLoop (br : BufReader) (continueOnInterrupt : Bool) (errno : Nat) (delivered : List UInt8) :
    List ReadOutcome → Bool × BufReader × ReadFd
  | [] => (false, br, ⟨[], errno, delivered⟩)
  | .error e _ :: rest =>
    if e = EINTR ∧ continueOnInterrupt then
      fillLoop { br with errno_ := e } continueOnInterrupt e delivered rest
    else (true, { br with errno_ := e }, ⟨rest, e, delivered⟩)
  | .bytes bs :: rest =>
    let got := bs.take (bufsize_ - br.w_)
    let br := { br with buf_ := store br.buf_ br.w_ got, errno_ := errno }
    (true, if got.length = 0 then { br with eof_ := true } else { br with w_ := br.w_ + got.length },
      ⟨rest, errno, delivered ++ got⟩)

def fill (br : BufReader) (fd : ReadFd) (continueOnInterrupt : Bool) : Bool × BufReader × ReadFd :=
  if br.fd_ < 0 then (true, br, fd)
  else if br.eof_ then (true, br, fd)
  else br.fillLoop continueOnInterrupt fd.errno fd.delivered fd.outcomes

/-- Returns the result and the offset of `*b` in `buf_`, or nothing while it waits. -/
def readn (br : BufReader) (fd : ReadFd) (n : Nat) (continueOnInterrupt : Bool) :
    Option (Int × Nat) × BufReader × ReadFd :=
  if br.eof_ then (some (0, 0), br, fd)
  else
    let (ended, br, fd) :=
      if br.r_ = br.w_ then fill { br with r_ := 0, w_ := 0 } fd continueOnInterrupt
      else (true, br, fd)
    if ended then
      if br.w_ = 0 then (some (if br.errno_ ≠ 0 then -1 else 0, 0), br, fd)
      else
        let n := if n > br.w_ - br.r_ then br.w_ - br.r_ else n
        (some (n, br.r_), { br with r_ := br.r_ + n }, fd)
    else (none, br, fd)

/-- A call of `readfull`: whether it has returned, its `r`, and the caller's memory. -/
structure Full where
  ended : Bool
  r : Nat
  b : List UInt8
  br : BufReader
  fd : ReadFd

inductive Round where
  | leave (res : Full)
  | again (b : List UInt8) (r bk : Nat) (br : BufReader) (fd : ReadFd)

def readfullRound (br : BufReader) (fd : ReadFd) (b : List UInt8) (n : Nat)
    (continueOnInterrupt : Bool) (numRetriesOnBlock : Int) (r bk : Nat) : Round :=
  match br.readn fd (n - r) continueOnInterrupt with
  | (none, br, fd) => .leave ⟨false, r, b, br, fd⟩
  | (some (i, c), br, fd) =>
    if i ≤ 0 then
      if br.eof_ then .leave ⟨true, r, b, br, fd⟩
      else if bk < numRetriesOnBlock ∧ (br.errno_ = EAGAIN ∨ br.errno_ = EWOULDBLOCK) then
        .again b r (bk + 1) { br with errno_ := 0 } fd
      else .leave ⟨true, r, b, br, fd⟩
    else .again (store b r ((br.buf_.drop c).take i.toNat)) (r + i.toNat) bk br fd

/-- A round that is not the last has read a byte or used up a retry. -/
theorem again_decreases {br br' : BufReader} {fd fd' : ReadFd} {b b' : List UInt8}
    {n r r' bk bk' : Nat} {continueOnInterrupt : Bool} {numRetriesOnBlock : Int} (hr : r < n)
    (h : readfullRound br fd b n continueOnInterrupt numRetriesOnBlock r bk =
      .again b' r' bk' br' fd') :
    (n - r') + (numRetriesOnBlock.toNat - bk') < (n - r) + (numRetriesOnBlock.toNat - bk) := by
  unfold readfullRound at h
  split at h
  · cases h
  · split at h
    · split at h
      · cases h
      · split at h
        · rename_i hRetry
          cases h
          omega
        · cases h
    · rename_i hPos
      cases h
      omega

def readfullLoop (continueOnInterrupt : Bool) (n : Nat) (numRetriesOnBlock : Int) (b : List UInt8)
    (r bk : Nat) (br : BufReader) (fd : ReadFd) : Full :=
  if _hr : r < n then
    match _h : readfullRound br fd b n continueOnInterrupt numRetriesOnBlock r bk with
    | .leave res => res
    | .again b' r' bk' br' fd' =>
      readfullLoop continueOnInterrupt n numRetriesOnBlock b' r' bk' br' fd'
  else ⟨true, r, b, br, fd⟩
termination_by (n - r) + (numRetriesOnBlock.toNat - bk)
decreasing_by exact again_decreases _hr _h

def readfull (br : BufReader) (fd : ReadFd) (b : List UInt8) (n : Nat) (continueOnInterrupt : Bool)
    (numRetriesOnBlock : Int) : Full :=
  readfullLoop continueOnInterrupt n numRetriesOnBlock b 0 0 br fd

end BufReader

/-! ## Every sequence of calls -/

inductive BufReaderCall where
  | readn (n : Nat) (continueOnInterrupt : Bool)
  /-- `b` is the caller's memory, which has room for `n` bytes. -/
  | readfull (b : List UInt8) (n : Nat) (continueOnInterrupt : Bool) (numRetriesOnBlock : Int)
      (hRoom : n ≤ b.length)

/-- A reader, the descriptor, what the callers were given, and whether a call has not returned. -/
structure Reading where
  br : BufReader
  fd : ReadFd
  handed : List UInt8
  waiting : Bool

/-- The bytes that a result of `readn` stands for. -/
def BufReader.taken (br : BufReader) : Option (Int × Nat) → List UInt8
  | none => []
  | some (i, c) => (br.buf_.drop c).take i.toNat

def Reading.call (s : Reading) : BufReaderCall → Reading
  | .readn n continueOnInterrupt =>
    let (res, br, fd) := s.br.readn s.fd n continueOnInterrupt
    ⟨br, fd, s.handed ++ br.taken res, res.isNone⟩
  | .readfull b n continueOnInterrupt numRetriesOnBlock _ =>
    let res := s.br.readfull s.fd b n continueOnInterrupt numRetriesOnBlock
    ⟨res.br, res.fd, s.handed ++ res.b.take res.r, !res.ended⟩

/-- After `reset(fd)` with `fd >= 0`. -/
structure Reading.Fresh (s : Reading) : Prop where
  fd_ : 0 ≤ s.br.fd_
  r_ : s.br.r_ = 0
  w_ : s.br.w_ = 0
  errno_ : s.br.errno_ = 0
  eof_ : s.br.eof_ = false
  buf_ : s.br.buf_.length = BufReader.bufsize_
  delivered : s.fd.delivered = []
  handed : s.handed = []
  waiting : s.waiting = false

def reading : Lib.Machine Reading BufReaderCall where
  init := Reading.Fresh
  step s c := if s.waiting then none else some (s.call c)

/-! ## The buffer is a pipe from the descriptor -/

namespace BufReader

def contents (br : BufReader) : List UInt8 := (br.buf_.take br.w_).drop br.r_

structure Valid (br : BufReader) : Prop where
  opened : 0 ≤ br.fd_
  ordered : br.r_ ≤ br.w_
  bounded : br.w_ ≤ bufsize_
  sized : br.buf_.length = bufsize_
  emptied : br.eof_ = true → br.r_ = br.w_

/-- From `br` on the callers were given `out`, and the descriptor delivered what else there is. -/
structure Moves (br : BufReader) (fd : ReadFd) (out : List UInt8) (br' : BufReader)
    (fd' : ReadFd) : Prop where
  valid : br'.Valid
  moved : ∃ got, fd'.delivered = fd.delivered ++ got ∧ br.contents ++ got = out ++ br'.contents

theorem Moves.refl {br : BufReader} (h : br.Valid) (fd : ReadFd) : Moves br fd [] br fd :=
  ⟨h, [], by simp, by simp⟩

theorem Moves.trans {br br' br'' : BufReader} {fd fd' fd'' : ReadFd} {out out' : List UInt8}
    (h : Moves br fd out br' fd') (h' : Moves br' fd' out' br'' fd'') :
    Moves br fd (out ++ out') br'' fd'' := by
  obtain ⟨got, hDelivered, hMoved⟩ := h.moved
  obtain ⟨got', hDelivered', hMoved'⟩ := h'.moved
  refine ⟨h'.valid, got ++ got', ?_, ?_⟩
  · rw [hDelivered', hDelivered, List.append_assoc]
  · rw [← List.append_assoc, hMoved, List.append_assoc, hMoved', List.append_assoc]

theorem fillLoop_spec {br : BufReader} (hValid : br.Valid) (hw : br.w_ = 0)
    (hEof : br.eof_ = false) (continueOnInterrupt : Bool) (errno : Nat) (delivered : List UInt8)
    (outcomes : List ReadOutcome) :
    Moves br ⟨outcomes, errno, delivered⟩ []
      (br.fillLoop continueOnInterrupt errno delivered outcomes).2.1
      (br.fillLoop continueOnInterrupt errno delivered outcomes).2.2 := by
  induction outcomes generalizing br errno with
  | nil => exact Moves.refl hValid _
  | cons outcome rest ih =>
    cases outcome with
    | error e hErrno =>
      have hValid' : BufReader.Valid { br with errno_ := e } :=
        ⟨hValid.opened, hValid.ordered, hValid.bounded, hValid.sized, hValid.emptied⟩
      rw [fillLoop]
      split
      · obtain ⟨hAfter, hMoved⟩ := ih hValid' hw hEof e
        exact ⟨hAfter, hMoved⟩
      · exact ⟨hValid', [], by simp, by simp [contents]⟩
    | bytes bs =>
      have hr : br.r_ = 0 := Nat.eq_zero_of_le_zero (hw ▸ hValid.ordered)
      have hSized := hValid.sized
      have hLength : (bs.take (bufsize_ - br.w_)).length ≤ bufsize_ := by
        rw [List.length_take]
        omega
      rw [fillLoop]
      dsimp only
      generalize bs.take (bufsize_ - br.w_) = got at hLength
      have hSize : (store br.buf_ br.w_ got).length = bufsize_ := by
        rw [store_length (by omega), hSized]
      split
      · rename_i hNone
        obtain rfl := List.length_eq_zero_iff.mp hNone
        exact ⟨⟨hValid.opened, hValid.ordered, hValid.bounded, hSize, fun _ => hr.trans hw.symm⟩, [], rfl,
          by simp [contents, hw]⟩
      · refine ⟨⟨hValid.opened, ?_, ?_, hSize, ?_⟩, got, rfl, ?_⟩
        · dsimp only
          omega
        · dsimp only
          omega
        · dsimp only
          rw [hEof]
          intro hFalse
          cases hFalse
        · dsimp only [contents]
          rw [take_store (by omega), hw, hr]
          simp

theorem refill_spec {br : BufReader} (hValid : br.Valid) (hEof : br.eof_ = false)
    (hAll : br.r_ = br.w_) (fd : ReadFd) (continueOnInterrupt : Bool) :
    Moves br fd [] (fill { br with r_ := 0, w_ := 0 } fd continueOnInterrupt).2.1
      (fill { br with r_ := 0, w_ := 0 } fd continueOnInterrupt).2.2 := by
  have hReset : BufReader.Valid { br with r_ := 0, w_ := 0 } :=
    ⟨hValid.opened, Nat.le_refl 0, Nat.zero_le _, hValid.sized, fun _ => rfl⟩
  have hNone : br.contents = [] := by
    rw [contents, hAll]
    apply List.drop_of_length_le
    exact List.length_take_le _ _
  have hFill := fillLoop_spec hReset rfl hEof continueOnInterrupt fd.errno fd.delivered fd.outcomes
  have hOpen : ¬ br.fd_ < 0 := Int.not_lt.mpr hValid.opened
  rw [fill, if_neg hOpen, if_neg (by rw [hEof]; exact Bool.false_ne_true)]
  refine ⟨hFill.valid, ?_⟩
  obtain ⟨got, hDelivered, hMoved⟩ := hFill.moved
  refine ⟨got, hDelivered, ?_⟩
  rw [hNone, ← hMoved]
  rfl

theorem give_spec {br : BufReader} (hValid : br.Valid) (fd : ReadFd) {k : Nat}
    (hk : k ≤ br.w_ - br.r_) :
    Moves br fd ((br.buf_.drop br.r_).take k) { br with r_ := br.r_ + k } fd := by
  have hOrdered := hValid.ordered
  have hTaken : (br.buf_.drop br.r_).take k = br.contents.take k := by
    rw [contents, List.drop_take, List.take_take, Nat.min_eq_left hk]
  refine ⟨⟨hValid.opened, ?_, hValid.bounded, hValid.sized, ?_⟩, [], by simp, ?_⟩
  · dsimp only
    omega
  · intro hEof
    have hEmptied := hValid.emptied hEof
    dsimp only
    omega
  · rw [hTaken, List.append_nil]
    dsimp only [contents]
    rw [← List.drop_drop, List.take_append_drop]

/-- What a call of `readn` gives, and what it returns. -/
structure Reads (br : BufReader) (fd : ReadFd) (n : Nat) (res : Option (Int × Nat))
    (br' : BufReader) (fd' : ReadFd) : Prop where
  moves : Moves br fd (br'.taken res) br' fd'
  atMost : (br'.taken res).length ≤ n
  counted : ∀ i c, res = some (i, c) → (br'.taken res).length = i.toNat

theorem readn_spec {br : BufReader} (hValid : br.Valid) (fd : ReadFd) (n : Nat)
    (continueOnInterrupt : Bool) :
    Reads br fd n (br.readn fd n continueOnInterrupt).1 (br.readn fd n continueOnInterrupt).2.1
      (br.readn fd n continueOnInterrupt).2.2 := by
  have hNothing : ∀ (br' : BufReader) (fd' : ReadFd) (i : Int) (c : Nat), i ≤ 0 →
      Moves br fd [] br' fd' → Reads br fd n (some (i, c)) br' fd' := by
    intro br' fd' i c hi hMoves
    have hNil : br'.taken (some (i, c)) = [] := by
      rw [taken, Int.toNat_of_nonpos hi, List.take_zero]
    refine ⟨by rwa [hNil], by simp [hNil], ?_⟩
    rintro _ _ ⟨⟩
    rw [hNil, Int.toNat_of_nonpos hi]
    rfl
  rw [readn]
  split
  · exact hNothing br fd 0 0 (Int.le_refl 0) (Moves.refl hValid fd)
  · rename_i hEof
    have hFilled : Moves br fd []
        (if br.r_ = br.w_ then fill { br with r_ := 0, w_ := 0 } fd continueOnInterrupt
          else (true, br, fd)).2.1
        (if br.r_ = br.w_ then fill { br with r_ := 0, w_ := 0 } fd continueOnInterrupt
          else (true, br, fd)).2.2 := by
      split
      · rename_i hAll
        exact refill_spec hValid (Bool.eq_false_iff.mpr hEof) hAll fd continueOnInterrupt
      · exact Moves.refl hValid fd
    generalize (if br.r_ = br.w_ then fill { br with r_ := 0, w_ := 0 } fd continueOnInterrupt
      else (true, br, fd)) = p at hFilled ⊢
    obtain ⟨ended, br', fd'⟩ := p
    dsimp only at hFilled ⊢
    split
    · split
      · apply hNothing
        · split <;> decide
        · exact hFilled
      · have hValid' := hFilled.valid
        have hk : (if n > br'.w_ - br'.r_ then br'.w_ - br'.r_ else n) ≤
            min n (br'.w_ - br'.r_) := by
          split <;> omega
        generalize (if n > br'.w_ - br'.r_ then br'.w_ - br'.r_ else n) = k at hk
        have hGive := give_spec hValid' fd' (k := k) (by omega)
        have hSize : ((br'.buf_.drop br'.r_).take k).length = k := by
          have := hValid'.sized
          have := hValid'.bounded
          rw [List.length_take, List.length_drop]
          omega
        refine ⟨hFilled.trans hGive, ?_, ?_⟩
        · exact hSize.le.trans (by omega)
        · rintro _ _ ⟨⟩
          exact hSize
    · exact ⟨hFilled, Nat.zero_le n, by rintro _ _ ⟨⟩⟩

/-- From `r` bytes on, a call of `readfull` puts what it is given into the caller's memory. -/
structure Gathers (br : BufReader) (fd : ReadFd) (n : Nat) (b : List UInt8) (r : Nat)
    (b' : List UInt8) (r' : Nat) (br' : BufReader) (fd' : ReadFd) : Prop where
  bounded : r' ≤ n
  sized : b'.length = b.length
  moves : ∃ out, Moves br fd out br' fd' ∧ b'.take r' = b.take r ++ out

theorem Gathers.trans {br br' br'' : BufReader} {fd fd' fd'' : ReadFd} {n r r' r'' : Nat}
    {b b' b'' : List UInt8} (h : Gathers br fd n b r b' r' br' fd')
    (h' : Gathers br' fd' n b' r' b'' r'' br'' fd'') : Gathers br fd n b r b'' r'' br'' fd'' := by
  obtain ⟨out, hMoves, hTake⟩ := h.moves
  obtain ⟨out', hMoves', hTake'⟩ := h'.moves
  refine ⟨h'.bounded, h'.sized.trans h.sized, out ++ out', hMoves.trans hMoves', ?_⟩
  rw [hTake', hTake, List.append_assoc]

theorem Gathers.nothing {br br' : BufReader} {fd fd' : ReadFd} {n r : Nat} {b : List UInt8}
    (hr : r ≤ n) (h : Moves br fd [] br' fd') : Gathers br fd n b r b r br' fd' :=
  ⟨hr, rfl, [], h, (List.append_nil _).symm⟩

theorem readfullRound_spec {br : BufReader} (hValid : br.Valid) (fd : ReadFd) {b : List UInt8}
    {n r : Nat} (hRoom : n ≤ b.length) (hr : r ≤ n) (continueOnInterrupt : Bool)
    (numRetriesOnBlock : Int) (bk : Nat) :
    match readfullRound br fd b n continueOnInterrupt numRetriesOnBlock r bk with
    | .leave res => Gathers br fd n b r res.b res.r res.br res.fd
    | .again b' r' _ br' fd' => Gathers br fd n b r b' r' br' fd' := by
  obtain ⟨hMoves, hAtMost, hCounted⟩ := readn_spec hValid fd (n - r) continueOnInterrupt
  rw [readfullRound]
  generalize br.readn fd (n - r) continueOnInterrupt = p at hMoves hAtMost hCounted ⊢
  obtain ⟨_ | ⟨i, c⟩, br', fd'⟩ := p
  · exact Gathers.nothing hr hMoves
  · have hLength := hCounted i c rfl
    dsimp only at hMoves hAtMost hLength ⊢
    by_cases hi : i ≤ 0
    · have hNil : br'.taken (some (i, c)) = [] := by
        rw [← List.length_eq_zero_iff, hLength, Int.toNat_of_nonpos hi]
      rw [hNil] at hMoves
      rw [if_pos hi]
      by_cases hEof : br'.eof_ = true
      · rw [if_pos hEof]
        exact Gathers.nothing hr hMoves
      · rw [if_neg hEof]
        split
        · rename_i res hRes
          split at hRes
          · cases hRes
          · cases hRes
            exact Gathers.nothing hr hMoves
        · rename_i b' r' bk' br'' fd'' hRes
          split at hRes
          · cases hRes
            -- only `errno_` changes before the retry
            exact Gathers.nothing hr ⟨⟨hMoves.valid.opened, hMoves.valid.ordered,
              hMoves.valid.bounded, hMoves.valid.sized, hMoves.valid.emptied⟩, hMoves.moved⟩
          · cases hRes
    · rw [if_neg hi]
      dsimp only
      have hTaken : (br'.buf_.drop c).take i.toNat = br'.taken (some (i, c)) := rfl
      rw [hTaken, ← hLength]
      refine ⟨by omega, ?_, _, hMoves, ?_⟩
      · apply store_length
        omega
      · apply take_store
        omega

theorem readfullLoop_spec (continueOnInterrupt : Bool) (n : Nat) (numRetriesOnBlock : Int)
    (b : List UInt8) (r bk : Nat) (br : BufReader) (fd : ReadFd) (hValid : br.Valid)
    (hRoom : n ≤ b.length) (hr : r ≤ n) :
    Gathers br fd n b r
      (readfullLoop continueOnInterrupt n numRetriesOnBlock b r bk br fd).b
      (readfullLoop continueOnInterrupt n numRetriesOnBlock b r bk br fd).r
      (readfullLoop continueOnInterrupt n numRetriesOnBlock b r bk br fd).br
      (readfullLoop continueOnInterrupt n numRetriesOnBlock b r bk br fd).fd := by
  fun_induction readfullLoop continueOnInterrupt n numRetriesOnBlock b r bk br fd with
  | case1 b r bk br fd hMore res hRound =>
    have hSpec := readfullRound_spec hValid fd hRoom hr continueOnInterrupt numRetriesOnBlock bk
    rw [hRound] at hSpec
    exact hSpec
  | case2 b r bk br fd hMore b' r' bk' br' fd' hRound ih =>
    have hSpec := readfullRound_spec hValid fd hRoom hr continueOnInterrupt numRetriesOnBlock bk
    rw [hRound] at hSpec
    obtain ⟨out, hMoves, hTake⟩ := hSpec.moves
    exact hSpec.trans (ih hMoves.valid (hRoom.trans hSpec.sized.ge) hSpec.bounded)
  | case3 b r bk br fd hEnough => exact Gathers.nothing hr (Moves.refl hValid fd)

theorem readfull_spec {br : BufReader} (hValid : br.Valid) (fd : ReadFd) {b : List UInt8} {n : Nat}
    (hRoom : n ≤ b.length) (continueOnInterrupt : Bool) (numRetriesOnBlock : Int) :
    (br.readfull fd b n continueOnInterrupt numRetriesOnBlock).r ≤ n ∧
    (br.readfull fd b n continueOnInterrupt numRetriesOnBlock).b.length = b.length ∧
    Moves br fd ((br.readfull fd b n continueOnInterrupt numRetriesOnBlock).b.take
        (br.readfull fd b n continueOnInterrupt numRetriesOnBlock).r)
      (br.readfull fd b n continueOnInterrupt numRetriesOnBlock).br
      (br.readfull fd b n continueOnInterrupt numRetriesOnBlock).fd := by
  obtain ⟨hBounded, hSized, out, hMoves, hTake⟩ := readfullLoop_spec continueOnInterrupt n
    numRetriesOnBlock b 0 0 br fd hValid hRoom (Nat.zero_le n)
  rw [List.take_zero, List.nil_append] at hTake
  refine ⟨hBounded, hSized, ?_⟩
  rw [readfull, hTake]
  exact hMoves

end BufReader

namespace Reading

structure Inv (s : Reading) : Prop where
  valid : s.br.Valid
  exact : s.handed ++ s.br.contents = s.fd.delivered

theorem Fresh.inv {s : Reading} (h : s.Fresh) : s.Inv := by
  refine ⟨⟨h.fd_, ?_, ?_, h.buf_, ?_⟩, ?_⟩
  · rw [h.r_]
    exact Nat.zero_le _
  · rw [h.w_]
    exact Nat.zero_le _
  · rw [h.r_, h.w_]
    exact fun _ => rfl
  · rw [BufReader.contents, h.w_, h.handed, h.delivered]
    simp

theorem Inv.moves {s : Reading} (h : s.Inv) {out : List UInt8} {br : BufReader} {fd : ReadFd}
    (hMoves : BufReader.Moves s.br s.fd out br fd) (waiting : Bool) :
    Inv ⟨br, fd, s.handed ++ out, waiting⟩ := by
  obtain ⟨hValid, got, hDelivered, hMoved⟩ := hMoves
  refine ⟨hValid, ?_⟩
  dsimp only
  rw [hDelivered, ← h.exact, List.append_assoc, List.append_assoc, hMoved]

theorem Inv.call {s : Reading} (h : s.Inv) (c : BufReaderCall) : (s.call c).Inv := by
  cases c with
  | readn n continueOnInterrupt =>
    exact h.moves (BufReader.readn_spec h.valid s.fd n continueOnInterrupt).moves _
  | readfull b n continueOnInterrupt numRetriesOnBlock hRoom =>
    exact h.moves
      (BufReader.readfull_spec h.valid s.fd hRoom continueOnInterrupt numRetriesOnBlock).2.2 _

theorem reachable_inv {s : Reading} (h : reading.Reachable s) : s.Inv := by
  refine h.induct (fun _ (hFresh : Fresh _) => hFresh.inv) ?_
  intro t c t' hInv hStep
  simp only [reading] at hStep
  split at hStep
  · cases hStep
  · cases hStep
    exact hInv.call c

end Reading

/-- After every sequence of calls, what the callers were given and what is in the buffer is what
the descriptor delivered; the next `readn` returns at most `n`; and the next `readfull` puts the
next `r` bytes of the stream into the caller's memory. -/
theorem bufReader_exact {s : Reading} (h : reading.Reachable s) :
    (s.br.r_ ≤ s.br.w_ ∧ s.br.w_ ≤ 4096 ∧
      s.handed ++ (s.br.buf_.take s.br.w_).drop s.br.r_ = s.fd.delivered ∧
      (s.br.eof_ = true → s.br.r_ = s.br.w_)) ∧
    (∀ n continueOnInterrupt i c br fd,
      s.br.readn s.fd n continueOnInterrupt = (some (i, c), br, fd) → i ≤ n) ∧
    ∀ b n continueOnInterrupt numRetriesOnBlock, n ≤ b.length →
      let res := s.br.readfull s.fd b n continueOnInterrupt numRetriesOnBlock
      res.r ≤ n ∧ (res.b.take res.r).length = res.r ∧
      ∃ rest, res.fd.delivered = s.handed ++ res.b.take res.r ++ rest := by
  have hInv := Reading.reachable_inv h
  refine ⟨⟨hInv.valid.ordered, hInv.valid.bounded, hInv.exact, hInv.valid.emptied⟩, ?_, ?_⟩
  · intro n continueOnInterrupt i c br fd hRes
    obtain ⟨hMoves, hAtMost, hCounted⟩ := BufReader.readn_spec hInv.valid s.fd n continueOnInterrupt
    rw [hRes] at hAtMost hCounted
    have hLength := hCounted i c rfl
    dsimp only at hAtMost hLength
    omega
  · intro b n continueOnInterrupt numRetriesOnBlock hRoom
    obtain ⟨hBounded, hSized, hMoves⟩ :=
      BufReader.readfull_spec hInv.valid s.fd hRoom continueOnInterrupt numRetriesOnBlock
    refine ⟨hBounded, ?_, _, (hInv.moves hMoves false).exact.symm⟩
    apply List.length_take_of_le
    rw [hSized]
    exact hBounded.trans hRoom

/-- A reader on descriptor 3, with a read that delivers three bytes and one that is interrupted. -/
def shortReading : Reading :=
  ⟨⟨List.replicate BufReader.bufsize_ 0, 3, 0, 0, 0, false⟩,
    ⟨[.bytes [7, 8, 9], .error EINTR (by decide)], 0, []⟩, [], false⟩

theorem bufReader_exact_short :
    ∃ s, reading.run shortReading [.readn 2 true, .readn 2 true] = some s ∧
      s.handed ++ (s.br.buf_.take s.br.w_).drop s.br.r_ = s.fd.delivered := by
  refine ⟨_, rfl, ?_⟩
  have hFresh : shortReading.Fresh :=
    ⟨by decide, rfl, rfl, rfl, rfl, List.length_replicate, rfl, rfl, rfl⟩
  exact (bufReader_exact ⟨_, [.readn 2 true, .readn 2 true], hFresh, rfl⟩).1.2.2.1

end CcCommon.Util
