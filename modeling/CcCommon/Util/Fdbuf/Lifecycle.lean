import CcCommon.Lib.Sessions
import CcCommon.Util.Fdbuf.Input
import Mathlib.Algebra.Order.Group.Int

/-! # util/fdbuf.cc: the descriptor

That an `fdbuf` has a descriptor is told by `fd_` alone, and `close` leaves
`fd_` as it is. So the next `close` closes the same number once more: that of
`open`, that of the destructor, or one that is called for.
-/

namespace CcCommon.Util

open Lib (Session)

set_option autoImplicit false

/-! ## The code -/

/-- A descriptor is handed over with `open`; the others are calls of the system. -/
inductive FdEvent where
  | opened (fd : Int)
  | read (fd : Int)
  | write (fd : Int)
  | close (fd : Int)
  deriving DecidableEq

def FdEvent.fd : FdEvent → Int
  | .opened fd => fd
  | .read fd => fd
  | .write fd => fd
  | .close fd => fd

/-- How often a call on the output side writes. -/
def Putting.writes (s : Putting) : FdbufCall → Nat
  | .put _ _ => if s.fb.pptr < s.fb.epptr then 0 else 1
  | .sync _ => if s.fb.pptr ≠ 0 then 1 else 0

/-- How often a call on the input side reads. -/
def Getting.reads (s : Getting) : FdbufInputCall → Nat
  | .sgetc _ => if s.fb.gptr < s.fb.egptr then 0 else 1
  | .sbumpc _ => if s.fb.gptr < s.fb.egptr then 0 else 1
  | .snextc outcome _ =>
    let s' := s.call (.sbumpc outcome)
    (if s.fb.gptr < s.fb.egptr then 0 else 1) +
      if s.result (.sbumpc outcome) = Fdbuf.eof ∨ s'.fb.gptr < s'.fb.egptr then 0 else 1
  | .sungetc => 0

structure OpenFdbuf where
  fd_ : Int
  putting : Putting
  getting : Getting
  trace : List FdEvent

namespace OpenFdbuf

def put (s : OpenFdbuf) (c : FdbufCall) : OpenFdbuf :=
  { s with
    putting := s.putting.call c
    trace := s.trace ++ List.replicate (s.putting.writes c) (.write s.fd_) }

def get (s : OpenFdbuf) (c : FdbufInputCall) : OpenFdbuf :=
  { s with
    getting := s.getting.call c
    trace := s.trace ++ List.replicate (s.getting.reads c) (.read s.fd_) }

def sync (s : OpenFdbuf) (outcome : Option Nat) : OpenFdbuf := s.put (.sync outcome)

def close (s : OpenFdbuf) (outcome : Option Nat) : OpenFdbuf :=
  if 0 ≤ s.fd_ then
    let s := s.sync outcome
    { s with trace := s.trace ++ [.close s.fd_] }
  else s

/-- `open(fd)`; the outcome is that of the `write(2)` of the `close` before. -/
def open_ (s : OpenFdbuf) (fd : Int) (outcome : Option Nat) : OpenFdbuf :=
  let s := s.close outcome
  { s with
    fd_ := fd
    putting := ⟨Fdbuf.opened s.putting.fb.outbuf_, []⟩
    getting := ⟨FdbufInput.opened s.getting.fb.inbuf_, []⟩
    trace := s.trace ++ [.opened fd] }

/-- The constructor, in memory that holds anything. -/
def construct (putting : Putting) (getting : Getting) (fd : Int) : OpenFdbuf :=
  open_ ⟨-1, putting, getting, []⟩ fd none

def destroy (s : OpenFdbuf) (outcome : Option Nat) : OpenFdbuf := s.close outcome

end OpenFdbuf

inductive FdbufAction where
  | open_ (fd : Int) (outcome : Option Nat)
  | close (outcome : Option Nat)
  | put (c : FdbufCall)
  | get (c : FdbufInputCall)

def FdbufAction.isClose : FdbufAction → Bool
  | .close _ => true
  | _ => false

/-- The descriptors that are handed over are open, so they are no negative numbers. -/
def fdbufs : Lib.Machine OpenFdbuf FdbufAction where
  init s := ∃ putting getting fd, 0 ≤ fd ∧ s = OpenFdbuf.construct putting getting fd
  step s
    | .open_ fd outcome => if 0 ≤ fd then some (s.open_ fd outcome) else none
    | .close outcome => some (s.close outcome)
    | .put c => some (s.put c)
    | .get c => some (s.get c)

/-! ## Sessions of a descriptor -/

/-- A descriptor is handed over, read and written, and closed. -/
def descriptor (fd : Int) : Session FdEvent where
  first := .opened fd
  during e := e = .read fd ∨ e = .write fd
  last := [.close fd]

/-- Of every number the trace shows whole sessions, and one more that has begun if it is live. -/
def Owned (live : Int → Prop) (trace : List FdEvent) : Prop :=
  ∀ fd, (descriptor fd).Series (live fd) (trace.filter (·.fd = fd))

/-- Every descriptor that was handed over is closed once, and there is no call of the system for it
at another time. -/
def ClosedOnce (trace : List FdEvent) : Prop := Owned (fun _ => False) trace

namespace Owned

variable {trace : List FdEvent} {f : Int}

theorem filter_append {es : List FdEvent} (h : ∀ e ∈ es, e.fd = f) (fd : Int) :
    (trace ++ es).filter (·.fd = fd) = trace.filter (·.fd = fd) ++ if fd = f then es else [] := by
  rw [List.filter_append]
  congr 1
  split
  · rename_i hSame
    rw [List.filter_eq_self]
    intro e he
    rw [h e he, hSame, decide_eq_true rfl]
  · rename_i hOther
    rw [List.filter_eq_nil_iff]
    intro e he
    rw [h e he, decide_eq_true_eq]
    exact Ne.symm hOther

theorem nil : Owned (fun _ => False) [] := fun _ => Session.Series.nil not_false

theorem opened (h : Owned (fun _ => False) trace) : Owned (· = f) (trace ++ [.opened f]) := by
  intro fd
  rw [filter_append (f := f) (by simp [FdEvent.fd])]
  split
  · rename_i hSame
    subst hSame
    exact (h fd).start not_false rfl
  · rename_i hOther
    rw [List.append_nil]
    exact (h fd).iff (iff_false_intro hOther)

theorem used (h : Owned (· = f) trace) {es : List FdEvent} (hUse : ∀ e ∈ es, (descriptor f).during e) :
    Owned (· = f) (trace ++ es) := by
  have hFd : ∀ e ∈ es, e.fd = f := by
    intro e he
    rcases hUse e he with rfl | rfl
    · rfl
    · rfl
  intro fd
  rw [filter_append hFd]
  split
  · rename_i hSame
    subst hSame
    exact (h fd).continues rfl hUse
  · rw [List.append_nil]
    exact h fd

theorem closed (h : Owned (· = f) trace) : ClosedOnce (trace ++ [.close f]) := by
  intro fd
  rw [filter_append (f := f) (by simp [FdEvent.fd])]
  split
  · rename_i hSame
    subst hSame
    exact (h fd).finish rfl not_false
  · rename_i hOther
    rw [List.append_nil]
    exact (h fd).iff (iff_of_false not_false hOther)

end Owned

namespace OpenFdbuf

/-- Without a call of `close`, exactly the descriptor in `fd_` is owned. -/
structure Tracks (s : OpenFdbuf) : Prop where
  opened : 0 ≤ s.fd_
  owned : Owned (· = s.fd_) s.trace

variable {s : OpenFdbuf}

theorem Tracks.put (h : s.Tracks) (c : FdbufCall) : (s.put c).Tracks := by
  refine ⟨h.opened, h.owned.used ?_⟩
  intro e he
  exact .inr (List.eq_of_mem_replicate he)

theorem Tracks.get (h : s.Tracks) (c : FdbufInputCall) : (s.get c).Tracks := by
  refine ⟨h.opened, h.owned.used ?_⟩
  intro e he
  exact .inl (List.eq_of_mem_replicate he)

theorem Tracks.close (h : s.Tracks) (outcome : Option Nat) :
    ClosedOnce (s.close outcome).trace := by
  rw [OpenFdbuf.close, if_pos h.opened]
  exact (h.put (.sync outcome)).owned.closed

theorem Tracks.open_ (h : s.Tracks) {fd : Int} (hOpen : 0 ≤ fd) (outcome : Option Nat) :
    (s.open_ fd outcome).Tracks :=
  ⟨hOpen, (h.close outcome).opened⟩

theorem tracks_construct (putting : Putting) (getting : Getting) {fd : Int} (hOpen : 0 ≤ fd) :
    (construct putting getting fd).Tracks :=
  ⟨hOpen, Owned.nil.opened⟩

/-- What a run without a call of `close` keeps. -/
theorem Tracks.step (h : s.Tracks) {a : FdbufAction} {t : OpenFdbuf} (ha : a.isClose = false)
    (hStep : fdbufs.step s a = some t) : t.Tracks := by
  cases a with
  | open_ fd outcome =>
    simp only [fdbufs] at hStep
    split at hStep
    · rename_i hOpen
      cases hStep
      exact h.open_ hOpen outcome
    · cases hStep
  | close outcome => cases ha
  | put c =>
    cases hStep
    exact h.put c
  | get c =>
    cases hStep
    exact h.get c

/-! ## A call of close is one too many -/

def weight : FdEvent → Int
  | .opened _ => -1
  | .close _ => 1
  | .read _ => 0
  | .write _ => 0

/-- How much more often the number is closed than it is handed over. -/
def excess (trace : List FdEvent) (fd : Int) : Int :=
  ((trace.filter (·.fd = fd)).map weight).sum

/-- The excess that there is when the number in `fd_` has been closed too. -/
def debt (s : OpenFdbuf) (fd : Int) : Int := excess s.trace fd + if fd = s.fd_ then 1 else 0

theorem excess_append {es : List FdEvent} {f : Int} (h : ∀ e ∈ es, e.fd = f) (trace : List FdEvent)
    (fd : Int) :
    excess (trace ++ es) fd = excess trace fd + if fd = f then (es.map weight).sum else 0 := by
  rw [excess, Owned.filter_append h, List.map_append, List.sum_append, excess]
  congr 1
  split <;> rfl

theorem excess_closedOnce {trace : List FdEvent} (h : ClosedOnce trace) (fd : Int) :
    excess trace fd = 0 := by
  refine Session.Series.sum_eq_zero ?_ rfl (h fd)
  rintro _ (rfl | rfl)
  · rfl
  · rfl

theorem excess_put (s : OpenFdbuf) (c : FdbufCall) (fd : Int) :
    excess (s.put c).trace fd = excess s.trace fd := by
  have hFd : ∀ e ∈ List.replicate (s.putting.writes c) (FdEvent.write s.fd_), e.fd = s.fd_ := by
    intro e he
    rw [List.eq_of_mem_replicate he]
    rfl
  rw [put, excess_append hFd]
  simp [weight]

theorem excess_get (s : OpenFdbuf) (c : FdbufInputCall) (fd : Int) :
    excess (s.get c).trace fd = excess s.trace fd := by
  have hFd : ∀ e ∈ List.replicate (s.getting.reads c) (FdEvent.read s.fd_), e.fd = s.fd_ := by
    intro e he
    rw [List.eq_of_mem_replicate he]
    rfl
  rw [get, excess_append hFd]
  simp [weight]

theorem excess_close (hOpened : 0 ≤ s.fd_) (outcome : Option Nat) (fd : Int) :
    excess (s.close outcome).trace fd = s.debt fd := by
  rw [close, if_pos hOpened]
  dsimp only
  rw [excess_append (f := s.fd_) (by simp [sync, put, FdEvent.fd]), sync, excess_put]
  rfl

theorem close_fd (s : OpenFdbuf) (outcome : Option Nat) : (s.close outcome).fd_ = s.fd_ := by
  rw [close]
  split <;> rfl

theorem debt_open (hOpened : 0 ≤ s.fd_) (f : Int) (outcome : Option Nat) (fd : Int) :
    (s.open_ f outcome).debt fd = s.debt fd := by
  rw [debt, open_]
  dsimp only
  rw [excess_append (f := f) (by simp [FdEvent.fd]), excess_close hOpened, add_assoc]
  split <;> simp [weight]

theorem debt_close (hOpened : 0 ≤ s.fd_) (outcome : Option Nat) (fd : Int) :
    (s.close outcome).debt fd = s.debt fd + if fd = s.fd_ then 1 else 0 := by
  rw [debt, excess_close hOpened, close_fd]

theorem debt_construct (putting : Putting) (getting : Getting) (f fd : Int) :
    (construct putting getting f).debt fd = 0 := by
  have hTrace : (construct putting getting f).trace = [] ++ [.opened f] := rfl
  rw [debt, hTrace, excess_append (f := f) (by simp [FdEvent.fd])]
  have hFd : (construct putting getting f).fd_ = f := rfl
  rw [hFd]
  split <;> simp [excess, weight]

/-- No action makes up for a number that was closed too often. -/
theorem debt_step {t : OpenFdbuf} {a : FdbufAction} (hOpened : 0 ≤ s.fd_)
    (hStep : fdbufs.step s a = some t) : 0 ≤ t.fd_ ∧ ∀ fd, s.debt fd ≤ t.debt fd := by
  cases a with
  | open_ f outcome =>
    simp only [fdbufs] at hStep
    split at hStep
    · rename_i hOpen
      cases hStep
      exact ⟨hOpen, fun fd => (debt_open hOpened f outcome fd).ge⟩
    · cases hStep
  | close outcome =>
    cases hStep
    refine ⟨hOpened.trans_eq (close_fd s outcome).symm, fun fd => ?_⟩
    rw [debt_close hOpened]
    split <;> omega
  | put c =>
    cases hStep
    refine ⟨hOpened, fun fd => ?_⟩
    rw [debt, debt, excess_put]
    exact le_refl _
  | get c =>
    cases hStep
    refine ⟨hOpened, fun fd => ?_⟩
    rw [debt, debt, excess_get]
    exact le_refl _

theorem debt_run {t : OpenFdbuf} {as : List FdbufAction} (hOpened : 0 ≤ s.fd_)
    (hRun : fdbufs.run s as = some t) : 0 ≤ t.fd_ ∧ ∀ fd, s.debt fd ≤ t.debt fd := by
  apply Lib.Machine.run_induct (I := fun t => 0 ≤ t.fd_ ∧ ∀ fd, s.debt fd ≤ t.debt fd) _ _ hRun
  · rintro u a u' ⟨hOpen, hDebt⟩ hStep
    obtain ⟨hOpen', hMore⟩ := debt_step hOpen hStep
    exact ⟨hOpen', fun fd => (hDebt fd).trans (hMore fd)⟩
  · exact ⟨hOpened, fun fd => le_refl _⟩

/-- A run with a call of `close` ends with a number that will have been closed too often. -/
theorem debt_of_close {t : OpenFdbuf} {as : List FdbufAction} {a : FdbufAction}
    (hOpened : 0 ≤ s.fd_) (hDebt : ∀ fd, 0 ≤ s.debt fd) (hRun : fdbufs.run s as = some t)
    (hMem : a ∈ as) (ha : a.isClose = true) : ∃ fd, 0 < t.debt fd := by
  obtain ⟨before, after, rfl⟩ := List.append_of_mem hMem
  rw [Lib.Machine.run_append] at hRun
  obtain ⟨u, hBefore, hAfter⟩ := Option.bind_eq_some_iff.mp hRun
  obtain ⟨hOpen, hLess⟩ := debt_run hOpened hBefore
  cases a with
  | close outcome =>
    have hNext : fdbufs.run (u.close outcome) after = some t := hAfter
    have hMore := (debt_run (hOpen.trans_eq (close_fd u outcome).symm) hNext).2 u.fd_
    rw [debt_close hOpen, if_pos rfl] at hMore
    have := hLess u.fd_
    have := hDebt u.fd_
    exact ⟨u.fd_, by omega⟩
  | open_ fd outcome => cases ha
  | put c => cases ha
  | get c => cases ha

end OpenFdbuf

/-- An `fdbuf` that is destroyed after a sequence of calls has closed each descriptor once, and has
used none that it has closed, exactly if `close` was not among the calls. -/
theorem fdbuf_closesOnce_iff {s t : OpenFdbuf} (as : List FdbufAction) (hInit : fdbufs.init s)
    (hRun : fdbufs.run s as = some t) (outcome : Option Nat) :
    ClosedOnce (t.destroy outcome).trace ↔ ∀ a ∈ as, a.isClose = false := by
  obtain ⟨putting, getting, fd, hOpen, rfl⟩ := hInit
  have hDebt : ∀ f, 0 ≤ (OpenFdbuf.construct putting getting fd).debt f :=
    fun f => (OpenFdbuf.debt_construct putting getting fd f).ge
  constructor
  · intro h a hMem
    rw [Bool.eq_false_iff]
    intro ha
    obtain ⟨f, hMore⟩ := OpenFdbuf.debt_of_close hOpen hDebt hRun hMem ha
    have hOpened := (OpenFdbuf.debt_run hOpen hRun).1
    have hZero := OpenFdbuf.excess_closedOnce h f
    rw [OpenFdbuf.destroy, OpenFdbuf.excess_close hOpened] at hZero
    omega
  · intro h
    have hEach : fdbufs.EachStep (fun _ a => a.isClose = false)
        (OpenFdbuf.construct putting getting fd) as := by
      intro done a hDone u _
      exact h a (hDone.subset (by simp))
    have hTracks : t.Tracks := hEach.induct (fun u a u' hTracks ha hStep => hTracks.step ha hStep)
      (OpenFdbuf.tracks_construct putting getting hOpen) hRun
    exact hTracks.close outcome

/-- An `fdbuf` on descriptor 5, made in memory of zeros. -/
def constructed : OpenFdbuf :=
  .construct ⟨.opened (List.replicate Fdbuf.bufsize 0), []⟩
    ⟨.opened (List.replicate FdbufInput.inbufSize 0), []⟩ 5

theorem constructed_init : fdbufs.init constructed := ⟨_, _, 5, by decide, rfl⟩

theorem fdbuf_closesOnce_iff_reopened :
    ∃ t, fdbufs.run constructed [.put (.put 7 none), .open_ 6 (some 1), .open_ 5 none] = some t ∧
      ClosedOnce (t.destroy none).trace :=
  ⟨_, rfl, (fdbuf_closesOnce_iff [.put (.put 7 none), .open_ 6 (some 1), .open_ 5 none]
    constructed_init rfl none).mpr (by decide)⟩

/-- The descriptor is closed by `close` and by the destructor. -/
theorem not_closedOnce_close :
    ¬ ∀ s t as outcome, fdbufs.init s → fdbufs.run s as = some t →
      ClosedOnce (t.destroy outcome).trace := by
  intro h
  have hTwice := h constructed _ [.close none] none constructed_init rfl
  have hExcess := OpenFdbuf.excess_closedOnce hTwice 5
  exact absurd hExcess (by decide)

end CcCommon.Util
