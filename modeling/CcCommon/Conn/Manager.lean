import CcCommon.Lib.Machine
import Mathlib.Logic.Function.Basic

/-! # conn/conn.h, conn/conn_epoll.cc: Manager

One thread calls `run`, one calls `close`, and any number of threads call
`wait`; of `Server::run` there is what the manager sees of it. A step is one
access to what the threads share, one call that blocks, or what the system does
on its own: an event, a timeout, the delivery of a signal, a spurious wake-up.
The steps of the threads interleave at will. The server that is started `i`-th,
and the thread it runs in, have the number `i`.
-/

namespace CcCommon.Conn.Manager

set_option autoImplicit false

inductive Status where
  | S_INIT
  | S_STARTING
  | S_STOPPING
  | S_STOPPED
  deriving DecidableEq

/-- A manager that has been constructed, and the argument of `run`. -/
structure Config where
  maxWorkers_ : Int
  pollTimeoutMs_ : Int
  useThisThread : Bool

def Config.workers (cfg : Config) : Nat := if cfg.maxWorkers_ < 1 then 1 else cfg.maxWorkers_.toNat

/-- The `i`-th server runs in the thread that called `run`. -/
def Config.Inline (cfg : Config) (i : Nat) : Prop := cfg.useThisThread = true ∧ i = cfg.workers - 1

instance (cfg : Config) : DecidablePred cfg.Inline := fun _ => inferInstanceAs (Decidable (_ ∧ _))

inductive RunPc where
  | starting (i : Nat)
  /-- The thread has been made, and is to be pushed to `threads_`. -/
  | pushing (i : Nat)
  /-- In `runServerForManager`, called by `run` itself. -/
  | inline (i : Nat)
  | counting (i : Nat)
  | returned
  deriving DecidableEq

inductive WorkerPc where
  | idle
  /-- At the head of the loop, before the test of `closing()`. -/
  | testing
  /-- After the test, and before it is blocked in `epoll_wait`. -/
  | entering
  | polling
  | working
  /-- After the loop, before `numWorkers_--`. -/
  | finishing
  | notifying
  | done
  deriving DecidableEq

/-- Where a call of `wait` is. It holds `mu_` from `testing` to `parking`, and while `joining`. -/
inductive WaitPc where
  | idle
  | locking
  /-- Before the test of `numWorkers_`. -/
  | testing
  /-- After the test, at `cond_.wait(lk)`. -/
  | parking
  | parked
  | woken
  | joining (todo : List Nat)
  | returned
  /-- `join` of a thread that has been joined throws. -/
  | threw
  deriving DecidableEq

inductive ClosePc where
  | idle
  /-- After the test of `closing()`. -/
  | setting
  | set
  | signalling (todo : List Nat)
  | done
  deriving DecidableEq

structure State where
  numWorkers_ : Int
  state_ : Status
  mu_ : Option Nat
  threads_ : List Nat
  run : RunPc
  servers : Nat → WorkerPc
  /-- There is an event in the epoll of the server. -/
  events : Nat → Bool
  /-- A signal has been sent to the thread and not been delivered. -/
  signals : Nat → Bool
  waits : Nat → WaitPc
  close : ClosePc
  joins : Nat → Nat

inductive Action where
  | run
  | server (i : Nat)
  | fail (i : Nat)
  | timeout (i : Nat)
  | event (i : Nat)
  | signal (i : Nat)
  | wait (w : Nat)
  | spurious (w : Nat)
  | close

namespace State

def closing (s : State) : Bool := s.state_ = .S_STOPPING ∨ s.state_ = .S_STOPPED

def setServer (s : State) (i : Nat) (pc : WorkerPc) : State :=
  { s with servers := Function.update s.servers i pc }

def setWait (s : State) (w : Nat) (pc : WaitPc) : State :=
  { s with waits := Function.update s.waits w pc }

def notifyAll (s : State) : State :=
  { s with waits := fun w => if s.waits w = .parked then .woken else s.waits w }

section Flags

variable {flags : Nat → Bool} {i j : Nat}

theorem raised_iff : Function.update flags i true j = true ↔ j = i ∨ flags j = true := by
  rw [Function.update_apply]
  split <;> simp [*]

theorem lowered_iff : Function.update flags i false j = true ↔ j ≠ i ∧ flags j = true := by
  rw [Function.update_apply]
  split <;> simp [*]

end Flags

section Lemmas

variable (s : State) (i w : Nat) (pc : WorkerPc) (wpc : WaitPc)

@[simp] theorem setServer_servers :
    (s.setServer i pc).servers = Function.update s.servers i pc := rfl
@[simp] theorem setServer_numWorkers_ : (s.setServer i pc).numWorkers_ = s.numWorkers_ := rfl
@[simp] theorem setServer_state_ : (s.setServer i pc).state_ = s.state_ := rfl
@[simp] theorem setServer_mu_ : (s.setServer i pc).mu_ = s.mu_ := rfl
@[simp] theorem setServer_threads_ : (s.setServer i pc).threads_ = s.threads_ := rfl
@[simp] theorem setServer_run : (s.setServer i pc).run = s.run := rfl
@[simp] theorem setServer_events : (s.setServer i pc).events = s.events := rfl
@[simp] theorem setServer_signals : (s.setServer i pc).signals = s.signals := rfl
@[simp] theorem setServer_waits : (s.setServer i pc).waits = s.waits := rfl
@[simp] theorem setServer_close : (s.setServer i pc).close = s.close := rfl
@[simp] theorem setServer_joins : (s.setServer i pc).joins = s.joins := rfl
@[simp] theorem setWait_waits : (s.setWait w wpc).waits = Function.update s.waits w wpc := rfl
@[simp] theorem setWait_numWorkers_ : (s.setWait w wpc).numWorkers_ = s.numWorkers_ := rfl
@[simp] theorem setWait_state_ : (s.setWait w wpc).state_ = s.state_ := rfl
@[simp] theorem setWait_mu_ : (s.setWait w wpc).mu_ = s.mu_ := rfl
@[simp] theorem setWait_threads_ : (s.setWait w wpc).threads_ = s.threads_ := rfl
@[simp] theorem setWait_run : (s.setWait w wpc).run = s.run := rfl
@[simp] theorem setWait_servers : (s.setWait w wpc).servers = s.servers := rfl
@[simp] theorem setWait_events : (s.setWait w wpc).events = s.events := rfl
@[simp] theorem setWait_signals : (s.setWait w wpc).signals = s.signals := rfl
@[simp] theorem setWait_close : (s.setWait w wpc).close = s.close := rfl
@[simp] theorem setWait_joins : (s.setWait w wpc).joins = s.joins := rfl

end Lemmas

/-! ## The code -/

def stepRun (cfg : Config) (s : State) : Option State :=
  match s.run with
  | .starting i =>
    if i < cfg.workers then
      if cfg.Inline i then some { s.setServer i .testing with run := .inline i }
      else some { s.setServer i .testing with run := .pushing i }
    else some { s with run := .returned }
  | .pushing i => some { s with threads_ := s.threads_ ++ [i], run := .counting i }
  | .inline i => if s.servers i = .done then some { s with run := .counting i } else none
  | .counting i => some { s with numWorkers_ := s.numWorkers_ + 1, run := .starting (i + 1) }
  | .returned => none

/-- `Server::run`; its end is `serverDone`. -/
def stepServer (s : State) (i : Nat) : Option State :=
  match s.servers i with
  | .idle => none
  | .testing => if s.closing then some (s.setServer i .finishing) else some (s.setServer i .entering)
  | .entering => some (s.setServer i .polling)
  | .polling =>
    if s.events i then
      some { s.setServer i .working with events := Function.update s.events i false }
    else none
  | .working => some (s.setServer i .testing)
  | .finishing => some { s.setServer i .notifying with numWorkers_ := s.numWorkers_ - 1 }
  | .notifying => some (s.setServer i .done).notifyAll
  | .done => none

/-- `epoll_wait` fails, and not with `EINTR`. -/
def stepFail (s : State) (i : Nat) : Option State :=
  if s.servers i = .polling then some (s.setServer i .finishing) else none

/-- With `pollTimeoutMs < 0` there is no timeout. -/
def stepTimeout (cfg : Config) (s : State) (i : Nat) : Option State :=
  if s.servers i = .polling ∧ 0 ≤ cfg.pollTimeoutMs_ then some (s.setServer i .working) else none

/-- A signal interrupts `epoll_wait`, and nothing else. -/
def stepSignal (s : State) (i : Nat) : Option State :=
  if s.signals i then
    let s := { s with signals := Function.update s.signals i false }
    if s.servers i = .polling then some (s.setServer i .working) else some s
  else none

/-- `wait` goes over `threads_` as it is when the loop begins. The code goes over the vector itself,
and `run`, which takes no lock, may push to it meanwhile; of that data race nothing is said here. -/
def stepWait (s : State) (w : Nat) : Option State :=
  match s.waits w with
  | .idle =>
    if s.state_ = .S_STOPPED then some (s.setWait w .returned) else some (s.setWait w .locking)
  | .locking => if s.mu_ = none then some { s.setWait w .testing with mu_ := some w } else none
  | .testing =>
    if s.numWorkers_ ≠ 0 then some (s.setWait w .parking)
    else some (s.setWait w (.joining s.threads_))
  | .parking => some { s.setWait w .parked with mu_ := none }
  | .parked => none
  | .woken => if s.mu_ = none then some { s.setWait w .testing with mu_ := some w } else none
  | .joining [] => some { s.setWait w .returned with mu_ := none }
  | .joining (t :: todo) =>
    if s.joins t ≠ 0 then
      some { s.setWait w .threw with mu_ := none, joins := Function.update s.joins t (s.joins t + 1) }
    else if s.servers t = .done then
      some { s.setWait w (.joining todo) with joins := Function.update s.joins t (s.joins t + 1) }
    else none
  | .returned => none
  | .threw => none

/-- As in `stepWait`, `close` goes over `threads_` as it is when the loop begins. -/
def stepClose (s : State) : Option State :=
  match s.close with
  | .idle => if s.closing then some { s with close := .done } else some { s with close := .setting }
  | .setting => some { s with state_ := .S_STOPPING, close := .set }
  | .set => some { s with close := .signalling s.threads_ }
  | .signalling (t :: todo) =>
    some { s with signals := Function.update s.signals t true, close := .signalling todo }
  | .signalling [] => some { s with close := .done }
  | .done => none

def step (cfg : Config) (s : State) : Action → Option State
  | .run => s.stepRun cfg
  | .server i => s.stepServer i
  | .fail i => s.stepFail i
  | .timeout i => s.stepTimeout cfg i
  | .event i => some { s with events := Function.update s.events i true }
  | .signal i => s.stepSignal i
  | .wait w => s.stepWait w
  | .spurious w => if s.waits w = .parked then some (s.setWait w .woken) else none
  | .close => s.stepClose

/-- A manager that is open, when `run` is called. -/
def opened : State where
  numWorkers_ := 0
  state_ := .S_INIT
  mu_ := none
  threads_ := []
  run := .starting 0
  servers := fun _ => .idle
  events := fun _ => false
  signals := fun _ => false
  waits := fun _ => .idle
  close := .idle
  joins := fun _ => 0

end State

def managing (cfg : Config) : Lib.Machine State Action where
  init s := s = State.opened
  step s a := s.step cfg a

end CcCommon.Conn.Manager
