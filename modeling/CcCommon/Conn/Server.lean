import CcCommon.Lib.Machine
import CcCommon.Lib.OrdSet
import CcCommon.Util.BufReader
import Mathlib.Data.Finset.Insert
import Mathlib.Data.BitVec

/-! # conn/conn_epoll.cc: Server

A step of `Server::run` is the part up to the loop, the test at the head of
the loop, `epoll_wait`, the work on one event of a batch, one round of the loop
of `acceptClients`, or the purge of one descriptor at exit. In each step the
system, the handler and the manager answer as they like; what the server may
count on is `Answers.Honest`. Of what is modelled, `LOG` may change `errno`
alone (`isatty` fails on a file): an `errno` here is the one that the code
reads, after the lines that it has logged since the call.
-/

namespace CcCommon.Conn

open Util (EINTR EAGAIN EWOULDBLOCK)
open Lib (OrdSet)

set_option autoImplicit false

def MAXEVENTS : Nat := 1024

def EPOLLIN : BitVec 32 := 0x001
def EPOLLOUT : BitVec 32 := 0x004
def EPOLLERR : BitVec 32 := 0x008
def EPOLLHUP : BitVec 32 := 0x010
def EPOLLRDHUP : BitVec 32 := 0x2000

structure EpollEvent where
  fd : Int
  events : BitVec 32
  deriving DecidableEq

/-! ## What the server is told -/

/-- What a system call returned, and `errno` after it. -/
structure Ret where
  val : Int
  errno : Nat

inductive Polled where
  | timeout
  | error (errno : Nat)
  | ready (events : List EpollEvent)

/-- The answers in one step; those to calls that the step does not make do not matter. -/
structure Answers where
  closing : Bool
  epoll_create1 : Ret
  epoll_wait : Polled
  accept4 : Ret
  epoll_ctl : Ret
  close : Ret
  handleFd : String
  unregisterFd : String

def Answers.quiet : Answers := ⟨false, ⟨4, 0⟩, .timeout, ⟨-1, EAGAIN⟩, ⟨0, 0⟩, ⟨0, 0⟩, "", ""⟩

/-- What the server does with a descriptor. -/
inductive Event where
  /-- It inserts it in `clientfds_`. -/
  | insert (fd : Int)
  | handleFd (fd : Int)
  | unregisterFd (fd : Int)
  | close (fd : Int)
  deriving DecidableEq

def Event.fd : Event → Int
  | .insert fd => fd
  | .handleFd fd => fd
  | .unregisterFd fd => fd
  | .close fd => fd

/-! ## The state of `run` -/

inductive ServerPc where
  | start
  | head
  | waiting
  | batch (events : List EpollEvent)
  /-- In `acceptClients`, called for an event of the batch. -/
  | accepting (events : List EpollEvent) (err : String)
  /-- After the loop, with the descriptors still to be purged. -/
  | purging (todo : List Int)
  | returned
  | threw (what : String)
  deriving DecidableEq

structure Server where
  clientfds_ : OrdSet Int
  efd_ : Int
  serverErrors : Nat
  /-- The descriptors that `accept4` returned to this server and that are open. -/
  sockets : Finset Int
  /-- The descriptors registered with `efd_`. -/
  registered : Finset Int
  trace : List Event

structure ServerRun where
  pc : ServerPc
  svr : Server

/-- `epoll_wait` reports at most `maxevents` registered descriptors, each once. -/
def Polled.Honest (registered : Finset Int) : Polled → Prop
  | .timeout => True
  | .error _ => True
  | .ready events =>
    events ≠ [] ∧ events.length ≤ MAXEVENTS ∧ (events.map EpollEvent.fd).Nodup ∧
      ∀ e ∈ events, e.fd ∈ registered

instance (registered : Finset Int) : DecidablePred (Polled.Honest registered)
  | .timeout => instDecidableTrue
  | .error _ => instDecidableTrue
  | .ready _ => inferInstanceAs (Decidable (_ ∧ _))

/-- What the system promises: besides, a new descriptor has a number that is not open. -/
def Answers.Honest (listenfd : Int) (s : Server) (a : Answers) : Prop :=
  (0 ≤ a.epoll_create1.val → a.epoll_create1.val ≠ listenfd) ∧
  (0 ≤ a.accept4.val →
    a.accept4.val ∉ s.sockets ∧ a.accept4.val ≠ listenfd ∧ a.accept4.val ≠ s.efd_) ∧
  a.epoll_wait.Honest s.registered

instance (listenfd : Int) (s : Server) (a : Answers) : Decidable (a.Honest listenfd s) :=
  inferInstanceAs (Decidable (_ ∧ _))

/-! ## The code -/

section Code

variable (strerror : Nat → String) (listenfd : Int)

def errnoStr (errno : Nat) (pre suf : String) : String :=
  pre ++ "(" ++ toString errno ++ ") " ++ strerror errno ++ suf

/-- Returns the result and `err`, or throws. -/
def errnoChk (fd : Ret) (err : String) (halt : Bool) (pre suf : String) :
    Except String (Bool × String) :=
  if fd.val ≥ 0 then .ok (false, err)
  else if halt then .error (errnoStr strerror fd.errno pre suf)
  else .ok (true, errnoStr strerror fd.errno pre suf)

namespace Server

/-- `CHKRUNERR` -/
def chkRunErr (s : Server) (err : String) : Server :=
  if err ≠ "" then { s with serverErrors := s.serverErrors + 1 } else s

/-- `closeFd` with `useShutdown = false`: the number is free, and registered no more. -/
def closeFd (s : Server) (a : Answers) (fd : Int) (err cat : String) : Server × String :=
  ({ s with
      sockets := s.sockets.erase fd
      registered := s.registered.erase fd
      trace := s.trace ++ [.close fd] },
    if a.close.val < 0 then
      errnoStr strerror a.close.errno ("ERROR: shutdown " ++ cat ++ " fd " ++ toString fd ++ ": ") ""
    else err)

/-- `err1.append(" && ").append(err2)` unless there is nothing to append. -/
def appendErr (err1 err2 : String) : String :=
  if err2 ≠ "" then err1 ++ " && " ++ err2 else err1

def purgeFd (s : Server) (a : Answers) (sockfd : Int) : Server × String :=
  let err1 := if a.epoll_ctl.val = -1 then
      errnoStr strerror a.epoll_ctl.errno "error removing sockfd on epoll: " ""
    else ""
  let s := if a.epoll_ctl.val = -1 then s else { s with registered := s.registered.erase sockfd }
  if sockfd ≠ listenfd then
    let err2 := a.unregisterFd
    let (s, err3) := closeFd strerror { s with trace := s.trace ++ [.unregisterFd sockfd] } a sockfd
      "" ""
    (s, appendErr (appendErr err1 err2) err3)
  else (s, err1)

def removeFd (s : Server) (a : Answers) (sockfd : Int) (err : String) : Server × String :=
  if sockfd ∈ s.clientfds_ then
    purgeFd strerror listenfd { s with clientfds_ := s.clientfds_.erase sockfd } a sockfd
  else (s, err)

def addFd (s : Server) (a : Answers) (sockfd : Int) (err : String) : Server × String :=
  if a.epoll_ctl.val = -1 then
    (s, errnoStr strerror a.epoll_ctl.errno "error adding sockfd on epoll: " "")
  else
    let s := { s with registered := insert sockfd s.registered }
    if sockfd ≠ listenfd then
      ({ s with clientfds_ := s.clientfds_.insert sockfd, trace := s.trace ++ [.insert sockfd] },
        err)
    else (s, err)

def workFd (s : Server) (a : Answers) (fd : Int) : Server :=
  let err := a.handleFd
  let s := { s with trace := s.trace ++ [.handleFd fd] }
  if err ≠ "" then (removeFd strerror listenfd s a fd err).1 else s

/-- One round of the loop of `acceptClients`, and whether it was the last. Another thread may run
between its test of `closing()` and `accept4`; in `System` these are two steps. -/
def acceptRound (s : Server) (a : Answers) (retryOnError : Bool) (err : String) :
    Bool × Server × String :=
  if a.closing then (true, s, err)
  else if a.accept4.val < 0 then
    if a.accept4.errno = EINTR then (false, s, err)
    else if a.accept4.errno = EAGAIN ∨ a.accept4.errno = EWOULDBLOCK then (true, s, err)
    else if retryOnError then (false, s, err)
    else (false, s, errnoStr strerror a.accept4.errno "<accept>: Error accepting connection: " "")
  else
    (false, addFd strerror listenfd { s with sockets := insert a.accept4.val s.sockets } a
      a.accept4.val err)

/-- Up to the loop. In `errnoChk(efd_, err, "ERROR: ...")` the text is passed for `halt`. -/
def stepStart (s : Server) (a : Answers) : ServerRun :=
  let s := { s with efd_ := a.epoll_create1.val }
  match errnoChk strerror a.epoll_create1 "" true "" "" with
  | .error what => ⟨.threw what, s⟩
  | .ok (_, err) =>
    let s := s.chkRunErr err
    let (s, err) := addFd strerror listenfd s a listenfd ""
    ⟨.head, s.chkRunErr err⟩

def leave (s : Server) : ServerRun := ⟨.purging s.clientfds_.toList, s⟩

def stepHead (s : Server) (a : Answers) : ServerRun :=
  if a.closing then s.leave else ⟨.waiting, s⟩

def stepWaiting (s : Server) (a : Answers) : ServerRun :=
  match a.epoll_wait with
  | .timeout => ⟨.head, s⟩
  | .error errno =>
    if errno = EINTR then ⟨.head, s⟩
    else (s.chkRunErr (errnoStr strerror errno "ERROR: creating epoll: " "")).leave
  | .ready events => ⟨.batch events, s⟩

def stepEvent (s : Server) (a : Answers) (e : EpollEvent) (rest : List EpollEvent) : ServerRun :=
  let pErr := e.events &&& EPOLLERR ≠ 0
  let pHup := e.events &&& EPOLLHUP ≠ 0
  let pRdhup := e.events &&& EPOLLRDHUP ≠ 0
  if pErr ∨ pHup ∨ pRdhup then
    ⟨.batch rest, if e.fd ≠ listenfd then (removeFd strerror listenfd s a e.fd "").1 else s⟩
  else
    let pRead := e.events &&& EPOLLIN ≠ 0
    let pWrite := e.events &&& EPOLLOUT ≠ 0
    if listenfd = e.fd then
      if pRead then ⟨.accepting rest "", s⟩ else ⟨.batch rest, s⟩
    else if pRead ∨ pWrite then ⟨.batch rest, workFd strerror listenfd s a e.fd⟩
    else ⟨.batch rest, s⟩

def stepAccepting (s : Server) (a : Answers) (events : List EpollEvent) (err : String) : ServerRun :=
  let (last, s, err) := acceptRound strerror listenfd s a false err
  if last then ⟨.batch events, s.chkRunErr err⟩ else ⟨.accepting events err, s⟩

/-- After the loop over `clientfds_`. -/
def stepLast (s : Server) (a : Answers) : ServerRun :=
  let (s, err) := purgeFd strerror listenfd { s with clientfds_ := OrdSet.empty } a listenfd
  ⟨.returned, (closeFd strerror s a s.efd_ err "").1⟩

def init : Server := ⟨OrdSet.empty, -1, 0, ∅, ∅, []⟩

end Server

def ServerRun.next (s : ServerRun) (a : Answers) : Option ServerRun :=
  match s.pc with
  | .start => some (s.svr.stepStart strerror listenfd a)
  | .head => some (s.svr.stepHead a)
  | .waiting => some (s.svr.stepWaiting strerror a)
  | .batch [] => some ⟨.head, s.svr⟩
  | .batch (e :: rest) => some (s.svr.stepEvent strerror listenfd a e rest)
  | .accepting events err => some (s.svr.stepAccepting strerror listenfd a events err)
  | .purging (fd :: todo) => some ⟨.purging todo, (s.svr.purgeFd strerror listenfd a fd).1⟩
  | .purging [] => some (s.svr.stepLast strerror listenfd a)
  | .returned => none
  | .threw _ => none

def serving : Lib.Machine ServerRun Answers where
  init s := s = ⟨.start, Server.init⟩
  step s a := if a.Honest listenfd s.svr then s.next strerror listenfd a else none

end Code

/-! ## One round of acceptClients -/

namespace Ret

/-- No connection is waiting. -/
def Drained (r : Ret) : Prop :=
  r.val < 0 ∧ r.errno ≠ EINTR ∧ (r.errno = EAGAIN ∨ r.errno = EWOULDBLOCK)

/-- A failure other than EINTR, EAGAIN and EWOULDBLOCK. -/
def Failed (r : Ret) : Prop :=
  r.val < 0 ∧ r.errno ≠ EINTR ∧ r.errno ≠ EAGAIN ∧ r.errno ≠ EWOULDBLOCK

end Ret

section Round

variable (strerror : Nat → String) (listenfd : Int) (s : Server) (a : Answers)
  (retryOnError : Bool) (err : String)

/-- What a round can come to. -/
inductive Accepts : Bool × Server × String → Prop where
  | closing (hClosing : a.closing = true) : Accepts (true, s, err)
  | interrupted (hOpen : ¬ a.closing = true) (hNeg : a.accept4.val < 0)
      (hIntr : a.accept4.errno = EINTR) : Accepts (false, s, err)
  | drained (hOpen : ¬ a.closing = true) (hDrained : a.accept4.Drained) : Accepts (true, s, err)
  | failed (hOpen : ¬ a.closing = true) (hFailed : a.accept4.Failed) :
      Accepts (false, s, if retryOnError then err
        else errnoStr strerror a.accept4.errno "<accept>: Error accepting connection: " "")
  | accepted (hOpen : ¬ a.closing = true) (hVal : 0 ≤ a.accept4.val) :
      Accepts (false, Server.addFd strerror listenfd
        { s with sockets := insert a.accept4.val s.sockets } a a.accept4.val err)

theorem acceptRound_cases : Accepts strerror listenfd s a retryOnError err
    (s.acceptRound strerror listenfd a retryOnError err) := by
  rw [Server.acceptRound]
  split_ifs with hClosing hNeg hIntr hDrained hRetry
  · exact .closing hClosing
  · exact .interrupted hClosing hNeg hIntr
  · exact .drained hClosing ⟨hNeg, hIntr, hDrained⟩
  · have hFailed : Accepts strerror listenfd s a retryOnError err _ :=
      .failed hClosing ⟨hNeg, hIntr, not_or.mp hDrained⟩
    rwa [if_pos hRetry] at hFailed
  · have hFailed : Accepts strerror listenfd s a retryOnError err _ :=
      .failed hClosing ⟨hNeg, hIntr, not_or.mp hDrained⟩
    rwa [if_neg hRetry] at hFailed
  · exact .accepted hClosing (Int.not_lt.mp hNeg)

end Round

end CcCommon.Conn
