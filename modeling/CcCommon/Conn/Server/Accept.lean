import CcCommon.Conn.Server.Invariant
import CcCommon.Lib.Loop

/-! # Server::acceptClients

The loop ends at EAGAIN or EWOULDBLOCK, or when the manager is closing. The
flag `retryOnError` decides whether any other failure is written to `err`; the
loop goes on in either case. -/

namespace CcCommon.Conn

open Lib (OrdSet Loop Machine)
open Util (EINTR EAGAIN EWOULDBLOCK)

set_option autoImplicit false

/-- `acceptClients`, when `as` is answered to its rounds one after the other. -/
def Server.acceptClients (strerror : Nat → String) (listenfd : Int) (retryOnError : Bool)
    (s : Server) (err : String) (as : List Answers) : Loop (Server × String) :=
  Loop.run (fun p a => p.1.acceptRound strerror listenfd a retryOnError p.2) (s, err) as

/-! ## The answers of accept4 -/

namespace Ret

/-- A connection, or the call was interrupted. -/
def GoesOn (r : Ret) : Prop := 0 ≤ r.val ∨ r.errno = EINTR

theorem Failed.not_drained {r : Ret} (h : r.Failed) : ¬ r.Drained := by
  rintro ⟨-, -, hAgain | hBlock⟩
  · exact h.2.2.1 hAgain
  · exact h.2.2.2 hBlock

theorem GoesOn.not_drained {r : Ret} (h : r.GoesOn) : ¬ r.Drained := by
  rintro ⟨hNeg, hIntr, -⟩
  cases h with
  | inl hVal => exact Int.not_le.mpr hNeg hVal
  | inr hErrno => exact hIntr hErrno

end Ret

def Answers.Last (a : Answers) : Prop := a.closing = true ∨ a.accept4.Drained

theorem Answers.not_last (a : Answers) (hOpen : ¬ a.closing = true) (h : ¬ a.accept4.Drained) :
    ¬ a.Last :=
  not_or.mpr ⟨hOpen, h⟩

/-! ## One round -/

section Round

variable (strerror : Nat → String) (listenfd : Int) (s : Server) {a : Answers} (err : String)

theorem acceptRound_last_iff (a : Answers) (retryOnError : Bool) :
    (s.acceptRound strerror listenfd a retryOnError err).1 = true ↔ a.Last := by
  have hCases := acceptRound_cases strerror listenfd s a retryOnError err
  generalize s.acceptRound strerror listenfd a retryOnError err = r at hCases ⊢
  cases hCases with
  | closing hClosing => exact iff_of_true rfl (.inl hClosing)
  | interrupted hOpen hNeg hIntr =>
    have hGoesOn : a.accept4.GoesOn := .inr hIntr
    exact iff_of_false Bool.false_ne_true (a.not_last hOpen hGoesOn.not_drained)
  | drained hOpen hDrained => exact iff_of_true rfl (.inr hDrained)
  | failed hOpen hFailed =>
    exact iff_of_false Bool.false_ne_true (a.not_last hOpen hFailed.not_drained)
  | accepted hOpen hVal =>
    have hGoesOn : a.accept4.GoesOn := .inl hVal
    exact iff_of_false Bool.false_ne_true (a.not_last hOpen hGoesOn.not_drained)

/-- A failure leaves the server as it is, and goes on. -/
theorem acceptRound_failed (hOpen : ¬ a.closing = true) (h : a.accept4.Failed) (retryOnError : Bool) :
    s.acceptRound strerror listenfd a retryOnError err = (false, s, if retryOnError then err
      else errnoStr strerror a.accept4.errno "<accept>: Error accepting connection: " "") := by
  have hCases := acceptRound_cases strerror listenfd s a retryOnError err
  generalize s.acceptRound strerror listenfd a retryOnError err = r at hCases ⊢
  cases hCases with
  | closing hClosing => exact absurd hClosing hOpen
  | interrupted hOpen hNeg hIntr => exact absurd hIntr h.2.1
  | drained hOpen hDrained => exact absurd hDrained h.not_drained
  | failed hOpen hFailed => rfl
  | accepted hOpen hVal => exact absurd h.1 (Int.not_lt.mpr hVal)

/-- What `addFd` does to `err` is the only difference that the flag makes. -/
theorem acceptRound_server (err' : String) (a : Answers) (retryOnError : Bool) :
    (s.acceptRound strerror listenfd a retryOnError err).1 =
        (s.acceptRound strerror listenfd a true err').1 ∧
      (s.acceptRound strerror listenfd a retryOnError err).2.1 =
        (s.acceptRound strerror listenfd a true err').2.1 := by
  simp only [Server.acceptRound, Server.addFd]
  split_ifs <;> exact ⟨rfl, rfl⟩

/-- A connection is added unless `epoll_ctl` fails. -/
theorem acceptRound_added (hOpen : ¬ a.closing = true) (hVal : 0 ≤ a.accept4.val)
    (hCtl : a.epoll_ctl.val ≠ -1) (hListen : a.accept4.val ≠ listenfd) (retryOnError : Bool) :
    a.accept4.val ∈ (s.acceptRound strerror listenfd a retryOnError err).2.1.clientfds_ := by
  rw [Server.acceptRound, if_neg hOpen, if_neg (Int.not_lt.mpr hVal), Server.addFd, if_neg hCtl]
  dsimp only
  rw [if_pos hListen]
  exact OrdSet.mem_insert.mpr (.inl rfl)

theorem acceptRound_keeps {fd : Int} (h : fd ∈ s.clientfds_) (a : Answers) (retryOnError : Bool) :
    fd ∈ (s.acceptRound strerror listenfd a retryOnError err).2.1.clientfds_ := by
  have hCases := acceptRound_cases strerror listenfd s a retryOnError err
  generalize s.acceptRound strerror listenfd a retryOnError err = r at hCases ⊢
  cases hCases with
  | accepted hOpen hVal => exact addFd_clients strerror a err fd h
  | _ => exact h

end Round

/-! ## Whole calls -/

section Calls

variable (strerror : Nat → String) (listenfd : Int) (s : Server) (err : String)
  (retryOnError : Bool) {as : List Answers}

theorem acceptClients_running_iff :
    (∃ p, s.acceptClients strerror listenfd retryOnError err as = .running p) ↔ ∀ a ∈ as, ¬ a.Last :=
  Loop.running_iff fun p a => acceptRound_last_iff strerror listenfd p.1 p.2 a retryOnError

/-- A call with the flag and one without it make the same rounds and leave the same server. -/
theorem acceptClients_alike (as : List Answers) :
    Loop.Alike (fun p q => p.1 = q.1) (s.acceptClients strerror listenfd retryOnError err as)
      (s.acceptClients strerror listenfd true err as) := by
  refine Loop.run_alike (fun p q a hSame => ?_) rfl
  obtain ⟨svr, err⟩ := p
  obtain ⟨_, err'⟩ := q
  cases hSame
  exact acceptRound_server strerror listenfd svr err err' a retryOnError

/-- Every connection that came in is among the clients. -/
theorem acceptClients_added (hRun : ∀ a ∈ as, ¬ a.Last) {a : Answers} (hMem : a ∈ as)
    (hVal : 0 ≤ a.accept4.val) (hCtl : a.epoll_ctl.val ≠ -1) (hListen : a.accept4.val ≠ listenfd) :
    a.accept4.val ∈
      (s.acceptClients strerror listenfd retryOnError err as).state.1.clientfds_ := by
  induction as generalizing s err with
  | nil => cases hMem
  | cons b as ih =>
    rw [List.forall_mem_cons] at hRun
    have hNext : (s.acceptRound strerror listenfd b retryOnError err).1 = false :=
      Bool.eq_false_iff.mpr (mt (acceptRound_last_iff strerror listenfd s err b retryOnError).mp
        hRun.1)
    rw [Server.acceptClients, Loop.run_next hNext]
    rcases List.mem_cons.mp hMem with rfl | hLater
    · have hOpen : ¬ a.closing = true := fun hClosing => hRun.1 (.inl hClosing)
      have hHere := acceptRound_added strerror listenfd s err hOpen hVal hCtl hListen retryOnError
      exact Loop.run_induct (I := fun p : Server × String => a.accept4.val ∈ p.1.clientfds_)
        (fun p b _ hKept => acceptRound_keeps strerror listenfd p.1 p.2 hKept b retryOnError) hHere
    · exact ih _ _ hRun.2 hLater

/-- Failures alone change nothing but `err`, and do not end the loop. -/
theorem acceptClients_failing (h : ∀ a ∈ as, ¬ a.closing = true ∧ a.accept4.Failed) :
    ∃ err', s.acceptClients strerror listenfd retryOnError err as = .running (s, err') := by
  induction as generalizing err with
  | nil => exact ⟨err, rfl⟩
  | cons a as ih =>
    rw [List.forall_mem_cons] at h
    have hRound := acceptRound_failed strerror listenfd s err h.1.1 h.1.2 retryOnError
    rw [Server.acceptClients, Loop.run_next (by rw [hRound]), hRound]
    exact ih _ h.2

end Calls

/-! ## The call in Server::run -/

/-- Where `run` is after some rounds of a call made for an event of the batch. -/
def ServerRun.ofCall (events : List EpollEvent) : Loop (Server × String) → ServerRun
  | .running (s, err) => ⟨.accepting events err, s⟩
  | .left (s, err) => ⟨.batch events, s.chkRunErr err⟩

section Serving

variable {strerror : Nat → String} {listenfd : Int} {s : Server} {err : String}
  {events : List EpollEvent} {as : List Answers} {t : ServerRun}

theorem serving_accepting {a : Answers}
    (h : (serving strerror listenfd).step ⟨.accepting events err, s⟩ a = some t) :
    t = ServerRun.ofCall events (s.acceptClients strerror listenfd false err [a]) := by
  obtain ⟨-, hNext⟩ := Option.ite_none_right_eq_some.mp h
  obtain rfl := Option.some.inj hNext
  rw [Server.stepAccepting, Server.acceptClients]
  cases hLast : (s.acceptRound strerror listenfd a false err).1 with
  | true =>
    rw [Loop.run_last hLast]
    exact if_pos hLast
  | false =>
    rw [Loop.run_next hLast]
    exact if_neg (Bool.eq_false_iff.mp hLast)

/-- The steps of the server that take the answers are the rounds of the call. -/
theorem serving_acceptClients (hRounds : ∀ a ∈ as.dropLast, ¬ a.Last)
    (hRun : (serving strerror listenfd).run ⟨.accepting events err, s⟩ as = some t) :
    t = ServerRun.ofCall events (s.acceptClients strerror listenfd false err as) := by
  induction as using List.reverseRecOn generalizing t with
  | nil =>
    cases hRun
    rfl
  | append_singleton as a ih =>
    rw [List.dropLast_concat] at hRounds
    obtain ⟨u, hBefore, hStep⟩ := Machine.run_concat_some hRun
    obtain ⟨⟨s', err'⟩, hRunning⟩ :=
      (acceptClients_running_iff strerror listenfd s err false).mpr hRounds
    have hu := ih (fun b hb => hRounds b (List.mem_of_mem_dropLast hb)) hBefore
    rw [hRunning] at hu
    rw [Server.acceptClients, Loop.run_concat hRunning]
    rw [hu] at hStep
    exact serving_accepting hStep

/-- As long as `accept4` fails, the server does nothing else. -/
theorem serving_stalls (hFails : ∀ a ∈ as, ¬ a.closing = true ∧ a.accept4.Failed)
    (hRun : (serving strerror listenfd).run ⟨.accepting events err, s⟩ as = some t) :
    ∃ err', t = ⟨.accepting events err', s⟩ := by
  obtain ⟨err', hRunning⟩ := acceptClients_failing strerror listenfd s err false hFails
  have hRounds : ∀ a ∈ as.dropLast, ¬ a.Last := fun a ha =>
    have hFail := hFails a (List.mem_of_mem_dropLast ha)
    a.not_last hFail.1 hFail.2.not_drained
  refine ⟨err', ?_⟩
  rw [serving_acceptClients hRounds hRun, hRunning, ServerRun.ofCall]

end Serving

/-! ## What retryOnError should do -/

section Honours

variable (strerror : Nat → String) (listenfd : Int) (s : Server) (err : String)
  (os : Stream'.Seq Answers)

/-- The first answer that is neither a connection nor an interruption is a failure. -/
structure FailsFirst (k : Nat) (a : Answers) : Prop where
  answer : os.get? k = some a
  failed : a.accept4.Failed
  before : ∀ j < k, ∀ b, os.get? j = some b → b.accept4.GoesOn

/-- In that round the call returns with the failure in `err` and every earlier connection added. -/
def ReturnsAt (k : Nat) (a : Answers) : Prop :=
  (∃ p, s.acceptClients strerror listenfd false err (os.take k) = .running p) ∧
    ∃ s', s.acceptClients strerror listenfd false err (os.take (k + 1)) =
        .left (s', errnoStr strerror a.accept4.errno "<accept>: Error accepting connection: " "") ∧
      ∀ j < k, ∀ b, os.get? j = some b → 0 ≤ b.accept4.val → b.epoll_ctl.val ≠ -1 →
        b.accept4.val ∈ s'.clientfds_

/-- Without the flag the call stops at the first failure, with it goes on past each. -/
structure HonoursRetry : Prop where
  stops : ∀ k a, FailsFirst os k a → ReturnsAt strerror listenfd s err os k a
  continues : ∀ k a, os.get? k = some a → a.accept4.Failed →
    ∀ p, s.acceptClients strerror listenfd true err (os.take k) = .running p →
      s.acceptClients strerror listenfd true err (os.take (k + 1)) = .running p

variable {os}

theorem FailsFirst.running {k : Nat} {a : Answers} (h : FailsFirst os k a)
    (hOpen : ∀ j b, os.get? j = some b → b.closing = false) (retryOnError : Bool) :
    ∃ p, s.acceptClients strerror listenfd retryOnError err (os.take (k + 1)) = .running p := by
  refine (acceptClients_running_iff strerror listenfd s err retryOnError).mpr fun b hMem => ?_
  obtain ⟨j, hj, hb⟩ := Loop.get?_of_mem_take hMem
  have hNot : ¬ b.closing = true := Bool.eq_false_iff.mp (hOpen j b hb)
  rcases Nat.lt_succ_iff_lt_or_eq.mp hj with hLess | rfl
  · exact b.not_last hNot (h.before j hLess b hb).not_drained
  · rw [h.answer] at hb
    obtain rfl := Option.some.inj hb
    exact a.not_last hNot h.failed.not_drained

theorem FailsFirst.not_returnsAt {k : Nat} {a : Answers} (h : FailsFirst os k a)
    (hOpen : ∀ j b, os.get? j = some b → b.closing = false) :
    ¬ ReturnsAt strerror listenfd s err os k a := by
  rintro ⟨-, s', hLeft, -⟩
  obtain ⟨p, hRunning⟩ := h.running strerror listenfd s err hOpen false
  rw [hLeft] at hRunning
  cases hRunning

theorem acceptClients_continues {k : Nat} {a : Answers} (hAnswer : os.get? k = some a)
    (hOpen : a.closing = false) (hFailed : a.accept4.Failed) {p : Server × String}
    (hRun : s.acceptClients strerror listenfd true err (os.take k) = .running p) :
    s.acceptClients strerror listenfd true err (os.take (k + 1)) = .running p := by
  rw [Server.acceptClients, Loop.run_take_succ hRun hAnswer, Loop.run,
    acceptRound_failed strerror listenfd p.1 p.2 (Bool.eq_false_iff.mp hOpen) hFailed true]
  rfl

/-- The flag is honoured exactly on the sequences in which no failure comes first. -/
theorem acceptClients_honoursRetry_iff (os : Stream'.Seq Answers)
    (hOpen : ∀ k a, os.get? k = some a → a.closing = false) :
    HonoursRetry strerror listenfd s err os ↔ ∀ k a, ¬ FailsFirst os k a := by
  constructor
  · intro hHonours k a hFirst
    exact hFirst.not_returnsAt strerror listenfd s err hOpen (hHonours.stops k a hFirst)
  · intro hNone
    constructor
    · exact fun k a hFirst => absurd hFirst (hNone k a)
    · exact fun k a hAnswer hFailed p hRun =>
        acceptClients_continues strerror listenfd s err hAnswer (hOpen k a hAnswer) hFailed hRun

/-- A connection, and then none is waiting. -/
def served : List Answers := [{ Answers.quiet with accept4 := ⟨7, 0⟩ }, Answers.quiet]

theorem acceptClients_honoursRetry_iff_served :
    HonoursRetry (fun _ => "") 3 Server.init "" (.ofList served) := by
  have hMem {k : Nat} {a : Answers} (h : (Stream'.Seq.ofList served).get? k = some a) :
      a ∈ served := List.mem_of_getElem? ((Stream'.Seq.ofList_get? served k).symm.trans h)
  refine (acceptClients_honoursRetry_iff _ 3 Server.init "" (.ofList served) ?_).mpr ?_
  · intro k a hAnswer
    rcases List.mem_pair.mp (hMem hAnswer) with rfl | rfl <;> rfl
  · rintro k a ⟨hAnswer, ⟨hNeg, -, hAgain, -⟩, -⟩
    rcases List.mem_pair.mp (hMem hAnswer) with rfl | rfl
    · exact absurd hNeg (by decide)
    · exact hAgain rfl

/-- No descriptor is left (EMFILE), however often `accept4` is called. -/
def exhausted : Stream'.Seq Answers :=
  ⟨Stream'.const (some { Answers.quiet with accept4 := ⟨-1, 24⟩ }), fun hNone => by cases hNone⟩

theorem not_honoursRetry_exhausted :
    (∀ k a, exhausted.get? k = some a → a.closing = false) ∧
      ¬ HonoursRetry (fun _ => "Too many open files") 3 Server.init "" exhausted := by
  have hOpen : ∀ k a, exhausted.get? k = some a → a.closing = false := by
    intro k a hAnswer
    rw [← Option.some.inj hAnswer]
    rfl
  have hFirst : FailsFirst exhausted 0 { Answers.quiet with accept4 := ⟨-1, 24⟩ } :=
    ⟨rfl, ⟨by decide, by decide, by decide, by decide⟩, fun j hj => absurd hj (Nat.not_lt_zero j)⟩
  exact ⟨hOpen, fun hHonours => hFirst.not_returnsAt _ 3 Server.init "" hOpen (hHonours.stops 0 _ hFirst)⟩

end Honours

end CcCommon.Conn
