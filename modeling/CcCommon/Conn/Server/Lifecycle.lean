import CcCommon.Conn.Server.Invariant

/-! # The lifecycle of a connection

The handler is called for a connection that is live, and so every connection
goes through its whole life once.
-/

namespace CcCommon.Conn

open Lib (OrdSet)

set_option autoImplicit false

/-! ## The calls of the handler -/

/-- From `s` to `s'`, the handler was called for descriptors in the `clientfds_` of `s` only. -/
def CallsTracked (s s' : Server) : Prop :=
  ∃ calls, s'.trace = s.trace ++ calls ∧
    ∀ fd, (.handleFd fd ∈ calls ∨ .unregisterFd fd ∈ calls) → fd ∈ s.clientfds_

section Calls

variable (strerror : Nat → String) {listenfd : Int} {s s' : Server} (a : Answers) {fd : Int}

theorem CallsTracked.none (h : s'.trace = s.trace) : CallsTracked s s' :=
  ⟨[], by rw [h, List.append_nil], by simp⟩

theorem CallsTracked.one {es : List Event} (hTrace : s'.trace = s.trace ++ es)
    (hEs : ∀ e ∈ es, e.fd = fd) (hFd : fd ∈ s.clientfds_) : CallsTracked s s' := by
  refine ⟨es, hTrace, ?_⟩
  rintro fd' (hHandle | hUnregister)
  · obtain rfl : fd' = fd := hEs _ hHandle
    exact hFd
  · obtain rfl : fd' = fd := hEs _ hUnregister
    exact hFd

theorem chkRunErr_trace (err : String) : (s.chkRunErr err).trace = s.trace := by
  rw [Server.chkRunErr]
  split <;> rfl

theorem removeFd_calls (hFd : fd ≠ listenfd) (err : String) :
    CallsTracked s (s.removeFd strerror listenfd a fd err).1 := by
  by_cases hTracked : fd ∈ s.clientfds_
  · have hPurged := removeFd_spec strerror a hTracked hFd err
    exact CallsTracked.one hPurged.trace (by simp [Event.fd]) hTracked
  · rw [Server.removeFd, if_neg hTracked]
    exact CallsTracked.none rfl

theorem workFd_calls (hFd : fd ≠ listenfd) (hTracked : fd ∈ s.clientfds_) :
    CallsTracked s (s.workFd strerror listenfd a fd) := by
  rw [Server.workFd]
  split
  · have hPurged := removeFd_spec (s := { s with trace := s.trace ++ [.handleFd fd] }) strerror a
      hTracked hFd a.handleFd
    have hTrace := hPurged.trace
    rw [List.append_assoc] at hTrace
    exact CallsTracked.one hTrace (by simp [Event.fd]) hTracked
  · exact CallsTracked.one rfl (by simp [Event.fd]) hTracked

theorem addFd_calls (s : Server) (listenfd fd : Int) (err : String) :
    CallsTracked s (s.addFd strerror listenfd a fd err).1 := by
  rw [Server.addFd]
  split
  · exact CallsTracked.none rfl
  · split
    · exact ⟨[.insert fd], rfl, by simp⟩
    · exact CallsTracked.none rfl

theorem stepStart_calls : CallsTracked s (s.stepStart strerror listenfd a).svr := by
  rw [Server.stepStart]
  split
  · exact CallsTracked.none rfl
  · rename_i err hOk
    obtain ⟨calls, hTrace, hCalls⟩ := addFd_calls strerror a
      ({ s with efd_ := a.epoll_create1.val }.chkRunErr err) listenfd listenfd ""
    refine ⟨calls, ?_, ?_⟩
    · dsimp only
      rw [chkRunErr_trace, hTrace, chkRunErr_trace]
    · rwa [chkRunErr_clients] at hCalls

theorem stepHead_calls : CallsTracked s (s.stepHead a).svr := by
  rw [Server.stepHead]
  split
  · exact CallsTracked.none rfl
  · exact CallsTracked.none rfl

theorem stepWaiting_calls : CallsTracked s (s.stepWaiting strerror a).svr := by
  rw [Server.stepWaiting]
  split
  · exact CallsTracked.none rfl
  · split
    · exact CallsTracked.none rfl
    · exact CallsTracked.none (chkRunErr_trace _)
  · exact CallsTracked.none rfl

theorem stepEvent_calls {e : EpollEvent} {rest : List EpollEvent}
    (hDue : Due listenfd (e :: rest) s) :
    CallsTracked s (s.stepEvent strerror listenfd a e rest).svr := by
  obtain ⟨pc, svr, hStep, -, hSvr⟩ := stepEvent_cases strerror a s listenfd e rest
  rw [hStep]
  rcases hSvr with rfl | ⟨hFd, rfl | rfl⟩
  · exact CallsTracked.none rfl
  · exact removeFd_calls strerror a hFd ""
  · exact workFd_calls strerror a hFd ((hDue.tracked e List.mem_cons_self).resolve_left hFd)

theorem stepAccepting_calls (events : List EpollEvent) (err : String) :
    CallsTracked s (s.stepAccepting strerror listenfd a events err).svr := by
  rcases stepAccepting_cases strerror a s listenfd events err with
    ⟨-, err', hStep | hStep⟩ | ⟨-, -, err', hStep⟩
  · rw [hStep]
    exact CallsTracked.none (chkRunErr_trace err')
  · rw [hStep]
    exact CallsTracked.none rfl
  · rw [hStep]
    exact addFd_calls strerror a { s with sockets := insert a.accept4.val s.sockets } listenfd
      a.accept4.val err

theorem stepLast_calls : CallsTracked s (s.stepLast strerror listenfd a).svr := by
  obtain ⟨registered, hPurged⟩ := purgeFd_listen strerror a
    { s with clientfds_ := OrdSet.empty } listenfd
  rw [Server.stepLast]
  generalize Server.purgeFd strerror listenfd { s with clientfds_ := OrdSet.empty } a listenfd = p
    at hPurged ⊢
  obtain ⟨s', err⟩ := p
  dsimp only at hPurged
  subst hPurged
  exact ⟨[.close s.efd_], rfl, by simp⟩

theorem ServerRun.Inv.calls {s s' : ServerRun} (h : s.Inv listenfd)
    (hStep : (serving strerror listenfd).step s a = some s') : CallsTracked s.svr s'.svr := by
  simp only [serving] at hStep
  split at hStep
  · obtain ⟨pc, svr⟩ := s
    cases pc with
    | start =>
      cases hStep
      exact stepStart_calls strerror a
    | head =>
      cases hStep
      exact stepHead_calls a
    | waiting =>
      cases hStep
      exact stepWaiting_calls strerror a
    | batch events =>
      cases events with
      | nil =>
        cases hStep
        exact CallsTracked.none rfl
      | cons e rest =>
        cases hStep
        exact stepEvent_calls strerror a h.2
    | accepting events err =>
      cases hStep
      exact stepAccepting_calls strerror a events err
    | purging todo =>
      cases todo with
      | nil =>
        cases hStep
        exact stepLast_calls strerror a
      | cons fd todo =>
        cases hStep
        have hLeaves : Leaves listenfd (fd :: todo) svr := h
        have hFd := hLeaves.owns.apart fd (hLeaves.owns.accepted fd List.mem_cons_self)
        exact CallsTracked.one (purgeFd_spec strerror a hFd.1).trace (by simp [Event.fd])
          (hLeaves.kept fd List.mem_cons_self)
    | returned => cases hStep
    | threw what => cases hStep
  · cases hStep

end Calls

/-- Every connection is handled and then unregistered and closed, each once, whatever the numbers
of the descriptors; the handler is called for descriptors in `clientfds_` only; the listening
descriptor is left alone; and when `run` returns, all connections have been closed. -/
theorem server_lifecycle {strerror : Nat → String} {listenfd : Int} {s : ServerRun}
    (h : (serving strerror listenfd).Reachable s) :
    (∀ fd, fd ≠ s.svr.efd_ → (connection fd).Series (s.live fd) (s.svr.on fd)) ∧
    (∀ e ∈ s.svr.trace, e.fd ≠ listenfd ∧ (e.fd = s.svr.efd_ → e = .close s.svr.efd_)) ∧
    (∀ a s', (serving strerror listenfd).step s a = some s' → CallsTracked s.svr s'.svr) ∧
    (s.pc = .returned → ∀ fd, fd ≠ s.svr.efd_ → ∃ wholes : List (List Event),
      (∀ w ∈ wholes, (connection fd).Whole w) ∧ s.svr.on fd = wholes.flatten) := by
  have hInv := ServerRun.reachable_inv h
  refine ⟨hInv.owns.series, hInv.owns.clean, fun a s' hStep => hInv.calls strerror a hStep, ?_⟩
  intro hReturned fd hFd
  obtain ⟨wholes, current, hWholes, hOn, -, hNone⟩ := hInv.owns.series fd hFd
  have hDead : ¬ s.live fd := by
    rw [ServerRun.live, hReturned]
    exact not_false
  rw [hNone hDead, List.append_nil] at hOn
  exact ⟨wholes, hWholes, hOn⟩

/-- A connection fails and its number is used again in the same batch. -/
def reusingAnswers : List Answers :=
  [.quiet, .quiet, { Answers.quiet with epoll_wait := .ready [⟨3, EPOLLIN⟩] }, .quiet,
    { Answers.quiet with accept4 := ⟨7, 0⟩ }, .quiet, .quiet, .quiet,
    { Answers.quiet with epoll_wait := .ready [⟨7, EPOLLIN⟩, ⟨3, EPOLLIN⟩] },
    { Answers.quiet with handleFd := "error" }, .quiet, { Answers.quiet with accept4 := ⟨7, 0⟩ }]

theorem server_lifecycle_reusing : ∃ s,
    (serving (fun _ => "") 3).run ⟨.start, Server.init⟩ reusingAnswers = some s ∧
    (connection 7).Series (s.live 7) (s.svr.on 7) := by
  have hAny : ((serving (fun _ => "") 3).run ⟨.start, Server.init⟩ reusingAnswers).any
      (fun s => decide (s.svr.efd_ = 4)) = true := by decide
  obtain ⟨s, hRun, hEfd⟩ := Option.any_eq_true _ _ |>.mp hAny
  refine ⟨s, hRun, ?_⟩
  exact (server_lifecycle ⟨_, _, rfl, hRun⟩).1 7 (by rw [of_decide_eq_true hEfd]; decide)

end CcCommon.Conn
