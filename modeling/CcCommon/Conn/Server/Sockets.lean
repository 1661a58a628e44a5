import CcCommon.Conn.Server.Invariant

/-! # Accepted sockets

An accepted socket that is not in `clientfds_` is never closed. That is what
becomes of a socket which `addFd` could not register.
-/

namespace CcCommon.Conn

open Lib (OrdSet)

set_option autoImplicit false

/-- Every accepted socket that is open is in `clientfds_`. -/
def Server.Keeps (s : Server) : Prop := ∀ fd ∈ s.sockets, fd ∈ s.clientfds_

/-- Between two steps, and when `run` returns. -/
def ServerRun.NoLeak (s : ServerRun) : Prop :=
  s.svr.Keeps ∧ (s.pc = .returned → s.svr.sockets = ∅)

/-- The system registers the socket if one is accepted. -/
def Registers (s : ServerRun) (a : Answers) : Prop :=
  match s.pc with
  | .accepting _ _ => a.closing = false → 0 ≤ a.accept4.val → a.epoll_ctl.val ≠ -1
  | _ => True

section Functions

variable (strerror : Nat → String) {listenfd : Int} {s : Server} (a : Answers) {fd : Int}

theorem Purged.keeps {s' : Server} (h : Purged fd s s')
    (hKeeps : ∀ fd' ∈ s.sockets, fd' ≠ fd → fd' ∈ s.clientfds_) : s'.Keeps := by
  intro fd' hSocket
  rw [h.sockets] at hSocket
  rw [h.clientfds_]
  obtain ⟨hNe, hOpen⟩ := Finset.mem_erase.mp hSocket
  exact hKeeps fd' hOpen hNe

theorem removeFd_keeps (hKeeps : s.Keeps) (hTracked : fd ∈ s.clientfds_) (hFd : fd ≠ listenfd)
    (err : String) : (s.removeFd strerror listenfd a fd err).1.Keeps := by
  apply (removeFd_spec strerror a hTracked hFd err).keeps
  intro fd' hOpen hNe
  exact OrdSet.mem_erase.mpr ⟨hNe, hKeeps fd' hOpen⟩

theorem workFd_keeps (hKeeps : s.Keeps) (hTracked : fd ∈ s.clientfds_) (hFd : fd ≠ listenfd) :
    (s.workFd strerror listenfd a fd).Keeps := by
  rw [Server.workFd]
  split
  · exact removeFd_keeps (s := { s with trace := s.trace ++ [.handleFd fd] }) strerror a hKeeps
      hTracked hFd _
  · exact hKeeps

theorem chkRunErr_keeps (hKeeps : s.Keeps) (err : String) : (s.chkRunErr err).Keeps := by
  rw [Server.chkRunErr]
  split
  · exact hKeeps
  · exact hKeeps

theorem addFd_listen_keeps (hKeeps : s.Keeps) (err : String) :
    (s.addFd strerror listenfd a listenfd err).1.Keeps := by
  rw [Server.addFd]
  split
  · exact hKeeps
  · rw [if_neg (fun hFalse => hFalse rfl)]
    exact hKeeps

/-- A new socket is kept exactly if it is registered. -/
theorem addFd_accepted_keeps (hKeeps : s.Keeps) (hNew : fd ∉ s.clientfds_) (hFd : fd ≠ listenfd)
    (err : String) :
    (Server.addFd strerror listenfd { s with sockets := insert fd s.sockets } a fd err).1.Keeps ↔
      a.epoll_ctl.val ≠ -1 := by
  rw [Server.addFd]
  by_cases hFailed : a.epoll_ctl.val = -1
  · rw [if_pos hFailed]
    constructor
    · intro hFalse
      exact absurd (hFalse fd (Finset.mem_insert_self fd s.sockets)) hNew
    · intro hFalse
      exact absurd hFailed hFalse
  · rw [if_neg hFailed]
    dsimp only
    rw [if_pos hFd]
    refine iff_of_true ?_ hFailed
    intro fd' hSocket
    apply OrdSet.mem_insert.mpr
    exact (Finset.mem_insert.mp hSocket).imp_right (hKeeps fd')

/-! ## Each step -/

theorem stepStart_keeps (hKeeps : s.Keeps) :
    (s.stepStart strerror listenfd a).svr.Keeps := by
  rw [Server.stepStart]
  split
  · exact hKeeps
  · apply chkRunErr_keeps
    apply addFd_listen_keeps
    apply chkRunErr_keeps
    exact hKeeps

theorem stepHead_keeps (hKeeps : s.Keeps) : (s.stepHead a).svr.Keeps := by
  rw [Server.stepHead]
  split
  · exact hKeeps
  · exact hKeeps

theorem stepWaiting_keeps (hKeeps : s.Keeps) : (s.stepWaiting strerror a).svr.Keeps := by
  rw [Server.stepWaiting]
  split
  · exact hKeeps
  · split
    · exact hKeeps
    · exact chkRunErr_keeps hKeeps _
  · exact hKeeps

theorem stepEvent_keeps {e : EpollEvent} {rest : List EpollEvent} (hKeeps : s.Keeps)
    (hDue : Due listenfd (e :: rest) s) :
    (s.stepEvent strerror listenfd a e rest).svr.Keeps := by
  have hTracked : e.fd ≠ listenfd → e.fd ∈ s.clientfds_ :=
    (hDue.tracked e List.mem_cons_self).resolve_left
  obtain ⟨pc, svr, hStep, -, hSvr⟩ := stepEvent_cases strerror a s listenfd e rest
  rw [hStep]
  rcases hSvr with rfl | ⟨hFd, rfl | rfl⟩
  · exact hKeeps
  · exact removeFd_keeps strerror a hKeeps (hTracked hFd) hFd ""
  · exact workFd_keeps strerror a hKeeps (hTracked hFd) hFd

theorem stepAccepting_keeps (hKeeps : s.Keeps) (hTracks : Tracks listenfd s)
    (events : List EpollEvent) (err : String)
    (hHonest : 0 ≤ a.accept4.val →
      a.accept4.val ∉ s.sockets ∧ a.accept4.val ≠ listenfd ∧ a.accept4.val ≠ s.efd_) :
    (s.stepAccepting strerror listenfd a events err).svr.Keeps ↔
      (a.closing = false → 0 ≤ a.accept4.val → a.epoll_ctl.val ≠ -1) := by
  rcases stepAccepting_cases strerror a s listenfd events err with
    ⟨hNone, err', hStep⟩ | ⟨hOpen, hVal, err', hStep⟩
  · have hKept : (s.stepAccepting strerror listenfd a events err).svr.Keeps := by
      cases hStep with
      | inl hEnds =>
        rw [hEnds]
        exact chkRunErr_keeps hKeeps err'
      | inr hAgain =>
        rw [hAgain]
        exact hKeeps
    refine iff_of_true hKept ?_
    intro hOpen hVal
    cases hNone with
    | inl hClosing =>
      rw [hOpen] at hClosing
      cases hClosing
    | inr hFailed => exact absurd hFailed (Int.not_lt.mpr hVal)
  · obtain ⟨hFresh, hListen, -⟩ := hHonest hVal
    have hNew : a.accept4.val ∉ s.clientfds_ := fun hIn => hFresh (hTracks.owns.accepted _ hIn)
    have hIff := addFd_accepted_keeps strerror a hKeeps hNew hListen err
    rw [hStep]
    constructor
    · exact fun hKept _ _ => hIff.mp hKept
    · exact fun hAdded => hIff.mpr (hAdded hOpen hVal)

theorem stepLast_empty (hKeeps : s.Keeps) (hLeaves : Leaves listenfd [] s) :
    (s.stepLast strerror listenfd a).svr.sockets = ∅ := by
  have hNone : s.sockets = ∅ := by
    apply Finset.eq_empty_of_forall_notMem
    intro fd' hSocket
    exact List.not_mem_nil (hLeaves.purged fd' (hKeeps fd' hSocket) hSocket)
  obtain ⟨registered, hPurged⟩ := purgeFd_listen strerror a
    { s with clientfds_ := OrdSet.empty } listenfd
  rw [Server.stepLast]
  generalize Server.purgeFd strerror listenfd { s with clientfds_ := OrdSet.empty } a listenfd = p
    at hPurged ⊢
  obtain ⟨s', err⟩ := p
  dsimp only at hPurged
  subst hPurged
  dsimp only [Server.closeFd]
  rw [hNone, Finset.erase_empty]

end Functions

namespace ServerRun

variable {strerror : Nat → String} {listenfd : Int} {s s' : ServerRun} {a : Answers}

theorem noLeak_of_pc (hPc : s.pc ≠ .returned) (hKeeps : s.svr.Keeps) : s.NoLeak :=
  ⟨hKeeps, fun hFalse => absurd hFalse hPc⟩

theorem NoLeak.step (hInv : s.Inv listenfd) (h : s.NoLeak)
    (hStep : (serving strerror listenfd).step s a = some s') : Registers s a ↔ s'.NoLeak := by
  simp only [serving] at hStep
  split at hStep
  · rename_i hHonest
    obtain ⟨-, hAccept, -⟩ := hHonest
    obtain ⟨pc, svr⟩ := s
    have hKeeps := h.1
    cases pc with
    | start =>
      cases hStep
      refine iff_of_true trivial (noLeak_of_pc ?_ (stepStart_keeps strerror a hKeeps))
      rw [Server.stepStart]
      split <;> simp
    | head =>
      cases hStep
      refine iff_of_true trivial (noLeak_of_pc ?_ (stepHead_keeps a hKeeps))
      rw [Server.stepHead]
      split <;> simp [Server.leave]
    | waiting =>
      cases hStep
      refine iff_of_true trivial (noLeak_of_pc ?_ (stepWaiting_keeps strerror a hKeeps))
      rw [Server.stepWaiting]
      split
      · simp
      · split <;> simp [Server.leave]
      · simp
    | batch events =>
      cases events with
      | nil =>
        cases hStep
        exact iff_of_true trivial (noLeak_of_pc (by simp) hKeeps)
      | cons e rest =>
        cases hStep
        refine iff_of_true trivial (noLeak_of_pc ?_ (stepEvent_keeps strerror a hKeeps hInv.2))
        obtain ⟨pc, svr, hNext, hPc, -⟩ := stepEvent_cases strerror a svr listenfd e rest
        rw [hNext]
        rcases hPc with rfl | rfl <;> simp
    | accepting events err =>
      cases hStep
      have hIff := stepAccepting_keeps strerror a hKeeps hInv.1 events err hAccept
      constructor
      · intro hAdded
        refine noLeak_of_pc ?_ (hIff.mpr hAdded)
        rw [Server.stepAccepting]
        dsimp only
        split <;> simp
      · exact fun hKept => hIff.mp hKept.1
    | purging todo =>
      cases todo with
      | nil =>
        cases hStep
        have hEmpty := stepLast_empty strerror a hKeeps hInv
        refine iff_of_true trivial ⟨?_, fun _ => hEmpty⟩
        rw [Server.Keeps, hEmpty]
        exact fun _ hFalse => absurd hFalse (Finset.notMem_empty _)
      | cons fd todo =>
        cases hStep
        have hLeaves : Leaves listenfd (fd :: todo) svr := hInv
        have hFd := hLeaves.owns.apart fd (hLeaves.owns.accepted fd List.mem_cons_self)
        refine iff_of_true trivial (noLeak_of_pc (by simp) ?_)
        exact (purgeFd_spec strerror a hFd.1).keeps fun fd' hOpen _ => hKeeps fd' hOpen
    | returned => cases hStep
    | threw what => cases hStep
  · cases hStep

end ServerRun

/-- Exactly in the runs in which the system registers every socket that is accepted, no accepted
socket is leaked. -/
theorem server_noLeak_iff {strerror : Nat → String} {listenfd : Int} {s : ServerRun}
    {as : List Answers} (hRun : (serving strerror listenfd).run ⟨.start, Server.init⟩ as = some s) :
    (serving strerror listenfd).Throughout ServerRun.NoLeak ⟨.start, Server.init⟩ as ↔
      (serving strerror listenfd).EachStep Registers ⟨.start, Server.init⟩ as := by
  apply Lib.Machine.throughout_iff_eachStep (I := ServerRun.Inv listenfd) ?_ ?_ hRun
  · intro u a u' hInv hNoLeak hStep
    exact ⟨hNoLeak.step hInv hStep, fun _ => hInv.step hStep⟩
  · refine ⟨rfl, fun _ hFalse => absurd hFalse (Finset.notMem_empty _), ?_⟩
    intro hFalse
    cases hFalse

/-- Socket 7 is accepted, `epoll_ctl` fails with `ENOSPC`, and the manager closes. -/
def leakingAnswers : List Answers :=
  [.quiet, .quiet, { Answers.quiet with epoll_wait := .ready [⟨3, EPOLLIN⟩] }, .quiet,
    { Answers.quiet with accept4 := ⟨7, 0⟩, epoll_ctl := ⟨-1, 28⟩ }, .quiet, .quiet,
    { Answers.quiet with closing := true }, .quiet]

theorem leaking_run : ∃ s,
    (serving (fun _ => "") 3).run ⟨.start, Server.init⟩ leakingAnswers = some s ∧
      s.pc = .returned ∧ 7 ∈ s.svr.sockets := by
  have hAny : ((serving (fun _ => "") 3).run ⟨.start, Server.init⟩ leakingAnswers).any
      (fun s => decide (s.pc = .returned ∧ 7 ∈ s.svr.sockets)) = true := by decide
  obtain ⟨s, hRun, hLeaked⟩ := Option.any_eq_true _ _ |>.mp hAny
  exact ⟨s, hRun, of_decide_eq_true hLeaked⟩

theorem server_leaks : ∃ s,
    (serving (fun _ => "") 3).run ⟨.start, Server.init⟩ leakingAnswers = some s ∧
      s.pc = .returned ∧ ¬ s.NoLeak := by
  obtain ⟨s, hRun, hPc, hLeaked⟩ := leaking_run
  refine ⟨s, hRun, hPc, ?_⟩
  intro hNoLeak
  rw [hNoLeak.2 hPc] at hLeaked
  exact absurd hLeaked (Finset.notMem_empty _)

theorem server_noLeak_iff_leaking :
    ¬ (serving (fun _ => "") 3).EachStep Registers ⟨.start, Server.init⟩ leakingAnswers := by
  obtain ⟨s, hRun, hPc, hLeaked⟩ := leaking_run
  intro hEach
  have hNoLeak := ((server_noLeak_iff hRun).mpr hEach).last hRun
  rw [hNoLeak.2 hPc] at hLeaked
  exact absurd hLeaked (Finset.notMem_empty _)

end CcCommon.Conn
