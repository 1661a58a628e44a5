import CcCommon.Conn.Server
import CcCommon.Lib.Sessions

/-! # Connections and the descriptors they own

The connections that are live are those in `clientfds_`, and at exit those
still to be purged. Of each number the trace shows a series of whole
connections, and one more that has begun if it is live.
-/

namespace CcCommon.Conn

open Lib (OrdSet Session)
open Util (EINTR EAGAIN EWOULDBLOCK)

set_option autoImplicit false

/-- A connection is inserted in `clientfds_`, handled, unregistered and closed. -/
def connection (fd : Int) : Session Event where
  first := .insert fd
  during e := e = .handleFd fd
  last := [.unregisterFd fd, .close fd]

def Server.on (s : Server) (fd : Int) : List Event := s.trace.filter (·.fd = fd)

/-- What the server has done, when the connections in `live` are live. -/
structure Owns (listenfd : Int) (live : Int → Prop) (s : Server) : Prop where
  series : ∀ fd, fd ≠ s.efd_ → (connection fd).Series (live fd) (s.on fd)
  accepted : ∀ fd, live fd → fd ∈ s.sockets
  apart : ∀ fd ∈ s.sockets, fd ≠ listenfd ∧ fd ≠ s.efd_
  clean : ∀ e ∈ s.trace, e.fd ≠ listenfd ∧ (e.fd = s.efd_ → e = .close s.efd_)

/-- In the loop. -/
structure Tracks (listenfd : Int) (s : Server) : Prop where
  owns : Owns listenfd (· ∈ s.clientfds_) s
  registered : ∀ fd ∈ s.registered, fd = listenfd ∨ fd ∈ s.clientfds_
  apart : s.efd_ ≠ listenfd

/-- The rest of a batch. -/
structure Due (listenfd : Int) (events : List EpollEvent) (s : Server) : Prop where
  nodup : (events.map EpollEvent.fd).Nodup
  tracked : ∀ e ∈ events, e.fd = listenfd ∨ e.fd ∈ s.clientfds_

/-- At exit. -/
structure Leaves (listenfd : Int) (todo : List Int) (s : Server) : Prop where
  owns : Owns listenfd (· ∈ todo) s
  nodup : todo.Nodup
  kept : ∀ fd ∈ todo, fd ∈ s.clientfds_
  purged : ∀ fd ∈ s.clientfds_, fd ∈ s.sockets → fd ∈ todo
  apart : s.efd_ ≠ listenfd

def ServerRun.Inv (listenfd : Int) (s : ServerRun) : Prop :=
  match s.pc with
  | .start => s.svr = Server.init
  | .head => Tracks listenfd s.svr
  | .waiting => Tracks listenfd s.svr
  | .batch events => Tracks listenfd s.svr ∧ Due listenfd events s.svr
  | .accepting events _ => Tracks listenfd s.svr ∧ Due listenfd events s.svr
  | .purging todo => Leaves listenfd todo s.svr
  | .returned => Owns listenfd (fun _ => False) s.svr ∧ s.svr.clientfds_ = OrdSet.empty
  | .threw _ => Owns listenfd (fun _ => False) s.svr ∧ s.svr.clientfds_ = OrdSet.empty

/-! ## What a step does to the trace -/

section Trace

variable {listenfd : Int} {live live' : Int → Prop} {s s' : Server} {fd : Int} {es : List Event}

theorem Server.on_same (hTrace : s'.trace = s.trace ++ es) (hEs : ∀ e ∈ es, e.fd = fd) :
    s'.on fd = s.on fd ++ es := by
  rw [Server.on, hTrace, List.filter_append, ← Server.on]
  congr 1
  apply List.filter_eq_self.mpr
  intro e he
  exact decide_eq_true (hEs e he)

theorem Server.on_other (hTrace : s'.trace = s.trace ++ es) (hEs : ∀ e ∈ es, e.fd = fd) {fd' : Int}
    (hOther : fd' ≠ fd) : s'.on fd' = s.on fd' := by
  rw [Server.on, hTrace, List.filter_append, ← Server.on]
  have hNone : es.filter (·.fd = fd') = [] := by
    apply List.filter_eq_nil_iff.mpr
    intro e he hFd
    exact hOther ((of_decide_eq_true hFd).symm.trans (hEs e he))
  rw [hNone, List.append_nil]

theorem Owns.extend (h : Owns listenfd live s) (hEfd : s'.efd_ = s.efd_)
    (hTrace : s'.trace = s.trace ++ es) (hEs : ∀ e ∈ es, e.fd = fd)
    (hOwn : fd ≠ listenfd ∧ fd ≠ s.efd_) (hSeries : (connection fd).Series (live' fd) (s.on fd ++ es))
    (hLive : ∀ fd', fd' ≠ fd → (live' fd' ↔ live fd'))
    (hAccepted : ∀ fd', live' fd' → fd' ∈ s'.sockets)
    (hApart : ∀ fd' ∈ s'.sockets, fd' = fd ∨ fd' ∈ s.sockets) : Owns listenfd live' s' := by
  constructor
  · intro fd' hEfd'
    rw [hEfd] at hEfd'
    by_cases hFd : fd' = fd
    · rw [hFd, Server.on_same hTrace hEs]
      exact hSeries
    · rw [Server.on_other hTrace hEs hFd]
      exact (h.series fd' hEfd').iff (hLive fd' hFd)
  · exact hAccepted
  · intro fd' hSocket
    rw [hEfd]
    cases hApart fd' hSocket with
    | inl hFd => rwa [hFd]
    | inr hOld => exact h.apart fd' hOld
  · intro e he
    rw [hEfd]
    rw [hTrace] at he
    cases List.mem_append.mp he with
    | inl hOld => exact h.clean e hOld
    | inr hNew =>
      rw [hEs e hNew]
      exact ⟨hOwn.1, fun hFalse => absurd hFalse hOwn.2⟩

end Trace

/-! ## The functions of the server -/

section Functions

variable (strerror : Nat → String) {listenfd : Int} {s : Server} (a : Answers) {fd : Int}

/-- What `purgeFd` does to a connection. -/
structure Purged (fd : Int) (s s' : Server) : Prop where
  clientfds_ : s'.clientfds_ = s.clientfds_
  efd_ : s'.efd_ = s.efd_
  sockets : s'.sockets = s.sockets.erase fd
  registered : ∀ fd' ∈ s'.registered, fd' ≠ fd ∧ fd' ∈ s.registered
  trace : s'.trace = s.trace ++ [.unregisterFd fd, .close fd]

theorem purgeFd_spec (hFd : fd ≠ listenfd) : Purged fd s (s.purgeFd strerror listenfd a fd).1 := by
  rw [Server.purgeFd, if_pos hFd]
  constructor
  · dsimp only [Server.closeFd]
    split <;> rfl
  · dsimp only [Server.closeFd]
    split <;> rfl
  · dsimp only [Server.closeFd]
    split <;> rfl
  · dsimp only [Server.closeFd]
    intro fd' hMem
    obtain ⟨hNe, hMem⟩ := Finset.mem_erase.mp hMem
    refine ⟨hNe, ?_⟩
    split at hMem
    · exact hMem
    · exact Finset.mem_of_mem_erase hMem
  · dsimp only [Server.closeFd]
    split <;> simp

theorem removeFd_spec (hTracked : fd ∈ s.clientfds_) (hFd : fd ≠ listenfd) (err : String) :
    Purged fd { s with clientfds_ := s.clientfds_.erase fd }
      (s.removeFd strerror listenfd a fd err).1 := by
  rw [Server.removeFd, if_pos hTracked]
  exact purgeFd_spec strerror a hFd

theorem Owns.purge {live live' : Int → Prop} {s' : Server} (h : Owns listenfd live s)
    (hFd : live fd) (hLive : ∀ fd', live' fd' ↔ fd' ≠ fd ∧ live fd') (hEfd : s'.efd_ = s.efd_)
    (hSockets : s'.sockets = s.sockets.erase fd)
    (hTrace : s'.trace = s.trace ++ [.unregisterFd fd, .close fd]) : Owns listenfd live' s' := by
  have hOwn := h.apart fd (h.accepted fd hFd)
  apply h.extend hEfd hTrace (by simp [Event.fd]) hOwn
  · apply (h.series fd hOwn.2).finish hFd
    rw [hLive]
    exact fun hFalse => hFalse.1 rfl
  · intro fd' hOther
    rw [hLive]
    exact and_iff_right hOther
  · intro fd' hLive'
    obtain ⟨hOther, hOld⟩ := (hLive fd').mp hLive'
    rw [hSockets]
    exact Finset.mem_erase.mpr ⟨hOther, h.accepted fd' hOld⟩
  · intro fd' hSocket
    rw [hSockets] at hSocket
    exact Or.inr (Finset.mem_of_mem_erase hSocket)

theorem Tracks.chkRunErr (h : Tracks listenfd s) (err : String) :
    Tracks listenfd (s.chkRunErr err) := by
  rw [Server.chkRunErr]
  split
  · exact ⟨⟨h.owns.series, h.owns.accepted, h.owns.apart, h.owns.clean⟩, h.registered, h.apart⟩
  · exact h

theorem Tracks.apart_of (h : Tracks listenfd s) (hFd : fd ∈ s.clientfds_) : fd ≠ listenfd :=
  (h.owns.apart fd (h.owns.accepted fd hFd)).1

theorem Tracks.remove (h : Tracks listenfd s) (hFd : fd ∈ s.clientfds_) (err : String) :
    Tracks listenfd (s.removeFd strerror listenfd a fd err).1 := by
  obtain ⟨hClients, hEfd, hSockets, hRegistered, hTrace⟩ :=
    removeFd_spec strerror a hFd (h.apart_of hFd) err
  constructor
  · apply h.owns.purge hFd ?_ hEfd hSockets hTrace
    intro fd'
    rw [hClients]
    exact OrdSet.mem_erase
  · intro fd' hMem
    obtain ⟨hNe, hOld⟩ := hRegistered fd' hMem
    rw [hClients]
    exact (h.registered fd' hOld).imp_right fun hTracked => OrdSet.mem_erase.mpr ⟨hNe, hTracked⟩
  · rw [hEfd]
    exact h.apart

theorem Tracks.handle (h : Tracks listenfd s) (hFd : fd ∈ s.clientfds_) :
    Tracks listenfd { s with trace := s.trace ++ [.handleFd fd] } := by
  refine ⟨?_, h.registered, h.apart⟩
  have hOwn := h.owns.apart fd (h.owns.accepted fd hFd)
  refine h.owns.extend rfl rfl (by simp [Event.fd]) hOwn ?_ ?_ ?_ ?_
  · exact (h.owns.series fd hOwn.2).continue hFd rfl
  · exact fun fd' _ => Iff.rfl
  · exact h.owns.accepted
  · exact fun fd' => Or.inr

theorem Tracks.work (h : Tracks listenfd s) (hFd : fd ∈ s.clientfds_) :
    Tracks listenfd (s.workFd strerror listenfd a fd) := by
  rw [Server.workFd]
  split
  · exact (h.handle hFd).remove strerror a hFd _
  · exact h.handle hFd

theorem Tracks.accept (h : Tracks listenfd s) (hFresh : fd ∉ s.sockets) (hListen : fd ≠ listenfd)
    (hEfd : fd ≠ s.efd_) (err : String) : Tracks listenfd
      (Server.addFd strerror listenfd { s with sockets := insert fd s.sockets } a fd err).1 := by
  have hNew : fd ∉ s.clientfds_ := fun hTracked => hFresh (h.owns.accepted fd hTracked)
  rw [Server.addFd]
  split
  · refine ⟨⟨h.owns.series, ?_, ?_, h.owns.clean⟩, h.registered, h.apart⟩
    · exact fun fd' hFd' => Finset.mem_insert_of_mem (h.owns.accepted fd' hFd')
    · intro fd' hSocket
      cases Finset.mem_insert.mp hSocket with
      | inl hFd' =>
        rw [hFd']
        exact ⟨hListen, hEfd⟩
      | inr hOld => exact h.owns.apart fd' hOld
  · refine ⟨?_, ?_, h.apart⟩
    · refine h.owns.extend rfl rfl (by simp [Event.fd]) ⟨hListen, hEfd⟩ ?_ ?_ ?_ ?_
      · exact (h.owns.series fd hEfd).start hNew (OrdSet.mem_insert.mpr (Or.inl rfl))
      · intro fd' hOther
        rw [OrdSet.mem_insert]
        exact or_iff_right hOther
      · intro fd' hFd'
        apply Finset.mem_insert.mpr
        exact (OrdSet.mem_insert.mp hFd').imp_right (h.owns.accepted fd')
      · exact fun fd' => Finset.mem_insert.mp
    · intro fd' hMem
      cases Finset.mem_insert.mp hMem with
      | inl hFd' => exact Or.inr (OrdSet.mem_insert.mpr (Or.inl hFd'))
      | inr hOld =>
        exact (h.registered fd' hOld).imp_right fun hTracked =>
          OrdSet.mem_insert.mpr (Or.inr hTracked)

theorem Tracks.listen (h : Tracks listenfd s) (err : String) :
    Tracks listenfd (s.addFd strerror listenfd a listenfd err).1 := by
  rw [Server.addFd]
  split
  · exact h
  · rw [if_neg (fun hFalse => hFalse rfl)]
    refine ⟨⟨h.owns.series, h.owns.accepted, h.owns.apart, h.owns.clean⟩, ?_, h.apart⟩
    intro fd' hMem
    cases Finset.mem_insert.mp hMem with
    | inl hFd' => exact Or.inl hFd'
    | inr hOld => exact h.registered fd' hOld

theorem Leaves.purge {todo : List Int} (h : Leaves listenfd (fd :: todo) s) :
    Leaves listenfd todo (s.purgeFd strerror listenfd a fd).1 := by
  have hFd : fd ∈ fd :: todo := List.mem_cons_self
  obtain ⟨hNotMem, hNodup⟩ := List.nodup_cons.mp h.nodup
  have hListen := (h.owns.apart fd (h.owns.accepted fd hFd)).1
  obtain ⟨hClients, hEfd, hSockets, -, hTrace⟩ := purgeFd_spec (s := s) strerror a hListen
  constructor
  · apply h.owns.purge hFd ?_ hEfd hSockets hTrace
    intro fd'
    constructor
    · intro hTodo
      exact ⟨fun hEq => hNotMem (hEq ▸ hTodo), List.mem_cons_of_mem fd hTodo⟩
    · rintro ⟨hNe, hMem⟩
      exact List.mem_of_ne_of_mem hNe hMem
  · exact hNodup
  · intro fd' hTodo
    rw [hClients]
    exact h.kept fd' (List.mem_cons_of_mem fd hTodo)
  · intro fd' hTracked hSocket
    rw [hClients] at hTracked
    rw [hSockets] at hSocket
    obtain ⟨hNe, hOpen⟩ := Finset.mem_erase.mp hSocket
    exact List.mem_of_ne_of_mem hNe (h.purged fd' hTracked hOpen)
  · rw [hEfd]
    exact h.apart

/-- The last purge is that of the listening descriptor, which is not closed. -/
theorem purgeFd_listen (s : Server) (listenfd : Int) : ∃ registered,
    (s.purgeFd strerror listenfd a listenfd).1 = { s with registered := registered } := by
  rw [Server.purgeFd, if_neg (fun hFalse => hFalse rfl)]
  dsimp only
  split
  · exact ⟨_, rfl⟩
  · exact ⟨_, rfl⟩

theorem Leaves.last (h : Leaves listenfd [] s) :
    ServerRun.Inv listenfd (s.stepLast strerror listenfd a) := by
  rw [Server.stepLast]
  obtain ⟨registered, hPurged⟩ := purgeFd_listen strerror a
    { s with clientfds_ := OrdSet.empty } listenfd
  generalize Server.purgeFd strerror listenfd { s with clientfds_ := OrdSet.empty } a listenfd = p
    at hPurged ⊢
  obtain ⟨s', err⟩ := p
  dsimp only at hPurged
  subst hPurged
  refine ⟨⟨?_, fun fd' hFalse => hFalse.elim, ?_, ?_⟩, rfl⟩
  · intro fd' hEfd
    have hClose : ∀ e ∈ [Event.close s.efd_], e.fd = s.efd_ := by simp [Event.fd]
    rw [Server.on_other (s := s) rfl hClose hEfd]
    exact (h.owns.series fd' hEfd).iff (by simp)
  · exact fun fd' hSocket => h.owns.apart fd' (Finset.mem_of_mem_erase hSocket)
  · intro e he
    cases List.mem_append.mp he with
    | inl hOld => exact h.owns.clean e hOld
    | inr hNew =>
      rw [List.mem_singleton.mp hNew]
      exact ⟨h.apart, fun _ => rfl⟩

theorem Tracks.leave (h : Tracks listenfd s) : ServerRun.Inv listenfd s.leave := by
  refine ⟨h.owns, s.clientfds_.nodup, fun _ hFd => hFd, fun _ hFd _ => hFd, h.apart⟩

/-! ## A batch -/

variable {e : EpollEvent} {rest : List EpollEvent}

theorem Due.next (h : Due listenfd (e :: rest) s) {s' : Server}
    (hClients : ∀ fd ∈ s.clientfds_, fd ≠ e.fd → fd ∈ s'.clientfds_) : Due listenfd rest s' := by
  obtain ⟨hNotMem, hNodup⟩ := List.nodup_cons.mp h.nodup
  refine ⟨hNodup, ?_⟩
  intro e' he'
  refine (h.tracked e' (List.mem_cons_of_mem e he')).imp_right fun hTracked => ?_
  apply hClients e'.fd hTracked
  intro hEq
  exact hNotMem (hEq ▸ List.mem_map_of_mem he')

theorem removeFd_clients (hFd : fd ≠ listenfd) (err : String) : ∀ fd' ∈ s.clientfds_, fd' ≠ fd →
    fd' ∈ (s.removeFd strerror listenfd a fd err).1.clientfds_ := by
  intro fd' hIn hNe
  by_cases hTracked : fd ∈ s.clientfds_
  · rw [(removeFd_spec strerror a hTracked hFd err).clientfds_]
    exact OrdSet.mem_erase.mpr ⟨hNe, hIn⟩
  · rw [Server.removeFd, if_neg hTracked]
    exact hIn

theorem workFd_clients (hFd : fd ≠ listenfd) : ∀ fd' ∈ s.clientfds_, fd' ≠ fd →
    fd' ∈ (s.workFd strerror listenfd a fd).clientfds_ := by
  intro fd' hIn hNe
  rw [Server.workFd]
  split
  · exact removeFd_clients strerror a hFd _ fd' hIn hNe
  · exact hIn

theorem addFd_clients (err : String) :
    ∀ fd' ∈ s.clientfds_, fd' ∈ (s.addFd strerror listenfd a fd err).1.clientfds_ := by
  intro fd' hTracked
  rw [Server.addFd]
  split
  · exact hTracked
  · split
    · exact OrdSet.mem_insert.mpr (Or.inr hTracked)
    · exact hTracked

/-- The work on an event leaves the server alone, removes the descriptor, or has it handled. -/
theorem stepEvent_cases (s : Server) (listenfd : Int) (e : EpollEvent) (rest : List EpollEvent) :
    ∃ pc svr, s.stepEvent strerror listenfd a e rest = ⟨pc, svr⟩ ∧
    (pc = .batch rest ∨ pc = .accepting rest "") ∧
    (svr = s ∨ e.fd ≠ listenfd ∧
      (svr = (s.removeFd strerror listenfd a e.fd "").1 ∨
        svr = s.workFd strerror listenfd a e.fd)) := by
  rw [Server.stepEvent]
  dsimp only
  split
  · split
    · rename_i hFd
      exact ⟨_, _, rfl, Or.inl rfl, Or.inr ⟨hFd, Or.inl rfl⟩⟩
    · exact ⟨_, _, rfl, Or.inl rfl, Or.inl rfl⟩
  · split
    · split
      · exact ⟨_, _, rfl, Or.inr rfl, Or.inl rfl⟩
      · exact ⟨_, _, rfl, Or.inl rfl, Or.inl rfl⟩
    · rename_i hFd
      split
      · exact ⟨_, _, rfl, Or.inl rfl, Or.inr ⟨Ne.symm hFd, Or.inr rfl⟩⟩
      · exact ⟨_, _, rfl, Or.inl rfl, Or.inl rfl⟩

/-- A round of `acceptClients` adds an accepted socket, or accepts none. -/
theorem stepAccepting_cases (s : Server) (listenfd : Int) (events : List EpollEvent) (err : String) :
    ((a.closing = true ∨ a.accept4.val < 0) ∧ ∃ err',
      s.stepAccepting strerror listenfd a events err = ⟨.batch events, s.chkRunErr err'⟩ ∨
      s.stepAccepting strerror listenfd a events err = ⟨.accepting events err', s⟩) ∨
    (a.closing = false ∧ 0 ≤ a.accept4.val ∧ ∃ err',
      s.stepAccepting strerror listenfd a events err = ⟨.accepting events err',
        (Server.addFd strerror listenfd { s with sockets := insert a.accept4.val s.sockets } a
          a.accept4.val err).1⟩) := by
  have hCases := acceptRound_cases strerror listenfd s a false err
  rw [Server.stepAccepting]
  generalize s.acceptRound strerror listenfd a false err = r at hCases ⊢
  cases hCases with
  | closing hClosing => exact Or.inl ⟨Or.inl hClosing, err, Or.inl rfl⟩
  | interrupted hOpen hNeg hIntr => exact Or.inl ⟨Or.inr hNeg, err, Or.inr rfl⟩
  | drained hOpen hDrained => exact Or.inl ⟨Or.inr hDrained.1, err, Or.inl rfl⟩
  | failed hOpen hFailed => exact Or.inl ⟨Or.inr hFailed.1, _, Or.inr rfl⟩
  | accepted hOpen hVal => exact Or.inr ⟨Bool.eq_false_iff.mpr hOpen, hVal, _, rfl⟩

/-! ## Each step -/

theorem stepStart_inv (hHonest : 0 ≤ a.epoll_create1.val → a.epoll_create1.val ≠ listenfd) :
    ServerRun.Inv listenfd (Server.init.stepStart strerror listenfd a) := by
  have hOwns : Owns listenfd (fun _ => False) { Server.init with efd_ := a.epoll_create1.val } :=
    ⟨fun fd _ => Session.Series.nil not_false, fun _ hFalse => hFalse.elim,
      fun _ hFalse => absurd hFalse (Finset.notMem_empty _), fun _ hFalse => absurd hFalse List.not_mem_nil⟩
  rw [Server.stepStart, errnoChk]
  by_cases hVal : a.epoll_create1.val ≥ 0
  · rw [if_pos hVal]
    have hTracks : Tracks listenfd { Server.init with efd_ := a.epoll_create1.val } :=
      ⟨⟨fun fd _ => Session.Series.nil OrdSet.not_mem_empty,
        fun _ hFalse => absurd hFalse OrdSet.not_mem_empty, hOwns.apart, hOwns.clean⟩,
        fun _ hFalse => absurd hFalse (Finset.notMem_empty _), hHonest hVal⟩
    exact ((hTracks.chkRunErr "").listen strerror a "").chkRunErr _
  · rw [if_neg hVal]
    exact ⟨hOwns, rfl⟩

theorem stepHead_inv (h : Tracks listenfd s) : ServerRun.Inv listenfd (s.stepHead a) := by
  rw [Server.stepHead]
  split
  · exact h.leave
  · exact h

theorem stepWaiting_inv (h : Tracks listenfd s) (hHonest : a.epoll_wait.Honest s.registered) :
    ServerRun.Inv listenfd (s.stepWaiting strerror a) := by
  rw [Server.stepWaiting]
  split
  · exact h
  · split
    · exact h
    · exact (h.chkRunErr _).leave
  · rename_i events hReady
    rw [hReady] at hHonest
    obtain ⟨-, -, hNodup, hRegistered⟩ := hHonest
    exact ⟨h, hNodup, fun e he => h.registered e.fd (hRegistered e he)⟩

theorem stepEvent_inv (h : Tracks listenfd s) (hDue : Due listenfd (e :: rest) s) :
    ServerRun.Inv listenfd (s.stepEvent strerror listenfd a e rest) := by
  have hTracked : e.fd ≠ listenfd → e.fd ∈ s.clientfds_ :=
    (hDue.tracked e List.mem_cons_self).resolve_left
  obtain ⟨pc, svr, hStep, hPc, hSvr⟩ := stepEvent_cases strerror a s listenfd e rest
  have hBoth : Tracks listenfd svr ∧ Due listenfd rest svr := by
    rcases hSvr with rfl | ⟨hFd, rfl | rfl⟩
    · exact ⟨h, hDue.next fun fd' hIn _ => hIn⟩
    · exact ⟨h.remove strerror a (hTracked hFd) "", hDue.next (removeFd_clients strerror a hFd "")⟩
    · exact ⟨h.work strerror a (hTracked hFd), hDue.next (workFd_clients strerror a hFd)⟩
  rw [hStep]
  cases hPc with
  | inl hBatch =>
    subst hBatch
    exact hBoth
  | inr hAccepting =>
    subst hAccepting
    exact hBoth

theorem chkRunErr_clients (err : String) : (s.chkRunErr err).clientfds_ = s.clientfds_ := by
  rw [Server.chkRunErr]
  split <;> rfl

theorem stepAccepting_inv {events : List EpollEvent} (h : Tracks listenfd s)
    (hDue : Due listenfd events s) (err : String)
    (hHonest : 0 ≤ a.accept4.val →
      a.accept4.val ∉ s.sockets ∧ a.accept4.val ≠ listenfd ∧ a.accept4.val ≠ s.efd_) :
    ServerRun.Inv listenfd (s.stepAccepting strerror listenfd a events err) := by
  rcases stepAccepting_cases strerror a s listenfd events err with
    ⟨-, err', hStep | hStep⟩ | ⟨-, hVal, err', hStep⟩
  · rw [hStep]
    refine ⟨h.chkRunErr err', hDue.nodup, ?_⟩
    dsimp only
    rw [chkRunErr_clients]
    exact hDue.tracked
  · rw [hStep]
    exact ⟨h, hDue⟩
  · rw [hStep]
    obtain ⟨hFresh, hListen, hEfd⟩ := hHonest hVal
    refine ⟨h.accept strerror a hFresh hListen hEfd err, hDue.nodup, ?_⟩
    intro e he
    exact (hDue.tracked e he).imp_right (addFd_clients strerror a err e.fd)

end Functions

namespace ServerRun

variable {strerror : Nat → String} {listenfd : Int} {s s' : ServerRun} {a : Answers}

theorem Inv.step (h : s.Inv listenfd) (hStep : (serving strerror listenfd).step s a = some s') :
    s'.Inv listenfd := by
  simp only [serving] at hStep
  split at hStep
  · rename_i hHonest
    obtain ⟨hCreate, hAccept, hWait⟩ := hHonest
    obtain ⟨pc, svr⟩ := s
    cases pc with
    | start =>
      obtain rfl : svr = Server.init := h
      cases hStep
      exact stepStart_inv strerror a hCreate
    | head =>
      cases hStep
      exact stepHead_inv a h
    | waiting =>
      cases hStep
      exact stepWaiting_inv strerror a h hWait
    | batch events =>
      obtain ⟨hTracks, hDue⟩ := h
      cases events with
      | nil =>
        cases hStep
        exact hTracks
      | cons e rest =>
        cases hStep
        exact stepEvent_inv strerror a hTracks hDue
    | accepting events err =>
      obtain ⟨hTracks, hDue⟩ := h
      cases hStep
      exact stepAccepting_inv strerror a hTracks hDue err hAccept
    | purging todo =>
      cases todo with
      | nil =>
        cases hStep
        exact Leaves.last strerror a h
      | cons fd todo =>
        cases hStep
        exact Leaves.purge strerror a h
    | returned => cases hStep
    | threw what => cases hStep
  · cases hStep

theorem reachable_inv (h : (serving strerror listenfd).Reachable s) : s.Inv listenfd := by
  refine h.induct ?_ (fun _ _ _ => Inv.step)
  rintro s rfl
  exact rfl

def live (s : ServerRun) (fd : Int) : Prop :=
  match s.pc with
  | .purging todo => fd ∈ todo
  | .returned => False
  | .threw _ => False
  | _ => fd ∈ s.svr.clientfds_

theorem Inv.owns (h : s.Inv listenfd) : Owns listenfd s.live s.svr := by
  obtain ⟨pc, svr⟩ := s
  cases pc with
  | start =>
    obtain rfl : svr = Server.init := h
    exact ⟨fun fd _ => Session.Series.nil OrdSet.not_mem_empty,
      fun _ hFalse => absurd hFalse OrdSet.not_mem_empty,
      fun _ hFalse => absurd hFalse (Finset.notMem_empty _),
      fun _ hFalse => absurd hFalse List.not_mem_nil⟩
  | head => exact Tracks.owns h
  | waiting => exact Tracks.owns h
  | batch events => exact h.1.owns
  | accepting events err => exact h.1.owns
  | purging todo => exact Leaves.owns h
  | returned => exact h.1
  | threw what => exact h.1

end ServerRun

end CcCommon.Conn
