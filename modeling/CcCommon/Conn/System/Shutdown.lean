import CcCommon.Conn.System

/-! # Shutting down

Once `close` has stored the state, a server has no more to do than to finish
the batch it is working on and to purge its connections. If `close` comes
between its test of `closing()` and `accept4`, it may accept one more.
-/

namespace CcCommon.Conn

open Manager (Config managing)
open Lib (OrdSet)
open Lib.Machine (run_singleton run_concat_some)
open Util (EAGAIN)

set_option autoImplicit false

/-! ## What a server has to do when it is closing -/

/-- An event is at most the work of one step, and the end of a call of `acceptClients`. -/
def ServerRun.remaining (s : ServerRun) : Nat :=
  match s.pc with
  | .start => s.svr.clientfds_.toList.length + 3
  | .head => s.svr.clientfds_.toList.length + 2
  | .waiting => 2 * MAXEVENTS + s.svr.clientfds_.toList.length + 4
  | .batch events => 2 * events.length + s.svr.clientfds_.toList.length + 3
  | .accepting events _ => 2 * events.length + s.svr.clientfds_.toList.length + 4
  | .purging todo => todo.length + 1
  | .returned => 0
  | .threw _ => 0

/-- No connection has been added. -/
structure Sheds (s s' : Server) : Prop where
  clients : s'.clientfds_.toList.length ≤ s.clientfds_.toList.length
  sockets : s'.sockets ⊆ s.sockets
  efd_ : s'.efd_ = s.efd_

section Functions

variable (strerror : Nat → String) (listenfd : Int) (s : Server) (a : Answers)

theorem Sheds.refl : Sheds s s := ⟨Nat.le_refl _, Finset.Subset.refl _, rfl⟩

theorem chkRunErr_sheds (err : String) : Sheds s (s.chkRunErr err) := by
  rw [Server.chkRunErr]
  split
  · exact ⟨Nat.le_refl _, Finset.Subset.refl _, rfl⟩
  · exact .refl s

theorem purgeFd_sheds (fd : Int) : Sheds s (s.purgeFd strerror listenfd a fd).1 := by
  by_cases hFd : fd ≠ listenfd
  · have hPurged := purgeFd_spec (s := s) strerror a hFd
    refine ⟨by rw [hPurged.clientfds_], ?_, hPurged.efd_⟩
    rw [hPurged.sockets]
    exact Finset.erase_subset _ _
  · obtain ⟨registered, hSame⟩ := purgeFd_listen strerror a s listenfd
    rw [not_not.mp hFd, hSame]
    exact ⟨Nat.le_refl _, Finset.Subset.refl _, rfl⟩

theorem removeFd_sheds (fd : Int) (err : String) :
    Sheds s (s.removeFd strerror listenfd a fd err).1 := by
  rw [Server.removeFd]
  split
  · have hPurged := purgeFd_sheds strerror listenfd
      { s with clientfds_ := s.clientfds_.erase fd } a fd
    exact ⟨hPurged.clients.trans (List.length_erase_le ..), hPurged.sockets, hPurged.efd_⟩
  · exact .refl s

theorem workFd_sheds (fd : Int) : Sheds s (s.workFd strerror listenfd a fd) := by
  rw [Server.workFd]
  split
  · have hRemoved := removeFd_sheds strerror listenfd { s with trace := s.trace ++ [.handleFd fd] }
      a fd a.handleFd
    exact ⟨hRemoved.clients, hRemoved.sockets, hRemoved.efd_⟩
  · exact ⟨Nat.le_refl _, Finset.Subset.refl _, rfl⟩

theorem addFd_listen_sheds (err : String) :
    Sheds s (s.addFd strerror listenfd a listenfd err).1 := by
  rw [Server.addFd]
  split
  · exact .refl s
  · rw [if_neg (fun hFalse => hFalse rfl)]
    exact ⟨Nat.le_refl _, Finset.Subset.refl _, rfl⟩

theorem addFd_holds (fd : Int) (err : String) :
    (s.addFd strerror listenfd a fd err).1.sockets = s.sockets ∧
      (s.addFd strerror listenfd a fd err).1.efd_ = s.efd_ := by
  rw [Server.addFd]
  split
  · exact ⟨rfl, rfl⟩
  · split
    · exact ⟨rfl, rfl⟩
    · exact ⟨rfl, rfl⟩

theorem addFd_length (fd : Int) (err : String) :
    (s.addFd strerror listenfd a fd err).1.clientfds_.toList.length ≤
      s.clientfds_.toList.length + 1 := by
  rw [Server.addFd]
  split
  · exact Nat.le_succ _
  · split
    · exact OrdSet.length_insert_le fd
    · exact Nat.le_succ _

end Functions

theorem Sheds.trans {s s' s'' : Server} (h : Sheds s s') (h' : Sheds s' s'') : Sheds s s'' :=
  ⟨h'.clients.trans h.clients, h'.sockets.trans h.sockets, h'.efd_.trans h.efd_⟩

/-- A step of a server that finds the manager closing. -/
structure Winds (s s' : ServerRun) : Prop where
  less : s'.remaining + 1 ≤ s.remaining
  sockets : s'.svr.sockets ⊆ s.svr.sockets

section Steps

variable {strerror : Nat → String} {listenfd : Int} {a : Answers}

theorem stepStart_sheds (s : Server) :
    Sheds { s with efd_ := a.epoll_create1.val } (s.stepStart strerror listenfd a).svr := by
  rw [Server.stepStart]
  split
  · exact .refl _
  · rename_i err hOk
    have hAdded := (chkRunErr_sheds { s with efd_ := a.epoll_create1.val } err).trans
      (addFd_listen_sheds strerror listenfd _ a "")
    exact hAdded.trans (chkRunErr_sheds _ (Server.addFd strerror listenfd
      (Server.chkRunErr { s with efd_ := a.epoll_create1.val } err) a listenfd "").2)

theorem stepStart_winds (s : Server) : Winds ⟨.start, s⟩ (s.stepStart strerror listenfd a) := by
  have hSheds : Sheds { s with efd_ := a.epoll_create1.val } (s.stepStart strerror listenfd a).svr :=
    stepStart_sheds s
  have hClients := hSheds.clients
  refine ⟨?_, hSheds.sockets⟩
  have hPc : (s.stepStart strerror listenfd a).pc = .head ∨
      ∃ what, (s.stepStart strerror listenfd a).pc = .threw what := by
    rw [Server.stepStart]
    split
    · exact Or.inr ⟨_, rfl⟩
    · exact Or.inl rfl
  generalize s.stepStart strerror listenfd a = r at hClients hPc
  obtain ⟨pc, svr⟩ := r
  rcases hPc with rfl | ⟨what, rfl⟩
  · simp only [ServerRun.remaining]
    dsimp only at hClients
    omega
  · simp only [ServerRun.remaining]
    omega

theorem stepHead_winds (s : Server) (hClosing : a.closing = true) :
    Winds ⟨.head, s⟩ (s.stepHead a) := by
  rw [Server.stepHead, if_pos hClosing]
  exact ⟨by simp only [Server.leave, ServerRun.remaining]; omega, Finset.Subset.refl _⟩

theorem stepWaiting_winds (s : Server) (hHonest : a.epoll_wait.Honest s.registered) :
    Winds ⟨.waiting, s⟩ (s.stepWaiting strerror a) := by
  rw [Server.stepWaiting]
  split
  · exact ⟨by simp only [ServerRun.remaining]; omega, Finset.Subset.refl _⟩
  · split
    · exact ⟨by simp only [ServerRun.remaining]; omega, Finset.Subset.refl _⟩
    · rename_i errno _ _
      have hSheds := chkRunErr_sheds s (errnoStr strerror errno "ERROR: creating epoll: " "")
      have hClients := hSheds.clients
      refine ⟨?_, hSheds.sockets⟩
      simp only [Server.leave, ServerRun.remaining]
      omega
  · rename_i events hReady
    rw [hReady] at hHonest
    have hMax := hHonest.2.1
    exact ⟨by simp only [ServerRun.remaining]; omega, Finset.Subset.refl _⟩

theorem stepEvent_winds (s : Server) (e : EpollEvent) (rest : List EpollEvent) :
    Winds ⟨.batch (e :: rest), s⟩ (s.stepEvent strerror listenfd a e rest) := by
  obtain ⟨pc, svr, hStep, hPc, hSvr⟩ := stepEvent_cases strerror a s listenfd e rest
  have hSheds : Sheds s svr := by
    rcases hSvr with rfl | ⟨-, rfl | rfl⟩
    · exact .refl svr
    · exact removeFd_sheds strerror listenfd s a e.fd ""
    · exact workFd_sheds strerror listenfd s a e.fd
  have hClients := hSheds.clients
  rw [hStep]
  refine ⟨?_, hSheds.sockets⟩
  obtain rfl | rfl := hPc
  · simp only [ServerRun.remaining, List.length_cons]
    omega
  · simp only [ServerRun.remaining, List.length_cons]
    omega

theorem stepAccepting_winds (s : Server) (events : List EpollEvent) (err : String)
    (hClosing : a.closing = true) :
    Winds ⟨.accepting events err, s⟩ (s.stepAccepting strerror listenfd a events err) := by
  have hSheds := chkRunErr_sheds s err
  have hClients := hSheds.clients
  rw [Server.stepAccepting, Server.acceptRound, if_pos hClosing]
  refine ⟨?_, hSheds.sockets⟩
  simp only [if_true, ServerRun.remaining]
  omega

/-- A round that has found the manager open accepts at most one connection. -/
structure Admits (a : Answers) (s s' : ServerRun) : Prop where
  more : s'.remaining ≤ s.remaining + 1
  sockets : s'.svr.sockets ⊆ insert a.accept4.val s.svr.sockets

theorem stepAccepting_admits (s : Server) (events : List EpollEvent) (err : String) :
    Admits a ⟨.accepting events err, s⟩ (s.stepAccepting strerror listenfd a events err) := by
  rcases stepAccepting_cases strerror a s listenfd events err with
    ⟨-, err', hStep | hStep⟩ | ⟨-, -, err', hStep⟩
  · have hSheds := chkRunErr_sheds s err'
    have hClients := hSheds.clients
    rw [hStep]
    refine ⟨?_, hSheds.sockets.trans (Finset.subset_insert _ _)⟩
    simp only [ServerRun.remaining]
    omega
  · rw [hStep]
    exact ⟨Nat.le_succ _, Finset.subset_insert _ _⟩
  · have hClients := addFd_length strerror listenfd
      { s with sockets := insert a.accept4.val s.sockets } a a.accept4.val err
    obtain ⟨hSockets, -⟩ := addFd_holds strerror listenfd
      { s with sockets := insert a.accept4.val s.sockets } a a.accept4.val err
    rw [hStep]
    refine ⟨?_, hSockets.subset⟩
    simp only [ServerRun.remaining]
    dsimp only at hClients
    omega

theorem stepLast_winds (s : Server) : Winds ⟨.purging [], s⟩ (s.stepLast strerror listenfd a) := by
  have hPurged := purgeFd_sheds strerror listenfd { s with clientfds_ := OrdSet.empty } a listenfd
  exact ⟨Nat.le_refl _, (Finset.erase_subset _ _).trans hPurged.sockets⟩

/-- What one step of a server does once the manager is closing. -/
theorem serving_winds {s s' : ServerRun} (hClosing : a.closing = true)
    (hStep : (serving strerror listenfd).step s a = some s') : Winds s s' := by
  simp only [serving] at hStep
  split at hStep
  · rename_i hHonest
    obtain ⟨pc, svr⟩ := s
    cases pc with
    | start =>
      cases hStep
      exact stepStart_winds svr
    | head =>
      cases hStep
      exact stepHead_winds svr hClosing
    | waiting =>
      cases hStep
      exact stepWaiting_winds svr hHonest.2.2
    | batch events =>
      cases events with
      | nil =>
        cases hStep
        exact ⟨by simp only [ServerRun.remaining]; omega, Finset.Subset.refl _⟩
      | cons e rest =>
        cases hStep
        exact stepEvent_winds svr e rest
    | accepting events err =>
      cases hStep
      exact stepAccepting_winds svr events err hClosing
    | purging todo =>
      cases todo with
      | nil =>
        cases hStep
        exact stepLast_winds svr
      | cons fd todo =>
        cases hStep
        exact ⟨Nat.le_refl _, (purgeFd_sheds strerror listenfd svr a fd).sockets⟩
    | returned => cases hStep
    | threw what => cases hStep
  · cases hStep

theorem serving_admits {s s' : ServerRun} {events : List EpollEvent} {err : String}
    (hPc : s.pc = .accepting events err) (hStep : (serving strerror listenfd).step s a = some s') :
    Admits a s s' := by
  obtain ⟨pc, svr⟩ := s
  obtain rfl : pc = .accepting events err := hPc
  simp only [serving] at hStep
  split at hStep
  · cases hStep
    exact stepAccepting_admits svr events err
  · cases hStep

end Steps

/-! ## Bounds -/

/-- The batch is one that `epoll_wait` can return, and what is to be purged is in `clientfds_`. -/
def ServerRun.Bounded (s : ServerRun) : Prop :=
  match s.pc with
  | .batch events => events.length ≤ MAXEVENTS
  | .accepting events _ => events.length < MAXEVENTS
  | .purging todo => todo.length ≤ s.svr.clientfds_.toList.length
  | _ => True

theorem ServerRun.Bounded.remaining_le {s : ServerRun} (h : s.Bounded) :
    s.remaining ≤ 2 * MAXEVENTS + s.svr.clientfds_.toList.length + 4 := by
  obtain ⟨pc, svr⟩ := s
  cases pc with
  | batch events =>
    have hMax : events.length ≤ MAXEVENTS := h
    simp only [ServerRun.remaining]
    omega
  | accepting events err =>
    have hMax : events.length < MAXEVENTS := h
    simp only [ServerRun.remaining]
    omega
  | purging todo =>
    have hMax : todo.length ≤ svr.clientfds_.toList.length := h
    simp only [ServerRun.remaining]
    omega
  | _ =>
    simp only [ServerRun.remaining]
    omega

section Bounded

variable {strerror : Nat → String} {listenfd : Int} {s s' : ServerRun} {a : Answers}

theorem ServerRun.Bounded.step (h : s.Bounded)
    (hStep : (serving strerror listenfd).step s a = some s') : s'.Bounded := by
  simp only [serving] at hStep
  split at hStep
  · rename_i hHonest
    obtain ⟨pc, svr⟩ := s
    cases pc with
    | start =>
      cases hStep
      rw [Server.stepStart]
      split
      · trivial
      · trivial
    | head =>
      cases hStep
      rw [Server.stepHead]
      split
      · exact Nat.le_refl _
      · trivial
    | waiting =>
      cases hStep
      have hWait := hHonest.2.2
      rw [Server.stepWaiting]
      split
      · trivial
      · split
        · trivial
        · exact Nat.le_refl _
      · rename_i events hReady
        rw [hReady] at hWait
        exact hWait.2.1
    | batch events =>
      cases events with
      | nil =>
        cases hStep
        trivial
      | cons e rest =>
        cases hStep
        have hMax : rest.length + 1 ≤ MAXEVENTS := h
        obtain ⟨pc, svr', hEvent, hPc, -⟩ := stepEvent_cases strerror a svr listenfd e rest
        rw [hEvent]
        obtain rfl | rfl := hPc
        · exact Nat.le_of_succ_le hMax
        · exact hMax
    | accepting events err =>
      cases hStep
      have hMax : events.length < MAXEVENTS := h
      rcases stepAccepting_cases strerror a svr listenfd events err with
        ⟨-, err', hRound | hRound⟩ | ⟨-, -, err', hRound⟩
      · rw [hRound]
        exact hMax.le
      · rwa [hRound]
      · rwa [hRound]
    | purging todo =>
      cases todo with
      | nil =>
        cases hStep
        trivial
      | cons fd todo =>
        cases hStep
        have hMax : todo.length + 1 ≤ svr.clientfds_.toList.length := h
        have hSame : (svr.purgeFd strerror listenfd a fd).1.clientfds_ = svr.clientfds_ := by
          by_cases hFd : fd ≠ listenfd
          · exact (purgeFd_spec strerror a hFd).clientfds_
          · obtain ⟨registered, hListen⟩ := purgeFd_listen strerror a svr listenfd
            rw [not_not.mp hFd, hListen]
        simp only [ServerRun.Bounded]
        rw [hSame]
        exact Nat.le_of_succ_le hMax
    | returned => cases hStep
    | threw what => cases hStep
  · cases hStep

theorem ServerRun.reachable_bounded (h : (serving strerror listenfd).Reachable s) : s.Bounded := by
  refine h.induct ?_ (fun _ _ _ => ServerRun.Bounded.step)
  rintro s rfl
  trivial

end Bounded

/-! ## The manager goes on closing -/

namespace Manager

variable {cfg : Config} {s s' : State} {i w : Nat}

theorem closing_of_state_ (h : s.closing = true) (hState : s'.state_ = s.state_) :
    s'.closing = true := by
  rwa [State.closing, hState]

theorem stepClose_closing (h : s.closing = true) (hStep : s.stepClose = some s') :
    s'.closing = true := by
  unfold State.stepClose at hStep
  split at hStep
  · rw [if_pos h] at hStep
    cases hStep
    exact h
  · cases hStep
    rfl
  · cases hStep
    exact h
  · cases hStep
    exact h
  · cases hStep
    exact h
  · cases hStep

theorem step_closing {a : Action} (h : s.closing = true)
    (hStep : (managing cfg).step s a = some s') : s'.closing = true := by
  cases a with
  | run =>
    apply closing_of_state_ h
    cases stepRun_steps hStep <;> rfl
  | server i => exact closing_of_state_ h (stepServer_moved hStep).state_
  | fail i => exact closing_of_state_ h (stepFail_moved hStep).2.state_
  | timeout i => exact closing_of_state_ h (stepTimeout_moved hStep).2.state_
  | event i =>
    cases hStep
    exact h
  | signal i =>
    simp only [managing, State.step, State.stepSignal] at hStep
    split at hStep
    · split at hStep
      · cases hStep
        exact h
      · cases hStep
        exact h
    · cases hStep
  | wait w =>
    apply closing_of_state_ h
    cases stepWait_steps hStep <;> rfl
  | spurious w =>
    simp only [managing, State.step] at hStep
    split at hStep
    · cases hStep
      exact h
    · cases hStep
  | close => exact stepClose_closing h hStep

theorem leads_closing (h : s.closing = true) (hLeads : (managing cfg).Leads s s') :
    s'.closing = true := by
  obtain ⟨as, hAs⟩ := hLeads
  exact Lib.Machine.run_induct (I := fun u => u.closing = true) (fun _ _ _ => step_closing) h hAs

end Manager

/-! ## The system winds down -/

/-- The step is one of server `i` on its own. -/
def SystemAction.ofServer (i : Nat) : SystemAction → Bool
  | .manager _ => false
  | .test j => j = i
  | .server j _ => j = i

/-- The step is one of server `i`, which has been told that the manager is open. -/
def SystemAction.toldOpen (i : Nat) : SystemAction → Bool
  | .server j a => j = i && !a.closing
  | _ => false

namespace System

variable {cfg : Config} {strerror : Nat → String} {listenfd : Int} {s s' t : System} {i : Nat}
  {a : Answers} {b : SystemAction}

/-! ### Between the test and accept4 -/

/-- A server between its test of `closing()` and `accept4` is in `acceptClients`. -/
def Between (s : System) : Prop :=
  ∀ i, s.tested i = true → ∃ events err, (s.svrs i).pc = .accepting events err

theorem Between.step (h : s.Between)
    (hStep : (composed cfg strerror listenfd).step s b = some s') : s'.Between := by
  intro i hi
  cases b with
  | manager b =>
    obtain ⟨-, -, hSvrs, hTested⟩ := stepManager_steps hStep
    rw [hTested] at hi
    rw [hSvrs]
    exact h i hi
  | test j =>
    obtain ⟨hPc, -, rfl⟩ := stepTest_steps hStep
    by_cases hj : i = j
    · rwa [hj]
    · exact h i ((Function.update_of_ne hj true s.tested).symm.trans hi)
  | server j a =>
    have hSteps := stepServer_steps hStep
    rw [hSteps.tested] at hi
    by_cases hj : i = j
    · rw [hj, Function.update_self] at hi
      cases hi
    · rw [Function.update_of_ne hj] at hi
      rw [hSteps.others i hj]
      exact h i hi

theorem reachable_between (h : (composed cfg strerror listenfd).Reachable s) : s.Between := by
  refine h.induct ?_ (fun _ _ _ => Between.step)
  rintro s rfl i hi
  cases hi

/-- How many connections server `i` may still accept once the manager is closing. -/
def due (s : System) (i : Nat) : Nat := if s.tested i = true then 1 else 0

theorem due_of_not (h : s.tested i = false) : s.due i = 0 := by rw [due, h, if_neg (by decide)]

theorem due_of_tested (h : s.tested i = true) : s.due i = 1 := if_pos h

theorem due_congr (h : s'.tested i = s.tested i) : s'.due i = s.due i := by rw [due, due, h]

/-! ### Each step -/

/-- A step of server `i` once the manager is closing: it has found that out, or it goes on from a
test that came before. -/
theorem closing_cases (hSteps : ServerSteps cfg strerror listenfd s i a s')
    (hBetween : s.Between) (hClosing : s.mgr.closing = true) :
    (a.closing = true ∧ s.tested i = false ∧ Winds (s.svrs i) (s'.svrs i)) ∨
    (a.closing = false ∧ s.tested i = true ∧ Admits a (s.svrs i) (s'.svrs i)) := by
  have hTold := hSteps.answered.2.1
  have hSvr := hSteps.svr
  unfold Told at hTold
  by_cases hTested : s.tested i = true
  · obtain ⟨events, err, hPc⟩ := hBetween i hTested
    right
    rw [hPc] at hTold
    dsimp only at hTold
    rw [if_pos hTested] at hTold
    exact ⟨hTold, hTested, serving_admits hPc hSvr⟩
  · have hFlag : a.closing = true := by
      split at hTold
      · rw [if_neg hTested] at hTold
        exact hTold.1
      · exact hTold.trans hClosing
    exact Or.inl ⟨hFlag, Bool.eq_false_iff.mpr hTested, serving_winds hFlag hSvr⟩

/-- A manager that is closing. Server `i` has the connections it had when it began to, and of those
it was to accept then, those that it has accepted. -/
structure Closing (sockets : Finset Int) (n i : Nat) (s : System) : Prop where
  closing : s.mgr.closing = true
  between : s.Between
  sockets : ∃ new : Finset Int, new.card + s.due i ≤ n ∧ (s.svrs i).svr.sockets ⊆ sockets ∪ new

/-- What server `i` has to do, with what it may still accept. -/
def work (s : System) (i : Nat) : Nat := (s.svrs i).remaining + 2 * s.due i

/-- A step of server `i` itself. -/
theorem Closing.own {sockets : Finset Int} {n : Nat} (h : s.Closing sockets n i)
    (hSteps : ServerSteps cfg strerror listenfd s i a s') :
    (∃ new : Finset Int, new.card + s'.due i ≤ n ∧ (s'.svrs i).svr.sockets ⊆ sockets ∪ new) ∧
      s'.work i + 1 ≤ s.work i ∧ s'.due i + (if a.closing = false then 1 else 0) ≤ s.due i := by
  obtain ⟨new, hCard, hSockets⟩ := h.sockets
  have hDue : s'.due i = 0 := due_of_not (by rw [hSteps.tested, Function.update_self])
  rw [work, work, hDue]
  rcases closing_cases hSteps h.between h.closing with
    ⟨hFlag, hTested, hWinds⟩ | ⟨hFlag, hTested, hAdmits⟩
  · have hBefore := due_of_not hTested
    have hLess := hWinds.less
    rw [hBefore] at hCard ⊢
    refine ⟨⟨new, hCard, hWinds.sockets.trans hSockets⟩, hLess, ?_⟩
    rw [hFlag, if_neg (by decide)]
  · have hBefore := due_of_tested hTested
    have hMore := hAdmits.more
    have hInsert := Finset.card_insert_le a.accept4.val new
    rw [hBefore] at hCard ⊢
    refine ⟨⟨insert a.accept4.val new, by omega, ?_⟩, by omega, ?_⟩
    · rw [Finset.union_insert]
      exact hAdmits.sockets.trans (Finset.insert_subset_insert _ hSockets)
    · rw [if_pos hFlag]

/-- Once the manager is closing, a step brings the work of a server down if it is one of that
server, and what it may still accept if it has been told that the manager is open. -/
theorem Closing.step {sockets : Finset Int} {n : Nat} (h : s.Closing sockets n i)
    (hStep : (composed cfg strerror listenfd).step s b = some s') : s'.Closing sockets n i ∧
      s'.work i + (if b.ofServer i = true then 1 else 0) ≤ s.work i ∧
      s'.due i + (if b.toldOpen i = true then 1 else 0) ≤ s.due i := by
  have hLeads := composed_refines_managing.step s b s' hStep
  have hClosing := Manager.leads_closing h.closing hLeads
  have hBetween := h.between.step hStep
  obtain ⟨new, hCard, hSockets⟩ := h.sockets
  cases b with
  | manager b =>
    obtain ⟨-, -, hSvrs, hTested⟩ := stepManager_steps hStep
    have hDue : s'.due i = s.due i := due_congr (by rw [hTested])
    refine ⟨⟨hClosing, hBetween, new, by rwa [hDue], by rwa [hSvrs]⟩, ?_, ?_⟩
    · rw [work, work, hSvrs, hDue]
      exact Nat.le_refl _
    · rw [hDue]
      exact Nat.le_refl _
  | test j =>
    obtain ⟨-, hOpen, -⟩ := stepTest_steps hStep
    rw [h.closing] at hOpen
    cases hOpen
  | server j a =>
    have hSteps := stepServer_steps hStep
    by_cases hj : j = i
    · subst hj
      obtain ⟨hNew, hWork, hDue⟩ := h.own hSteps
      refine ⟨⟨hClosing, hBetween, hNew⟩, ?_, ?_⟩
      · simpa [SystemAction.ofServer] using hWork
      · simpa [SystemAction.toldOpen] using hDue
    · have hSame := hSteps.others i (Ne.symm hj)
      have hDue : s'.due i = s.due i := due_congr
        (by rw [hSteps.tested, Function.update_of_ne (Ne.symm hj)])
      refine ⟨⟨hClosing, hBetween, new, by rwa [hDue], by rwa [hSame]⟩, ?_, ?_⟩
      · rw [work, work, hSame, hDue]
        simp [SystemAction.ofServer, hj]
      · simp [SystemAction.toldOpen, hj, hDue]

/-- Answers that a server can always get. -/
def stopping (closing : Bool) : Answers :=
  { Answers.quiet with closing := closing, epoll_create1 := ⟨-1, 0⟩ }

/-- A server that has tested the flag goes on with what it has found. -/
theorem told_stopping (hBetween : s.Between) (hClosing : s.mgr.closing = true) (i : Nat) :
    s.Told i (stopping (!s.tested i)) := by
  unfold Told
  split
  · cases hTested : s.tested i with
    | false => simp [stopping, hClosing]
    | true => simp [stopping]
  · rename_i hPc
    have hTested : s.tested i = false := by
      by_contra hNot
      obtain ⟨events, err, hAccepting⟩ := hBetween i (Bool.not_eq_false _ ▸ hNot)
      exact hPc events err hAccepting
    simp [stopping, hTested, hClosing]

/-- A server that has been started can go on until it has returned, unless it is at `epoll_wait`. -/
theorem exists_step (cfg : Config) (strerror : Nat → String) (listenfd : Int)
    (hAgrees : s.Agrees) (hBetween : s.Between) (hClosing : s.mgr.closing = true)
    (hStarted : s.mgr.servers i ≠ .idle) (hReturned : (s.svrs i).pc ≠ .returned)
    (hThrew : ∀ what, (s.svrs i).pc ≠ .threw what) (hWaiting : (s.svrs i).pc ≠ .waiting) :
    ∃ t, (composed cfg strerror listenfd).step s (.server i (stopping (!s.tested i))) = some t := by
  have hTold := told_stopping hBetween hClosing i
  generalize (!s.tested i) = closing at hTold ⊢
  have hNone : ¬ (0 : Int) ≤ -1 := by decide
  have hAnswered : s.Answered cfg listenfd i (stopping closing) := by
    refine ⟨hStarted, hTold, ?_⟩
    unfold Promised
    split
    · exact fun h => absurd h hNone
    · rename_i hPc
      exact absurd hPc hWaiting
    · exact fun h => absurd h hNone
    · trivial
  have hHonest : (stopping closing).Honest listenfd (s.svrs i).svr :=
    ⟨fun h => absurd h hNone, fun h => absurd h hNone, trivial⟩
  have hSvr : ∃ svr, (serving strerror listenfd).step (s.svrs i) (stopping closing) = some svr := by
    simp only [serving, if_pos hHonest, ServerRun.next]
    split
    all_goals try exact ⟨_, rfl⟩
    · rename_i hPc
      exact absurd hPc hReturned
    · rename_i what hPc
      exact absurd hPc (hThrew what)
  have hMgr : ∃ mgr, (managing cfg).run s.mgr (s.seen i (stopping closing)) = some mgr := by
    have hShows := hAgrees i
    unfold seen
    split
    · rename_i hPc
      rw [hPc] at hShows
      have hTesting : s.mgr.servers i = .testing := hShows
      rw [run_singleton]
      simp [managing, Manager.State.step, Manager.State.stepServer, hTesting, hClosing]
    · rename_i hPc
      exact absurd hPc hWaiting
    · rename_i hPc
      rw [hPc] at hShows
      have hWorking : s.mgr.servers i = .working := hShows
      rw [run_singleton]
      simp [managing, Manager.State.step, Manager.State.stepServer, hWorking]
    · exact ⟨_, rfl⟩
  obtain ⟨svr, hSvr⟩ := hSvr
  obtain ⟨mgr, hMgr⟩ := hMgr
  refine ⟨⟨mgr, Function.update s.svrs i svr, Function.update s.tested i false⟩, ?_⟩
  simp only [composed, step, stepServer, if_pos hAnswered, hMgr, hSvr]

theorem work_le (h : (composed cfg strerror listenfd).Reachable s) (i : Nat) :
    s.work i ≤ 2 * MAXEVENTS + (s.svrs i).svr.clientfds_.toList.length + 4 := by
  have hBounded := ServerRun.reachable_bounded ((composed_refines_serving i).reachable h)
  by_cases hTested : s.tested i = true
  · obtain ⟨events, err, hPc⟩ := reachable_between h i hTested
    rw [work, due_of_tested hTested, ServerRun.remaining, hPc]
    rw [ServerRun.Bounded, hPc] at hBounded
    dsimp only at hBounded ⊢
    omega
  · rw [work, due_of_not (Bool.eq_false_iff.mpr hTested)]
    exact hBounded.remaining_le

end System

/-- Once `close` has stored the state, and whatever the system, the handlers and the other threads
do, a server takes a bounded number of steps more. It accepts at most one more connection, and none
unless it stood between its test of `closing()` and `accept4`. It can always take a step, until it
has returned or is at `epoll_wait`. -/
theorem system_shutdown {cfg : Config} {strerror : Nat → String} {listenfd : Int} {s t : System}
    {as : List SystemAction} (h : (composed cfg strerror listenfd).Reachable s)
    (hClosing : s.mgr.closing = true) (hRun : (composed cfg strerror listenfd).run s as = some t)
    (i : Nat) :
    as.countP (SystemAction.ofServer i) ≤
      2 * 1024 + (s.svrs i).svr.clientfds_.toList.length + 4 ∧
    as.countP (SystemAction.toldOpen i) ≤ s.due i ∧
    (∃ new : Finset Int, new.card ≤ s.due i ∧
      (t.svrs i).svr.sockets ⊆ (s.svrs i).svr.sockets ∪ new) ∧
    (t.mgr.servers i = .idle ∨ (t.svrs i).pc = .returned ∨ (∃ what, (t.svrs i).pc = .threw what) ∨
      (t.svrs i).pc = .waiting ∨
      ∃ a u, (composed cfg strerror listenfd).step t (.server i a) = some u) := by
  have hStart : s.Closing (s.svrs i).svr.sockets (s.due i) i :=
    ⟨hClosing, System.reachable_between h, ∅, by simp, by simp⟩
  have hSteps : as.countP (SystemAction.ofServer i) + t.work i ≤ s.work i :=
    Lib.Machine.countP_le (fun u => u.work i)
      (fun u a u' (hInv : u.Closing _ _ i) hStep => ⟨(hInv.step hStep).1, (hInv.step hStep).2.1⟩)
      hStart hRun
  have hTold : as.countP (SystemAction.toldOpen i) + t.due i ≤ s.due i :=
    Lib.Machine.countP_le (fun u => u.due i)
      (fun u a u' (hInv : u.Closing _ _ i) hStep => ⟨(hInv.step hStep).1, (hInv.step hStep).2.2⟩)
      hStart hRun
  have hEnd : t.Closing (s.svrs i).svr.sockets (s.due i) i :=
    Lib.Machine.run_induct (I := fun u => u.Closing (s.svrs i).svr.sockets (s.due i) i)
      (fun u a u' hInv hStep => (hInv.step hStep).1) hStart hRun
  have hBound := System.work_le h i
  obtain ⟨new, hCard, hSockets⟩ := hEnd.sockets
  refine ⟨?_, by omega, ⟨new, by omega, hSockets⟩, ?_⟩
  · simp only [MAXEVENTS] at hBound
    omega
  · by_contra hNot
    push Not at hNot
    obtain ⟨hStarted, hReturned, hThrew, hWaiting, hStuck⟩ := hNot
    obtain ⟨u, hu⟩ := System.exists_step cfg strerror listenfd (System.reachable_agrees (h.run hRun))
      hEnd.between hEnd.closing hStarted hReturned hThrew hWaiting
    exact hStuck _ u hu

/-- The only server has found `closing()` false in `acceptClients` when `close` stores the state. -/
def closedBetween : List SystemAction :=
  [.manager .run, .manager .run, .server 0 .quiet, .server 0 .quiet, .manager (.server 0),
    .manager (.event 0), .server 0 { Answers.quiet with epoll_wait := .ready [⟨3, EPOLLIN⟩] },
    .server 0 .quiet, .test 0, .manager .close, .manager .close]

/-- It accepts descriptor 7, and then finds out. -/
def acceptsLast : List SystemAction :=
  [.server 0 { Answers.quiet with accept4 := ⟨7, 0⟩ }, .server 0 (System.stopping true),
    .server 0 (System.stopping true), .server 0 (System.stopping true)]

theorem system_shutdown_closedBetween : ∃ s t,
    (composed ⟨1, -1, false⟩ (fun _ => "") 3).run System.opened closedBetween = some s ∧
    (composed ⟨1, -1, false⟩ (fun _ => "") 3).run s acceptsLast = some t ∧
    s.due 0 = 1 ∧ 7 ∉ (s.svrs 0).svr.sockets ∧ 7 ∈ (t.svrs 0).svr.sockets ∧
    ∃ new : Finset Int, new.card ≤ s.due 0 ∧
      (t.svrs 0).svr.sockets ⊆ (s.svrs 0).svr.sockets ∪ new := by
  have hAny : ((composed ⟨1, -1, false⟩ (fun _ => "") 3).run System.opened closedBetween).any
      (fun s => decide (s.mgr.closing = true ∧ s.due 0 = 1 ∧ 7 ∉ (s.svrs 0).svr.sockets) &&
        ((composed ⟨1, -1, false⟩ (fun _ => "") 3).run s acceptsLast).any
          fun t => decide (7 ∈ (t.svrs 0).svr.sockets)) = true := by decide
  obtain ⟨s, hRun, hBoth⟩ := Option.any_eq_true _ _ |>.mp hAny
  obtain ⟨hStart, hAccepts⟩ := Bool.and_eq_true_iff.mp hBoth
  obtain ⟨hClosing, hDue, hNot⟩ := of_decide_eq_true hStart
  obtain ⟨t, ht, hIn⟩ := Option.any_eq_true _ _ |>.mp hAccepts
  exact ⟨s, t, hRun, ht, hDue, hNot, of_decide_eq_true hIn,
    (system_shutdown ⟨_, _, rfl, hRun⟩ hClosing ht 0).2.2.1⟩

end CcCommon.Conn
