import CcCommon.Conn.System.Shutdown

/-! # The descriptors of one process

All servers take the numbers of their descriptors from one process, and none
of them locks anything. A connection belongs to the server that accepted it.
-/

namespace CcCommon.Conn

open Manager (Config managing)
open Lib (OrdSet)

set_option autoImplicit false

/-- A set of descriptors that a server may work on. -/
inductive Owner where
  | socket (i : Nat)
  | epoll (i : Nat)

def Owner.server : Owner → Nat
  | .socket i => i
  | .epoll i => i

namespace System

def Holds (s : System) : Owner → Int → Prop
  | .socket i, fd => fd ∈ (s.svrs i).svr.sockets
  | .epoll i, fd => (s.svrs i).Polls fd

/-- No descriptor is held twice, and the listening descriptor by nobody. -/
def Distinct (listenfd : Int) (s : System) : Prop :=
  ∀ fd, 0 ≤ fd → ∀ x, s.Holds x fd → fd ≠ listenfd ∧ ∀ y, s.Holds y fd → y = x

/-- The number is that of no open descriptor. -/
def Unused (listenfd : Int) (s : System) (fd : Int) : Prop :=
  0 ≤ fd ∧ fd ≠ listenfd ∧ ∀ x, ¬ s.Holds x fd

variable {cfg : Config} {strerror : Nat → String} {listenfd : Int} {s s' : System} {i : Nat}
  {a : Answers} {b : SystemAction}

theorem Distinct.take (h : s.Distinct listenfd) (new : Owner) (num : Int)
    (hNum : 0 ≤ num → s.Unused listenfd num)
    (hHolds : ∀ x fd, s'.Holds x fd → s.Holds x fd ∨ x = new ∧ fd = num) : s'.Distinct listenfd := by
  intro fd hFd x hx
  rcases hHolds x fd hx with hx | ⟨rfl, rfl⟩
  · obtain ⟨hListen, hOnly⟩ := h fd hFd x hx
    refine ⟨hListen, fun y hy => ?_⟩
    rcases hHolds y fd hy with hy | ⟨rfl, rfl⟩
    · exact hOnly y hy
    · exact absurd hx ((hNum hFd).2.2 x)
  · obtain ⟨-, hListen, hNone⟩ := hNum hFd
    refine ⟨hListen, fun y hy => ?_⟩
    rcases hHolds y fd hy with hy | ⟨rfl, -⟩
    · exact absurd hy (hNone y)
    · rfl

/-- The servers that are never started. -/
def Spare (cfg : Config) (s : System) : Prop :=
  ∀ j, cfg.workers ≤ j → s.svrs j = ⟨.start, Server.init⟩

theorem Spare.unused (h : s.Spare cfg) {fd : Int} (hFd : 0 ≤ fd) (hFresh : s.Fresh cfg listenfd fd) :
    s.Unused listenfd fd := by
  refine ⟨hFd, hFresh.1, ?_⟩
  have hNone : ∀ j, fd ∉ (s.svrs j).svr.sockets ∧ ¬ (s.svrs j).Polls fd := by
    intro j
    by_cases hj : j < cfg.workers
    · exact hFresh.2 j hj
    · rw [h j (Nat.not_lt.mp hj)]
      refine ⟨Finset.notMem_empty fd, ?_⟩
      rintro ⟨-, rfl⟩
      exact absurd hFd (by decide)
  intro x
  cases x with
  | socket j => exact (hNone j).1
  | epoll j => exact (hNone j).2

theorem Spare.step (h : s.Spare cfg) (hCore : s.mgr.Core cfg)
    (hStep : (composed cfg strerror listenfd).step s b = some s') : s'.Spare cfg := by
  intro j hj
  cases b with
  | manager b =>
    rw [(stepManager_steps hStep).2.2.1]
    exact h j hj
  | test i =>
    obtain ⟨-, -, rfl⟩ := stepTest_steps hStep
    exact h j hj
  | server i a =>
    have hSteps := stepServer_steps hStep
    have hi := hCore.started_pos hSteps.answered.1
    rw [hSteps.others j (by have := hCore.bounded; omega)]
    exact h j hj

end System

/-! ## What one step of a server takes and works on -/

section Server

variable {strerror : Nat → String} {listenfd : Int} {a : Answers}

/-- The step accepts a connection. -/
def ServerRun.Accepts (s : ServerRun) (a : Answers) : Prop :=
  (∃ events err, s.pc = .accepting events err) ∧ 0 ≤ a.accept4.val

/-- The descriptors that are there after a step were there before it, or one of the calls has
returned it. -/
inductive Takes (a : Answers) (s s' : ServerRun) : Prop where
  | nothing (hSockets : s'.svr.sockets ⊆ s.svr.sockets) (hPolls : ∀ fd, s'.Polls fd → s.Polls fd)
  | epoll (hPc : s.pc = .start) (hSockets : s'.svr.sockets ⊆ s.svr.sockets)
      (hEfd : s'.svr.efd_ = a.epoll_create1.val)
  | socket (hAccepts : s.Accepts a) (hSockets : s'.svr.sockets ⊆ insert a.accept4.val s.svr.sockets)
      (hPolls : ∀ fd, s'.Polls fd → s.Polls fd)

/-- What was done from `s` to `s'` was done with the descriptors in `fds`. -/
def Does (fds : Int → Prop) (s s' : Server) : Prop :=
  ∃ es, s'.trace = s.trace ++ es ∧ ∀ e ∈ es, fds e.fd

theorem Does.none {fds : Int → Prop} {s s' : Server} (h : s'.trace = s.trace) : Does fds s s' :=
  ⟨[], by rw [h, List.append_nil], by simp⟩

theorem removeFd_does {s : Server} {fd : Int} (hTracked : fd ∈ s.clientfds_) (hFd : fd ≠ listenfd)
    (err : String) : Does (· = fd) s (s.removeFd strerror listenfd a fd err).1 :=
  ⟨_, (removeFd_spec strerror a hTracked hFd err).trace, by simp [Event.fd]⟩

theorem workFd_does {s : Server} {fd : Int} (hTracked : fd ∈ s.clientfds_) (hFd : fd ≠ listenfd) :
    Does (· = fd) s (s.workFd strerror listenfd a fd) := by
  rw [Server.workFd]
  split
  · have hTrace := (removeFd_spec (s := { s with trace := s.trace ++ [.handleFd fd] }) strerror a
      hTracked hFd a.handleFd).trace
    rw [List.append_assoc] at hTrace
    exact ⟨_, hTrace, by simp [Event.fd]⟩
  · exact ⟨[.handleFd fd], rfl, by simp [Event.fd]⟩

theorem addFd_does (strerror : Nat → String) (listenfd : Int) (a : Answers) (s : Server) (fd : Int)
    (err : String) : Does (· = fd) s (s.addFd strerror listenfd a fd err).1 := by
  rw [Server.addFd]
  split
  · exact .none rfl
  · split
    · exact ⟨[.insert fd], rfl, by simp [Event.fd]⟩
    · exact .none rfl

theorem addFd_listen_trace (strerror : Nat → String) (listenfd : Int) (a : Answers) (s : Server)
    (err : String) : (s.addFd strerror listenfd a listenfd err).1.trace = s.trace := by
  rw [Server.addFd]
  split
  · rfl
  · rw [if_neg (fun hFalse => hFalse rfl)]

theorem Sheds.takes {s s' : Server} (h : Sheds s s') {pc pc' : ServerPc} (hPc : pc ≠ .returned) :
    Takes a ⟨pc, s⟩ ⟨pc', s'⟩ := by
  refine .nothing h.sockets ?_
  rintro fd ⟨-, rfl⟩
  exact ⟨hPc, h.efd_⟩

/-- The descriptors that a server can work on in a step. -/
def ServerRun.Uses (s : ServerRun) (a : Answers) (fd : Int) : Prop :=
  fd ∈ s.svr.sockets ∨ s.Polls fd ∨ s.Accepts a ∧ fd = a.accept4.val

theorem Does.imp {fds fds' : Int → Prop} {s s' : Server} (h : Does fds s s')
    (hImp : ∀ fd, fds fd → fds' fd) : Does fds' s s' := by
  obtain ⟨es, hTrace, hEs⟩ := h
  exact ⟨es, hTrace, fun e he => hImp e.fd (hEs e he)⟩

/-- What one step takes, and what it works on. -/
structure Acts (a : Answers) (s s' : ServerRun) : Prop where
  takes : Takes a s s'
  does : Does (s.Uses a) s.svr s'.svr

theorem acts_quietly {s s' : Server} (h : Sheds s s') (hTrace : s'.trace = s.trace)
    {pc pc' : ServerPc} (hPc : pc ≠ .returned) : Acts a ⟨pc, s⟩ ⟨pc', s'⟩ :=
  ⟨h.takes hPc, .none hTrace⟩

theorem stepStart_acts (s : Server) : Acts a ⟨.start, s⟩ (s.stepStart strerror listenfd a) := by
  have hSheds : Sheds { s with efd_ := a.epoll_create1.val } (s.stepStart strerror listenfd a).svr :=
    stepStart_sheds s
  refine ⟨.epoll rfl hSheds.sockets hSheds.efd_, .none ?_⟩
  rw [Server.stepStart]
  split
  · rfl
  · dsimp only
    rw [chkRunErr_trace, addFd_listen_trace, chkRunErr_trace]

theorem stepWaiting_acts (s : Server) : Acts a ⟨.waiting, s⟩ (s.stepWaiting strerror a) := by
  rw [Server.stepWaiting]
  split
  · exact acts_quietly (.refl s) rfl (by simp)
  · split
    · exact acts_quietly (.refl s) rfl (by simp)
    · exact acts_quietly (chkRunErr_sheds s _) (chkRunErr_trace _) (by simp)
  · exact acts_quietly (.refl s) rfl (by simp)

theorem stepEvent_acts {s : Server} {e : EpollEvent} {rest : List EpollEvent}
    (hTracks : Tracks listenfd s) (hDue : Due listenfd (e :: rest) s) :
    Acts a ⟨.batch (e :: rest), s⟩ (s.stepEvent strerror listenfd a e rest) := by
  obtain ⟨pc, svr, hStep, -, hSvr⟩ := stepEvent_cases strerror a s listenfd e rest
  rw [hStep]
  rcases hSvr with rfl | ⟨hFd, hSvr⟩
  · exact acts_quietly (.refl svr) rfl (by simp)
  · have hTracked := (hDue.tracked e List.mem_cons_self).resolve_left hFd
    have hUses : ∀ fd, fd = e.fd → ServerRun.Uses ⟨.batch (e :: rest), s⟩ a fd := by
      rintro _ rfl
      exact Or.inl (hTracks.owns.accepted e.fd hTracked)
    obtain rfl | rfl := hSvr
    · exact ⟨(removeFd_sheds strerror listenfd s a e.fd "").takes (by simp),
        (removeFd_does hTracked hFd "").imp hUses⟩
    · exact ⟨(workFd_sheds strerror listenfd s a e.fd).takes (by simp),
        (workFd_does hTracked hFd).imp hUses⟩

theorem stepAccepting_acts (s : Server) (events : List EpollEvent) (err : String) :
    Acts a ⟨.accepting events err, s⟩ (s.stepAccepting strerror listenfd a events err) := by
  rcases stepAccepting_cases strerror a s listenfd events err with
    ⟨-, err', hStep | hStep⟩ | ⟨-, hVal, err', hStep⟩
  · rw [hStep]
    exact acts_quietly (chkRunErr_sheds s err') (chkRunErr_trace err') (by simp)
  · rw [hStep]
    exact acts_quietly (.refl s) rfl (by simp)
  · rw [hStep]
    obtain ⟨hSockets, hEfd⟩ := addFd_holds strerror listenfd
      { s with sockets := insert a.accept4.val s.sockets } a a.accept4.val err
    have hAccepts : ServerRun.Accepts ⟨.accepting events err, s⟩ a := ⟨⟨events, err, rfl⟩, hVal⟩
    refine ⟨.socket hAccepts hSockets.subset ?_, ?_⟩
    · rintro fd ⟨-, rfl⟩
      exact ⟨by simp, hEfd⟩
    · obtain ⟨es, hTrace, hEs⟩ := addFd_does strerror listenfd a
        { s with sockets := insert a.accept4.val s.sockets } a.accept4.val err
      exact ⟨es, hTrace, fun e he => Or.inr (Or.inr ⟨hAccepts, hEs e he⟩)⟩

theorem stepPurging_acts {s : Server} {fd : Int} {todo : List Int}
    (hLeaves : Leaves listenfd (fd :: todo) s) :
    Acts a ⟨.purging (fd :: todo), s⟩ ⟨.purging todo, (s.purgeFd strerror listenfd a fd).1⟩ := by
  have hSocket := hLeaves.owns.accepted fd List.mem_cons_self
  have hPurged := purgeFd_spec (s := s) strerror a (hLeaves.owns.apart fd hSocket).1
  refine ⟨(purgeFd_sheds strerror listenfd s a fd).takes (by simp), ⟨_, hPurged.trace, ?_⟩⟩
  intro e he
  left
  have hFd : e.fd = fd := by
    simp only [List.mem_cons, List.not_mem_nil, or_false] at he
    obtain rfl | rfl := he
    · rfl
    · rfl
  rwa [hFd]

theorem stepLast_acts (s : Server) : Acts a ⟨.purging [], s⟩ (s.stepLast strerror listenfd a) := by
  obtain ⟨registered, hPurged⟩ := purgeFd_listen strerror a
    { s with clientfds_ := OrdSet.empty } listenfd
  rw [Server.stepLast]
  generalize Server.purgeFd strerror listenfd { s with clientfds_ := OrdSet.empty } a listenfd = p
    at hPurged ⊢
  obtain ⟨s', err⟩ := p
  dsimp only at hPurged
  subst hPurged
  refine ⟨.nothing (Finset.erase_subset _ _) ?_, ⟨[.close s.efd_], rfl, ?_⟩⟩
  · rintro fd ⟨hFalse, -⟩
    exact absurd rfl hFalse
  · intro e he
    rw [List.mem_singleton.mp he]
    exact Or.inr (Or.inl ⟨by simp, rfl⟩)

theorem ServerRun.Inv.acts {s s' : ServerRun} (h : s.Inv listenfd)
    (hStep : (serving strerror listenfd).step s a = some s') : Acts a s s' := by
  simp only [serving] at hStep
  split at hStep
  · obtain ⟨pc, svr⟩ := s
    cases pc with
    | start =>
      cases hStep
      exact stepStart_acts svr
    | head =>
      cases hStep
      rw [Server.stepHead]
      split
      · exact acts_quietly (.refl svr) rfl (by simp)
      · exact acts_quietly (.refl svr) rfl (by simp)
    | waiting =>
      cases hStep
      exact stepWaiting_acts svr
    | batch events =>
      cases events with
      | nil =>
        cases hStep
        exact acts_quietly (.refl svr) rfl (by simp)
      | cons e rest =>
        cases hStep
        exact stepEvent_acts h.1 h.2
    | accepting events err =>
      cases hStep
      exact stepAccepting_acts svr events err
    | purging todo =>
      cases todo with
      | nil =>
        cases hStep
        exact stepLast_acts svr
      | cons fd todo =>
        cases hStep
        exact stepPurging_acts h
    | returned => cases hStep
    | threw what => cases hStep
  · cases hStep

end Server

/-! ## In every run of the system -/

theorem ServerSteps.accepts {cfg : Config} {strerror : Nat → String} {listenfd : Int} {s s' : System}
    {i : Nat} {a : Answers} (hSteps : ServerSteps cfg strerror listenfd s i a s')
    (hSpare : s.Spare cfg) (hAccepts : (s.svrs i).Accepts a) :
    s.Unused listenfd a.accept4.val := by
  obtain ⟨⟨events, err, hPc⟩, hVal⟩ := hAccepts
  have hPromised := hSteps.answered.2.2
  rw [System.Promised, hPc] at hPromised
  exact hSpare.unused hVal (hPromised hVal)

namespace System

variable {cfg : Config} {strerror : Nat → String} {listenfd : Int} {s s' : System} {i : Nat}
  {a : Answers} {b : SystemAction}

theorem holds_of_others (hOthers : ∀ j, j ≠ i → s'.svrs j = s.svrs j) {x : Owner}
    (hx : x.server ≠ i) {fd : Int} (h : s'.Holds x fd) : s.Holds x fd := by
  cases x with
  | socket j =>
    have hSame := hOthers j hx
    rwa [Holds, hSame] at h
  | epoll j =>
    have hSame := hOthers j hx
    rwa [Holds, hSame] at h

/-- A step of a server takes at most one descriptor, and its number is unused. -/
theorem Distinct.server (h : s.Distinct listenfd) (hSpare : s.Spare cfg)
    (hSteps : ServerSteps cfg strerror listenfd s i a s') (hTakes : Takes a (s.svrs i) (s'.svrs i)) :
    s'.Distinct listenfd := by
  have hPromised := hSteps.answered.2.2
  have hHere : ∀ {x : Owner} {fd : Int}, s'.Holds x fd → s.Holds x fd ∨
      s'.Holds x fd ∧ (x = .socket i ∨ x = .epoll i) := by
    intro x fd hx
    by_cases hServer : x.server = i
    · subst hServer
      cases x with
      | socket j => exact Or.inr ⟨hx, Or.inl rfl⟩
      | epoll j => exact Or.inr ⟨hx, Or.inr rfl⟩
    · exact Or.inl (holds_of_others hSteps.others hServer hx)
  cases hTakes with
  | nothing hSockets hPolls =>
    refine h.take (.socket i) (-1) (fun hNeg => absurd hNeg (by decide)) ?_
    intro x fd hx
    rcases hHere hx with hx | ⟨hx, rfl | rfl⟩
    · exact Or.inl hx
    · exact Or.inl (hSockets hx)
    · exact Or.inl (hPolls fd hx)
  | epoll hPc hSockets hEfd =>
    rw [Promised, hPc] at hPromised
    refine h.take (.epoll i) _ (fun hNum => hSpare.unused hNum (hPromised hNum)) ?_
    intro x fd hx
    rcases hHere hx with hx | ⟨hx, rfl | rfl⟩
    · exact Or.inl hx
    · exact Or.inl (hSockets hx)
    · exact Or.inr ⟨rfl, hx.2.trans hEfd⟩
  | socket hAccepts hSockets hPolls =>
    refine h.take (.socket i) _ (fun _ => hSteps.accepts hSpare hAccepts) ?_
    intro x fd hx
    rcases hHere hx with hx | ⟨hx, rfl | rfl⟩
    · exact Or.inl hx
    · exact (Finset.mem_insert.mp (hSockets hx)).symm.imp_right fun hNew => ⟨rfl, hNew⟩
    · exact Or.inl (hPolls fd hx)

theorem Distinct.step (h : s.Distinct listenfd) (hSpare : s.Spare cfg)
    (hInv : ∀ j, (s.svrs j).Inv listenfd)
    (hStep : (composed cfg strerror listenfd).step s b = some s') : s'.Distinct listenfd := by
  cases b with
  | manager b =>
    obtain ⟨-, -, hSvrs, -⟩ := stepManager_steps hStep
    refine h.take (.socket 0) (-1) (fun hNeg => absurd hNeg (by decide)) ?_
    intro x fd hx
    left
    cases x with
    | socket j => rwa [Holds, hSvrs] at hx
    | epoll j => rwa [Holds, hSvrs] at hx
  | test i =>
    obtain ⟨-, -, rfl⟩ := stepTest_steps hStep
    exact h
  | server i a =>
    have hSteps := stepServer_steps hStep
    exact h.server hSpare hSteps ((hInv i).acts hSteps.svr).takes

theorem opened_distinct : opened.Distinct listenfd := by
  intro fd hFd x hx
  cases x with
  | socket j => exact absurd hx (Finset.notMem_empty fd)
  | epoll j =>
    have hEfd : fd = -1 := hx.2
    omega

theorem reachable_distinct (h : (composed cfg strerror listenfd).Reachable s) :
    s.Spare cfg ∧ s.Distinct listenfd := by
  have hAll : (s.mgr.Core cfg ∧ ∀ j, (s.svrs j).Inv listenfd) ∧ s.Spare cfg ∧ s.Distinct listenfd := by
    refine h.induct (I := fun s => (s.mgr.Core cfg ∧ ∀ j, (s.svrs j).Inv listenfd) ∧
      s.Spare cfg ∧ s.Distinct listenfd) ?_ ?_
    · rintro s rfl
      exact ⟨⟨Manager.State.Core.opened cfg, fun _ => rfl⟩, fun _ _ => rfl, opened_distinct⟩
    · rintro u b u' ⟨⟨hCore, hInv⟩, hSpare, hDistinct⟩ hStep
      refine ⟨⟨?_, fun j => ?_⟩, hSpare.step hCore hStep, hDistinct.step hSpare hInv hStep⟩
      · obtain ⟨bs, hBs⟩ := composed_refines_managing.step u b u' hStep
        exact Lib.Machine.run_induct (fun _ _ _ hInv hNext => hInv.step hNext) hCore hBs
      · obtain ⟨bs, hBs⟩ := (composed_refines_serving j).step u b u' hStep
        exact Lib.Machine.run_induct (fun _ _ _ hInv hNext => hInv.step hNext) (hInv j) hBs
  exact hAll.2

end System

/-- In every run of the manager and all its servers, no descriptor is held by two servers, and what
a server does in a step (insert, handle, unregister, close) it does with descriptors that no other
server holds and that are not the listening one. -/
theorem system_pinned {cfg : Config} {strerror : Nat → String} {listenfd : Int} {s : System}
    (h : (composed cfg strerror listenfd).Reachable s) :
    s.Distinct listenfd ∧
    ∀ i a s', (composed cfg strerror listenfd).step s (.server i a) = some s' →
      ∃ es, (s'.svrs i).svr.trace = (s.svrs i).svr.trace ++ es ∧
        ∀ e ∈ es, 0 ≤ e.fd → e.fd ≠ listenfd ∧ ∀ x, s.Holds x e.fd → x.server = i := by
  obtain ⟨hSpare, hDistinct⟩ := System.reachable_distinct h
  refine ⟨hDistinct, fun i a s' hStep => ?_⟩
  have hSteps := stepServer_steps hStep
  obtain ⟨es, hTrace, hEs⟩ := ((System.reachable_inv h i).acts hSteps.svr).does
  refine ⟨es, hTrace, fun e he hNonneg => ?_⟩
  rcases hEs e he with hSocket | hPolls | ⟨hAccepts, hNew⟩
  · obtain ⟨hListen, hOnly⟩ := hDistinct e.fd hNonneg (.socket i) hSocket
    exact ⟨hListen, fun x hx => congrArg Owner.server (hOnly x hx)⟩
  · obtain ⟨hListen, hOnly⟩ := hDistinct e.fd hNonneg (.epoll i) hPolls
    exact ⟨hListen, fun x hx => congrArg Owner.server (hOnly x hx)⟩
  · obtain ⟨-, hListen, hNone⟩ := hSteps.accepts hSpare hAccepts
    rw [hNew]
    exact ⟨hListen, fun x hx => absurd hx (hNone x)⟩

/-- Of two servers, the first accepts a connection, and the second makes its epoll in between. -/
def acceptingActions : List SystemAction :=
  [.manager .run, .manager .run, .manager .run, .manager .run, .server 0 .quiet, .server 0 .quiet,
    .manager (.server 0), .manager (.event 0),
    .server 0 { Answers.quiet with epoll_wait := .ready [⟨3, EPOLLIN⟩] }, .server 0 .quiet,
    .test 0, .server 1 { Answers.quiet with epoll_create1 := ⟨5, 0⟩ },
    .server 0 { Answers.quiet with accept4 := ⟨7, 0⟩ }]

theorem system_pinned_accepting : ∃ s,
    (composed ⟨2, -1, false⟩ (fun _ => "") 3).run System.opened acceptingActions = some s ∧
    s.Holds (.socket 0) 7 ∧ s.Distinct 3 := by
  have hAny : ((composed ⟨2, -1, false⟩ (fun _ => "") 3).run System.opened acceptingActions).any
      (fun s => decide (7 ∈ (s.svrs 0).svr.sockets)) = true := by decide
  obtain ⟨s, hRun, hDecided⟩ := Option.any_eq_true _ _ |>.mp hAny
  have hHolds : 7 ∈ (s.svrs 0).svr.sockets := of_decide_eq_true hDecided
  exact ⟨s, hRun, hHolds, (system_pinned ⟨_, _, rfl, hRun⟩).1⟩

end CcCommon.Conn
