import CcCommon.Conn.Manager.Invariant
import CcCommon.Conn.Server.Lifecycle

/-! # conn/conn_epoll.cc: a manager and its servers

`Manager` has of a server what the manager sees of it, and `Server` takes the
answers of the manager as they come. Here a manager runs with all its servers.
The flag that a server reads is the manager's, what a server does is what the
manager sees of it, and the numbers of descriptors are those of one process.
In `acceptClients` the test of the flag is a step, and `accept4` the next one.
-/

namespace CcCommon.Conn

open Manager (Config WorkerPc managing)
open Util (EINTR)
open Lib.Machine (run_singleton run_concat_some)

set_option autoImplicit false

structure System where
  mgr : Manager.State
  svrs : Nat → ServerRun
  /-- The server has found `closing()` false in `acceptClients`, and is to call `accept4`. -/
  tested : Nat → Bool

inductive SystemAction where
  /-- A step of `Manager`, or of a server where the manager's is all there is to see of it. -/
  | manager (a : Manager.Action)
  /-- Server `i` tests `closing()` in `acceptClients`, and is to go on. -/
  | test (i : Nat)
  | server (i : Nat) (a : Answers)

/-- The descriptor that `epoll_create1` returned to the server is open. -/
def ServerRun.Polls (s : ServerRun) (fd : Int) : Prop := s.pc ≠ .returned ∧ fd = s.svr.efd_

instance (s : ServerRun) (fd : Int) : Decidable (s.Polls fd) := inferInstanceAs (Decidable (_ ∧ _))

namespace System

/-- At `epoll_wait`, and in `serverDone`, the step of the server is one of the manager's alone. -/
def Apart (s : System) : Manager.Action → Prop
  | .server i => s.mgr.servers i = .entering ∨ (s.svrs i).pc = .returned
  | .fail _ => False
  | .timeout _ => False
  | .signal i => s.mgr.servers i ≠ .polling
  | _ => True

instance (s : System) : DecidablePred s.Apart
  | .server i =>
    inferInstanceAs (Decidable (s.mgr.servers i = .entering ∨ (s.svrs i).pc = .returned))
  | .signal i => inferInstanceAs (Decidable (s.mgr.servers i ≠ .polling))
  | .fail _ | .timeout _ => instDecidableFalse
  | .run | .event _ | .wait _ | .spurious _ | .close => instDecidableTrue

/-- The number belongs to no open descriptor of the process. -/
def Fresh (cfg : Config) (listenfd : Int) (s : System) (fd : Int) : Prop :=
  fd ≠ listenfd ∧ ∀ j < cfg.workers, fd ∉ (s.svrs j).svr.sockets ∧ ¬ (s.svrs j).Polls fd

instance (cfg : Config) (listenfd : Int) (s : System) (fd : Int) :
    Decidable (s.Fresh cfg listenfd fd) :=
  inferInstanceAs (Decidable (_ ∧ ∀ j < cfg.workers, _))

/-- What the system promises of the call that server `i` makes: a signal or an event finds it in
`epoll_wait`, and a new descriptor has a number that is not open. -/
def Promised (cfg : Config) (listenfd : Int) (s : System) (i : Nat) (a : Answers) : Prop :=
  match (s.svrs i).pc with
  | .start => 0 ≤ a.epoll_create1.val → s.Fresh cfg listenfd a.epoll_create1.val
  | .waiting => s.mgr.servers i = .polling
  | .accepting _ _ => 0 ≤ a.accept4.val → s.Fresh cfg listenfd a.accept4.val
  | _ => True

instance (cfg : Config) (listenfd : Int) (s : System) (i : Nat) (a : Answers) :
    Decidable (s.Promised cfg listenfd i a) := by
  unfold Promised
  split <;> infer_instance

/-- What server `i` has been told of `closing()` in the step. A round of `acceptClients` goes on
with what its test has found, even if `close` has stored the state since. -/
def Told (s : System) (i : Nat) (a : Answers) : Prop :=
  match (s.svrs i).pc with
  | .accepting _ _ =>
    if s.tested i then a.closing = false else a.closing = true ∧ s.mgr.closing = true
  | _ => a.closing = s.mgr.closing

instance (s : System) (i : Nat) (a : Answers) : Decidable (s.Told i a) := by
  unfold Told
  split <;> infer_instance

/-- The answers that server `i` can get. -/
def Answered (cfg : Config) (listenfd : Int) (s : System) (i : Nat) (a : Answers) : Prop :=
  s.mgr.servers i ≠ .idle ∧ s.Told i a ∧ s.Promised cfg listenfd i a

instance (cfg : Config) (listenfd : Int) (s : System) (i : Nat) (a : Answers) :
    Decidable (s.Answered cfg listenfd i a) :=
  inferInstanceAs (Decidable (_ ∧ _))

/-- What the manager sees of a step of server `i`. -/
def seen (s : System) (i : Nat) (a : Answers) : List Manager.Action :=
  match (s.svrs i).pc with
  | .head => [.server i]
  | .waiting =>
    match a.epoll_wait with
    | .timeout => [.timeout i, .server i]
    | .error errno => if errno = EINTR then [.signal i, .server i] else [.fail i]
    | .ready _ => [.server i]
  | .batch [] => [.server i]
  | _ => []

section Code

variable (cfg : Config) (strerror : Nat → String) (listenfd : Int)

def stepServer (s : System) (i : Nat) (a : Answers) : Option System :=
  if s.Answered cfg listenfd i a then
    match (managing cfg).run s.mgr (s.seen i a), (serving strerror listenfd).step (s.svrs i) a with
    | some mgr, some svr =>
      some ⟨mgr, Function.update s.svrs i svr, Function.update s.tested i false⟩
    | _, _ => none
  else none

def stepTest (s : System) (i : Nat) : Option System :=
  match (s.svrs i).pc with
  | .accepting _ _ =>
    if s.tested i = false ∧ s.mgr.closing = false then
      some { s with tested := Function.update s.tested i true }
    else none
  | _ => none

def step (s : System) : SystemAction → Option System
  | .manager a =>
    if s.Apart a then (s.mgr.step cfg a).map fun mgr => { s with mgr := mgr } else none
  | .test i => s.stepTest i
  | .server i a => s.stepServer cfg strerror listenfd i a

/-- The manager is open, and its servers have not been made. -/
def opened : System := ⟨Manager.State.opened, fun _ => ⟨.start, Server.init⟩, fun _ => false⟩

end Code

end System

def composed (cfg : Config) (strerror : Nat → String) (listenfd : Int) :
    Lib.Machine System SystemAction where
  init s := s = System.opened
  step s a := s.step cfg strerror listenfd a

/-! ## Seen from the manager, and from a server -/

section Views

variable {cfg : Config} {strerror : Nat → String} {listenfd : Int} {s s' : System} {i : Nat}
  {a : Answers}

/-- What a step of a server is made of. -/
structure ServerSteps (cfg : Config) (strerror : Nat → String) (listenfd : Int) (s : System)
    (i : Nat) (a : Answers) (s' : System) : Prop where
  answered : s.Answered cfg listenfd i a
  mgr : (managing cfg).run s.mgr (s.seen i a) = some s'.mgr
  svr : (serving strerror listenfd).step (s.svrs i) a = some (s'.svrs i)
  others : ∀ j, j ≠ i → s'.svrs j = s.svrs j
  tested : s'.tested = Function.update s.tested i false

theorem stepServer_steps (h : s.stepServer cfg strerror listenfd i a = some s') :
    ServerSteps cfg strerror listenfd s i a s' := by
  unfold System.stepServer at h
  split at h
  · rename_i hAnswered
    split at h
    · rename_i mgr svr hMgr hSvr
      cases h
      refine ⟨hAnswered, hMgr, ?_, fun j hj => Function.update_of_ne hj _ _, rfl⟩
      rw [hSvr]
      exact congrArg some (Function.update_self i svr s.svrs).symm
    · cases h
  · cases h

theorem stepManager_steps {b : Manager.Action}
    (h : (composed cfg strerror listenfd).step s (.manager b) = some s') :
    s.Apart b ∧ (managing cfg).step s.mgr b = some s'.mgr ∧ s'.svrs = s.svrs ∧
      s'.tested = s.tested := by
  simp only [composed, System.step] at h
  split at h
  · rename_i hApart
    obtain ⟨mgr, hMgr, rfl⟩ := Option.map_eq_some_iff.mp h
    exact ⟨hApart, hMgr, rfl, rfl⟩
  · cases h

/-- A test changes nothing but what the server has found. -/
theorem stepTest_steps (h : (composed cfg strerror listenfd).step s (.test i) = some s') :
    (∃ events err, (s.svrs i).pc = .accepting events err) ∧ s.mgr.closing = false ∧
      s' = { s with tested := Function.update s.tested i true } := by
  simp only [composed, System.step, System.stepTest] at h
  split at h
  · rename_i events err hPc
    split at h
    · rename_i hOpen
      cases h
      exact ⟨⟨events, err, hPc⟩, hOpen.2, rfl⟩
    · cases h
  · cases h

theorem composed_refines_managing : (composed cfg strerror listenfd).Refines (managing cfg)
    System.mgr := by
  constructor
  · rintro s rfl
    rfl
  · intro s b s' hStep
    cases b with
    | manager b => exact .single (stepManager_steps hStep).2.1
    | test i =>
      obtain ⟨-, -, rfl⟩ := stepTest_steps hStep
      exact .refl _
    | server i a => exact ⟨_, (stepServer_steps hStep).mgr⟩

theorem composed_refines_serving (i : Nat) : (composed cfg strerror listenfd).Refines
    (serving strerror listenfd) fun s => s.svrs i := by
  constructor
  · rintro s rfl
    rfl
  · intro s b s' hStep
    cases b with
    | manager b =>
      rw [(stepManager_steps hStep).2.2.1]
      exact .refl _
    | test j =>
      obtain ⟨-, -, rfl⟩ := stepTest_steps hStep
      exact .refl _
    | server j a =>
      have hSteps := stepServer_steps hStep
      by_cases hj : i = j
      · subst hj
        exact .single hSteps.svr
      · rw [hSteps.others i hj]
        exact .refl _

end Views

/-! ## What the manager sees is where the server is -/

/-- What the manager may see of a server that is at `pc`. -/
def ServerPc.Shows (pc : ServerPc) (w : WorkerPc) : Prop :=
  match pc with
  | .start => w = .idle ∨ w = .testing
  | .head => w = .testing
  | .waiting => w = .entering ∨ w = .polling
  | .batch _ => w = .working
  | .accepting _ _ => w = .working
  | .purging _ => w = .finishing
  | .returned => w = .finishing ∨ w = .notifying ∨ w = .done
  | .threw _ => w = .testing

/-- The manager sees every server where it is. -/
def System.Agrees (s : System) : Prop := ∀ i, (s.svrs i).pc.Shows (s.mgr.servers i)

section Agrees

variable {cfg : Config} {strerror : Nat → String} {listenfd : Int} {s s' : System} {i : Nat}
  {a : Answers}

/-- What a step that is one of the manager's alone does to what it sees of a server. -/
inductive SeesApart (pc : ServerPc) (w : WorkerPc) : WorkerPc → Prop where
  | same : SeesApart pc w w
  | start (hIdle : w = .idle) : SeesApart pc w .testing
  | block (hEntering : w = .entering) : SeesApart pc w .polling
  | count (hReturned : pc = .returned) (hFinishing : w = .finishing) : SeesApart pc w .notifying
  | notify (hReturned : pc = .returned) (hNotifying : w = .notifying) : SeesApart pc w .done

theorem SeesApart.shows {pc : ServerPc} {w w' : WorkerPc} (h : SeesApart pc w w')
    (hShows : pc.Shows w) : pc.Shows w' := by
  cases h with
  | same => exact hShows
  | start hIdle =>
    subst hIdle
    cases pc <;> simp [ServerPc.Shows] at hShows ⊢
  | block hEntering =>
    subst hEntering
    cases pc <;> simp [ServerPc.Shows] at hShows ⊢
  | count hReturned hFinishing =>
    subst hReturned
    exact Or.inr (Or.inl rfl)
  | notify hReturned hNotifying =>
    subst hReturned
    exact Or.inr (Or.inr rfl)

theorem seesApart_update {m : Manager.State} {w : WorkerPc}
    (h : SeesApart (s.svrs i).pc (s.mgr.servers i) w)
    (hServers : m.servers = Function.update s.mgr.servers i w) (j : Nat) :
    SeesApart (s.svrs j).pc (s.mgr.servers j) (m.servers j) := by
  rw [hServers]
  by_cases hj : j = i
  · subst hj
    rwa [Function.update_self]
  · rw [Function.update_of_ne hj]
    exact .same

theorem seesApart {m : Manager.State} {b : Manager.Action} (hCore : s.mgr.Core cfg)
    (hAgrees : s.Agrees) (hApart : s.Apart b) (hStep : (managing cfg).step s.mgr b = some m)
    (j : Nat) : SeesApart (s.svrs j).pc (s.mgr.servers j) (m.servers j) := by
  have hSame : m.servers = s.mgr.servers →
      SeesApart (s.svrs j).pc (s.mgr.servers j) (m.servers j) := by
    intro hServers
    rw [hServers]
    exact .same
  cases b with
  | run =>
    have hIdle : ∀ k, s.mgr.run = .starting k → s.mgr.servers k = .idle := by
      intro k hRun
      rw [hCore.idle, hRun]
      exact Nat.le_refl k
    cases Manager.stepRun_steps hStep with
    | startInline k hRun hk hInline => exact seesApart_update (.start (hIdle k hRun)) rfl j
    | startThread k hRun hk hInline => exact seesApart_update (.start (hIdle k hRun)) rfl j
    | finish k hRun hk => exact .same
    | push k hRun => exact .same
    | inlineDone k hRun hDone => exact .same
    | count k hRun => exact .same
  | server k =>
    have hShows := hAgrees k
    simp only [managing, Manager.State.step, Manager.State.stepServer] at hStep
    obtain hEntering | hReturned := hApart
    · rw [hEntering] at hStep
      cases hStep
      exact seesApart_update (.block hEntering) rfl j
    · rw [hReturned] at hShows
      obtain hFinishing | hNotifying | hDone := hShows
      · rw [hFinishing] at hStep
        cases hStep
        exact seesApart_update (.count hReturned hFinishing) rfl j
      · rw [hNotifying] at hStep
        cases hStep
        exact seesApart_update (.notify hReturned hNotifying) rfl j
      · rw [hDone] at hStep
        cases hStep
  | fail k => exact hApart.elim
  | timeout k => exact hApart.elim
  | event k =>
    cases hStep
    exact .same
  | signal k =>
    cases Manager.stepSignal_cases hStep with
    | inl hMoved => exact absurd hMoved.1 hApart
    | inr hStill => exact hSame hStill.servers
  | wait w =>
    apply hSame
    cases Manager.stepWait_steps hStep <;> rfl
  | spurious w =>
    apply hSame
    simp only [managing, Manager.State.step] at hStep
    split at hStep
    · cases hStep
      rfl
    · cases hStep
  | close => exact hSame (Manager.stepClose_still hStep).servers

/-- What a step of a server does to the place where it is, and what the manager sees of it. -/
theorem ServerSteps.shows (h : ServerSteps cfg strerror listenfd s i a s')
    (hShows : (s.svrs i).pc.Shows (s.mgr.servers i)) :
    (s'.svrs i).pc.Shows (s'.mgr.servers i) ∧
      ∀ j, j ≠ i → s'.mgr.servers j = s.mgr.servers j := by
  obtain ⟨⟨hActive, hTold, hPromised⟩, hMgr, hSvr, -, -⟩ := h
  generalize s'.svrs i = svr' at hSvr ⊢
  generalize s'.mgr = mgr' at hMgr ⊢
  simp only [serving] at hSvr
  split at hSvr
  · unfold System.seen at hMgr
    unfold System.Promised at hPromised
    unfold System.Told at hTold
    generalize s.svrs i = svr at hShows hTold hPromised hMgr hSvr
    obtain ⟨pc, svr⟩ := svr
    cases pc with
    | start =>
      cases hMgr
      cases hSvr
      refine ⟨?_, fun _ _ => rfl⟩
      have hTesting := hShows.resolve_left hActive
      rw [Server.stepStart]
      split
      · exact hTesting
      · exact hTesting
    | head =>
      have hTesting : s.mgr.servers i = .testing := hShows
      rw [run_singleton] at hMgr
      simp only [managing, Manager.State.step, Manager.State.stepServer, hTesting] at hMgr
      cases hSvr
      rw [Server.stepHead, show a.closing = s.mgr.closing from hTold]
      split at hMgr
      · rename_i hStop
        cases hMgr
        rw [if_pos hStop]
        exact ⟨Function.update_self _ _ _, fun j hj => Function.update_of_ne hj _ _⟩
      · rename_i hGo
        cases hMgr
        rw [if_neg hGo]
        exact ⟨Or.inl (Function.update_self _ _ _), fun j hj => Function.update_of_ne hj _ _⟩
    | waiting =>
      have hPolling : s.mgr.servers i = .polling := hPromised
      cases hSvr
      have hGoOn : ∀ {u : Manager.State}, u.servers = Function.update s.mgr.servers i .working →
          (managing cfg).step u (.server i) = some mgr' →
          mgr'.servers i = .testing ∧ ∀ j, j ≠ i → mgr'.servers j = s.mgr.servers j := by
        intro u hu hStep
        simp only [managing, Manager.State.step, Manager.State.stepServer, hu,
          Function.update_self] at hStep
        cases hStep
        rw [Manager.State.setServer_servers, hu, Function.update_idem]
        exact ⟨Function.update_self _ _ _, fun j hj => Function.update_of_ne hj _ _⟩
      rw [Server.stepWaiting]
      split
      · rename_i hWait
        rw [hWait] at hMgr
        have hMgr : (managing cfg).run s.mgr ([.timeout i] ++ [.server i]) = some mgr' := hMgr
        obtain ⟨u, hu, hLast⟩ := run_concat_some hMgr
        rw [run_singleton] at hu
        simp only [managing, Manager.State.step, Manager.State.stepTimeout] at hu
        split at hu
        · cases hu
          exact hGoOn rfl hLast
        · cases hu
      · rename_i errno hWait
        rw [hWait] at hMgr
        dsimp only at hMgr
        split
        · rename_i hIntr
          rw [if_pos hIntr] at hMgr
          have hMgr : (managing cfg).run s.mgr ([.signal i] ++ [.server i]) = some mgr' := hMgr
          obtain ⟨u, hu, hLast⟩ := run_concat_some hMgr
          rw [run_singleton] at hu
          simp only [managing, Manager.State.step, Manager.State.stepSignal, hPolling, if_true] at hu
          split at hu
          · cases hu
            exact hGoOn rfl hLast
          · cases hu
        · rename_i hIntr
          rw [if_neg hIntr, run_singleton] at hMgr
          simp only [managing, Manager.State.step, Manager.State.stepFail, hPolling, if_true] at hMgr
          cases hMgr
          exact ⟨Function.update_self _ _ _, fun j hj => Function.update_of_ne hj _ _⟩
      · rename_i events hWait
        rw [hWait] at hMgr
        dsimp only at hMgr
        rw [run_singleton] at hMgr
        simp only [managing, Manager.State.step, Manager.State.stepServer, hPolling] at hMgr
        split at hMgr
        · cases hMgr
          exact ⟨Function.update_self _ _ _, fun j hj => Function.update_of_ne hj _ _⟩
        · cases hMgr
    | batch events =>
      have hWorking : s.mgr.servers i = .working := hShows
      cases events with
      | nil =>
        rw [run_singleton] at hMgr
        simp only [managing, Manager.State.step, Manager.State.stepServer, hWorking] at hMgr
        cases hMgr
        cases hSvr
        exact ⟨Function.update_self _ _ _, fun j hj => Function.update_of_ne hj _ _⟩
      | cons e rest =>
        cases hMgr
        cases hSvr
        refine ⟨?_, fun _ _ => rfl⟩
        obtain ⟨pc, svr', hStep, hPc, -⟩ := stepEvent_cases strerror a svr listenfd e rest
        rw [hStep]
        obtain rfl | rfl := hPc
        · exact hWorking
        · exact hWorking
    | accepting events err =>
      have hWorking : s.mgr.servers i = .working := hShows
      cases hMgr
      cases hSvr
      refine ⟨?_, fun _ _ => rfl⟩
      rcases stepAccepting_cases strerror a svr listenfd events err with
        ⟨-, err', hStep | hStep⟩ | ⟨-, -, err', hStep⟩
      · rw [hStep]
        exact hWorking
      · rw [hStep]
        exact hWorking
      · rw [hStep]
        exact hWorking
    | purging todo =>
      have hFinishing : s.mgr.servers i = .finishing := hShows
      cases hMgr
      refine ⟨?_, fun _ _ => rfl⟩
      cases todo with
      | nil =>
        cases hSvr
        exact Or.inl hFinishing
      | cons fd todo =>
        cases hSvr
        exact hFinishing
    | returned => cases hSvr
    | threw what => cases hSvr
  · cases hSvr

theorem System.Agrees.step {b : SystemAction} (hAgrees : s.Agrees) (hCore : s.mgr.Core cfg)
    (hStep : (composed cfg strerror listenfd).step s b = some s') : s'.Agrees := by
  intro j
  cases b with
  | manager b =>
    obtain ⟨hApart, hMgr, hSvrs, -⟩ := stepManager_steps hStep
    rw [hSvrs]
    exact (seesApart hCore hAgrees hApart hMgr j).shows (hAgrees j)
  | test i =>
    obtain ⟨-, -, rfl⟩ := stepTest_steps hStep
    exact hAgrees j
  | server i a =>
    have hSteps := stepServer_steps hStep
    obtain ⟨hHere, hOthers⟩ := hSteps.shows (hAgrees i)
    by_cases hj : j = i
    · rwa [hj]
    · rw [hSteps.others j hj, hOthers j hj]
      exact hAgrees j

theorem System.reachable_inv (h : (composed cfg strerror listenfd).Reachable s) (i : Nat) :
    (s.svrs i).Inv listenfd :=
  ServerRun.reachable_inv ((composed_refines_serving i).reachable h)

theorem System.reachable_agrees (h : (composed cfg strerror listenfd).Reachable s) : s.Agrees := by
  have hBoth : s.mgr.Core cfg ∧ s.Agrees := by
    refine h.induct (I := fun s => s.mgr.Core cfg ∧ s.Agrees) ?_ ?_
    · rintro s rfl
      exact ⟨Manager.State.Core.opened cfg, fun _ => Or.inl rfl⟩
    · rintro u b u' ⟨hCore, hAgrees⟩ hStep
      refine ⟨?_, hAgrees.step hCore hStep⟩
      obtain ⟨bs, hBs⟩ := composed_refines_managing.step u b u' hStep
      exact Lib.Machine.run_induct (fun _ _ _ hInv hNext => hInv.step hNext) hCore hBs
  exact hBoth.2

end Agrees

end CcCommon.Conn
