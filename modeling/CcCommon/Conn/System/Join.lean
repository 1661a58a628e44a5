import CcCommon.Conn.Manager.Barrier
import CcCommon.Conn.System

/-! # What has become of the connections when wait returns

`join` waits for the thread of a server, and so for the purge of its
connections.
-/

namespace CcCommon.Conn

open Manager (Config CountsFirst managing)
open Lib (OrdSet)

set_option autoImplicit false

/-! ## Threads that have been joined -/

namespace Manager

variable {cfg : Config} {s s' : State} {i : Nat}

/-- A thread that has been joined has ended. -/
def State.JoinsDone (s : State) : Prop := ∀ t, s.joins t ≠ 0 → s.servers t = .done

theorem State.JoinsDone.mono (h : s.JoinsDone) (hJoins : s'.joins = s.joins)
    (hServers : ∀ t, s.servers t = .done → s'.servers t = .done) : s'.JoinsDone := by
  intro t ht
  rw [hJoins] at ht
  exact hServers t (h t ht)

theorem Moved.keeps_done (h : Moved s i s') (t : Nat) (hDone : s.servers t = .done) :
    s'.servers t = .done := by
  obtain ⟨pc, -, hServers, -⟩ := h.servers
  have hOther : t ≠ i := by
    rintro rfl
    exact h.active.2 hDone
  rwa [hServers, Function.update_of_ne hOther]

theorem State.JoinsDone.still (h : s.JoinsDone) (hStill : Still s s') : s'.JoinsDone :=
  h.mono hStill.joins fun t hDone => by rwa [hStill.servers]

theorem State.JoinsDone.moved (h : s.JoinsDone) (hMoved : Moved s i s') : s'.JoinsDone :=
  h.mono hMoved.joins hMoved.keeps_done

theorem State.JoinsDone.run (h : s.JoinsDone) (hCore : s.Core cfg)
    (hStep : s.stepRun cfg = some s') : s'.JoinsDone := by
  have hStart : ∀ {k r}, s.run = .starting k → State.JoinsDone
      { s.setServer k .testing with run := r } := by
    intro k r hRun
    refine h.mono rfl fun t hDone => ?_
    have hIdle : s.servers k = .idle := by
      rw [hCore.idle, hRun]
      exact Nat.le_refl k
    have hOther : t ≠ k := by
      rintro rfl
      rw [hIdle] at hDone
      cases hDone
    exact (Function.update_of_ne hOther _ _).trans hDone
  cases stepRun_steps hStep with
  | startInline k hRun hk hInline => exact hStart hRun
  | startThread k hRun hk hInline => exact hStart hRun
  | finish k hRun hk => exact h
  | push k hRun => exact h
  | inlineDone k hRun hDone => exact h
  | count k hRun => exact h

theorem State.JoinsDone.wait {w : Nat} (h : s.JoinsDone) (hStep : s.stepWait w = some s') :
    s'.JoinsDone := by
  have hAgain : ∀ {t}, s.servers t = .done →
      ∀ u, Function.update s.joins t (s.joins t + 1) u ≠ 0 → s.servers u = .done := by
    intro t hDone u hu
    by_cases hEq : u = t
    · rwa [hEq]
    · rw [Function.update_of_ne hEq] at hu
      exact h u hu
  cases stepWait_steps hStep with
  | rejoin t todo hPc hJoined => exact hAgain (h t hJoined)
  | join t todo hPc hFresh hDone => exact hAgain hDone
  | _ => exact h

theorem State.JoinsDone.step {a : Action} (h : s.JoinsDone) (hCore : s.Core cfg)
    (hStep : (managing cfg).step s a = some s') : s'.JoinsDone := by
  cases a with
  | run => exact h.run hCore hStep
  | server i => exact h.moved (stepServer_moved hStep)
  | fail i => exact h.moved (stepFail_moved hStep).2
  | timeout i => exact h.moved (stepTimeout_moved hStep).2
  | event i =>
    cases hStep
    exact h
  | signal i =>
    cases stepSignal_cases hStep with
    | inl hMoved => exact h.moved hMoved.2
    | inr hStill => exact h.still hStill
  | wait w => exact h.wait hStep
  | spurious w =>
    simp only [managing, State.step] at hStep
    split at hStep
    · cases hStep
      exact h
    · cases hStep
  | close => exact h.still (stepClose_still hStep)

theorem State.reachable_joinsDone (h : (managing cfg).Reachable s) : s.JoinsDone := by
  have hBoth : s.Core cfg ∧ s.JoinsDone := by
    refine h.induct (I := fun s => s.Core cfg ∧ s.JoinsDone) ?_ ?_
    · rintro s rfl
      exact ⟨Core.opened cfg, fun t ht => absurd rfl ht⟩
    · rintro u a u' ⟨hCore, hDone⟩ hStep
      exact ⟨hCore.step hStep, hDone.step hCore hStep⟩
  exact hBoth.2

end Manager

/-! ## Servers that have ended -/

/-- The server has returned, and each of its connections has been unregistered and closed. -/
structure ServerRun.Closed (s : ServerRun) : Prop where
  returned : s.pc = .returned
  clients : s.svr.clientfds_ = OrdSet.empty
  whole : ∀ fd, fd ≠ s.svr.efd_ → ∃ wholes : List (List Event),
    (∀ w ∈ wholes, (connection fd).Whole w) ∧ s.svr.on fd = wholes.flatten

theorem ServerRun.Inv.closed {listenfd : Int} {s : ServerRun} (h : s.Inv listenfd)
    (hReturned : s.pc = .returned) : s.Closed := by
  obtain ⟨pc, svr⟩ := s
  obtain rfl : pc = .returned := hReturned
  obtain ⟨hOwns, hClients⟩ : Owns listenfd (fun _ => False) svr ∧ svr.clientfds_ = OrdSet.empty := h
  refine ⟨rfl, hClients, fun fd hFd => ?_⟩
  obtain ⟨wholes, current, hWholes, hOn, -, hNone⟩ := hOwns.series fd hFd
  rw [hNone not_false, List.append_nil] at hOn
  exact ⟨wholes, hWholes, hOn⟩

namespace System

variable {cfg : Config} {strerror : Nat → String} {listenfd : Int} {s s' : System} {i : Nat}
  {a : Answers} {b : SystemAction}

theorem closed_of_done (h : (composed cfg strerror listenfd).Reachable s)
    (hDone : s.mgr.servers i = .done) : (s.svrs i).Closed := by
  apply (reachable_inv h i).closed
  have hShows := reachable_agrees h i
  rw [hDone] at hShows
  cases hPc : (s.svrs i).pc with
  | returned => rfl
  | _ =>
    rw [hPc] at hShows
    simp [ServerPc.Shows] at hShows

end System

/-- A thread that `wait` has joined is that of a server whose connections have all been
unregistered and closed, however `wait`, `close` and the servers were interleaved. -/
theorem system_joined {cfg : Config} {strerror : Nat → String} {listenfd : Int} {s : System}
    (h : (composed cfg strerror listenfd).Reachable s) (t : Nat) (hJoined : s.mgr.joins t ≠ 0) :
    (s.svrs t).Closed := by
  apply System.closed_of_done h
  exact Manager.State.reachable_joinsDone (composed_refines_managing.reachable h) t hJoined

/-! ## When wait is a barrier -/

/-- What the barrier needs of a step of the manager. -/
def SystemCountsFirst (cfg : Config) (s : System) : SystemAction → Prop
  | .manager b => CountsFirst cfg s.mgr b
  | .test _ | .server _ _ => True

instance (cfg : Config) (s : System) : DecidablePred (SystemCountsFirst cfg s)
  | .manager b => inferInstanceAs (Decidable (CountsFirst cfg s.mgr b))
  | .test _ | .server _ _ => instDecidableTrue

section Barrier

variable {cfg : Config} {strerror : Nat → String} {listenfd : Int} {s s' : System} {i : Nat}
  {a : Answers}

/-- What the manager sees of a server that is not in `serverDone` needs nothing. -/
theorem seen_countsFirst (hAgrees : s.Agrees) (hPromised : s.Promised cfg listenfd i a) :
    (managing cfg).EachStep (CountsFirst cfg) s.mgr (s.seen i a) := by
  have hShows := hAgrees i
  have hOne : ∀ {m : Manager.State} {b : Manager.Action}, CountsFirst cfg m b →
      (managing cfg).EachStep (CountsFirst cfg) m [b] :=
    fun hFirst => Lib.Machine.EachStep.cons_iff.mpr ⟨hFirst, fun _ _ => .nil⟩
  have hServer : ∀ {m : Manager.State}, m.servers i ≠ .finishing →
      CountsFirst cfg m (.server i) := fun hNot hFinishing => absurd hFinishing hNot
  unfold System.seen
  unfold System.Promised at hPromised
  split
  · rename_i hPc
    rw [hPc] at hShows
    have hTesting : s.mgr.servers i = .testing := hShows
    exact hOne (hServer (by simp [hTesting]))
  · rename_i hPc
    rw [hPc] at hPromised
    have hPolling : s.mgr.servers i = .polling := hPromised
    have hTwo : ∀ {b : Manager.Action}, CountsFirst cfg s.mgr b →
        (∀ u, (managing cfg).step s.mgr b = some u → u.servers i = .working) →
        (managing cfg).EachStep (CountsFirst cfg) s.mgr [b, .server i] := by
      intro b hFirst hNext
      refine Lib.Machine.EachStep.cons_iff.mpr ⟨hFirst, fun u hu => ?_⟩
      exact hOne (hServer (by simp [hNext u hu]))
    split
    · refine hTwo trivial fun u hu => ?_
      simp only [managing, Manager.State.step, Manager.State.stepTimeout] at hu
      split at hu
      · cases hu
        exact Function.update_self _ _ _
      · cases hu
    · split
      · refine hTwo trivial fun u hu => ?_
        simp only [managing, Manager.State.step, Manager.State.stepSignal, hPolling, if_true] at hu
        split at hu
        · cases hu
          exact Function.update_self _ _ _
        · cases hu
      · exact hOne trivial
    · exact hOne (hServer (by simp [hPolling]))
  · rename_i hPc
    rw [hPc] at hShows
    have hWorking : s.mgr.servers i = .working := hShows
    exact hOne (hServer (by simp [hWorking]))
  · exact .nil

theorem joins_step {b : SystemAction} (hAgrees : s.Agrees) (h : s.mgr.Joins cfg)
    (hFirst : SystemCountsFirst cfg s b) (hStep : (composed cfg strerror listenfd).step s b = some s') :
    s'.mgr.Joins cfg := by
  cases b with
  | manager b => exact h.step hFirst (stepManager_steps hStep).2.1
  | test i =>
    obtain ⟨-, -, rfl⟩ := stepTest_steps hStep
    exact h
  | server i a =>
    have hSteps := stepServer_steps hStep
    exact (seen_countsFirst hAgrees hSteps.answered.2.2).induct
      (fun u b u' hInv hCounts hNext => hInv.step hCounts hNext) h hSteps.mgr

end Barrier

/-- In every run in which each server is counted before it is counted out, and `wait` finds
`numWorkers_` 0 only when all have been counted and no thread has been joined, the return of `wait`
means that the connections of all servers have been unregistered and closed. -/
theorem system_wait_closes {cfg : Config} {strerror : Nat → String} {listenfd : Int} {s : System}
    {as : List SystemAction}
    (hRun : (composed cfg strerror listenfd).run System.opened as = some s)
    (hFirst : (composed cfg strerror listenfd).EachStep (SystemCountsFirst cfg) System.opened as)
    (w : Nat) (hReturned : s.mgr.waits w = .returned) (i : Nat) (hi : i < cfg.workers) :
    (s.svrs i).Closed := by
  have hBoth : (s.mgr.Core cfg ∧ s.Agrees) ∧ s.mgr.Joins cfg := by
    refine hFirst.induct (I := fun s => (s.mgr.Core cfg ∧ s.Agrees) ∧ s.mgr.Joins cfg) ?_ ?_ hRun
    · rintro u b u' ⟨⟨hCore, hAgrees⟩, hJoins⟩ hCounts hStep
      have hJoins' := joins_step hAgrees hJoins hCounts hStep
      exact ⟨⟨hJoins'.core, hAgrees.step hCore hStep⟩, hJoins'⟩
    · exact ⟨⟨Manager.State.Core.opened cfg, fun _ => Or.inl rfl⟩, Manager.State.Joins.opened cfg⟩
  obtain ⟨⟨hCore, -⟩, hJoins⟩ := hBoth
  have hJoining := hJoins.returned w hReturned
  apply System.closed_of_done ⟨_, as, rfl, hRun⟩
  refine (hJoining.idle_or_done hCore i).resolve_left ?_
  rw [hCore.idle, (hCore.counted_all hJoining.counted).1]
  exact Nat.not_le.mpr hi

/-- The only server is started and closed down, and its thread is joined. -/
def joiningActions : List SystemAction :=
  [.manager .run, .manager .run, .manager .run, .manager .run, .server 0 .quiet, .manager .close,
    .manager .close, .server 0 { Answers.quiet with closing := true },
    .server 0 { Answers.quiet with closing := true }, .manager (.server 0), .manager (.server 0),
    .manager (.wait 0), .manager (.wait 0), .manager (.wait 0), .manager (.wait 0),
    .manager (.wait 0)]

theorem joining_run : ∃ s,
    (composed ⟨1, -1, false⟩ (fun _ => "") 3).run System.opened joiningActions = some s ∧
    s.mgr.waits 0 = .returned ∧ s.mgr.joins 0 ≠ 0 := by
  have hAny : ((composed ⟨1, -1, false⟩ (fun _ => "") 3).run System.opened joiningActions).any
      (fun s => decide (s.mgr.waits 0 = .returned ∧ s.mgr.joins 0 ≠ 0)) = true := by decide
  obtain ⟨s, hRun, hBoth⟩ := Option.any_eq_true _ _ |>.mp hAny
  exact ⟨s, hRun, of_decide_eq_true hBoth⟩

theorem system_joined_joining : ∃ s,
    (composed ⟨1, -1, false⟩ (fun _ => "") 3).run System.opened joiningActions = some s ∧
    (s.svrs 0).Closed := by
  obtain ⟨s, hRun, -, hJoined⟩ := joining_run
  exact ⟨s, hRun, system_joined ⟨_, _, rfl, hRun⟩ 0 hJoined⟩

theorem system_wait_closes_joining : ∃ s,
    (composed ⟨1, -1, false⟩ (fun _ => "") 3).run System.opened joiningActions = some s ∧
    (s.svrs 0).Closed := by
  obtain ⟨s, hRun, hReturned, -⟩ := joining_run
  exact ⟨s, hRun, system_wait_closes hRun (by decide) 0 hReturned 0 (by decide)⟩

end CcCommon.Conn
