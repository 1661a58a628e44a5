import CcCommon.Conn.Manager.Invariant

/-! # The wake-up of `wait`

`serverDone` does not lock `mu_`. So the `notify_all` of the last server can
fall between the test of `numWorkers_` in `wait` and the moment at which the
call is parked, and then nobody wakes it.
-/

namespace CcCommon.Conn.Manager

open Lib.Count

set_option autoImplicit false

variable {cfg : Config} {s s' : State} {i w : Nat}

/-- No call of `wait` is parked when every server has completed `serverDone`. -/
def State.NoMissed (cfg : Config) (s : State) : Prop :=
  (∀ i < cfg.workers, s.servers i = .done) → ∀ w, s.waits w ≠ .parked

/-- `wait` is called after `run` has returned. -/
def AfterRun (s : State) : Action → Prop
  | .wait w => s.waits w = .idle → s.run = .returned
  | _ => True

instance (s : State) : DecidablePred (AfterRun s)
  | .wait w => inferInstanceAs (Decidable (s.waits w = .idle → s.run = .returned))
  | .run | .server _ | .fail _ | .timeout _ | .event _ | .signal _ | .spurious _ | .close =>
    instDecidableTrue

/-- When the last server notifies, no call of `wait` is between its test and being parked. -/
def NotifiesParked (cfg : Config) (s : State) : Action → Prop
  | .server i => s.servers i = .notifying → (∀ j < cfg.workers, j ≠ i → s.servers j = .done) →
    ∀ w, s.waits w ≠ .parking
  | _ => True

/-- Who is parked, or about to be, waits for a server that has not completed `serverDone`. -/
structure State.Awaits (cfg : Config) (s : State) : Prop where
  core : s.Core cfg
  called : ∀ w, s.waits w ≠ .idle → s.run = .returned
  awaited : ∀ w, (s.waits w = .parking ∨ s.waits w = .parked) →
    ∃ i < cfg.workers, s.servers i ≠ .done

namespace State.Awaits

theorem noMissed (h : s.Awaits cfg) : s.NoMissed cfg := by
  intro hAll w hParked
  obtain ⟨i, hi, hNot⟩ := h.awaited w (Or.inr hParked)
  exact hNot (hAll i hi)

theorem exists_running (h : s.Core cfg) (hRun : s.run = .returned) (hCount : s.numWorkers_ ≠ 0) :
    ∃ i < cfg.workers, s.servers i ≠ .done := by
  by_contra hNone
  push Not at hNone
  apply hCount
  rw [h.counts, hRun, count_eq_card]
  · rw [Finset.card_range]
    exact Int.sub_self _
  · intro i hi
    exact Or.inr (hNone i (Finset.mem_range.mp hi))

theorem still (h : s.Awaits cfg) (hStill : Still s s') : s'.Awaits cfg := by
  refine ⟨h.core.still hStill, ?_, ?_⟩
  · rw [hStill.waits, hStill.run]
    exact h.called
  · rw [hStill.waits, hStill.servers]
    exact h.awaited

theorem moved (h : s.Awaits cfg) (hMoved : Moved s i s')
    (hLast : s.servers i = .notifying → (∀ j < cfg.workers, j ≠ i → s.servers j = .done) →
      ∀ w, s.waits w ≠ .parking) : s'.Awaits cfg := by
  refine ⟨h.core.moved hMoved, ?_, ?_⟩
  · intro w hw
    rw [hMoved.run]
    apply h.called w
    cases hMoved.waits w with
    | inl hSame => rwa [← hSame]
    | inr hWoken =>
      rw [hWoken.1]
      simp
  · intro w hw
    have hOld : s.waits w = s'.waits w := by
      cases hMoved.waits w with
      | inl hSame => exact hSame.symm
      | inr hWoken =>
        rw [hWoken.2] at hw
        simp at hw
    rw [← hOld] at hw
    have hi : i < cfg.workers := (h.core.started_pos hMoved.active.1).trans_le h.core.bounded
    obtain ⟨pc, -, hServers, -⟩ := hMoved.servers
    by_cases hDone : s'.servers i = .done
    · -- who is left to be waited for, if this was not the last server
      obtain ⟨hNotifying, hWoken⟩ := hMoved.notifies hDone
      by_contra hNone
      push Not at hNone
      have hOthers : ∀ j < cfg.workers, j ≠ i → s.servers j = .done := by
        intro j hj hNe
        have hAfter := hNone j hj
        rwa [hServers, Function.update_of_ne hNe] at hAfter
      cases hw with
      | inl hParking => exact hLast hNotifying hOthers w hParking
      | inr hParked => exact hWoken w (hOld ▸ hParked)
    · exact ⟨i, hi, hDone⟩

theorem run (h : s.Awaits cfg) (hStep : s.stepRun cfg = some s') : s'.Awaits cfg := by
  have hNone : ∀ w, s.waits w = .idle := by
    intro w
    by_contra hw
    rw [stepRun, h.called w hw] at hStep
    cases hStep
  have hWaits : s'.waits = s.waits := by
    cases stepRun_steps hStep <;> rfl
  refine ⟨h.core.run hStep, ?_, ?_⟩
  · intro w hw
    rw [hWaits] at hw
    exact absurd (hNone w) hw
  · intro w hw
    rw [hWaits, hNone w] at hw
    simp at hw

/-- Call `w` has gone on, and is not about to be parked unless a server is left. -/
theorem waitOn (h : s.Awaits cfg) {pc : WaitPc} (hCore : s'.Core cfg) (hRun : s'.run = s.run)
    (hServers : s'.servers = s.servers) (hWaits : s'.waits = Function.update s.waits w pc)
    (hCalled : s.run = .returned)
    (hPc : pc = .parking ∨ pc = .parked → ∃ i < cfg.workers, s.servers i ≠ .done) :
    s'.Awaits cfg := by
  refine ⟨hCore, fun _ _ => hRun.trans hCalled, ?_⟩
  rw [hServers, hWaits]
  apply (Function.forall_update_iff s.waits fun _ pc => pc = .parking ∨ pc = .parked →
    ∃ i < cfg.workers, s.servers i ≠ .done).mpr
  exact ⟨hPc, fun w' _ hw' => h.awaited w' hw'⟩

theorem wait (h : s.Awaits cfg) (hAfter : s.waits w = .idle → s.run = .returned)
    (hStep : s.stepWait w = some s') : s'.Awaits cfg := by
  have hCore := h.core.wait hStep
  have hCalled : s.run = .returned := by
    by_cases hw : s.waits w = .idle
    · exact hAfter hw
    · exact h.called w hw
  cases stepWait_steps hStep with
  | stopped hPc => exact h.waitOn hCore rfl rfl rfl hCalled (by simp)
  | call hPc => exact h.waitOn hCore rfl rfl rfl hCalled (by simp)
  | lock hPc hFree => exact h.waitOn hCore rfl rfl rfl hCalled (by simp)
  | test hPc hCount =>
    exact h.waitOn hCore rfl rfl rfl hCalled fun _ => exists_running h.core hCalled hCount
  | park hPc => exact h.waitOn hCore rfl rfl rfl hCalled fun _ => h.awaited w (Or.inl hPc)
  | pass hPc => exact h.waitOn hCore rfl rfl rfl hCalled (by simp)
  | rejoin t todo hPc => exact h.waitOn hCore rfl rfl rfl hCalled (by simp)
  | join t todo hPc => exact h.waitOn hCore rfl rfl rfl hCalled (by simp)
  | leave hPc => exact h.waitOn hCore rfl rfl rfl hCalled (by simp)

theorem interrupted (h : s.Awaits cfg) (hMoved : s.servers i = .polling ∧ Moved s i s') :
    s'.Awaits cfg := by
  refine h.moved hMoved.2 ?_
  intro hNotifying
  rw [hMoved.1] at hNotifying
  cases hNotifying

theorem step {a : Action} (h : s.Awaits cfg) (hAfter : AfterRun s a)
    (hNotifies : NotifiesParked cfg s a) (hStep : (managing cfg).step s a = some s') :
    s'.Awaits cfg := by
  cases a with
  | run => exact h.run hStep
  | server i => exact h.moved (stepServer_moved hStep) hNotifies
  | fail i => exact h.interrupted (stepFail_moved hStep)
  | timeout i => exact h.interrupted (stepTimeout_moved hStep)
  | event i =>
    cases hStep
    exact h.still ⟨rfl, rfl, rfl, rfl, rfl, rfl, rfl⟩
  | signal i =>
    cases stepSignal_cases hStep with
    | inl hMoved => exact h.interrupted hMoved
    | inr hStill => exact h.still hStill
  | wait w => exact h.wait hAfter hStep
  | spurious w =>
    have hCore := h.core.step hStep
    simp only [managing, State.step] at hStep
    split at hStep
    · rename_i hPc
      cases hStep
      exact h.waitOn hCore rfl rfl rfl (h.called w (by simp [hPc])) (by simp)
    · cases hStep
  | close => exact h.still (stepClose_still hStep)

theorem opened (cfg : Config) : State.opened.Awaits cfg :=
  ⟨State.Core.opened cfg, fun _ hw => absurd rfl hw, by simp [State.opened]⟩

end State.Awaits

/-- If the last server notifies while a call is about to be parked, then no one wakes that call. -/
theorem missed_of_notifies {u : State} {a : Action} (hNot : ¬ NotifiesParked cfg s a)
    (hStep : (managing cfg).step s a = some u) :
    ∃ w t, (managing cfg).step u (.wait w) = some t ∧ ¬ t.NoMissed cfg := by
  cases a with
  | server i =>
    simp only [NotifiesParked] at hNot
    push Not at hNot
    obtain ⟨hNotifying, hOthers, w, hParking⟩ := hNot
    simp only [managing, State.step, State.stepServer, hNotifying] at hStep
    cases hStep
    have hPc : (s.setServer i .done).notifyAll.waits w = .parking := by
      simp [State.notifyAll, hParking]
    refine ⟨w, { (s.setServer i .done).notifyAll.setWait w .parked with mu_ := none }, ?_, ?_⟩
    · simp only [managing, State.step, State.stepWait, hPc]
    · intro hFalse
      refine hFalse ?_ w ?_
      · intro j hj
        by_cases hEq : j = i
        · subst hEq
          simp [State.notifyAll]
        · simpa [State.notifyAll, hEq] using hOthers j hj hEq
      · simp
  | _ => exact absurd trivial hNot

/-- In every run in which no call of `wait` is between its test and being parked when the last
server notifies, no wake-up is missed. After a step that differs, the next step of that call misses
it. -/
theorem wait_noMissed {as : List Action} (hRun : (managing cfg).run .opened as = some s)
    (hAfter : (managing cfg).EachStep AfterRun .opened as) :
    ((managing cfg).EachStep (NotifiesParked cfg) .opened as →
      (managing cfg).Throughout (State.NoMissed cfg) .opened as) ∧
    (∀ done a t, done ++ [a] <+: as → (managing cfg).run .opened done = some t →
      ¬ NotifiesParked cfg t a → ∃ t' w u, (managing cfg).step t a = some t' ∧
        (managing cfg).step t' (.wait w) = some u ∧ ¬ u.NoMissed cfg) := by
  constructor
  · intro hNotifies
    have hAwaits : (managing cfg).Throughout (State.Awaits cfg) .opened as := by
      refine Lib.Machine.EachStep.throughout
        (C := fun u a => AfterRun u a ∧ NotifiesParked cfg u a) ?_ (State.Awaits.opened cfg) ?_
      · intro u a u' hInv hBoth hStep
        exact hInv.step hBoth.1 hBoth.2 hStep
      · intro done a hDone t ht
        exact ⟨hAfter done a hDone t ht, hNotifies done a hDone t ht⟩
    exact fun done hDone t ht => (hAwaits done hDone t ht).noMissed
  · intro done a t hDone ht hBad
    obtain ⟨t', hStep⟩ := Lib.Machine.exists_step hRun hDone ht
    obtain ⟨w, u, hWait, hMissed⟩ := missed_of_notifies hBad hStep
    exact ⟨t', w, u, hStep, hWait, hMissed⟩

/-- The server notifies while nobody holds `mu_`. -/
def NotifiesFree (s : State) : Action → Prop
  | .server i => s.servers i = .notifying → s.mu_ = none
  | _ => True

instance (s : State) : DecidablePred (NotifiesFree s)
  | .server i => inferInstanceAs (Decidable (s.servers i = .notifying → s.mu_ = none))
  | .run | .wait _ | .fail _ | .timeout _ | .event _ | .signal _ | .spurious _ | .close =>
    instDecidableTrue

/-- A call that is about to be parked holds `mu_`, so there is none. -/
theorem notifiesParked_of_free {as : List Action}
    (h : (managing cfg).EachStep NotifiesFree .opened as) :
    (managing cfg).EachStep (NotifiesParked cfg) .opened as := by
  intro done a hDone t ht
  have hFree := h done a hDone t ht
  have hCore : t.Core cfg :=
    Lib.Machine.run_induct (fun _ _ _ hInv hStep => hInv.step hStep) (State.Core.opened cfg) ht
  cases a with
  | server i =>
    intro hNotifying _ w hParking
    have hHolds : t.mu_ = some w := (hCore.holds w).mpr (by simp [hParking, WaitPc.Holds])
    rw [hFree hNotifying] at hHolds
    cases hHolds
  | _ => trivial

def oneWorker : Config := ⟨1, -1, false⟩

/-- `run` has returned, and the manager closes. -/
def closingActions : List Action :=
  [.run, .run, .run, .run, .close, .close, .server 0]

/-- `wait` tests `numWorkers_`, the server completes `serverDone`, and `wait` is parked. -/
def missedActions : List Action :=
  [.wait 0, .wait 0, .wait 0, .server 0, .server 0, .wait 0]

theorem wait_misses : ∃ s t, (managing oneWorker).run .opened closingActions = some s ∧
    s.run = .returned ∧ (∀ w, s.waits w = .idle) ∧
    (managing oneWorker).run s missedActions = some t ∧ ¬ t.NoMissed oneWorker := by
  refine ⟨_, _, rfl, rfl, fun _ => rfl, rfl, ?_⟩
  intro hFalse
  refine hFalse ?_ 0 rfl
  intro i hi
  obtain rfl : i = 0 := Nat.lt_one_iff.mp hi
  rfl

/-- A call of `wait` is parked, the server ends and wakes it, and the call joins the thread and
returns. -/
def wokenActions : List Action :=
  [.run, .run, .run, .run, .wait 0, .wait 0, .wait 0, .wait 0, .close, .close, .server 0, .server 0,
    .server 0, .wait 0, .wait 0, .wait 0, .wait 0]

theorem wait_noMissed_oneWorker : ∃ s,
    (managing oneWorker).run .opened wokenActions = some s ∧ s.waits 0 = .returned ∧
    (managing oneWorker).Throughout (State.NoMissed oneWorker) .opened wokenActions := by
  refine ⟨_, rfl, rfl, (wait_noMissed rfl (by decide)).1 ?_⟩
  exact notifiesParked_of_free (by decide)

end CcCommon.Conn.Manager
