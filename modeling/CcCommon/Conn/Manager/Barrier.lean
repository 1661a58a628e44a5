import CcCommon.Conn.Manager.Invariant

/-! # `wait` as a barrier

A server can come to its `numWorkers_--` before `run` comes to the
`numWorkers_++` for it; `numWorkers_` is 0 also before `run` has counted the
first server; and `wait` joins the threads each time. Where none of this
happens, `wait` is a barrier; where it does, the run can go on so that it is
none.
-/

namespace CcCommon.Conn.Manager

open Lib.Count
open Lib.Machine (Leads)

set_option autoImplicit false

variable {cfg : Config} {s s' : State} {i w : Nat}

/-- `returns` is about the calls that are about to return, and `after` about what the calls can do
once one of them has returned. -/
structure State.Barrier (s : State) : Prop where
  nonneg : 0 ≤ s.numWorkers_
  returns : ∀ w, s.waits w = .joining [] → ∀ i, s.servers i = .idle ∨ s.servers i = .done
  once : ∀ t, s.joins t ≤ 1
  after : ∀ w, s.waits w = .returned →
    s.numWorkers_ = 0 ∧ ∀ w' t todo, s.waits w' ≠ .joining (t :: todo)

/-- `serverDone` finds `numWorkers_` above 0, and `wait` finds it 0 only after `run` has counted
all servers and before any thread has been joined. -/
def CountsFirst (cfg : Config) (s : State) : Action → Prop
  | .server i => s.servers i = .finishing → 0 < s.numWorkers_
  | .wait w => s.waits w = .testing → s.numWorkers_ = 0 →
    s.run.counted cfg = cfg.workers ∧ ∀ t ∈ s.threads_, s.joins t = 0
  | _ => True

instance (cfg : Config) (s : State) : DecidablePred (CountsFirst cfg s)
  | .server i => inferInstanceAs (Decidable (s.servers i = .finishing → 0 < s.numWorkers_))
  | .wait w => inferInstanceAs (Decidable (s.waits w = .testing → s.numWorkers_ = 0 →
      s.run.counted cfg = cfg.workers ∧ ∀ t ∈ s.threads_, s.joins t = 0))
  | .run | .fail _ | .timeout _ | .event _ | .signal _ | .spurious _ | .close => instDecidableTrue

/-- Of the threads, those in `todo` are still to be joined. -/
structure Joining (cfg : Config) (s : State) (todo : List Nat) : Prop where
  counted : s.run.counted cfg = cfg.workers
  nodup : todo.Nodup
  fresh : ∀ t ∈ todo, t ∈ s.threads_ ∧ s.joins t = 0
  joined : ∀ t ∈ s.threads_, t ∈ todo ∨ s.servers t = .done ∧ s.joins t ≠ 0

structure State.Joins (cfg : Config) (s : State) : Prop where
  core : s.Core cfg
  nonneg : 0 ≤ s.numWorkers_
  once : ∀ t, s.joins t ≤ 1
  running : s.state_ ≠ .S_STOPPED
  joining : ∀ w todo, s.waits w = .joining todo → Joining cfg s todo
  returned : ∀ w, s.waits w = .returned → Joining cfg s []

theorem State.Core.counted_all (h : s.Core cfg) (hCounted : s.run.counted cfg = cfg.workers) :
    s.run.started cfg = cfg.workers ∧ s.run.passed cfg = cfg.workers := by
  have hBounded := h.bounded
  cases hRun : s.run with
  | starting i =>
    rw [hRun] at hCounted
    exact ⟨hCounted, hCounted⟩
  | returned => exact ⟨rfl, rfl⟩
  | pushing i =>
    rw [hRun] at hCounted hBounded
    simp only [RunPc.counted, RunPc.started] at hCounted hBounded
    omega
  | inline i =>
    rw [hRun] at hCounted hBounded
    simp only [RunPc.counted, RunPc.started] at hCounted hBounded
    omega
  | counting i =>
    rw [hRun] at hCounted hBounded
    simp only [RunPc.counted, RunPc.started] at hCounted hBounded
    omega

/-- When the last thread has been joined, no server is running. -/
theorem Joining.all_done (h : Joining cfg s []) (hCore : s.Core cfg) :
    ∀ i < cfg.workers, s.servers i = .done := by
  intro i hi
  have hPassed := (hCore.counted_all h.counted).2
  by_cases hInline : cfg.Inline i
  · exact hCore.inline i hInline (by rw [hPassed]; exact hi)
  · have hThread : i ∈ s.threads_ := by
      rw [hCore.threads, hPassed]
      simp [hi, hInline]
    cases h.joined i hThread with
    | inl hFalse => exact absurd hFalse List.not_mem_nil
    | inr hDone => exact hDone.1

theorem Joining.idle_or_done (h : Joining cfg s []) (hCore : s.Core cfg) (i : Nat) :
    s.servers i = .idle ∨ s.servers i = .done := by
  by_cases hi : i < cfg.workers
  · exact Or.inr (h.all_done hCore i hi)
  · refine Or.inl ((hCore.idle i).mpr ?_)
    exact hCore.bounded.trans (Nat.not_lt.mp hi)

theorem Joining.numWorkers_ (h : Joining cfg s []) (hCore : s.Core cfg) : s.numWorkers_ = 0 := by
  rw [hCore.counts, h.counted, count_eq_card]
  · rw [Finset.card_range]
    exact Int.sub_self _
  · intro i hi
    exact Or.inr (h.all_done hCore i (Finset.mem_range.mp hi))

theorem Joining.mono {todo : List Nat} (h : Joining cfg s todo)
    (hRun : s.run.counted cfg = cfg.workers → s'.run.counted cfg = cfg.workers)
    (hThreads : s'.threads_ = s.threads_) (hJoins : s'.joins = s.joins)
    (hServers : ∀ t, s.servers t = .done → s'.servers t = .done) : Joining cfg s' todo := by
  refine ⟨hRun h.counted, h.nodup, ?_, ?_⟩
  · rw [hThreads, hJoins]
    exact h.fresh
  · rw [hThreads, hJoins]
    intro t ht
    exact (h.joined t ht).imp_right fun hDone => ⟨hServers t hDone.1, hDone.2⟩

namespace State.Joins

theorem barrier (h : s.Joins cfg) : s.Barrier where
  nonneg := h.nonneg
  returns w hw i := (h.joining w [] hw).idle_or_done h.core i
  once := h.once
  after := by
    intro w hw
    have hReturned := h.returned w hw
    refine ⟨hReturned.numWorkers_ h.core, ?_⟩
    intro w' t todo hw'
    obtain ⟨hThread, hFresh⟩ := (h.joining w' _ hw').fresh t List.mem_cons_self
    cases hReturned.joined t hThread with
    | inl hFalse => exact List.not_mem_nil hFalse
    | inr hJoined => exact hJoined.2 hFresh

theorem still (h : s.Joins cfg) (hStill : Still s s') (hState : s'.state_ ≠ .S_STOPPED) :
    s'.Joins cfg := by
  have hMono : ∀ {todo}, Joining cfg s todo → Joining cfg s' todo := by
    intro todo hJoining
    refine hJoining.mono ?_ hStill.threads_ hStill.joins ?_
    · rw [hStill.run]
      exact id
    · rw [hStill.servers]
      exact fun _ => id
  refine ⟨h.core.still hStill, ?_, ?_, hState, ?_, ?_⟩
  · rw [hStill.numWorkers_]
    exact h.nonneg
  · rw [hStill.joins]
    exact h.once
  · rw [hStill.waits]
    exact fun w todo hw => hMono (h.joining w todo hw)
  · rw [hStill.waits]
    exact fun w hw => hMono (h.returned w hw)

theorem moved (h : s.Joins cfg) (hMoved : Moved s i s') (hFirst : s.servers i = .finishing →
    0 < s.numWorkers_) : s'.Joins cfg := by
  have hMono : ∀ {todo}, Joining cfg s todo → Joining cfg s' todo := by
    intro todo hJoining
    refine hJoining.mono ?_ hMoved.threads_ hMoved.joins ?_
    · rw [hMoved.run]
      exact id
    · intro t ht
      obtain ⟨pc, -, hServers, -⟩ := hMoved.servers
      rw [hServers, Function.update_of_ne]
      · exact ht
      · intro hEq
        exact hMoved.active.2 (hEq ▸ ht)
  have hWaits : ∀ w, s'.waits w ≠ .woken → s'.waits w = s.waits w := by
    intro w hw
    cases hMoved.waits w with
    | inl hSame => exact hSame
    | inr hWoken => exact absurd hWoken.2 hw
  refine ⟨h.core.moved hMoved, ?_, ?_, ?_, ?_, ?_⟩
  · have hNonneg := h.nonneg
    cases hMoved.counts with
    | inl hSame =>
      rw [hSame]
      exact hNonneg
    | inr hLess =>
      have hPos := hFirst hLess.1
      omega
  · rw [hMoved.joins]
    exact h.once
  · rw [hMoved.state_]
    exact h.running
  · intro w todo hw
    rw [hWaits w (by simp [hw])] at hw
    exact hMono (h.joining w todo hw)
  · intro w hw
    rw [hWaits w (by simp [hw])] at hw
    exact hMono (h.returned w hw)

/-- `run` does what nobody who joins threads can see. -/
theorem runOn (h : s.Joins cfg) (hCore : s'.Core cfg) (hCount : s.numWorkers_ ≤ s'.numWorkers_)
    (hState : s'.state_ = s.state_) (hJoins : s'.joins = s.joins) (hWaits : s'.waits = s.waits)
    (hLast : s.run.counted cfg = cfg.workers → s'.run.counted cfg = cfg.workers ∧
      s'.threads_ = s.threads_ ∧ s'.servers = s.servers) : s'.Joins cfg := by
  have hMono : ∀ {todo}, Joining cfg s todo → Joining cfg s' todo := by
    intro todo hJoining
    obtain ⟨hCounted, hThreads, hServers⟩ := hLast hJoining.counted
    refine hJoining.mono (fun _ => hCounted) hThreads hJoins ?_
    rw [hServers]
    exact fun _ => id
  refine ⟨hCore, h.nonneg.trans hCount, ?_, ?_, ?_, ?_⟩
  · rw [hJoins]
    exact h.once
  · rw [hState]
    exact h.running
  · rw [hWaits]
    exact fun w todo hw => hMono (h.joining w todo hw)
  · rw [hWaits]
    exact fun w hw => hMono (h.returned w hw)

theorem run (h : s.Joins cfg) (hStep : s.stepRun cfg = some s') : s'.Joins cfg := by
  have hCore := h.core.run hStep
  have hBounded := h.core.bounded
  cases stepRun_steps hStep with
  | startInline i hRun hi hInline =>
    refine h.runOn hCore (le_refl _) rfl rfl rfl fun hCounted => ?_
    rw [hRun] at hCounted
    exact absurd hCounted (Nat.ne_of_lt hi)
  | startThread i hRun hi hInline =>
    refine h.runOn hCore (le_refl _) rfl rfl rfl fun hCounted => ?_
    rw [hRun] at hCounted
    exact absurd hCounted (Nat.ne_of_lt hi)
  | finish i hRun hi => exact h.runOn hCore (le_refl _) rfl rfl rfl fun _ => ⟨rfl, rfl, rfl⟩
  | push i hRun =>
    refine h.runOn hCore (le_refl _) rfl rfl rfl fun hCounted => ?_
    rw [hRun] at hCounted hBounded
    exact absurd hCounted (Nat.ne_of_lt hBounded)
  | inlineDone i hRun hDone =>
    refine h.runOn hCore (le_refl _) rfl rfl rfl fun hCounted => ?_
    rw [hRun] at hCounted hBounded
    exact absurd hCounted (Nat.ne_of_lt hBounded)
  | count i hRun =>
    refine h.runOn hCore (Int.le_add_one (le_refl _)) rfl rfl rfl fun hCounted => ?_
    rw [hRun] at hCounted hBounded
    exact absurd hCounted (Nat.ne_of_lt hBounded)

theorem waitOn (h : s.Joins cfg) {pc : WaitPc} {mu : Option Nat}
    (hCore : State.Core cfg { s.setWait w pc with mu_ := mu })
    (hJoining : ∀ todo, pc = .joining todo → Joining cfg s todo)
    (hReturned : pc = .returned → Joining cfg s []) :
    State.Joins cfg { s.setWait w pc with mu_ := mu } := by
  have hMono : ∀ {todo}, Joining cfg s todo →
      Joining cfg { s.setWait w pc with mu_ := mu } todo :=
    fun hJoining => hJoining.mono id rfl rfl fun _ => id
  refine ⟨hCore, h.nonneg, h.once, h.running, ?_, ?_⟩
  · apply (Function.forall_update_iff s.waits fun _ pc' => ∀ todo, pc' = .joining todo →
      Joining cfg { s.setWait w pc with mu_ := mu } todo).mpr
    exact ⟨fun todo hPc => hMono (hJoining todo hPc),
      fun w' _ todo hw' => hMono (h.joining w' todo hw')⟩
  · apply (Function.forall_update_iff s.waits fun _ pc' => pc' = .returned →
      Joining cfg { s.setWait w pc with mu_ := mu } []).mpr
    exact ⟨fun hPc => hMono (hReturned hPc), fun w' _ hw' => hMono (h.returned w' hw')⟩

/-- A thread is joined: only call `w` is joining threads, and no call has returned. -/
theorem join (h : s.Joins cfg) {t : Nat} {todo : List Nat} (hPc : s.waits w = .joining (t :: todo))
    (hFresh : s.joins t = 0) (hDone : s.servers t = .done)
    (hCore : State.Core cfg { s.setWait w (.joining todo) with
      joins := Function.update s.joins t (s.joins t + 1) }) :
    State.Joins cfg { s.setWait w (.joining todo) with
      joins := Function.update s.joins t (s.joins t + 1) } := by
  obtain ⟨hCounted, hNodup, hThreads, hJoined⟩ := h.joining w _ hPc
  obtain ⟨hNotMem, hNodup'⟩ := List.nodup_cons.mp hNodup
  have hMu : s.mu_ = some w := (h.core.holds w).mpr (by simp [hPc, WaitPc.Holds])
  refine ⟨hCore, h.nonneg, ?_, h.running, ?_, ?_⟩
  · apply (Function.forall_update_iff s.joins fun _ n => n ≤ 1).mpr
    rw [hFresh]
    exact ⟨Nat.le_refl 1, fun t' _ => h.once t'⟩
  · intro w' todo' hw'
    dsimp only [setWait_waits] at hw'
    by_cases hw : w' = w
    · subst hw
      rw [Function.update_self] at hw'
      cases hw'
      refine ⟨hCounted, hNodup', ?_, ?_⟩
      · intro t' ht'
        have hNe : t' ≠ t := fun hEq => hNotMem (hEq ▸ ht')
        dsimp only
        rw [Function.update_of_ne hNe]
        exact hThreads t' (List.mem_cons_of_mem t ht')
      · intro t' ht'
        dsimp only
        by_cases hEq : t' = t
        · subst hEq
          exact Or.inr ⟨hDone, by simp⟩
        · rw [Function.update_of_ne hEq]
          exact (hJoined t' ht').imp_left fun hMem => List.mem_of_ne_of_mem hEq hMem
    · rw [Function.update_of_ne hw] at hw'
      have hMu' : s.mu_ = some w' := (h.core.holds w').mpr (by simp [hw', WaitPc.Holds])
      rw [hMu] at hMu'
      exact absurd (Option.some.inj hMu').symm hw
  · intro w' hw'
    dsimp only [setWait_waits] at hw'
    by_cases hw : w' = w
    · subst hw
      rw [Function.update_self] at hw'
      cases hw'
    · rw [Function.update_of_ne hw] at hw'
      cases (h.returned w' hw').joined t (hThreads t List.mem_cons_self).1 with
      | inl hFalse => exact absurd hFalse List.not_mem_nil
      | inr hBefore => exact absurd hFresh hBefore.2

theorem wait (h : s.Joins cfg) (hFirst : s.waits w = .testing → s.numWorkers_ = 0 →
      s.run.counted cfg = cfg.workers ∧ ∀ t ∈ s.threads_, s.joins t = 0)
    (hStep : s.stepWait w = some s') : s'.Joins cfg := by
  have hCore := h.core.wait hStep
  cases stepWait_steps hStep with
  | stopped hPc hStopped => exact absurd hStopped h.running
  | call hPc => exact h.waitOn hCore (by simp) (by simp)
  | lock hPc hFree => exact h.waitOn hCore (by simp) (by simp)
  | test hPc hCount => exact h.waitOn hCore (by simp) (by simp)
  | park hPc => exact h.waitOn hCore (by simp) (by simp)
  | pass hPc hCount =>
    refine h.waitOn hCore ?_ (by simp)
    rintro todo ⟨⟩
    obtain ⟨hCounted, hFresh⟩ := hFirst hPc hCount
    refine ⟨hCounted, ?_, fun t ht => ⟨ht, hFresh t ht⟩, fun t ht => Or.inl ht⟩
    rw [h.core.threads]
    exact List.nodup_range.filter _
  | rejoin t todo hPc hJoined =>
    exact absurd ((h.joining w _ hPc).fresh t List.mem_cons_self).2 hJoined
  | join t todo hPc hFresh hDone => exact h.join hPc hFresh hDone hCore
  | leave hPc => exact h.waitOn hCore (by simp) fun _ => h.joining w [] hPc

theorem stepClose_running (hRunning : s.state_ ≠ .S_STOPPED) (hStep : s.stepClose = some s') :
    s'.state_ ≠ .S_STOPPED := by
  unfold stepClose at hStep
  split at hStep
  · split at hStep
    · cases hStep
      exact hRunning
    · cases hStep
      exact hRunning
  · cases hStep
    simp
  · cases hStep
    exact hRunning
  · cases hStep
    exact hRunning
  · cases hStep
    exact hRunning
  · cases hStep

theorem interrupted (h : s.Joins cfg) (hMoved : s.servers i = .polling ∧ Moved s i s') :
    s'.Joins cfg := by
  refine h.moved hMoved.2 ?_
  intro hFinishing
  rw [hMoved.1] at hFinishing
  cases hFinishing

theorem stepSignal_running (hRunning : s.state_ ≠ .S_STOPPED) (hStep : s.stepSignal i = some s') :
    s'.state_ ≠ .S_STOPPED := by
  unfold stepSignal at hStep
  split at hStep
  · dsimp only at hStep
    split at hStep
    · cases hStep
      exact hRunning
    · cases hStep
      exact hRunning
  · cases hStep

theorem step {a : Action} (h : s.Joins cfg) (hFirst : CountsFirst cfg s a)
    (hStep : (managing cfg).step s a = some s') : s'.Joins cfg := by
  cases a with
  | run => exact h.run hStep
  | server i => exact h.moved (stepServer_moved hStep) hFirst
  | fail i => exact h.interrupted (stepFail_moved hStep)
  | timeout i => exact h.interrupted (stepTimeout_moved hStep)
  | event i =>
    cases hStep
    exact h.still ⟨rfl, rfl, rfl, rfl, rfl, rfl, rfl⟩ h.running
  | signal i =>
    cases stepSignal_cases hStep with
    | inl hMoved => exact h.interrupted hMoved
    | inr hStill => exact h.still hStill (stepSignal_running h.running hStep)
  | wait w => exact h.wait hFirst hStep
  | spurious w =>
    have hCore := h.core.step hStep
    simp only [managing, State.step] at hStep
    split at hStep
    · cases hStep
      exact h.waitOn hCore (by simp) (by simp)
    · cases hStep
  | close => exact h.still (stepClose_still hStep) (stepClose_running h.running hStep)

theorem opened (cfg : Config) : State.opened.Joins cfg := by
  refine ⟨State.Core.opened cfg, le_refl 0, fun _ => Nat.zero_le 1, by simp [State.opened], ?_, ?_⟩
  · rintro w todo ⟨⟩
  · rintro w ⟨⟩

end State.Joins

/-! ## How the barrier breaks -/

/-- A server can leave its loop before anyone else goes on. -/
theorem leads_finishing (cfg : Config) (hActive : s.servers i ≠ .idle ∧ ¬ (s.servers i).Ended) :
    ∃ u, (managing cfg).Leads s u ∧ u.servers i = .finishing ∧ u.numWorkers_ = s.numWorkers_ := by
  have hPolling : ∀ t : State, t.servers i = .polling →
      ∃ u, (managing cfg).Leads t u ∧ u.servers i = .finishing ∧
        u.numWorkers_ = t.numWorkers_ := by
    intro t hPc
    refine ⟨t.setServer i .finishing, Leads.single (a := .fail i) ?_, by simp, rfl⟩
    simp [managing, State.step, State.stepFail, hPc]
  have hEntering : ∀ t : State, t.servers i = .entering →
      ∃ u, (managing cfg).Leads t u ∧ u.servers i = .finishing ∧
        u.numWorkers_ = t.numWorkers_ := by
    intro t hPc
    apply Leads.exists_head (a := .server i) (t := t.setServer i .polling)
    · simp [managing, State.step, State.stepServer, hPc]
    · exact hPolling _ (by simp)
  have hTesting : ∀ t : State, t.servers i = .testing →
      ∃ u, (managing cfg).Leads t u ∧ u.servers i = .finishing ∧
        u.numWorkers_ = t.numWorkers_ := by
    intro t hPc
    cases hClosing : t.closing with
    | true =>
      refine ⟨t.setServer i .finishing, Leads.single (a := .server i) ?_, by simp, rfl⟩
      simp [managing, State.step, State.stepServer, hPc, hClosing]
    | false =>
      apply Leads.exists_head (a := .server i) (t := t.setServer i .entering)
      · simp [managing, State.step, State.stepServer, hPc, hClosing]
      · exact hEntering _ (by simp)
  cases hPc : s.servers i with
  | idle => exact absurd hPc hActive.1
  | testing => exact hTesting s hPc
  | entering => exact hEntering s hPc
  | polling => exact hPolling s hPc
  | working =>
    apply Leads.exists_head (a := .server i) (t := s.setServer i .testing)
    · simp [managing, State.step, State.stepServer, hPc]
    · exact hTesting _ (by simp)
  | finishing => exact ⟨s, Leads.refl s, hPc, rfl⟩
  | notifying => exact absurd (Or.inl hPc) hActive.2
  | done => exact absurd (Or.inr hPc) hActive.2

/-- A server that is running while `numWorkers_` is 0 can be counted out. -/
theorem running_breaks (hActive : s.servers i ≠ .idle ∧ ¬ (s.servers i).Ended)
    (hCount : s.numWorkers_ ≤ 0) : ∃ u, (managing cfg).Leads s u ∧ ¬ u.Barrier := by
  obtain ⟨u, hLeads, hPc, hSame⟩ := leads_finishing cfg hActive
  have hStep : (managing cfg).step u (.server i) =
      some { u.setServer i .notifying with numWorkers_ := u.numWorkers_ - 1 } := by
    simp [managing, State.step, State.stepServer, hPc]
  refine ⟨_, hLeads.trans (Leads.single hStep), ?_⟩
  intro hBarrier
  have hNonneg := hBarrier.nonneg
  dsimp only at hNonneg
  omega

/-- A server that has been counted out can complete `serverDone`. -/
theorem leads_done (cfg : Config) (hEnded : (s.servers i).Ended) : ∃ u, (managing cfg).Leads s u ∧
    u.servers = Function.update s.servers i .done ∧ u.joins = s.joins ∧
    ∀ w, s.waits w ≠ .parked → u.waits w = s.waits w := by
  cases hEnded with
  | inl hNotifying =>
    refine ⟨(s.setServer i .done).notifyAll, Leads.single (a := .server i) ?_, rfl, rfl,
      fun _ hNot => if_neg hNot⟩
    simp [managing, State.step, State.stepServer, hNotifying]
  | inr hDone =>
    refine ⟨s, Leads.refl s, ?_, rfl, fun _ _ => rfl⟩
    rw [← hDone, Function.update_eq_self]

/-- A call of `wait` comes through its threads, and one of them has been joined before, or a server
that is not among them is running. -/
theorem joining_breaks (cfg : Config) (todo : List Nat) (hPc : s.waits w = .joining todo)
    (hEnded : ∀ t ∈ todo, (s.servers t).Ended)
    (hBad : (∃ t ∈ todo, s.joins t ≠ 0) ∨
      ∃ i, s.servers i ≠ .idle ∧ ¬ (s.servers i).Ended) :
    ∃ u, (managing cfg).Leads s u ∧ ¬ u.Barrier := by
  induction todo generalizing s with
  | nil =>
    refine ⟨s, Leads.refl s, ?_⟩
    intro hBarrier
    obtain ⟨i, hIdle, hNot⟩ := hBad.resolve_left (by simp)
    exact (hBarrier.returns w hPc i).elim hIdle fun hDone => hNot (Or.inr hDone)
  | cons t todo ih =>
    by_cases hJoined : s.joins t = 0
    · obtain ⟨v, hLeads, hServers, hJoins, hWaits⟩ :=
        leads_done cfg (hEnded t List.mem_cons_self)
      have hStep : (managing cfg).step v (.wait w) = some { v.setWait w (.joining todo) with
          joins := Function.update v.joins t (v.joins t + 1) } := by
        simp [managing, State.step, State.stepWait, hWaits w (by simp [hPc]), hPc, hJoins, hJoined,
          hServers]
      have hEnded' : ∀ j ∈ todo, (v.servers j).Ended := by
        intro j hj
        rw [hServers]
        apply Function.forall_update_iff s.servers (fun j pc => j ∈ t :: todo → pc.Ended) |>.mpr
        · exact ⟨fun _ => Or.inr rfl, fun j _ hj => hEnded j hj⟩
        · exact List.mem_cons_of_mem t hj
      have hBad' : (∃ j ∈ todo, Function.update v.joins t (v.joins t + 1) j ≠ 0) ∨
          ∃ i, v.servers i ≠ .idle ∧ ¬ (v.servers i).Ended := by
        rw [hServers, hJoins]
        cases hBad with
        | inl hTwice =>
          obtain ⟨j, hj, hNot⟩ := hTwice
          have hEq : j ≠ t := by
            rintro rfl
            exact hNot hJoined
          refine Or.inl ⟨j, List.mem_of_ne_of_mem hEq hj, ?_⟩
          rwa [Function.update_of_ne hEq]
        | inr hRunning =>
          obtain ⟨i, hIdle, hNot⟩ := hRunning
          have hEq : i ≠ t := by
            rintro rfl
            exact hNot (hEnded i List.mem_cons_self)
          refine Or.inr ⟨i, ?_⟩
          rw [Function.update_of_ne hEq]
          exact ⟨hIdle, hNot⟩
      apply Leads.exists_trans hLeads
      apply Leads.exists_head hStep
      exact ih (by simp) hEnded' hBad'
    · have hStep : (managing cfg).step s (.wait w) = some { s.setWait w .threw with
          mu_ := none, joins := Function.update s.joins t (s.joins t + 1) } := by
        simp [managing, State.step, State.stepWait, hPc, hJoined]
      refine ⟨_, Leads.single hStep, ?_⟩
      intro hBarrier
      have hOnce := hBarrier.once t
      dsimp only at hOnce
      rw [Function.update_self] at hOnce
      omega

/-- If no server that has been started is running, `numWorkers_` is the number of those that `run`
has counted less that of those that it has started. -/
theorem State.Core.counts_ended (h : s.Core cfg)
    (hEnded : ∀ i, s.servers i ≠ .idle → (s.servers i).Ended) :
    s.numWorkers_ = s.run.counted cfg - s.run.started cfg := by
  have hStarted : count (Finset.range cfg.workers) WorkerPc.Ended s.servers =
      s.run.started cfg := by
    have hRange : (Finset.range cfg.workers).filter (fun i => (s.servers i).Ended) =
        Finset.range (s.run.started cfg) := by
      ext i
      have hIdle := h.idle i
      have hBounded := h.bounded
      simp only [Finset.mem_filter, Finset.mem_range]
      constructor
      · rintro ⟨-, hi⟩
        by_contra hLe
        rw [hIdle.mpr (Nat.not_lt.mp hLe)] at hi
        simp [WorkerPc.Ended] at hi
      · intro hi
        refine ⟨hi.trans_le hBounded, hEnded i ?_⟩
        rw [Ne, hIdle]
        exact Nat.not_le.mpr hi
    rw [count, hRange, Finset.card_range]
  rw [h.counts, hStarted]

theorem State.Core.thread_started (h : s.Core cfg) (hi : i ∈ s.threads_) : s.servers i ≠ .idle := by
  rw [h.threads] at hi
  have hPassed : i < s.run.passed cfg := List.mem_range.mp (List.mem_of_mem_filter hi)
  have hLe : s.run.passed cfg ≤ s.run.started cfg := by
    cases s.run <;> simp [RunPc.passed, RunPc.started]
  rw [Ne, h.idle]
  exact Nat.not_le.mpr (hPassed.trans_le hLe)

/-- `run` can start the next server. -/
theorem leads_started (cfg : Config) (hRun : s.run = .starting i) (hi : i < cfg.workers) :
    ∃ r, (managing cfg).step s .run = some { s.setServer i .testing with run := r } := by
  by_cases hInline : cfg.Inline i
  · refine ⟨.inline i, ?_⟩
    simp [managing, State.step, State.stepRun, hRun, hi, hInline]
  · refine ⟨.pushing i, ?_⟩
    simp [managing, State.step, State.stepRun, hRun, hi, hInline]

/-- A call of `wait` that finds `numWorkers_` 0 too early, or finds threads that have been
joined. -/
theorem pass_breaks (h : s.Core cfg) (hCount : s.numWorkers_ = 0)
    (hNot : ¬ (s.run.counted cfg = cfg.workers ∧ ∀ t ∈ s.threads_, s.joins t = 0)) :
    ∃ u, (managing cfg).Leads (s.setWait w (.joining s.threads_)) u ∧ ¬ u.Barrier := by
  by_cases hRunning : ∃ i, s.servers i ≠ .idle ∧ ¬ (s.servers i).Ended
  · obtain ⟨i, hActive⟩ := hRunning
    exact running_breaks (s := s.setWait w (.joining s.threads_)) hActive (le_of_eq hCount)
  · push Not at hRunning
    have hEnded : ∀ t ∈ s.threads_, (s.servers t).Ended :=
      fun t ht => hRunning t (h.thread_started ht)
    by_cases hCounted : s.run.counted cfg = cfg.workers
    · have hTwice : ∃ t ∈ s.threads_, s.joins t ≠ 0 := by
        by_contra hNone
        push Not at hNone
        exact hNot ⟨hCounted, hNone⟩
      exact joining_breaks cfg (w := w) s.threads_ (by simp) hEnded (Or.inl hTwice)
    · have hEqual := h.counts_ended hRunning
      obtain ⟨i, hRun, hi⟩ : ∃ i, s.run = .starting i ∧ i < cfg.workers := by
        have hBounded := h.bounded
        cases hRun : s.run with
        | starting i =>
          rw [hRun] at hBounded hCounted
          exact ⟨i, rfl, Nat.lt_of_le_of_ne hBounded hCounted⟩
        | returned =>
          rw [hRun] at hCounted
          exact absurd rfl hCounted
        | _ =>
          rw [hCount, hRun] at hEqual
          simp only [RunPc.counted, RunPc.started] at hEqual
          omega
      have hIdle : s.servers i = .idle := by
        rw [h.idle, hRun]
        exact le_refl i
      -- the next server is started before the call returns
      obtain ⟨r, hStart⟩ := leads_started cfg
        (s := s.setWait w (.joining s.threads_)) hRun hi
      have hEnded' : ∀ t ∈ s.threads_, (Function.update s.servers i .testing t).Ended := by
        intro t ht
        have hNe : t ≠ i := by
          rintro rfl
          exact h.thread_started ht hIdle
        rw [Function.update_of_ne hNe]
        exact hEnded t ht
      apply Leads.exists_head hStart
      exact joining_breaks cfg (w := w) s.threads_ (by simp) hEnded'
        (Or.inr ⟨i, by simp [WorkerPc.Ended]⟩)

theorem breaks_of_not {a : Action} (hCore : s.Core cfg) (hNot : ¬ CountsFirst cfg s a)
    (hStep : (managing cfg).step s a = some s') :
    ∃ u, (managing cfg).Leads s' u ∧ ¬ u.Barrier := by
  cases a with
  | server i =>
    simp only [CountsFirst] at hNot
    push Not at hNot
    obtain ⟨hFinishing, hCount⟩ := hNot
    simp only [managing, State.step, State.stepServer, hFinishing] at hStep
    cases hStep
    refine ⟨_, Leads.refl _, ?_⟩
    intro hBarrier
    have hNonneg := hBarrier.nonneg
    dsimp only at hNonneg
    omega
  | wait w =>
    simp only [CountsFirst, Classical.not_imp] at hNot
    obtain ⟨hPc, hCount, hEarly⟩ := hNot
    simp only [managing, State.step, State.stepWait, hPc, hCount, ne_eq, not_true, if_false] at hStep
    cases hStep
    exact pass_breaks hCore hCount hEarly
  | _ => exact absurd trivial hNot

/-- In every run in which each server is counted before it is counted out, and `wait` finds
`numWorkers_` 0 only when all have been counted and no thread has been joined, `wait` is a
barrier. After a step that differs, a run can go on so that it is none. -/
theorem wait_barrier {as : List Action} (hRun : (managing cfg).run .opened as = some s) :
    ((managing cfg).EachStep (CountsFirst cfg) .opened as →
      (managing cfg).Throughout State.Barrier .opened as) ∧
    (∀ done a t, done ++ [a] <+: as → (managing cfg).run .opened done = some t →
      ¬ CountsFirst cfg t a → ∃ t' u, (managing cfg).step t a = some t' ∧
        (managing cfg).Leads t' u ∧ ¬ u.Barrier) := by
  constructor
  · intro hFirst
    have hJoins : (managing cfg).Throughout (State.Joins cfg) .opened as := by
      refine hFirst.throughout ?_ (State.Joins.opened cfg)
      exact fun u a u' hInv hCounts hStep => hInv.step hCounts hStep
    exact fun done hDone t ht => (hJoins done hDone t ht).barrier
  · intro done a t hDone ht hBad
    obtain ⟨t', hStep⟩ := Lib.Machine.exists_step hRun hDone ht
    have hCore : t.Core cfg :=
      Lib.Machine.run_induct (fun _ _ _ hInv hNext => hInv.step hNext) (State.Core.opened cfg) ht
    obtain ⟨u, hLeads, hBreaks⟩ := breaks_of_not hCore hBad hStep
    exact ⟨t', u, hStep, hLeads, hBreaks⟩

theorem wait_barrier_oneWorker :
    (managing ⟨1, -1, false⟩).Throughout State.Barrier .opened [.run, .run, .run, .run, .wait 0,
      .wait 0, .wait 0, .close, .close, .server 0, .wait 0, .server 0, .server 0, .wait 0, .wait 0,
      .wait 0, .wait 0] :=
  (wait_barrier rfl).1 (by decide)

/-- The server runs in the thread of `run`, and is counted out before it is counted. -/
theorem numWorkers_negative : ∃ s,
    (managing ⟨1, -1, true⟩).run .opened [.run, .close, .close, .server 0, .server 0] = some s ∧
      s.numWorkers_ = -1 :=
  ⟨_, rfl, rfl⟩

/-- The first server has been started and not been counted. -/
theorem wait_early : ∃ s,
    (managing ⟨1, -1, false⟩).run .opened [.run, .wait 0, .wait 0, .wait 0] = some s ∧
      s.waits 0 = .joining [] ∧ s.servers 0 = .testing :=
  ⟨_, rfl, rfl, rfl⟩

/-- The thread has been joined by the first call. -/
theorem wait_joins_twice : ∃ s,
    (managing ⟨1, -1, false⟩).run .opened [.run, .run, .run, .run, .close, .close, .server 0,
      .server 0, .server 0, .wait 0, .wait 0, .wait 0, .wait 0, .wait 0, .wait 1, .wait 1, .wait 1,
      .wait 1] = some s ∧
      s.waits 0 = .returned ∧ s.waits 1 = .threw ∧ s.joins 0 = 2 :=
  ⟨_, rfl, rfl, rfl, rfl⟩

/-- `numWorkers_` is negative, `wait` returns while a server runs, a thread is joined twice. -/
theorem wait_not_barrier :
    (∃ as s, (managing ⟨1, -1, true⟩).run .opened as = some s ∧ s.numWorkers_ < 0) ∧
    (∃ as s, (managing ⟨1, -1, false⟩).run .opened as = some s ∧ s.waits 0 = .joining [] ∧
      s.servers 0 = .testing) ∧
    (∃ as s, (managing ⟨1, -1, false⟩).run .opened as = some s ∧ 1 < s.joins 0) := by
  refine ⟨?_, ?_, ?_⟩
  · obtain ⟨s, hRun, hCount⟩ := numWorkers_negative
    exact ⟨_, s, hRun, by omega⟩
  · obtain ⟨s, hRun, hPc, hServer⟩ := wait_early
    exact ⟨_, s, hRun, hPc, hServer⟩
  · obtain ⟨s, hRun, -, -, hJoins⟩ := wait_joins_twice
    exact ⟨_, s, hRun, by omega⟩

end CcCommon.Conn.Manager
