import CcCommon.Conn.Manager
import CcCommon.Lib.Count

/-! # What holds in every run of a manager

`numWorkers_` is the number of servers that `run` has counted less the number
of those that have come to their `numWorkers_--`; that is not the number of the
servers that are running.
-/

namespace CcCommon.Conn.Manager

open Lib.Count

set_option autoImplicit false

/-- The servers that `run` has started. -/
def RunPc.started (cfg : Config) : RunPc → Nat
  | .starting i => i
  | .pushing i => i + 1
  | .inline i => i + 1
  | .counting i => i + 1
  | .returned => cfg.workers

/-- The servers whose threads are in `threads_`, or that have run in the thread of `run`. -/
def RunPc.passed (cfg : Config) : RunPc → Nat
  | .starting i => i
  | .pushing i => i
  | .inline i => i
  | .counting i => i + 1
  | .returned => cfg.workers

/-- The servers for which `run` has done `numWorkers_++`. -/
def RunPc.counted (cfg : Config) : RunPc → Nat
  | .starting i => i
  | .pushing i => i
  | .inline i => i
  | .counting i => i
  | .returned => cfg.workers

def WorkerPc.Ended (pc : WorkerPc) : Prop := pc = .notifying ∨ pc = .done

instance : DecidablePred WorkerPc.Ended := fun _ => inferInstanceAs (Decidable (_ ∨ _))

def WaitPc.Holds : WaitPc → Prop
  | .testing => True
  | .parking => True
  | .joining _ => True
  | _ => False

structure State.Core (cfg : Config) (s : State) : Prop where
  bounded : s.run.started cfg ≤ cfg.workers
  idle : ∀ i, s.servers i = .idle ↔ s.run.started cfg ≤ i
  place : (∀ i, s.run = .inline i → cfg.Inline i) ∧ ∀ i, s.run = .pushing i → ¬ cfg.Inline i
  threads : s.threads_ = (List.range (s.run.passed cfg)).filter fun i => ¬ cfg.Inline i
  inline : ∀ i, cfg.Inline i → i < s.run.passed cfg → s.servers i = .done
  counts : s.numWorkers_ =
    s.run.counted cfg - count (Finset.range cfg.workers) WorkerPc.Ended s.servers
  holds : ∀ w, s.mu_ = some w ↔ (s.waits w).Holds

/-! ## What a step can do -/

variable {cfg : Config} {s s' : State} {i w : Nat}

/-- Server `i` has taken a step. -/
structure Moved (s : State) (i : Nat) (s' : State) : Prop where
  active : s.servers i ≠ .idle ∧ s.servers i ≠ .done
  servers : ∃ pc, pc ≠ .idle ∧ s'.servers = Function.update s.servers i pc ∧
    s'.numWorkers_ = s.numWorkers_ - (weight WorkerPc.Ended pc - weight WorkerPc.Ended (s.servers i))
  state_ : s'.state_ = s.state_
  mu_ : s'.mu_ = s.mu_
  threads_ : s'.threads_ = s.threads_
  run : s'.run = s.run
  close : s'.close = s.close
  joins : s'.joins = s.joins
  waits : ∀ w, s'.waits w = s.waits w ∨ s.waits w = .parked ∧ s'.waits w = .woken
  notifies : s'.servers i = .done → s.servers i = .notifying ∧ ∀ w, s'.waits w ≠ .parked
  counts : s'.numWorkers_ = s.numWorkers_ ∨
    s.servers i = .finishing ∧ s'.numWorkers_ = s.numWorkers_ - 1

theorem Moved.set {pc : WorkerPc} (hActive : s.servers i ≠ .idle ∧ s.servers i ≠ .done)
    (hPc : pc ≠ .idle ∧ pc ≠ .done) (hEnded : pc.Ended ↔ (s.servers i).Ended) :
    Moved s i (s.setServer i pc) := by
  refine ⟨hActive, ⟨pc, hPc.1, rfl, ?_⟩, rfl, rfl, rfl, rfl, rfl, rfl, fun _ => Or.inl rfl, ?_,
    Or.inl rfl⟩
  · rw [weight_same hEnded, Int.sub_zero]
    rfl
  · intro hDone
    rw [State.setServer_servers, Function.update_self] at hDone
    exact absurd hDone hPc.2

theorem stepServer_moved (h : s.stepServer i = some s') : Moved s i s' := by
  unfold State.stepServer at h
  cases hPc : s.servers i with
  | idle =>
    rw [hPc] at h
    cases h
  | testing =>
    simp only [hPc] at h
    split at h
    · cases h
      exact Moved.set (by simp [hPc]) (by simp) (by simp [hPc, WorkerPc.Ended])
    · cases h
      exact Moved.set (by simp [hPc]) (by simp) (by simp [hPc, WorkerPc.Ended])
  | entering =>
    simp only [hPc] at h
    cases h
    exact Moved.set (by simp [hPc]) (by simp) (by simp [hPc, WorkerPc.Ended])
  | polling =>
    simp only [hPc] at h
    split at h
    · cases h
      have hSet : Moved s i (s.setServer i .working) :=
        Moved.set (by simp [hPc]) (by simp) (by simp [hPc, WorkerPc.Ended])
      exact ⟨hSet.active, hSet.servers, rfl, rfl, rfl, rfl, rfl, rfl, hSet.waits, hSet.notifies,
        hSet.counts⟩
    · cases h
  | working =>
    simp only [hPc] at h
    cases h
    exact Moved.set (by simp [hPc]) (by simp) (by simp [hPc, WorkerPc.Ended])
  | finishing =>
    simp only [hPc] at h
    cases h
    refine ⟨by simp [hPc], ⟨.notifying, by simp, rfl, ?_⟩, rfl, rfl, rfl, rfl, rfl, rfl,
      fun _ => Or.inl rfl, by simp, Or.inr ⟨hPc, rfl⟩⟩
    simp [hPc, weight, WorkerPc.Ended]
  | notifying =>
    simp only [hPc] at h
    cases h
    refine ⟨by simp [hPc], ⟨.done, by simp, rfl, ?_⟩, rfl, rfl, rfl, rfl, rfl, rfl, ?_,
      fun _ => ⟨hPc, ?_⟩, Or.inl rfl⟩
    · simp [State.notifyAll, hPc, weight, WorkerPc.Ended]
    · intro w
      by_cases hParked : s.waits w = .parked
      · exact Or.inr ⟨hParked, if_pos hParked⟩
      · exact Or.inl (if_neg hParked)
    · intro w hFalse
      dsimp only [State.notifyAll] at hFalse
      split at hFalse
      · cases hFalse
      · rename_i hNot
        exact hNot hFalse
  | done =>
    rw [hPc] at h
    cases h

theorem stepFail_moved (h : s.stepFail i = some s') : s.servers i = .polling ∧ Moved s i s' := by
  unfold State.stepFail at h
  split at h
  · rename_i hPc
    cases h
    exact ⟨hPc, Moved.set (by simp [hPc]) (by simp) (by simp [hPc, WorkerPc.Ended])⟩
  · cases h

theorem stepTimeout_moved (h : s.stepTimeout cfg i = some s') :
    s.servers i = .polling ∧ Moved s i s' := by
  unfold State.stepTimeout at h
  split at h
  · rename_i hPc
    cases h
    exact ⟨hPc.1, Moved.set (by simp [hPc.1]) (by simp) (by simp [hPc.1, WorkerPc.Ended])⟩
  · cases h

inductive RunSteps (cfg : Config) (s : State) : State → Prop where
  | startInline (i : Nat) (hRun : s.run = .starting i) (hi : i < cfg.workers)
      (hInline : cfg.Inline i) : RunSteps cfg s { s.setServer i .testing with run := .inline i }
  | startThread (i : Nat) (hRun : s.run = .starting i) (hi : i < cfg.workers)
      (hInline : ¬ cfg.Inline i) : RunSteps cfg s { s.setServer i .testing with run := .pushing i }
  | finish (i : Nat) (hRun : s.run = .starting i) (hi : ¬ i < cfg.workers) :
      RunSteps cfg s { s with run := .returned }
  | push (i : Nat) (hRun : s.run = .pushing i) :
      RunSteps cfg s { s with threads_ := s.threads_ ++ [i], run := .counting i }
  | inlineDone (i : Nat) (hRun : s.run = .inline i) (hDone : s.servers i = .done) :
      RunSteps cfg s { s with run := .counting i }
  | count (i : Nat) (hRun : s.run = .counting i) :
      RunSteps cfg s { s with numWorkers_ := s.numWorkers_ + 1, run := .starting (i + 1) }

theorem stepRun_steps (h : s.stepRun cfg = some s') : RunSteps cfg s s' := by
  unfold State.stepRun at h
  cases hRun : s.run with
  | starting i =>
    simp only [hRun] at h
    split at h
    · rename_i hi
      split at h
      · rename_i hInline
        cases h
        exact RunSteps.startInline i hRun hi hInline
      · rename_i hInline
        cases h
        exact RunSteps.startThread i hRun hi hInline
    · rename_i hi
      cases h
      exact RunSteps.finish i hRun hi
  | pushing i =>
    simp only [hRun] at h
    cases h
    exact RunSteps.push i hRun
  | inline i =>
    simp only [hRun] at h
    split at h
    · rename_i hDone
      cases h
      exact RunSteps.inlineDone i hRun hDone
    · cases h
  | counting i =>
    simp only [hRun] at h
    cases h
    exact RunSteps.count i hRun
  | returned =>
    simp only [hRun] at h
    cases h

inductive WaitSteps (s : State) (w : Nat) : State → Prop where
  | stopped (hPc : s.waits w = .idle) (hStopped : s.state_ = .S_STOPPED) :
      WaitSteps s w (s.setWait w .returned)
  | call (hPc : s.waits w = .idle) : WaitSteps s w (s.setWait w .locking)
  | lock (hPc : s.waits w = .locking ∨ s.waits w = .woken) (hFree : s.mu_ = none) :
      WaitSteps s w { s.setWait w .testing with mu_ := some w }
  | test (hPc : s.waits w = .testing) (hCount : s.numWorkers_ ≠ 0) :
      WaitSteps s w (s.setWait w .parking)
  | park (hPc : s.waits w = .parking) : WaitSteps s w { s.setWait w .parked with mu_ := none }
  | pass (hPc : s.waits w = .testing) (hCount : s.numWorkers_ = 0) :
      WaitSteps s w (s.setWait w (.joining s.threads_))
  | rejoin (t : Nat) (todo : List Nat) (hPc : s.waits w = .joining (t :: todo))
      (hJoined : s.joins t ≠ 0) :
      WaitSteps s w { s.setWait w .threw with
        mu_ := none, joins := Function.update s.joins t (s.joins t + 1) }
  | join (t : Nat) (todo : List Nat) (hPc : s.waits w = .joining (t :: todo))
      (hFresh : s.joins t = 0) (hDone : s.servers t = .done) :
      WaitSteps s w { s.setWait w (.joining todo) with
        joins := Function.update s.joins t (s.joins t + 1) }
  | leave (hPc : s.waits w = .joining []) :
      WaitSteps s w { s.setWait w .returned with mu_ := none }

theorem stepWait_steps (h : s.stepWait w = some s') : WaitSteps s w s' := by
  unfold State.stepWait at h
  cases hPc : s.waits w with
  | idle =>
    simp only [hPc] at h
    split at h
    · rename_i hStopped
      cases h
      exact WaitSteps.stopped hPc hStopped
    · cases h
      exact WaitSteps.call hPc
  | locking =>
    simp only [hPc] at h
    split at h
    · rename_i hFree
      cases h
      exact WaitSteps.lock (Or.inl hPc) hFree
    · cases h
  | testing =>
    simp only [hPc] at h
    split at h
    · rename_i hCount
      cases h
      exact WaitSteps.test hPc hCount
    · rename_i hCount
      cases h
      exact WaitSteps.pass hPc (Decidable.not_not.mp hCount)
  | parking =>
    simp only [hPc] at h
    cases h
    exact WaitSteps.park hPc
  | woken =>
    simp only [hPc] at h
    split at h
    · rename_i hFree
      cases h
      exact WaitSteps.lock (Or.inr hPc) hFree
    · cases h
  | joining todo =>
    cases todo with
    | nil =>
      simp only [hPc] at h
      cases h
      exact WaitSteps.leave hPc
    | cons t todo =>
      simp only [hPc] at h
      split at h
      · rename_i hJoined
        cases h
        exact WaitSteps.rejoin t todo hPc hJoined
      · rename_i hFresh
        split at h
        · rename_i hDone
          cases h
          exact WaitSteps.join t todo hPc (Decidable.not_not.mp hFresh) hDone
        · cases h
  | parked =>
    simp only [hPc] at h
    cases h
  | returned =>
    simp only [hPc] at h
    cases h
  | threw =>
    simp only [hPc] at h
    cases h

/-- Neither `run` nor a server nor a call of `wait` has taken a step. -/
structure Still (s s' : State) : Prop where
  numWorkers_ : s'.numWorkers_ = s.numWorkers_
  mu_ : s'.mu_ = s.mu_
  threads_ : s'.threads_ = s.threads_
  run : s'.run = s.run
  servers : s'.servers = s.servers
  waits : s'.waits = s.waits
  joins : s'.joins = s.joins

theorem stepSignal_cases (h : s.stepSignal i = some s') :
    (s.servers i = .polling ∧ Moved s i s') ∨ Still s s' := by
  unfold State.stepSignal at h
  split at h
  · dsimp only at h
    split at h
    · rename_i hPc
      cases h
      have hMoved : Moved { s with signals := Function.update s.signals i false } i
          (State.setServer { s with signals := Function.update s.signals i false } i .working) :=
        Moved.set (by simp [hPc]) (by simp) (by simp [hPc, WorkerPc.Ended])
      exact Or.inl ⟨hPc, hMoved.active, hMoved.servers, rfl, rfl, rfl, rfl, rfl, rfl, hMoved.waits,
        hMoved.notifies, hMoved.counts⟩
    · cases h
      exact Or.inr ⟨rfl, rfl, rfl, rfl, rfl, rfl, rfl⟩
  · cases h

theorem stepClose_still (h : s.stepClose = some s') : Still s s' := by
  unfold State.stepClose at h
  split at h
  · split at h
    · cases h
      exact ⟨rfl, rfl, rfl, rfl, rfl, rfl, rfl⟩
    · cases h
      exact ⟨rfl, rfl, rfl, rfl, rfl, rfl, rfl⟩
  · cases h
    exact ⟨rfl, rfl, rfl, rfl, rfl, rfl, rfl⟩
  · cases h
    exact ⟨rfl, rfl, rfl, rfl, rfl, rfl, rfl⟩
  · cases h
    exact ⟨rfl, rfl, rfl, rfl, rfl, rfl, rfl⟩
  · cases h
    exact ⟨rfl, rfl, rfl, rfl, rfl, rfl, rfl⟩
  · cases h

/-! ## Each step -/

namespace State.Core

theorem started_pos (h : s.Core cfg) (hActive : s.servers i ≠ .idle) : i < s.run.started cfg :=
  Nat.lt_of_not_le fun hFalse => hActive ((h.idle i).mpr hFalse)

theorem still (h : s.Core cfg) (hStill : Still s s') : s'.Core cfg := by
  obtain ⟨hCount, hMu, hThreads, hRun, hServers, hWaits, -⟩ := hStill
  constructor
  · rw [hRun]
    exact h.bounded
  · rw [hServers, hRun]
    exact h.idle
  · rw [hRun]
    exact h.place
  · rw [hThreads, hRun]
    exact h.threads
  · rw [hServers, hRun]
    exact h.inline
  · rw [hCount, hRun, hServers]
    exact h.counts
  · rw [hMu, hWaits]
    exact h.holds

theorem moved (h : s.Core cfg) (hMoved : Moved s i s') : s'.Core cfg := by
  obtain ⟨⟨hIdle, hDone⟩, ⟨pc, hPc, hServers, hCount⟩, -, hMu, hThreads, hRun, -, -, hWaits, -, -⟩ := hMoved
  have hi := h.started_pos hIdle
  constructor
  · rw [hRun]
    exact h.bounded
  · rw [hServers, hRun]
    apply (Function.forall_update_iff s.servers fun j pc => pc = .idle ↔ _).mpr
    exact ⟨iff_of_false hPc (Nat.not_le.mpr hi), fun j _ => h.idle j⟩
  · rw [hRun]
    exact h.place
  · rw [hThreads, hRun]
    exact h.threads
  · intro j hInline hj
    rw [hRun] at hj
    have hOld := h.inline j hInline hj
    have hNe : j ≠ i := fun hEq => hDone (hEq ▸ hOld)
    rw [hServers, Function.update_of_ne hNe]
    exact hOld
  · have hMem : i ∈ Finset.range cfg.workers := Finset.mem_range.mpr (hi.trans_le h.bounded)
    rw [hCount, hRun, hServers, count_update hMem, h.counts]
    omega
  · intro w
    rw [hMu, h.holds w]
    cases hWaits w with
    | inl hSame => rw [hSame]
    | inr hWoken => simp [hWoken.1, hWoken.2, WaitPc.Holds]

theorem filter_range_succ (cfg : Config) (i : Nat) :
    (List.range (i + 1)).filter (fun j => ¬ cfg.Inline j) =
      (List.range i).filter (fun j => ¬ cfg.Inline j) ++ if cfg.Inline i then [] else [i] := by
  rw [List.range_succ, List.filter_append]
  by_cases hInline : cfg.Inline i <;> simp [hInline]

theorem start (h : s.Core cfg) (hRun : s.run = .starting i) (hi : i < cfg.workers) {run : RunPc}
    (hStarted : run.started cfg = i + 1) (hPassed : run.passed cfg = i)
    (hCounted : run.counted cfg = i)
    (hPlace : (∀ j, run = .inline j → cfg.Inline j) ∧ ∀ j, run = .pushing j → ¬ cfg.Inline j) :
    State.Core cfg { s.setServer i .testing with run := run } := by
  have hIdle : s.servers i = .idle := by
    rw [h.idle, hRun]
    exact Nat.le_refl i
  constructor
  · exact hStarted.trans_le hi
  · dsimp only [setServer_servers]
    rw [hStarted]
    apply (Function.forall_update_iff s.servers fun j pc => pc = .idle ↔ _).mpr
    constructor
    · exact iff_of_false (by simp) (by omega)
    · intro j hj
      rw [h.idle, hRun]
      dsimp only [RunPc.started]
      omega
  · exact hPlace
  · dsimp only [setServer_threads_]
    rw [hPassed, h.threads, hRun]
    rfl
  · intro j hInline hj
    rw [hPassed] at hj
    have hOld := h.inline j hInline (by rw [hRun]; exact hj)
    dsimp only [setServer_servers]
    rw [Function.update_of_ne (Nat.ne_of_lt hj)]
    exact hOld
  · dsimp only [setServer_numWorkers_, setServer_servers]
    rw [hCounted, count_update (Finset.mem_range.mpr hi), hIdle, h.counts, hRun]
    rfl
  · exact h.holds

/-- `run` has gone on with the servers that it has started. -/
theorem advance (h : s.Core cfg) {run : RunPc} {threads : List Nat} {numWorkers : Int}
    (hPlace : (∀ j, run ≠ .inline j) ∧ ∀ j, run ≠ .pushing j)
    (hStarted : run.started cfg = s.run.started cfg)
    (hThreads : threads = (List.range (run.passed cfg)).filter fun j => ¬ cfg.Inline j)
    (hInline : ∀ j, cfg.Inline j → j < run.passed cfg →
      j < s.run.passed cfg ∨ s.servers j = .done)
    (hCounts : numWorkers = s.numWorkers_ + (run.counted cfg - s.run.counted cfg)) :
    State.Core cfg { s with run := run, threads_ := threads, numWorkers_ := numWorkers } := by
  constructor
  · exact hStarted.trans_le h.bounded
  · dsimp only
    rw [hStarted]
    exact h.idle
  · exact ⟨fun j hj => absurd hj (hPlace.1 j), fun j hj => absurd hj (hPlace.2 j)⟩
  · exact hThreads
  · intro j hj hLt
    cases hInline j hj hLt with
    | inl hOld => exact h.inline j hj hOld
    | inr hDone => exact hDone
  · dsimp only
    rw [hCounts, h.counts]
    omega
  · exact h.holds

theorem run (h : s.Core cfg) (hStep : s.stepRun cfg = some s') : s'.Core cfg := by
  have hThreads := h.threads
  cases stepRun_steps hStep with
  | startInline i hRun hi hInline =>
    apply h.start hRun hi rfl rfl rfl
    constructor
    · rintro j ⟨⟩
      exact hInline
    · rintro j ⟨⟩
  | startThread i hRun hi hInline =>
    apply h.start hRun hi rfl rfl rfl
    constructor
    · rintro j ⟨⟩
    · rintro j ⟨⟩
      exact hInline
  | finish i hRun hi =>
    have hAll : s.run = .starting cfg.workers := by
      have hLe := h.bounded
      rw [hRun] at hLe ⊢
      exact congrArg RunPc.starting (Nat.le_antisymm hLe (Nat.not_lt.mp hi))
    rw [hAll] at hThreads
    apply h.advance ⟨by simp, by simp⟩
    · rw [hAll]
      rfl
    · exact hThreads
    · intro j hj hLt
      rw [hAll]
      exact Or.inl hLt
    · rw [hAll]
      simp [RunPc.counted]
  | push i hRun =>
    have hPlace := h.place.2 i hRun
    rw [hRun] at hThreads
    apply h.advance ⟨by simp, by simp⟩
    · rw [hRun]
      rfl
    · dsimp only [RunPc.passed]
      rw [hThreads, filter_range_succ, if_neg hPlace]
      rfl
    · intro j hj hLt
      rw [hRun]
      have hNe : j ≠ i := fun hEq => hPlace (hEq ▸ hj)
      dsimp only [RunPc.passed] at hLt ⊢
      omega
    · rw [hRun]
      simp [RunPc.counted]
  | inlineDone i hRun hDone =>
    have hPlace := h.place.1 i hRun
    rw [hRun] at hThreads
    apply h.advance ⟨by simp, by simp⟩
    · rw [hRun]
      rfl
    · dsimp only [RunPc.passed]
      rw [hThreads, filter_range_succ, if_pos hPlace, List.append_nil]
      rfl
    · intro j hj hLt
      obtain rfl : j = i := hj.2.trans hPlace.2.symm
      exact Or.inr hDone
    · rw [hRun]
      simp [RunPc.counted]
  | count i hRun =>
    rw [hRun] at hThreads
    apply h.advance ⟨by simp, by simp⟩
    · rw [hRun]
      rfl
    · exact hThreads
    · intro j hj hLt
      rw [hRun]
      exact Or.inl hLt
    · rw [hRun]
      simp only [RunPc.counted]
      push_cast
      omega

/-- A call of `wait` has gone on, and `mu_` is its or nobody's. -/
theorem waitOn (h : s.Core cfg) {pc : WaitPc} {mu : Option Nat} {joins : Nat → Nat}
    (hMu : (∀ w', w' ≠ w → (mu = some w' ↔ s.mu_ = some w')) ∧ (mu = some w ↔ pc.Holds)) :
    State.Core cfg { s.setWait w pc with mu_ := mu, joins := joins } := by
  refine ⟨h.bounded, h.idle, h.place, h.threads, h.inline, h.counts, ?_⟩
  apply (Function.forall_update_iff s.waits fun w' pc => mu = some w' ↔ pc.Holds).mpr
  exact ⟨hMu.2, fun w' hw => (hMu.1 w' hw).trans (h.holds w')⟩

theorem lock (h : s.Core cfg) (hFree : s.mu_ = none) :
    State.Core cfg { s.setWait w .testing with mu_ := some w } := by
  refine h.waitOn ⟨?_, ?_⟩
  · intro w' hw
    rw [hFree]
    simp [Ne.symm hw]
  · simp [WaitPc.Holds]

theorem unlock (h : s.Core cfg) (hHolds : (s.waits w).Holds) {pc : WaitPc} (hPc : ¬ pc.Holds)
    {joins : Nat → Nat} :
    State.Core cfg { s.setWait w pc with mu_ := none, joins := joins } := by
  have hMu := (h.holds w).mpr hHolds
  refine h.waitOn ⟨?_, ?_⟩
  · intro w' hw
    rw [hMu]
    simp [Ne.symm hw]
  · simp [hPc]

theorem keep (h : s.Core cfg) {pc : WaitPc} (hPc : pc.Holds ↔ (s.waits w).Holds)
    {joins : Nat → Nat} : State.Core cfg { s.setWait w pc with joins := joins } :=
  h.waitOn ⟨fun _ _ => Iff.rfl, (h.holds w).trans hPc.symm⟩

theorem wait (h : s.Core cfg) (hStep : s.stepWait w = some s') : s'.Core cfg := by
  cases stepWait_steps hStep with
  | stopped hPc => exact h.keep (by simp [hPc, WaitPc.Holds])
  | call hPc => exact h.keep (by simp [hPc, WaitPc.Holds])
  | lock hPc hFree => exact h.lock hFree
  | test hPc => exact h.keep (by simp [hPc, WaitPc.Holds])
  | park hPc => exact h.unlock (by simp [hPc, WaitPc.Holds]) (by simp [WaitPc.Holds])
  | pass hPc => exact h.keep (by simp [hPc, WaitPc.Holds])
  | rejoin t todo hPc => exact h.unlock (by simp [hPc, WaitPc.Holds]) (by simp [WaitPc.Holds])
  | join t todo hPc => exact h.keep (by simp [hPc, WaitPc.Holds])
  | leave hPc => exact h.unlock (by simp [hPc, WaitPc.Holds]) (by simp [WaitPc.Holds])

theorem step {a : Action} (h : s.Core cfg) (hStep : (managing cfg).step s a = some s') :
    s'.Core cfg := by
  cases a with
  | run => exact h.run hStep
  | server i => exact h.moved (stepServer_moved hStep)
  | fail i => exact h.moved (stepFail_moved hStep).2
  | timeout i => exact h.moved (stepTimeout_moved hStep).2
  | event i =>
    cases hStep
    exact h.still ⟨rfl, rfl, rfl, rfl, rfl, rfl, rfl⟩
  | signal i =>
    cases stepSignal_cases hStep with
    | inl hMoved => exact h.moved hMoved.2
    | inr hStill => exact h.still hStill
  | wait w => exact h.wait hStep
  | spurious w =>
    simp only [managing, State.step] at hStep
    split at hStep
    · rename_i hPc
      cases hStep
      exact h.keep (by simp [hPc, WaitPc.Holds])
    · cases hStep
  | close => exact h.still (stepClose_still hStep)

theorem opened (cfg : Config) : State.opened.Core cfg := by
  refine ⟨Nat.zero_le _, ?_, ?_, rfl, ?_, ?_, ?_⟩
  · intro i
    exact iff_of_true rfl (Nat.zero_le i)
  · exact ⟨by rintro j ⟨⟩, by rintro j ⟨⟩⟩
  · intro j _ hLt
    exact absurd hLt (Nat.not_lt_zero j)
  · rw [count_eq_zero]
    · rfl
    · intro i _
      simp [State.opened, WorkerPc.Ended]
  · intro w
    simp [State.opened, WaitPc.Holds]

end State.Core

end CcCommon.Conn.Manager
