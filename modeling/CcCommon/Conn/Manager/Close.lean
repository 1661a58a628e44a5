import CcCommon.Conn.Manager.Invariant

/-! # `close` and the servers it reaches

A signal wakes a server that is blocked in `epoll_wait`; one that is delivered
between the test of `closing()` and `epoll_wait` is lost, and the thread that
called `run` gets none.
-/

namespace CcCommon.Conn.Manager

open Lib.Machine (Leads)

set_option autoImplicit false

variable {cfg : Config} {s s' : State} {i w : Nat}

/-- The server has tested `closing()` and has not come back from `epoll_wait`. -/
def WorkerPc.Past (pc : WorkerPc) : Prop := pc = .entering ∨ pc = .polling

instance : DecidablePred WorkerPc.Past := fun _ => inferInstanceAs (Decidable (_ ∨ _))

/-- No server is blocked for good after `close` has completed and its signals have been delivered. -/
def State.Reached (s : State) : Prop :=
  s.close = .done → (∀ i, s.signals i = false) → ∀ i, s.servers i = .polling → s.events i = true

/-- When `close` begins to send signals, each server past its test is in `threads_` or has an event
to come back for; and a signal that is delivered before `epoll_wait` is not the only thing that
the server would come back for. -/
def Signals (cfg : Config) (s : State) : Action → Prop
  | .close => s.close = .set →
    ∀ i < cfg.workers, (s.servers i).Past → i ∈ s.threads_ ∨ s.events i = true
  | .signal i => s.signals i = true → s.servers i = .entering → s.events i = true
  | _ => True

instance (cfg : Config) (s : State) : DecidablePred (Signals cfg s)
  | .close => inferInstanceAs (Decidable (s.close = .set →
      ∀ i < cfg.workers, (s.servers i).Past → i ∈ s.threads_ ∨ s.events i = true))
  | .signal i =>
    inferInstanceAs (Decidable (s.signals i = true → s.servers i = .entering → s.events i = true))
  | .run | .server _ | .fail _ | .timeout _ | .event _ | .wait _ | .spurious _ => instDecidableTrue

/-- What each server past its test comes back for. -/
def State.Covered (s : State) (todo : List Nat) : Prop :=
  ∀ i, (s.servers i).Past → i ∈ todo ∨ s.signals i = true ∨ s.events i = true

/-- Once `S_STOPPING` is set, it stays set, and no server goes past its test. -/
def State.Closes (s : State) : Prop :=
  match s.close with
  | .idle => s.closing = false
  | .setting => True
  | .set => s.closing = true
  | .signalling todo => s.closing = true ∧ s.Covered todo
  | .done => s.closing = true ∧ s.Covered []

namespace State.Closes

theorem reached (h : s.Closes) : s.Reached := by
  intro hDone hNone i hPolling
  rw [State.Closes, hDone] at h
  cases h.2 i (Or.inr hPolling) with
  | inl hFalse => exact absurd hFalse List.not_mem_nil
  | inr hComes =>
    cases hComes with
    | inl hSignal =>
      rw [hNone i] at hSignal
      cases hSignal
    | inr hEvent => exact hEvent

theorem mono (h : s.Closes) (hClose : s'.close = s.close) (hState : s'.state_ = s.state_)
    (hCovered : s.closing = true → ∀ i, (s'.servers i).Past →
      (s.servers i).Past ∧ (s.signals i = true → s'.signals i = true ∨ s'.events i = true) ∧
        (s.events i = true → s'.events i = true)) : s'.Closes := by
  have hClosing : s'.closing = s.closing := by rw [State.closing, hState, ← State.closing]
  have hAll : ∀ todo, s.closing = true → s.Covered todo → s'.Covered todo := by
    intro todo hSet hOld i hPast
    obtain ⟨hBefore, hSignals, hEvents⟩ := hCovered hSet i hPast
    cases hOld i hBefore with
    | inl hTodo => exact Or.inl hTodo
    | inr hComes => exact Or.inr (hComes.elim hSignals fun hEvent => Or.inr (hEvents hEvent))
  rw [State.Closes, hClose, hClosing]
  rw [State.Closes] at h
  cases hPc : s.close with
  | idle =>
    rw [hPc] at h
    exact h
  | setting => trivial
  | set =>
    rw [hPc] at h
    exact h
  | signalling todo =>
    rw [hPc] at h
    exact ⟨h.1, hAll todo h.1 h.2⟩
  | done =>
    rw [hPc] at h
    exact ⟨h.1, hAll [] h.1 h.2⟩

/-- A server has taken a step, and is past its test only if it was and no event is used up. -/
theorem setServer (h : s.Closes) {pc : WorkerPc}
    (hPc : s.closing = true → pc.Past → (s.servers i).Past) : (s.setServer i pc).Closes := by
  refine h.mono rfl rfl ?_
  intro hSet j hPast
  refine ⟨?_, fun hSignal => Or.inl hSignal, id⟩
  rw [setServer_servers] at hPast
  by_cases hj : j = i
  · subst hj
    rw [Function.update_self] at hPast
    exact hPc hSet hPast
  · rwa [Function.update_of_ne hj] at hPast

theorem aside (h : s.Closes) (hClose : s'.close = s.close) (hState : s'.state_ = s.state_)
    (hServers : s'.servers = s.servers) (hSignals : s'.signals = s.signals)
    (hEvents : s'.events = s.events) : s'.Closes := by
  refine h.mono hClose hState ?_
  rw [hServers, hSignals, hEvents]
  exact fun _ i hPast => ⟨hPast, Or.inl, id⟩

theorem run (h : s.Closes) (hStep : s.stepRun cfg = some s') : s'.Closes := by
  have hStart : ∀ i, (s.setServer i .testing).Closes :=
    fun i => h.setServer fun _ hPast => by simp [WorkerPc.Past] at hPast
  cases stepRun_steps hStep with
  | startInline i hRun hi hInline => exact (hStart i).aside rfl rfl rfl rfl rfl
  | startThread i hRun hi hInline => exact (hStart i).aside rfl rfl rfl rfl rfl
  | finish i hRun hi => exact h.aside rfl rfl rfl rfl rfl
  | push i hRun => exact h.aside rfl rfl rfl rfl rfl
  | inlineDone i hRun hDone => exact h.aside rfl rfl rfl rfl rfl
  | count i hRun => exact h.aside rfl rfl rfl rfl rfl

theorem wait (h : s.Closes) (hStep : s.stepWait w = some s') : s'.Closes := by
  cases stepWait_steps hStep <;> exact h.aside rfl rfl rfl rfl rfl

theorem server (h : s.Closes) (hStep : s.stepServer i = some s') : s'.Closes := by
  unfold stepServer at hStep
  cases hPc : s.servers i with
  | testing =>
    simp only [hPc] at hStep
    split at hStep
    · cases hStep
      exact h.setServer fun _ hPast => by simp [WorkerPc.Past] at hPast
    · rename_i hOpen
      cases hStep
      exact h.setServer fun hSet => absurd hSet hOpen
  | entering =>
    simp only [hPc] at hStep
    cases hStep
    exact h.setServer fun _ _ => Or.inl hPc
  | polling =>
    simp only [hPc] at hStep
    split at hStep
    · cases hStep
      refine h.mono rfl rfl ?_
      intro hSet j hPast
      have hj : j ≠ i := by
        rintro rfl
        simp [WorkerPc.Past] at hPast
      dsimp only [setServer_servers, setServer_signals] at hPast ⊢
      rw [Function.update_of_ne hj] at hPast
      rw [Function.update_of_ne hj]
      exact ⟨hPast, Or.inl, id⟩
    · cases hStep
  | working =>
    simp only [hPc] at hStep
    cases hStep
    exact h.setServer fun _ hPast => by simp [WorkerPc.Past] at hPast
  | finishing =>
    simp only [hPc] at hStep
    cases hStep
    have hSet : (s.setServer i .notifying).Closes :=
      h.setServer fun _ hPast => by simp [WorkerPc.Past] at hPast
    exact hSet.aside rfl rfl rfl rfl rfl
  | notifying =>
    simp only [hPc] at hStep
    cases hStep
    have hSet : (s.setServer i .done).Closes :=
      h.setServer fun _ hPast => by simp [WorkerPc.Past] at hPast
    exact hSet.aside rfl rfl rfl rfl rfl
  | idle =>
    simp only [hPc] at hStep
    cases hStep
  | done =>
    simp only [hPc] at hStep
    cases hStep

theorem fail (h : s.Closes) (hStep : s.stepFail i = some s') : s'.Closes := by
  unfold stepFail at hStep
  split at hStep
  · cases hStep
    exact h.setServer fun _ hPast => by simp [WorkerPc.Past] at hPast
  · cases hStep

theorem timeout (h : s.Closes) (hStep : s.stepTimeout cfg i = some s') : s'.Closes := by
  unfold stepTimeout at hStep
  split at hStep
  · cases hStep
    exact h.setServer fun _ hPast => by simp [WorkerPc.Past] at hPast
  · cases hStep

theorem event (h : s.Closes) (i : Nat) :
    State.Closes { s with events := Function.update s.events i true } := by
  refine h.mono rfl rfl ?_
  intro hSet j hPast
  refine ⟨hPast, Or.inl, ?_⟩
  exact fun hEvent => raised_iff.mpr (Or.inr hEvent)

theorem signal (h : s.Closes)
    (hKept : s.signals i = true → s.servers i = .entering → s.events i = true)
    (hStep : s.stepSignal i = some s') : s'.Closes := by
  unfold stepSignal at hStep
  split at hStep
  · rename_i hSignal
    dsimp only at hStep
    split at hStep
    · cases hStep
      refine h.mono rfl rfl ?_
      intro hSet j hPast
      have hj : j ≠ i := by
        rintro rfl
        simp [WorkerPc.Past] at hPast
      dsimp only [setServer_servers, setServer_signals] at hPast ⊢
      rw [Function.update_of_ne hj] at hPast
      rw [Function.update_of_ne hj]
      exact ⟨hPast, Or.inl, id⟩
    · rename_i hPolling
      cases hStep
      refine h.mono rfl rfl ?_
      intro hSet j hPast
      refine ⟨hPast, ?_, id⟩
      intro hPending
      rcases eq_or_ne j i with rfl | hj
      · exact Or.inr (hKept hSignal (hPast.resolve_right hPolling))
      · exact Or.inl (lowered_iff.mpr ⟨hj, hPending⟩)
  · cases hStep

theorem close (h : s.Closes)
    (hAll : s.close = .set → ∀ i, (s.servers i).Past → i ∈ s.threads_ ∨ s.events i = true)
    (hStep : s.stepClose = some s') : s'.Closes := by
  rw [State.Closes] at h
  unfold stepClose at hStep
  cases hPc : s.close with
  | idle =>
    rw [hPc] at h
    simp only [hPc] at hStep
    split at hStep
    · rename_i hSet
      rw [h] at hSet
      cases hSet
    · cases hStep
      exact trivial
  | setting =>
    simp only [hPc] at hStep
    cases hStep
    exact rfl
  | set =>
    rw [hPc] at h
    simp only [hPc] at hStep
    cases hStep
    refine ⟨h, ?_⟩
    intro i hPast
    exact (hAll hPc i hPast).imp_right Or.inr
  | signalling todo =>
    rw [hPc] at h
    obtain ⟨hSet, hCovered⟩ := h
    cases todo with
    | nil =>
      simp only [hPc] at hStep
      cases hStep
      exact ⟨hSet, hCovered⟩
    | cons t todo =>
      simp only [hPc] at hStep
      cases hStep
      refine ⟨hSet, ?_⟩
      intro i hPast
      cases hCovered i hPast with
      | inl hMem =>
        rcases List.mem_cons.mp hMem with rfl | hTodo
        · exact Or.inr (Or.inl (raised_iff.mpr (Or.inl rfl)))
        · exact Or.inl hTodo
      | inr hComes =>
        exact Or.inr (hComes.imp_left fun hSignal => raised_iff.mpr (Or.inr hSignal))
  | done =>
    simp only [hPc] at hStep
    cases hStep

theorem past_lt (hCore : s.Core cfg) (hPast : (s.servers i).Past) : i < cfg.workers := by
  refine (hCore.started_pos ?_).trans_le hCore.bounded
  intro hIdle
  rw [hIdle] at hPast
  simp [WorkerPc.Past] at hPast

theorem step {a : Action} (h : s.Closes) (hCore : s.Core cfg) (hSignals : Signals cfg s a)
    (hStep : (managing cfg).step s a = some s') : s'.Closes := by
  cases a with
  | run => exact h.run hStep
  | server i => exact h.server hStep
  | fail i => exact h.fail hStep
  | timeout i => exact h.timeout hStep
  | event i =>
    cases hStep
    exact h.event i
  | signal i => exact h.signal hSignals hStep
  | wait w => exact h.wait hStep
  | spurious w =>
    simp only [managing, State.step] at hStep
    split at hStep
    · cases hStep
      exact h.aside rfl rfl rfl rfl rfl
    · cases hStep
  | close =>
    exact h.close (fun hSet i hPast => hSignals hSet i (past_lt hCore hPast) hPast) hStep

end State.Closes

/-! ## How a server is left behind -/

/-- Finitely many threads have a signal pending, and none before `close` begins to send. -/
structure State.Sent (s : State) : Prop where
  finite : ∃ ts : List Nat, ∀ i, s.signals i = true → i ∈ ts
  before : s.close = .idle ∨ s.close = .setting ∨ s.close = .set → ∀ i, s.signals i = false

namespace State.Sent

variable {t : State}

theorem mono (h : s.Sent) (hClose : s'.close = s.close)
    (hSignals : ∀ i, s'.signals i = true → s.signals i = true) : s'.Sent := by
  constructor
  · obtain ⟨ts, hts⟩ := h.finite
    exact ⟨ts, fun i hi => hts i (hSignals i hi)⟩
  · intro hBefore i
    rw [hClose] at hBefore
    cases hSignal : s'.signals i with
    | false => rfl
    | true =>
      rw [← hSignals i hSignal]
      exact h.before hBefore i

theorem server (h : s.Sent) (hStep : s.stepServer i = some s') : s'.Sent := by
  unfold stepServer at hStep
  repeat' split at hStep
  all_goals cases hStep
  all_goals exact h.mono rfl fun _ => id

theorem signal (h : s.Sent) (hStep : s.stepSignal i = some s') : s'.Sent := by
  have hLess : ∀ j, Function.update s.signals i false j = true → s.signals j = true :=
    fun j hSignal => (lowered_iff.mp hSignal).2
  unfold stepSignal at hStep
  split at hStep
  · dsimp only at hStep
    split at hStep
    · cases hStep
      exact h.mono rfl hLess
    · cases hStep
      exact h.mono rfl hLess
  · cases hStep

theorem close (h : s.Sent) (hStep : s.stepClose = some s') : s'.Sent := by
  obtain ⟨ts, hts⟩ := h.finite
  unfold stepClose at hStep
  cases hPc : s.close with
  | idle =>
    have hNone := h.before (Or.inl hPc)
    simp only [hPc] at hStep
    split at hStep
    · cases hStep
      exact ⟨⟨ts, hts⟩, fun _ => hNone⟩
    · cases hStep
      exact ⟨⟨ts, hts⟩, fun _ => hNone⟩
  | setting =>
    simp only [hPc] at hStep
    cases hStep
    exact ⟨⟨ts, hts⟩, fun _ => h.before (Or.inr (Or.inl hPc))⟩
  | set =>
    simp only [hPc] at hStep
    cases hStep
    exact ⟨⟨ts, hts⟩, by simp⟩
  | signalling todo =>
    cases todo with
    | nil =>
      simp only [hPc] at hStep
      cases hStep
      exact ⟨⟨ts, hts⟩, by simp⟩
    | cons t todo =>
      simp only [hPc] at hStep
      cases hStep
      refine ⟨⟨t :: ts, ?_⟩, by simp⟩
      intro i hi
      cases raised_iff.mp hi with
      | inl hEq => exact hEq ▸ List.mem_cons_self
      | inr hOld => exact List.mem_cons_of_mem t (hts i hOld)
  | done =>
    simp only [hPc] at hStep
    cases hStep

theorem step {a : Action} (h : s.Sent) (hStep : (managing cfg).step s a = some s') : s'.Sent := by
  cases a with
  | run => cases stepRun_steps hStep <;> exact h.mono rfl fun _ => id
  | server i => exact h.server hStep
  | fail i =>
    simp only [managing, State.step, stepFail] at hStep
    split at hStep
    · cases hStep
      exact h.mono rfl fun _ => id
    · cases hStep
  | timeout i =>
    simp only [managing, State.step, stepTimeout] at hStep
    split at hStep
    · cases hStep
      exact h.mono rfl fun _ => id
    · cases hStep
  | event i =>
    cases hStep
    exact h.mono rfl fun _ => id
  | signal i => exact h.signal hStep
  | wait w => cases stepWait_steps hStep <;> exact h.mono rfl fun _ => id
  | spurious w =>
    simp only [managing, State.step] at hStep
    split at hStep
    · cases hStep
      exact h.mono rfl fun _ => id
    · cases hStep
  | close => exact h.close hStep

theorem opened : State.opened.Sent := ⟨⟨[], by simp [State.opened]⟩, fun _ _ => rfl⟩

theorem leads (h : s.Sent) (hLeads : (managing cfg).Leads s t) : t.Sent := by
  obtain ⟨as, hRun⟩ := hLeads
  exact Lib.Machine.run_induct (fun _ _ _ hSent hStep => hSent.step hStep) h hRun

end State.Sent

theorem stepSignal_delivers (hSignal : s.signals i = true) : ∃ u, s.stepSignal i = some u ∧
    u.signals = Function.update s.signals i false ∧ u.close = s.close ∧ u.events = s.events ∧
    ∀ j, (j = i → s.servers j ≠ .polling) → u.servers j = s.servers j := by
  by_cases hPc : s.servers i = .polling
  · refine ⟨State.setServer { s with signals := Function.update s.signals i false } i .working,
      ?_, rfl, rfl, rfl, ?_⟩
    · simp [State.stepSignal, hSignal, hPc]
    · intro j hj
      exact Function.update_of_ne (fun hEq => hj hEq (hEq ▸ hPc)) _ _
  · refine ⟨{ s with signals := Function.update s.signals i false }, ?_, rfl, rfl, rfl, ?_⟩
    · simp [State.stepSignal, hSignal, hPc]
    · exact fun _ _ => rfl

/-- All signals can be delivered, and only a server that has one and is polling goes on. -/
theorem delivers (cfg : Config) (ts : List Nat) (hts : ∀ i, s.signals i = true → i ∈ ts) :
    ∃ t, (managing cfg).Leads s t ∧ (∀ i, t.signals i = false) ∧ t.close = s.close ∧
      t.events = s.events ∧
      ∀ i, s.servers i ≠ .polling ∨ s.signals i = false → t.servers i = s.servers i := by
  induction ts generalizing s with
  | nil =>
    refine ⟨s, Leads.refl s, ?_, rfl, rfl, fun _ _ => rfl⟩
    intro i
    cases hSignal : s.signals i with
    | false => rfl
    | true => exact absurd (hts i hSignal) List.not_mem_nil
  | cons j ts ih =>
    cases hSignal : s.signals j with
    | false =>
      apply ih
      intro i hi
      apply List.mem_of_ne_of_mem _ (hts i hi)
      rintro rfl
      rw [hi] at hSignal
      cases hSignal
    | true =>
      obtain ⟨u, hStep, hSignals, hClose, hEvents, hServers⟩ := stepSignal_delivers hSignal
      have hTaken : (managing cfg).step s (.signal j) = some u := hStep
      have hRest : ∀ i, u.signals i = true → i ∈ ts := by
        intro i hi
        rw [hSignals] at hi
        obtain ⟨hNe, hOld⟩ := State.lowered_iff.mp hi
        exact List.mem_of_ne_of_mem hNe (hts i hOld)
      obtain ⟨t, hLeads, hNone, hClose', hEvents', hServers'⟩ := ih hRest
      refine ⟨t, Leads.head hTaken hLeads, hNone, hClose'.trans hClose,
        hEvents'.trans hEvents, ?_⟩
      intro i hi
      have hKept : u.servers i = s.servers i := by
        apply hServers
        rintro rfl
        rw [hSignal] at hi
        exact hi.resolve_right (by simp)
      rw [hServers' i, hKept]
      rw [hKept]
      apply hi.imp_right
      intro hFalse
      rw [hSignals, Function.update_apply]
      split
      · rfl
      · exact hFalse

/-- `close` can send all its signals at once. -/
theorem sends (cfg : Config) (todo : List Nat) (hClose : s.close = .signalling todo) :
    ∃ t, (managing cfg).Leads s t ∧ t.close = .done ∧ t.servers = s.servers ∧
      t.events = s.events ∧ ∀ i, i ∉ todo → t.signals i = s.signals i := by
  induction todo generalizing s with
  | nil =>
    refine ⟨{ s with close := .done }, Leads.single (a := .close) ?_, rfl, rfl, rfl,
      fun _ _ => rfl⟩
    simp [managing, State.step, State.stepClose, hClose]
  | cons j todo ih =>
    obtain ⟨t, hLeads, hDone, hServers, hEvents, hSignals⟩ := ih (s := { s with
      signals := Function.update s.signals j true, close := .signalling todo }) rfl
    refine ⟨t, Leads.head (a := .close) ?_ hLeads, hDone, hServers, hEvents, ?_⟩
    · simp [managing, State.step, State.stepClose, hClose]
    · intro i hi
      rw [hSignals i (List.not_mem_of_not_mem_cons hi)]
      exact Function.update_of_ne (List.ne_of_not_mem_cons hi) _ _

/-- `close` can be called and complete before anyone else goes on. -/
theorem completes (cfg : Config) (s : State) : ∃ t, (managing cfg).Leads s t ∧ t.close = .done ∧
    t.servers = s.servers ∧ t.events = s.events := by
  have hSignalling : ∀ (u : State) (todo : List Nat), u.close = .signalling todo →
      ∃ t, (managing cfg).Leads u t ∧ t.close = .done ∧ t.servers = u.servers ∧
        t.events = u.events := by
    intro u todo hPc
    obtain ⟨t, hLeads, hDone, hServers, hEvents, -⟩ := sends cfg todo hPc
    exact ⟨t, hLeads, hDone, hServers, hEvents⟩
  have hSet : ∀ u : State, u.close = .set → ∃ t, (managing cfg).Leads u t ∧ t.close = .done ∧
      t.servers = u.servers ∧ t.events = u.events := by
    intro u hPc
    apply Leads.exists_head (a := .close) (t := { u with close := .signalling u.threads_ })
    · simp [managing, State.step, State.stepClose, hPc]
    · exact hSignalling _ u.threads_ rfl
  have hSetting : ∀ u : State, u.close = .setting → ∃ t, (managing cfg).Leads u t ∧
      t.close = .done ∧ t.servers = u.servers ∧ t.events = u.events := by
    intro u hPc
    apply Leads.exists_head (a := .close) (t := { u with state_ := .S_STOPPING, close := .set })
    · simp [managing, State.step, State.stepClose, hPc]
    · exact hSet _ rfl
  cases hPc : s.close with
  | idle =>
    cases hClosing : s.closing with
    | true =>
      refine ⟨{ s with close := .done }, Leads.single (a := .close) ?_, rfl, rfl, rfl⟩
      simp [managing, State.step, State.stepClose, hPc, hClosing]
    | false =>
      apply Leads.exists_head (a := .close) (t := { s with close := .setting })
      · simp [managing, State.step, State.stepClose, hPc, hClosing]
      · exact hSetting _ rfl
  | setting => exact hSetting s hPc
  | set => exact hSet s hPc
  | signalling todo => exact hSignalling s todo hPc
  | done => exact ⟨s, Leads.refl s, hPc, rfl, rfl⟩

theorem not_reached (hDone : s.close = .done) (hNone : ∀ i, s.signals i = false)
    (hPolling : s.servers i = .polling) (hEvent : s.events i = false) : ¬ s.Reached := by
  intro hReached
  rw [hReached hDone hNone i hPolling] at hEvent
  cases hEvent

/-- Between its test and `epoll_wait` a server does not see `close`. -/
theorem entering_misses (hSent : s.Sent) (hPc : s.servers i = .entering)
    (hEvent : s.events i = false) : ∃ u, (managing cfg).Leads s u ∧ ¬ u.Reached := by
  obtain ⟨t, hClosed, hDone, hServers, hEvents⟩ := completes cfg s
  obtain ⟨ts, hts⟩ := (hSent.leads hClosed).finite
  obtain ⟨u, hDelivered, hNone, hClose, hEvents', hServers'⟩ := delivers cfg ts hts
  have hEntering : u.servers i = .entering := by
    rw [hServers' i, hServers, hPc]
    rw [hServers, hPc]
    exact Or.inl (by simp)
  refine ⟨u.setServer i .polling, (hClosed.trans hDelivered).trans
    (Leads.single (a := .server i) ?_), ?_⟩
  · simp [managing, State.step, State.stepServer, hEntering]
  · apply not_reached (i := i)
    · exact hClose.trans hDone
    · exact hNone
    · exact Function.update_self _ _ _
    · rw [State.setServer_events, hEvents', hEvents]
      exact hEvent

/-- A server that `close` sends no signal stays blocked. -/
theorem polling_misses {todo : List Nat} (hSent : s.Sent) (hClose : s.close = .signalling todo)
    (hi : i ∉ todo) (hSignal : s.signals i = false) (hPc : s.servers i = .polling)
    (hEvent : s.events i = false) : ∃ u, (managing cfg).Leads s u ∧ ¬ u.Reached := by
  obtain ⟨t, hClosed, hDone, hServers, hEvents, hSignals⟩ := sends cfg todo hClose
  obtain ⟨ts, hts⟩ := (hSent.leads hClosed).finite
  obtain ⟨u, hDelivered, hNone, hClose', hEvents', hServers'⟩ := delivers cfg ts hts
  refine ⟨u, hClosed.trans hDelivered, ?_⟩
  apply not_reached (i := i)
  · exact hClose'.trans hDone
  · exact hNone
  · rw [hServers' i, hServers, hPc]
    exact Or.inr ((hSignals i hi).trans hSignal)
  · rw [hEvents', hEvents]
    exact hEvent

theorem misses_of_not {a : Action} (hSent : s.Sent) (hNot : ¬ Signals cfg s a)
    (hStep : (managing cfg).step s a = some s') :
    ∃ u, (managing cfg).Leads s' u ∧ ¬ u.Reached := by
  have hSent' := hSent.step hStep
  cases a with
  | close =>
    simp only [Signals] at hNot
    push Not at hNot
    obtain ⟨hSet, i, -, hPast, hThread, hEvent⟩ := hNot
    have hNoEvent : s.events i = false := Bool.eq_false_of_not_eq_true hEvent
    simp only [managing, State.step, State.stepClose, hSet] at hStep
    cases hStep
    cases hPast with
    | inl hEntering => exact entering_misses hSent' hEntering hNoEvent
    | inr hPolling =>
      exact polling_misses hSent' rfl hThread (hSent.before (Or.inr (Or.inr hSet)) i) hPolling
        hNoEvent
  | signal i =>
    simp only [Signals] at hNot
    push Not at hNot
    obtain ⟨-, hEntering, hEvent⟩ := hNot
    simp only [managing, State.step, State.stepSignal, hEntering] at hStep
    split at hStep
    · cases hStep
      exact entering_misses hSent' hEntering (Bool.eq_false_of_not_eq_true hEvent)
    · cases hStep
  | _ => exact absurd trivial hNot

/-- In every run in which `close` sends a signal to each server past its test that has no event, and
no such signal is delivered before `epoll_wait`, every server comes back. After a step that differs,
a run can go on so that a server is blocked for good. -/
theorem close_reaches {as : List Action} (hRun : (managing cfg).run .opened as = some s) :
    ((managing cfg).EachStep (Signals cfg) .opened as →
      (managing cfg).Throughout State.Reached .opened as) ∧
    (∀ done a t, done ++ [a] <+: as → (managing cfg).run .opened done = some t →
      ¬ Signals cfg t a → ∃ t' u, (managing cfg).step t a = some t' ∧
        (managing cfg).Leads t' u ∧ ¬ u.Reached) := by
  constructor
  · intro hSignals
    have hBoth : (managing cfg).Throughout (fun t => t.Core cfg ∧ t.Closes) .opened as := by
      refine hSignals.throughout ?_ ⟨State.Core.opened cfg, rfl⟩
      rintro u a u' ⟨hCore, hCloses⟩ hStepSignals hStep
      exact ⟨hCore.step hStep, hCloses.step hCore hStepSignals hStep⟩
    exact fun done hDone t ht => (hBoth done hDone t ht).2.reached
  · intro done a t hDone ht hBad
    obtain ⟨t', hStep⟩ := Lib.Machine.exists_step hRun hDone ht
    obtain ⟨u, hLeads, hMissed⟩ := misses_of_not (State.Sent.opened.leads ⟨done, ht⟩) hBad hStep
    exact ⟨t', u, hStep, hLeads, hMissed⟩

theorem close_reaches_polling :
    (managing ⟨1, -1, false⟩).Throughout State.Reached .opened [.run, .run, .run, .run, .server 0,
      .server 0, .close, .close, .close, .close, .signal 0, .server 0, .server 0, .close] :=
  (close_reaches rfl).1 (by decide)

/-- The signal is delivered between the test of `closing()` and `epoll_wait`; and the server in the
thread of `run` gets no signal. -/
theorem close_misses :
    (∃ s, (managing ⟨1, -1, false⟩).run .opened [.run, .run, .run, .run, .server 0, .close, .close,
        .close, .close, .close, .signal 0, .server 0] = some s ∧
      s.close = .done ∧ s.servers 0 = .polling ∧ ¬ s.Reached) ∧
    (∃ s, (managing ⟨1, -1, true⟩).run .opened [.run, .server 0, .server 0, .close, .close, .close,
        .close] = some s ∧
      s.close = .done ∧ s.servers 0 = .polling ∧ ¬ s.Reached) := by
  constructor
  · refine ⟨_, rfl, rfl, rfl, ?_⟩
    intro hReached
    have hEvent := hReached rfl ?_ 0 rfl
    · cases hEvent
    · intro i
      cases i <;> rfl
  · refine ⟨_, rfl, rfl, rfl, ?_⟩
    intro hReached
    have hEvent := hReached rfl (fun _ => rfl) 0 rfl
    cases hEvent

end CcCommon.Conn.Manager
