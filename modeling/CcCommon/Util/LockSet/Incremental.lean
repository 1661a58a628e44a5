import CcCommon.Util.LockSet.Invariant

/-! # One client that calls locksFor again and again

It is alone, so what it waits for it holds itself. Equal keys are told apart
from others only within one list: a key that an earlier list had too is
registered, and locked, once more.
-/

namespace CcCommon.Util.LockSet

set_option autoImplicit false

/-! ## A client comes to an end unless it is blocked -/

/-- A bound on the steps that are left. -/
def stepsLeft (cl : Client) : Nat :=
  let calls := (cl.calls.map fun keys => 4 * keys.length + 3).sum
  let n := cl.locks_.length
  match cl.pc with
  | .ready => calls + 2 * n + 2
  | .loop todo _ initsz => calls + 2 * n + 4 * todo.length + (n - initsz) + 4
  | .locking i => calls + 2 * n + (n - i) + 3
  | .unlocking i => 2 * (n - i) + 1
  | .counting i => 2 * (n - i)
  | .gone => 0

theorem stepsLeft_lt {s s' : State Unit} {c : Unit} (h : step s c = some s') :
    stepsLeft (s'.clients ()) < stepsLeft (s.clients ()) := by
  cases step_cases h with
  | enter keys calls locks_ hAt hFree =>
    simp [hAt, stepsLeft, sort]
    omega
  | skip calls locks_ key todo last initsz hAt hSkip =>
    simp only [hAt, stepsLeft, setClient_clients, Function.update_self, List.length_cons]
    omega
  | register calls locks_ key todo last initsz hAt hKey =>
    simp only [hAt, stepsLeft, setClient_clients, Function.update_self, List.length_cons,
      List.length_append, List.length_nil]
    omega
  | leave calls locks_ last initsz hAt =>
    simp only [hAt, stepsLeft, setClient_clients, Function.update_self]
    omega
  | lock calls locks_ i l hAt hl hFree =>
    have hLess := (List.getElem?_eq_some_iff.mp hl).1
    simp only [hAt, stepsLeft, setClient_clients, setLock_clients, Function.update_self]
    omega
  | finish calls locks_ i hAt hEnd =>
    simp only [hAt, stepsLeft, setClient_clients, Function.update_self]
    omega
  | destroy locks_ hAt =>
    simp only [hAt, stepsLeft, setClient_clients, Function.update_self]
    omega
  | unlock calls locks_ i l hAt hl =>
    simp only [hAt, stepsLeft, setClient_clients, setLock_clients, Function.update_self]
    omega
  | count calls locks_ i l hAt hl =>
    have hLess := (List.getElem?_eq_some_iff.mp hl).1
    simp only [hAt, stepsLeft, setClient_clients, setLock_clients, Function.update_self]
    omega
  | clear calls locks_ i hAt hEnd =>
    simp only [hAt, stepsLeft, setClient_clients, Function.update_self]
    omega

/-! ## What the client holds -/

/-- The keys that `calls` register. -/
def allKeys (calls : List (List Key)) : List Key := calls.flatMap distinctKeys

theorem allKeys_concat (made : List (List Key)) (args : List Key) :
    allKeys (made ++ [args]) = allKeys made ++ distinctKeys args := by
  rw [allKeys, List.flatMap_append, List.flatMap_singleton]
  rfl

/-- Before the LockSetLock is destroyed: which calls were made, and the Locks of their keys. -/
inductive Appends (m_ : List (Key × Nat)) (calls : List (List Key)) : Client → Prop where
  | ready (made rest : List (List Key)) (locks_ : List Nat) (hCalls : calls = made ++ rest)
      (hLocks : List.Forall₂ (Maps m_) (allKeys made) locks_) : Appends m_ calls ⟨rest, locks_, .ready⟩
  | loop (made rest : List (List Key)) (args done todo : List Key) (last : Key) (locks_ : List Nat)
      (initsz : Nat) (hCalls : calls = made ++ args :: rest)
      (hKeys : distinctKeys args = done ++ wanted todo last)
      (hLocks : List.Forall₂ (Maps m_) (allKeys made ++ done) locks_)
      (hInit : initsz ≤ locks_.length) : Appends m_ calls ⟨rest, locks_, .loop todo last initsz⟩
  | locking (made rest : List (List Key)) (locks_ : List Nat) (i : Nat) (hCalls : calls = made ++ rest)
      (hLocks : List.Forall₂ (Maps m_) (allKeys made) locks_) (hi : i ≤ locks_.length) :
      Appends m_ calls ⟨rest, locks_, .locking i⟩

/-- What the client holds, it holds once, as its mutexes are not recursive. -/
structure Holding (calls : List (List Key)) (s : State Unit) : Prop where
  stage : Appends s.m_ calls (s.clients ())
  addr : ∀ k l, Maps s.m_ k l → l < s.fresh
  inj : Injective s.m_
  loop : s.mu_ = none ↔ (s.clients ()).pc.inLoop = false
  owner : ∀ l, (s.heap l).mu_ = some () ↔ l ∈ held (s.clients ())
  once : (held (s.clients ())).Nodup

/-- While the LockSetLock is destroyed, and after. -/
def Releasing (cl : Client) : Prop :=
  match cl.pc with
  | .unlocking _ => True
  | .counting i => i < cl.locks_.length
  | .gone => True
  | .ready | .loop _ _ _ | .locking _ => False

/-- The LockSetLock is destroyed only if no key was registered twice. -/
inductive SoloInv (calls : List (List Key)) (s : State Unit) : Prop where
  | holding (h : Holding calls s)
  | releasing (hNodup : (allKeys calls).Nodup) (h : Releasing (s.clients ()))

theorem nodup_of_maps {m_ : List (Key × Nat)} {ks : List Key} {locks_ : List Nat}
    (h : List.Forall₂ (Maps m_) ks locks_) (hLocks : locks_.Nodup) : ks.Nodup := by
  induction h with
  | nil => exact List.nodup_nil
  | @cons k l ks locks_ hMaps hRest ih =>
    obtain ⟨hl, hLocks⟩ := List.nodup_cons.mp hLocks
    refine List.nodup_cons.mpr ⟨?_, ih hLocks⟩
    intro hk
    obtain ⟨l', hl', hMaps'⟩ := mem_of_maps hRest hk
    obtain rfl := Option.some.inj (hMaps.symm.trans hMaps')
    exact hl hl'

variable {calls : List (List Key)} {s s' : State Unit} {cl : Client}

/-- A step that touches no Lock and leaves what is held. -/
theorem Holding.quiet (h : Holding calls s) {mu_ : Option Unit} (hStage : Appends s.m_ calls cl)
    (hLoop : mu_ = none ↔ cl.pc.inLoop = false) (hHeld : held cl = held (s.clients ())) :
    Holding calls { s.setClient () cl with mu_ := mu_ } where
  stage := by
    rw [setClient_clients, Function.update_self]
    exact hStage
  addr := h.addr
  inj := h.inj
  loop := by
    rw [setClient_clients, Function.update_self]
    exact hLoop
  owner := by
    intro l
    rw [setClient_clients, Function.update_self, hHeld]
    exact h.owner l
  once := by
    rw [setClient_clients, Function.update_self, hHeld]
    exact h.once

theorem Holding.enter {keys : List Key} {rest : List (List Key)} {locks_ : List Nat}
    (h : Holding calls s) (hAt : s.clients () = ⟨keys :: rest, locks_, .ready⟩) :
    Holding calls { s.setClient () ⟨rest, locks_, .loop (sort keys) [] locks_.length⟩ with
      mu_ := some () } := by
  have hStage := h.stage
  rw [hAt] at hStage
  cases hStage with
  | ready made _ _ hCalls hLocks =>
    apply h.quiet
    · exact .loop made rest keys [] (sort keys) [] locks_ locks_.length hCalls rfl
        (by rwa [List.append_nil]) (Nat.le_refl _)
    · simp [Pc.inLoop]
    · rw [hAt]
      exact List.take_length

theorem Holding.skip {key last : Key} {todo : List Key} {rest : List (List Key)}
    {locks_ : List Nat} {initsz : Nat} (h : Holding calls s)
    (hAt : s.clients () = ⟨rest, locks_, .loop (key :: todo) last initsz⟩)
    (hSkip : key = [] ∨ key = last) :
    Holding calls (s.setClient () ⟨rest, locks_, .loop todo last initsz⟩) := by
  have hStage := h.stage
  have hLoop := h.loop
  rw [hAt] at hStage hLoop
  cases hStage with
  | loop made _ args done _ _ _ _ hCalls hKeys hLocks hInit =>
    rw [wanted_skip hSkip] at hKeys
    apply h.quiet
    · exact .loop made rest args done todo last locks_ initsz hCalls hKeys hLocks hInit
    · exact hLoop
    · rw [hAt]
      rfl

theorem Holding.leave {last : Key} {rest : List (List Key)} {locks_ : List Nat} {initsz : Nat}
    (h : Holding calls s) (hAt : s.clients () = ⟨rest, locks_, .loop [] last initsz⟩) :
    Holding calls { s.setClient () ⟨rest, locks_, .locking initsz⟩ with mu_ := none } := by
  have hStage := h.stage
  rw [hAt] at hStage
  cases hStage with
  | loop made _ args done _ _ _ _ hCalls hKeys hLocks hInit =>
    rw [wanted, List.append_nil] at hKeys
    rw [← hKeys, ← allKeys_concat] at hLocks
    apply h.quiet
    · exact .locking (made ++ [args]) rest locks_ initsz (by rw [hCalls]; simp) hLocks hInit
    · simp [Pc.inLoop]
    · rw [hAt]
      rfl

theorem Holding.finish {rest : List (List Key)} {locks_ : List Nat} {i : Nat}
    (h : Holding calls s) (hAt : s.clients () = ⟨rest, locks_, .locking i⟩)
    (hEnd : locks_[i]? = none) : Holding calls (s.setClient () ⟨rest, locks_, .ready⟩) := by
  have hStage := h.stage
  have hLoop := h.loop
  rw [hAt] at hStage hLoop
  cases hStage with
  | locking made _ _ _ hCalls hLocks hi =>
    apply h.quiet
    · exact .ready made rest locks_ hCalls hLocks
    · exact hLoop
    · rw [hAt]
      exact (List.take_of_length_le (List.getElem?_eq_none_iff.mp hEnd)).symm

theorem Holding.lock {rest : List (List Key)} {locks_ : List Nat} {i l : Nat}
    (h : Holding calls s) (hAt : s.clients () = ⟨rest, locks_, .locking i⟩)
    (hl : locks_[i]? = some l) (hFree : (s.heap l).mu_ = none) :
    Holding calls ((s.setLock l { s.heap l with mu_ := some () }).setClient ()
      ⟨rest, locks_, .locking (i + 1)⟩) := by
  have hStage := h.stage
  have hLoop := h.loop
  have hOwner := h.owner
  have hOnce := h.once
  rw [hAt] at hStage hLoop hOwner hOnce
  have hHeld : held ⟨rest, locks_, .locking (i + 1)⟩ = held ⟨rest, locks_, .locking i⟩ ++ [l] :=
    take_step hl
  cases hStage with
  | locking made _ _ _ hCalls hLocks hi =>
    refine ⟨?_, h.addr, h.inj, ?_, ?_, ?_⟩
    · rw [setClient_clients, Function.update_self]
      exact .locking made rest locks_ (i + 1) hCalls hLocks (List.getElem?_eq_some_iff.mp hl).1
    · rw [setClient_clients, Function.update_self]
      exact hLoop
    · intro l'
      rw [setClient_clients, Function.update_self, hHeld, setClient_heap]
      refine forall_setLock (P := fun l' lk => lk.mu_ = some () ↔
        l' ∈ held ⟨rest, locks_, .locking i⟩ ++ [l]) ?_ ?_ l'
      · simp
      · intro l' hNe
        simp [hOwner l', hNe]
    · rw [setClient_clients, Function.update_self, hHeld]
      have hNew : l ∉ held ⟨rest, locks_, .locking i⟩ := by
        rw [← hOwner, hFree]
        simp
      have hConcat := hOnce.concat hNew
      rwa [List.concat_eq_append] at hConcat

theorem Appends.maps {m_ : List (Key × Nat)} (h : Appends m_ calls cl) {l : Nat}
    (hl : l ∈ cl.locks_) : ∃ k, Maps m_ k l := by
  cases h with
  | ready made rest locks_ hCalls hLocks =>
    obtain ⟨k, -, hk⟩ := maps_of_mem hLocks hl
    exact ⟨k, hk⟩
  | loop made rest args done todo last locks_ initsz hCalls hKeys hLocks hInit =>
    obtain ⟨k, -, hk⟩ := maps_of_mem hLocks hl
    exact ⟨k, hk⟩
  | locking made rest locks_ i hCalls hLocks hi =>
    obtain ⟨k, -, hk⟩ := maps_of_mem hLocks hl
    exact ⟨k, hk⟩

/-- `lockFor` leaves every mutex as it is, and makes a new one that is free. -/
theorem Holding.registers_mu (h : Holding calls s) {key : Key} {l₀ : Nat}
    (hSpec : Registers s key l₀ s') (l : Nat) :
    (s'.heap l).mu_ = some () ↔ l ∈ held (s.clients ()) := by
  rw [← h.owner]
  by_cases hl : l = l₀
  · rw [hl]
    cases hLookup : s.m_.lookup key with
    | none =>
      have hNew : l₀ ∉ held (s.clients ()) := by
        intro hMem
        obtain ⟨k, hk⟩ := h.stage.maps (held_subset hMem)
        have hOld := h.addr k l₀ hk
        rw [(hSpec.fresh hLookup).1] at hOld
        exact lt_irrefl _ hOld
      rw [hSpec.first hLookup, h.owner]
      exact iff_of_false (by simp) hNew
    | some l' =>
      obtain rfl := hSpec.keeps l' hLookup
      rw [hSpec.count hLookup]
  · rw [hSpec.heap l hl]

theorem Holding.register {key last : Key} {todo : List Key} {rest : List (List Key)}
    {locks_ : List Nat} {initsz l₀ : Nat} (h : Holding calls s) (hSpec : Registers s key l₀ s')
    (hAt : s.clients () = ⟨rest, locks_, .loop (key :: todo) last initsz⟩)
    (hKey : ¬(key = [] ∨ key = last)) :
    Holding calls (s'.setClient () ⟨rest, locks_ ++ [l₀], .loop todo key initsz⟩) := by
  have hStage := h.stage
  have hLoop := h.loop
  rw [hAt] at hStage hLoop
  cases hStage with
  | loop made _ args done _ _ _ _ hCalls hKeys hLocks hInit =>
    rw [wanted_take hKey] at hKeys
    have hHeld : held ⟨rest, locks_ ++ [l₀], .loop todo key initsz⟩ = held (s.clients ()) := by
      rw [hAt]
      exact List.take_append_of_le_length hInit
    refine ⟨?_, hSpec.addr h.addr, hSpec.injective h.addr h.inj, ?_, ?_, ?_⟩
    · rw [setClient_clients, Function.update_self]
      apply Appends.loop made rest args (done ++ [key]) todo key _ initsz hCalls
      · rw [hKeys, List.append_assoc]
        rfl
      · rw [← List.append_assoc]
        exact List.rel_append (hLocks.imp hSpec.maps) (.cons hSpec.found .nil)
      · rw [List.length_append]
        exact Nat.le_add_right_of_le hInit
    · rw [setClient_clients, Function.update_self, setClient_mu_, hSpec.mu_]
      exact hLoop
    · intro l
      rw [setClient_clients, Function.update_self, hHeld, setClient_heap]
      exact h.registers_mu hSpec l
    · rw [setClient_clients, Function.update_self, hHeld]
      exact h.once

/-- At `ready` all that was registered is held, so nothing was registered twice. -/
theorem Holding.nodup {made rest : List (List Key)} {locks_ : List Nat} (h : Holding calls s)
    (hAt : s.clients () = ⟨rest, locks_, .ready⟩)
    (hLocks : List.Forall₂ (Maps s.m_) (allKeys made) locks_) : (allKeys made).Nodup := by
  have hOnce := h.once
  rw [hAt] at hOnce
  exact nodup_of_maps hLocks hOnce

theorem Holding.destroy {locks_ : List Nat} (h : Holding calls s)
    (hAt : s.clients () = ⟨[], locks_, .ready⟩) : (allKeys calls).Nodup := by
  have hStage := h.stage
  rw [hAt] at hStage
  cases hStage with
  | ready made _ _ hCalls hLocks =>
    rw [List.append_nil] at hCalls
    rw [hCalls]
    exact h.nodup hAt hLocks

theorem SoloInv.step {c : Unit} (h : SoloInv calls s) (hStep : step s c = some s') :
    SoloInv calls s' := by
  cases h with
  | holding h =>
    have hStage := h.stage
    cases step_cases hStep with
    | enter keys rest locks_ hAt hFree => exact .holding (h.enter hAt)
    | skip rest locks_ key todo last initsz hAt hSkip => exact .holding (h.skip hAt hSkip)
    | register rest locks_ key todo last initsz hAt hKey =>
      exact .holding (h.register (lockFor_spec s key) hAt hKey)
    | leave rest locks_ last initsz hAt => exact .holding (h.leave hAt)
    | lock rest locks_ i l hAt hl hFree => exact .holding (h.lock hAt hl hFree)
    | finish rest locks_ i hAt hEnd => exact .holding (h.finish hAt hEnd)
    | destroy locks_ hAt =>
      refine .releasing (h.destroy hAt) ?_
      rw [setClient_clients, Function.update_self]
      trivial
    | unlock rest locks_ i l hAt hl =>
      rw [hAt] at hStage
      cases hStage
    | count rest locks_ i l hAt hl =>
      rw [hAt] at hStage
      cases hStage
    | clear rest locks_ i hAt hEnd =>
      rw [hAt] at hStage
      cases hStage
  | releasing hNodup h =>
    refine .releasing hNodup ?_
    cases step_cases hStep with
    | unlock rest locks_ i l hAt hl =>
      rw [setClient_clients, Function.update_self]
      exact (List.getElem?_eq_some_iff.mp hl).1
    | count rest locks_ i l hAt hl =>
      rw [setClient_clients, Function.update_self]
      trivial
    | clear rest locks_ i hAt hEnd =>
      rw [setClient_clients, Function.update_self]
      trivial
    | enter _ _ _ hAt | skip _ _ _ _ _ _ hAt | register _ _ _ _ _ _ hAt | leave _ _ _ _ hAt
    | lock _ _ _ _ hAt | finish _ _ _ hAt | destroy _ hAt =>
      rw [hAt] at h
      exact h.elim

theorem solo_inv (h : (machine fun _ : Unit => calls).Reachable s) : SoloInv calls s := by
  refine h.induct ?_ fun _ _ _ hInv hStep => hInv.step hStep
  rintro _ rfl
  refine .holding ⟨.ready [] calls [] rfl .nil, ?_, ?_, ?_, ?_, List.nodup_nil⟩
  · intro k l hk
    cases hk
  · intro k k' l hk
    cases hk
  · exact iff_of_true rfl rfl
  · intro l
    simp [start, held]

theorem nodup_allKeys_iff : (allKeys calls).Nodup ↔
    calls.Pairwise fun keys keys' => ∀ k ∈ keys, k ∈ keys' → k = [] := by
  rw [allKeys, List.nodup_flatMap]
  constructor
  · rintro ⟨-, hDisjoint⟩
    apply hDisjoint.imp
    intro keys keys' hKeys k hk hk'
    by_contra hNe
    exact hKeys (mem_distinctKeys.mpr ⟨hk, hNe⟩) (mem_distinctKeys.mpr ⟨hk', hNe⟩)
  · intro hDisjoint
    refine ⟨fun keys _ => distinctKeys_nodup keys, hDisjoint.imp ?_⟩
    intro keys keys' hKeys k hk hk'
    obtain ⟨hMem, hNe⟩ := mem_distinctKeys.mp hk
    exact hNe (hKeys k hMem (mem_distinctKeys.mp hk').1)

theorem mem_allKeys {k : Key} : k ∈ allKeys calls ↔ k ∈ calls.flatten ∧ k ≠ [] := by
  simp only [allKeys, List.mem_flatMap, mem_distinctKeys, List.mem_flatten]
  constructor
  · rintro ⟨keys, hKeys, hk, hNe⟩
    exact ⟨⟨keys, hKeys, hk⟩, hNe⟩
  · rintro ⟨⟨keys, hKeys, hk⟩, hNe⟩
    exact ⟨keys, hKeys, hk, hNe⟩

/-! ## No call blocks -/

theorem Holding.can_step (h : Holding calls s) (hNodup : (allKeys calls).Nodup) :
    (step s ()).isSome := by
  have hStage := h.stage
  have hLoop := h.loop
  generalize hAt : s.clients () = cl at hStage hLoop
  cases hStage with
  | ready made rest locks_ hCalls hLocks =>
    rw [step, hAt]
    cases rest with
    | nil => rfl
    | cons keys rest =>
      dsimp only
      rw [if_pos (hLoop.mpr rfl)]
      rfl
  | loop made rest args done todo last locks_ initsz hCalls hKeys hLocks hInit =>
    rw [step.eq_def, hAt]
    cases todo with
    | nil => cases rest <;> rfl
    | cons key todo =>
      cases rest
      all_goals
        dsimp only
        split <;> rfl
  | locking made rest locks_ i hCalls hLocks hi =>
    have hFree : ∀ l, locks_[i]? = some l → (s.heap l).mu_ = none := by
      intro l hl
      have hMade : (allKeys made).Nodup := by
        rw [hCalls, allKeys, List.flatMap_append] at hNodup
        exact (List.nodup_append.mp hNodup).1
      have hTake := (maps_nodup h.inj hLocks hMade).sublist (List.take_sublist (i + 1) locks_)
      rw [take_step hl] at hTake
      by_contra hSome
      obtain ⟨c, hc⟩ := Option.ne_none_iff_exists'.mp hSome
      have hHeld := (h.owner l).mp hc
      rw [hAt] at hHeld
      exact (List.nodup_append.mp hTake).2.2 l hHeld l List.mem_cons_self rfl
    rw [step.eq_def, hAt]
    cases rest
    all_goals
      dsimp only
      split
      · rename_i l hl
        rw [if_pos (hFree l hl)]
        rfl
      · rfl

theorem Releasing.can_step (h : Releasing (s.clients ())) (hLive : (s.clients ()).pc ≠ .gone) :
    (step s ()).isSome := by
  generalize hAt : s.clients () = cl at h hLive
  obtain ⟨rest, locks_, pc⟩ := cl
  rw [step.eq_def, hAt]
  cases pc with
  | ready => exact h.elim
  | loop todo last initsz => exact h.elim
  | locking i => exact h.elim
  | unlocking i =>
    cases rest
    all_goals
      dsimp only
      split <;> rfl
  | counting i =>
    have hLess : i < locks_.length := h
    cases rest
    all_goals
      dsimp only
      rw [List.getElem?_eq_getElem hLess]
      rfl
  | gone => exact absurd rfl hLive

/-- Between two calls, the client holds the Lock of each key of the calls it has made, once, and no
other. -/
def HoldsSeen (calls : List (List Key)) (s : State Unit) : Prop :=
  (s.clients ()).pc = .ready → ∀ made, calls = made ++ (s.clients ()).calls →
    (∀ k ∈ made.flatten, k ≠ [] → ∃ l, s.m_.lookup k = some l ∧ (s.heap l).mu_ = some () ∧
      (s.clients ()).locks_.count l = 1) ∧
    ∀ l, (s.heap l).mu_ = some () → ∃ k ∈ made.flatten, k ≠ [] ∧ s.m_.lookup k = some l

theorem Holding.holdsSeen (h : Holding calls s) : HoldsSeen calls s := by
  have hStage := h.stage
  have hOwner := h.owner
  have hOnce := h.once
  intro hReady made hMade
  generalize s.clients () = cl at hStage hOwner hOnce hReady hMade ⊢
  cases hStage with
  | ready made' rest locks_ hCalls hLocks =>
    obtain rfl : made = made' := List.append_cancel_right (hMade.symm.trans hCalls)
    constructor
    · intro k hk hNe
      obtain ⟨l, hl, hMaps⟩ := mem_of_maps hLocks (mem_allKeys.mpr ⟨hk, hNe⟩)
      exact ⟨l, hMaps, (hOwner l).mpr hl, List.count_eq_one_of_mem hOnce hl⟩
    · intro l hl
      obtain ⟨k, hk, hMaps⟩ := maps_of_mem hLocks ((hOwner l).mp hl)
      obtain ⟨hMem, hNe⟩ := mem_allKeys.mp hk
      exact ⟨k, hMem, hNe, hMaps⟩
  | loop | locking => cases hReady

/-- No call blocks the client, and after each call it holds what it has asked for. -/
def Incremental (calls : List (List Key)) : Prop :=
  ∀ s, (machine fun _ : Unit => calls).Reachable s →
    ((s.clients ()).pc ≠ .gone → (step s ()).isSome) ∧ HoldsSeen calls s

/-- A client that is alone can pass list after list exactly if no two of the lists share a key that
is not empty. -/
theorem lockSet_incremental_iff (calls : List (List Key)) :
    Incremental calls ↔ calls.Pairwise fun keys keys' => ∀ k ∈ keys, k ∈ keys' → k = [] := by
  rw [← nodup_allKeys_iff]
  constructor
  · intro h
    obtain ⟨t, ⟨cs, hRun⟩, hStuck⟩ := Lib.Machine.exists_stuck
      (M := machine fun _ : Unit => calls) (fun _ _ _ hStep => stepsLeft_lt hStep)
      (start fun _ => calls)
    have hReachable : (machine fun _ : Unit => calls).Reachable t := ⟨_, cs, rfl, hRun⟩
    have hGone : (t.clients ()).pc = .gone := by
      by_contra hLive
      have hStep := (h t hReachable).1 hLive
      have hNone : step t () = none := hStuck ()
      rw [hNone] at hStep
      cases hStep
    cases solo_inv hReachable with
    | holding hHolding =>
      have hStage := hHolding.stage
      generalize t.clients () = cl at hGone hStage
      cases hStage with
      | ready | loop | locking => cases hGone
    | releasing hNodup _ => exact hNodup
  · intro hNodup s hReachable
    cases solo_inv hReachable with
    | holding hHolding => exact ⟨fun _ => hHolding.can_step hNodup, hHolding.holdsSeen⟩
    | releasing _ hReleasing =>
      refine ⟨hReleasing.can_step, ?_⟩
      intro hReady
      rw [Releasing, hReady] at hReleasing
      exact hReleasing.elim

/-- The second call waits for the Lock that the first has taken. -/
theorem not_incremental_again : ¬ ∀ calls, Incremental calls := by
  intro h
  obtain ⟨s, hRun, hLive, hBlocked⟩ : ∃ s, (machine fun _ : Unit => [[[1]], [[1]]]).run
      (start fun _ => [[[1]], [[1]]]) (List.replicate 8 ()) = some s ∧
      (s.clients ()).pc ≠ .gone ∧ step s () = none := ⟨_, rfl, by decide, rfl⟩
  have hStep := (h [[[1]], [[1]]] s ⟨_, _, rfl, hRun⟩).1 hLive
  rw [hBlocked] at hStep
  cases hStep

end CcCommon.Util.LockSet
