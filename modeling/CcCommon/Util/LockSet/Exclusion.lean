import CcCommon.Lib.Waiting
import CcCommon.Util.LockSet.Invariant

/-! # No deadlock, one client for a key, exact counts

Any number of clients share the LockSet. Each makes one call of `locksFor`,
and its LockSetLock is destroyed some time after.
-/

namespace CcCommon.Util.LockSet

set_option autoImplicit false

universe u

variable {ι : Type u} [Fintype ι] [DecidableEq ι] {keys : ι → List Key} {s s' : State ι} {c : ι}

/-! ## Deadlock

The registry mutex comes first in the order, then the keys.
-/

/-- The place in the order of the mutex that a client waits for: `⊥` is `LockSet::mu_`. -/
def waitsFor (keys : ι → List Key) (s : State ι) (c : ι) : Option (WithBot Key) :=
  match s.clients c with
  | ⟨_ :: _, _, .ready⟩ => some ⊥
  | ⟨_, _, .locking i⟩ => (distinctKeys (keys c))[i]?.map WithBot.some
  | _ => none

def Holds (s : State ι) (c : ι) : WithBot Key → Prop
  | none => (s.clients c).pc.inLoop = true
  | some k => ∃ l ∈ held (s.clients c), Maps s.m_ k l

omit [DecidableEq ι] in
theorem Inv.ascending (h : Inv keys s) : Lib.Waiting.Ascending (Holds s) (waitsFor keys s) := by
  intro c m hHolds m' hWaits
  have hStage := h.stage c
  generalize hAt : s.clients c = cl at hStage
  rw [waitsFor, hAt] at hWaits
  cases hStage with
  | fresh =>
    cases m with
    | bot =>
      rw [Holds.eq_def, hAt] at hHolds
      cases hHolds
    | coe k =>
      obtain ⟨l, hl, _⟩ := hHolds
      rw [hAt] at hl
      cases hl
  | locking i locks_ hLocks hi =>
    obtain ⟨k', hk', rfl⟩ := Option.map_eq_some_iff.mp hWaits
    cases m with
    | bot => exact WithBot.bot_lt_coe k'
    | coe k =>
      obtain ⟨l, hl, hMaps⟩ := hHolds
      rw [hAt] at hl
      -- what the client holds are the Locks of its first `i` keys
      obtain ⟨j, hj⟩ := List.mem_iff_getElem?.mp hl
      have hLess : j < i := by
        have hShort := (List.getElem?_eq_some_iff.mp hj).1
        exact Nat.lt_of_lt_of_le hShort (List.length_take_le _ _)
      rw [held, List.getElem?_take_of_lt hLess] at hj
      obtain ⟨k₀, hk₀, hMaps₀⟩ := maps_getElem hLocks hj
      obtain rfl := h.inj k₀ k l hMaps₀ hMaps
      have hSorted := List.pairwise_iff_getElem.mp (distinctKeys_sorted (keys c))
      obtain ⟨hj', hkEq⟩ := List.getElem?_eq_some_iff.mp hk₀
      obtain ⟨hi', hkEq'⟩ := List.getElem?_eq_some_iff.mp hk'
      rw [← hkEq, ← hkEq']
      exact WithBot.coe_lt_coe.mpr (hSorted j i hj' hi' hLess)
  | loop | inside | unlocking | counting | gone => cases hWaits

omit [DecidableEq ι] in
theorem Inv.holds_live (h : Inv keys s) (m : WithBot Key) (hHolds : Holds s c m) :
    (s.clients c).pc ≠ .gone := by
  have hStage := h.stage c
  intro hGone
  generalize hAt : s.clients c = cl at hStage hGone
  cases hStage with
  | gone =>
    cases m with
    | bot =>
      rw [Holds.eq_def, hAt] at hHolds
      cases hHolds
    | coe k =>
      obtain ⟨l, hl, _⟩ := hHolds
      rw [hAt] at hl
      cases hl
  | fresh | loop | locking | inside | unlocking | counting => cases hGone

/-- A client that is not gone takes a step if nobody holds what it waits for. -/
theorem Inv.can_step (h : Inv keys s) (hLive : (s.clients c).pc ≠ .gone)
    (hFree : ∀ m, waitsFor keys s c = some m → ∀ c', ¬ Holds s c' m) : (step s c).isSome := by
  have hStage := h.stage c
  generalize hAt : s.clients c = cl at hStage hLive
  cases hStage with
  | fresh =>
    have hMu : s.mu_ = none := by
      by_contra hSome
      obtain ⟨c', hc'⟩ := Option.ne_none_iff_exists'.mp hSome
      exact hFree ⊥ (by rw [waitsFor, hAt]) c' ((h.loop c').mp hc')
    rw [step, hAt]
    simp [hMu]
  | loop done todo last locks_ hKeys hLocks =>
    cases todo with
    | nil =>
      rw [step, hAt]
      rfl
    | cons key todo =>
      rw [step, hAt]
      dsimp only
      split <;> rfl
  | locking i locks_ hLocks hi =>
    rw [step, hAt]
    dsimp only
    split
    · rename_i l hl
      obtain ⟨k, hk, hMaps⟩ := maps_getElem hLocks hl
      have hMu : (s.heap l).mu_ = none := by
        by_contra hSome
        obtain ⟨c', hc'⟩ := Option.ne_none_iff_exists'.mp hSome
        refine hFree k ?_ c' ⟨l, (h.owner l c').mp hc', hMaps⟩
        rw [waitsFor, hAt]
        simp [hk]
      rw [if_pos hMu]
      rfl
    · rfl
  | inside locks_ hLocks =>
    rw [step, hAt]
    rfl
  | unlocking i locks_ hLocks hi =>
    rw [step, hAt]
    dsimp only
    split <;> rfl
  | counting i locks_ hLocks hi =>
    rw [step, hAt]
    dsimp only
    rw [List.getElem?_eq_getElem hi]
    rfl
  | gone => exact absurd rfl hLive

def pair (c : Fin 2) : List Key := if c = 0 then [[2], [1], [], [2]] else [[1]]

/-- As long as some client has not finished, some client takes a step. -/
theorem lockSet_deadlock_free (keys : ι → List Key)
    (h : (machine fun c => [keys c]).Reachable s) (hLive : ∃ c, (s.clients c).pc ≠ .gone) :
    ∃ c, (step s c).isSome := by
  have hInv := reachable_inv h
  obtain ⟨c, hc, hFree⟩ :=
    hInv.ascending.exists_free (fun c m hHolds => hInv.holds_live m hHolds) hLive
  exact ⟨c, hInv.can_step hc hFree⟩

/-- Client 0 asks for two keys and client 1 for one of them; client 0 holds that one. -/
theorem lockSet_deadlock_free_pair :
    ∃ s, (machine fun c => [pair c]).run (start fun c => [pair c])
      [0, 0, 0, 0, 0, 0, 0, 1, 1, 1] = some s ∧ step s 1 = none ∧ ∃ c, (step s c).isSome :=
  ⟨_, rfl, rfl, lockSet_deadlock_free pair
    ⟨start fun c => [pair c], [0, 0, 0, 0, 0, 0, 0, 1, 1, 1], rfl, rfl⟩ ⟨0, by decide⟩⟩

/-! ## Exclusion -/

/-- The client is past `locksFor` and before `unlock`. -/
def Inside (s : State ι) (c : ι) : Prop :=
  (s.clients c).pc = .ready ∧ (s.clients c).calls = []

structure Accounts (keys : ι → List Key) (s : State ι) : Prop where
  distinct : ∀ k k' l, s.m_.lookup k = some l → s.m_.lookup k' = some l → k = k'
  holdsAll : ∀ c, Inside s c → ∀ k ∈ keys c, k ≠ [] →
    ∃ l, s.m_.lookup k = some l ∧ (s.heap l).mu_ = some c
  holdsOnly : ∀ c, Inside s c → ∀ l, (s.heap l).mu_ = some c →
    ∃ k ∈ keys c, k ≠ [] ∧ s.m_.lookup k = some l
  once : ∀ c, Inside s c → (s.clients c).locks_.Nodup
  exclusive : ∀ c c', Inside s c → Inside s c' → ∀ k, k ∈ keys c → k ∈ keys c' → k ≠ [] → c = c'
  unlocks : ∀ c i l, (s.clients c).pc = .unlocking i → (s.clients c).locks_[i]? = some l →
    (s.heap l).mu_ = some c
  count : ∀ l, (s.heap l).count_ =
    ((Finset.univ.filter fun c => l ∈ registered (s.clients c)).card : Int)
  nonneg : ∀ l, 0 ≤ (s.heap l).count_
  finished : (∀ c, (s.clients c).pc = .gone) → ∀ l, s.heap l = ⟨none, 0⟩

omit [DecidableEq ι] in
theorem Inv.inside (h : Inv keys s) (hIn : Inside s c) :
    List.Forall₂ (Maps s.m_) (distinctKeys (keys c)) (s.clients c).locks_ := by
  have hStage := h.stage c
  generalize hAt : s.clients c = cl at hStage
  rw [Inside, hAt] at hIn
  cases hStage with
  | inside locks_ hLocks => exact hLocks
  | fresh => cases hIn.2
  | loop | locking | unlocking | counting | gone => cases hIn.1

omit [DecidableEq ι] in
theorem Inv.inside_owner (h : Inv keys s) (hIn : Inside s c) (l : Nat) :
    (s.heap l).mu_ = some c ↔ l ∈ (s.clients c).locks_ := by
  rw [h.owner, held, hIn.1]

omit [DecidableEq ι] in
theorem Inv.accounts (h : Inv keys s) : Accounts keys s where
  distinct := h.inj
  holdsAll := by
    intro c hIn k hk hNe
    obtain ⟨l, hl, hMaps⟩ := mem_of_maps (h.inside hIn) (mem_distinctKeys.mpr ⟨hk, hNe⟩)
    exact ⟨l, hMaps, (h.inside_owner hIn l).mpr hl⟩
  holdsOnly := by
    intro c hIn l hMu
    obtain ⟨k, hk, hMaps⟩ := maps_of_mem (h.inside hIn) ((h.inside_owner hIn l).mp hMu)
    obtain ⟨hMem, hNe⟩ := mem_distinctKeys.mp hk
    exact ⟨k, hMem, hNe, hMaps⟩
  once := fun c hIn => maps_nodup h.inj (h.inside hIn) (distinctKeys_nodup _)
  exclusive := by
    intro c c' hIn hIn' k hk hk' hNe
    obtain ⟨l, hl, hMaps⟩ := mem_of_maps (h.inside hIn) (mem_distinctKeys.mpr ⟨hk, hNe⟩)
    obtain ⟨l', hl', hMaps'⟩ := mem_of_maps (h.inside hIn') (mem_distinctKeys.mpr ⟨hk', hNe⟩)
    obtain rfl : l = l' := Option.some.inj (hMaps.symm.trans hMaps')
    have hMu := (h.inside_owner hIn l).mpr hl
    rw [(h.inside_owner hIn' l).mpr hl'] at hMu
    exact (Option.some.inj hMu).symm
  unlocks := by
    intro c i l hPc hl
    rw [h.owner, held, hPc]
    dsimp only
    rw [drop_step hl]
    exact List.mem_cons_self
  count := h.count
  nonneg := by
    intro l
    rw [h.count]
    exact Lib.Count.count_nonneg
  finished := by
    intro hGone l
    have hMu : (s.heap l).mu_ = none := by
      by_contra hSome
      obtain ⟨c, hc⟩ := Option.ne_none_iff_exists'.mp hSome
      rw [h.owner, held, hGone c] at hc
      cases hc
    have hCount : (s.heap l).count_ = 0 := by
      rw [h.count]
      apply Lib.Count.count_eq_zero
      intro c _ hMem
      rw [registered, hGone c] at hMem
      cases hMem
    rw [← hMu, ← hCount]

/-- `count_` is the number of some of the clients, so it fits in an `int` while there are fewer than
`2^31` of them. -/
theorem count_le_card (h : (machine fun c => [keys c]).Reachable s) (l : Nat) :
    (s.heap l).count_ ≤ Fintype.card ι := by
  rw [(reachable_inv h).count]
  exact Lib.Count.count_le_card

omit [Fintype ι] in
theorem step_keeps {k : Key} {l : Nat} (hMaps : Maps s.m_ k l) (hStep : step s c = some s') :
    Maps s'.m_ k l := by
  cases step_cases hStep with
  | register calls locks_ key todo last initsz hAt hKey => exact (lockFor_spec s key).maps k l hMaps
  | enter | skip | leave | lock | finish | destroy | unlock | count | clear => exact hMaps

/-- In every state the accounts are right, and from there on every key keeps its Lock. -/
theorem lockSet_exclusive (keys : ι → List Key) (h : (machine fun c => [keys c]).Reachable s) :
    Accounts keys s ∧ ∀ cs s', (machine fun c => [keys c]).run s cs = some s' →
      ∀ k l, s.m_.lookup k = some l → s'.m_.lookup k = some l := by
  refine ⟨(reachable_inv h).accounts, ?_⟩
  intro cs s' hRun k l hMaps
  refine Lib.Machine.run_induct (M := machine fun c => [keys c]) (I := fun t => Maps t.m_ k l) ?_
    hMaps hRun
  intro t c t' hKnown hStep
  exact step_keeps hKnown hStep

/-- Client 0 is inside, and client 1 waits for the key they share. -/
theorem lockSet_exclusive_pair :
    ∃ s, (machine fun c => [pair c]).run (start fun c => [pair c])
      [0, 0, 0, 0, 0, 0, 0, 0, 0, 1, 1, 1] = some s ∧ Inside s 0 ∧ Accounts pair s :=
  ⟨_, rfl, ⟨rfl, rfl⟩, (lockSet_exclusive pair
    ⟨start fun c => [pair c], [0, 0, 0, 0, 0, 0, 0, 0, 0, 1, 1, 1], rfl, rfl⟩).1⟩

end CcCommon.Util.LockSet
