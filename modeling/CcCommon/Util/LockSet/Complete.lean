import CcCommon.Util.LockSet.Exclusion
import Mathlib.Data.Finset.Card
import Mathlib.Data.List.Dedup

/-! # Every client gets in and out again

A client takes one step for each of its keys and three for each Lock, whatever
the other clients do. So every schedule comes to an end, and at its end every
client has finished. -/

namespace CcCommon.Util.LockSet

set_option autoImplicit false

universe u

/-- The keys that a call of `locksFor` takes a Lock for. -/
def lockedKeys (keys : List Key) : Finset Key := keys.toFinset.erase []

theorem lockedKeys_card (keys : List Key) :
    (lockedKeys keys).card = (distinctKeys keys).length := by
  have hSame : lockedKeys keys = (distinctKeys keys).toFinset := by
    ext k
    simp [lockedKeys, mem_distinctKeys, and_comm]
  rw [hSame, List.toFinset_card_of_nodup (distinctKeys_nodup keys)]

/-- The steps of a client that calls `locksFor(keys)` and then lets go. -/
def stepsFor (keys : List Key) : Nat := keys.length + 3 * (lockedKeys keys).card + 5

/-- The steps that are left to a client with one call to make. -/
def toCome (cl : Client) : Nat :=
  let n := cl.locks_.length
  match cl.pc with
  | .ready =>
    match cl.calls with
    | keys :: _ => stepsFor keys
    | [] => 2 * n + 2
  | .loop todo last _ => todo.length + 3 * (n + (wanted todo last).length) + 4
  | .locking i => 2 * n + (n - i) + 3
  | .unlocking i => 2 * (n - i) + 1
  | .counting i => 2 * (n - i)
  | .gone => 0

variable {ι : Type u} [DecidableEq ι] {keys : ι → List Key} {s s' : State ι} {c : ι}

theorem step_toCome {m_ : List (Key × Nat)} (hStage : Stage m_ (keys c) (s.clients c))
    (hStep : step s c = some s') :
    toCome (s'.clients c) + 1 = toCome (s.clients c) := by
  cases step_cases hStep with
  | enter args calls locks_ hAt hFree =>
    rw [hAt] at hStage ⊢
    cases hStage with
    | fresh =>
      have hLength : (sort (keys c)).length = (keys c).length := List.length_insertionSort _ _
      simp only [setClient_clients, Function.update_self, toCome, List.length_nil, Nat.zero_add,
        stepsFor, lockedKeys_card, distinctKeys, hLength]
  | skip calls locks_ key todo last initsz hAt hSkip =>
    simp only [hAt, setClient_clients, Function.update_self, toCome, wanted_skip hSkip,
      List.length_cons]
    omega
  | register calls locks_ key todo last initsz hAt hKey =>
    simp only [hAt, setClient_clients, Function.update_self, toCome, wanted_take hKey,
      List.length_cons, List.length_append, List.length_nil]
    omega
  | leave calls locks_ last initsz hAt =>
    rw [hAt] at hStage ⊢
    cases hStage with
    | loop done todo _ _ hKeys hLocks =>
      simp only [setClient_clients, Function.update_self, toCome, wanted, List.length_nil]
      omega
  | lock calls locks_ i l hAt hl hFree =>
    have hLess := (List.getElem?_eq_some_iff.mp hl).1
    simp only [hAt, setClient_clients, Function.update_self, toCome]
    omega
  | finish calls locks_ i hAt hEnd =>
    rw [hAt] at hStage ⊢
    have hOver := List.getElem?_eq_none_iff.mp hEnd
    cases hStage with
    | locking _ _ hLocks hi =>
      simp only [setClient_clients, Function.update_self, toCome]
      omega
  | destroy locks_ hAt =>
    simp only [hAt, setClient_clients, Function.update_self, toCome]
    omega
  | unlock calls locks_ i l hAt hl =>
    have hLess := (List.getElem?_eq_some_iff.mp hl).1
    simp only [hAt, setClient_clients, Function.update_self, toCome]
  | count calls locks_ i l hAt hl =>
    have hLess := (List.getElem?_eq_some_iff.mp hl).1
    simp only [hAt, setClient_clients, Function.update_self, toCome]
    omega
  | clear calls locks_ i hAt hEnd =>
    have hOver := List.getElem?_eq_none_iff.mp hEnd
    simp only [hAt, setClient_clients, Function.update_self, toCome]
    omega

variable [Fintype ι]

omit [DecidableEq ι] in
theorem Inv.toCome_eq_zero (h : Inv keys s) (c : ι) :
    toCome (s.clients c) = 0 ↔ (s.clients c).pc = .gone := by
  have hStage := h.stage c
  generalize s.clients c = cl at hStage
  cases hStage with
  | gone => exact iff_of_true rfl rfl
  | counting i locks_ hLocks hi =>
    refine iff_of_false ?_ nofun
    simp only [toCome]
    omega
  | fresh | loop | locking | inside | unlocking => exact iff_of_false nofun nofun

/-- A run that cannot go on has come to the end of every client. -/
theorem Inv.stuck_iff (h : Inv keys s) :
    (∀ c, step s c = none) ↔ ∀ c, (s.clients c).pc = .gone := by
  constructor
  · intro hStuck
    by_contra hLive
    push Not at hLive
    obtain ⟨c, hc, hFree⟩ := h.ascending.exists_free (fun c m hHolds => h.holds_live m hHolds) hLive
    have hStep := h.can_step hc hFree
    rw [hStuck c] at hStep
    cases hStep
  · intro hAll c
    have hStage := h.stage c
    have hGone := hAll c
    rw [step]
    generalize s.clients c = cl at hStage hGone
    cases hStage with
    | gone => rfl
    | fresh | loop | locking | inside | unlocking | counting => cases hGone

/-- However the clients are interleaved, each of them takes no more steps than its keys ask for.
A run cannot go on if and only if each has taken them all; and then all have finished and every
Lock is free. -/
theorem lockSet_completes {as : List ι}
    (hRun : (machine fun c => [keys c]).run (start fun c => [keys c]) as = some s) :
    (∀ c, as.count c ≤ stepsFor (keys c)) ∧
    ((∀ c, step s c = none) ↔ ∀ c, as.count c = stepsFor (keys c)) ∧
    ((∀ c, step s c = none) →
      (∀ c, (s.clients c).pc = .gone) ∧ s.mu_ = none ∧ ∀ l, s.heap l = ⟨none, 0⟩) := by
  have hStart : Inv keys (start fun c => [keys c]) := start_inv rfl
  have hCount : ∀ c, as.count c + toCome (s.clients c) = stepsFor (keys c) := by
    refine Lib.Machine.count_add (I := Inv keys) (fun s c => toCome (s.clients c)) ?_ hStart hRun
    intro u c u' hInv hStep
    exact ⟨step_inv hInv hStep, step_toCome (hInv.stage c) hStep, fun d hd =>
      congrArg toCome (step_elsewhere hStep hd)⟩
  have hInv : Inv keys s := reachable_inv ⟨_, as, rfl, hRun⟩
  refine ⟨fun c => ?_, ?_, ?_⟩
  · have hc := hCount c
    omega
  · rw [hInv.stuck_iff]
    refine forall_congr' fun c => ?_
    have hc := hCount c
    rw [← hInv.toCome_eq_zero c]
    omega
  · intro hStuck
    have hAll := hInv.stuck_iff.mp hStuck
    refine ⟨hAll, ?_, hInv.accounts.finished hAll⟩
    by_contra hSome
    obtain ⟨c, hc⟩ := Option.ne_none_iff_exists'.mp hSome
    have hLoop := (hInv.loop c).mp hc
    rw [hAll c] at hLoop
    cases hLoop

/-- Client 1 registers its key while client 0 has it, and gets it after client 0 has let go. -/
theorem lockSet_completes_pair :
    let schedule : List (Fin 2) :=
      List.replicate 6 0 ++ List.replicate 3 1 ++ List.replicate 9 0 ++ List.replicate 6 1
    ∃ s, (machine fun c => [pair c]).run (start fun c => [pair c]) schedule = some s ∧
      (∀ c, (s.clients c).pc = .gone) ∧ s.mu_ = none ∧ ∀ l, s.heap l = ⟨none, 0⟩ := by
  intro schedule
  have hRan : ((machine fun c => [pair c]).run (start fun c => [pair c]) schedule).isSome = true := rfl
  obtain ⟨s, hRun⟩ := Option.isSome_iff_exists.mp hRan
  obtain ⟨-, hTaken, hFinished⟩ := lockSet_completes hRun
  exact ⟨s, hRun, hFinished (hTaken.mpr (by decide))⟩

end CcCommon.Util.LockSet
