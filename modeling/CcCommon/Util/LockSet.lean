import CcCommon.Lib.Machine
import Mathlib.Data.List.Lex
import Mathlib.Data.List.Sort
import Mathlib.Order.Fin.Basic
import Mathlib.Logic.Function.Basic

/-! # util/lockset.cc

A client is a thread with a `LockSetLock` of its own. It makes its calls of
`locksFor` one after the other, and then the `LockSetLock` is destroyed. A
step of a client is one lock or unlock of a mutex, one round of the loop under
`mu_`, or one decrement of a `count_`; the clients interleave at will. A mutex
is not recursive: nobody, its holder included, can lock it while it is held.

A `Lock*` is the number of the allocation. `count_` is an unbounded integer
here; it counts clients (`count_le_card`), of which there are fewer than `2^31`.
-/

namespace CcCommon.Util.LockSet

set_option autoImplicit false

universe u v

/-- `std::string`, whose `operator<` compares the characters as `unsigned char`. -/
abbrev Key := List (Fin 256)

structure Lock (ι : Type u) where
  mu_ : Option ι
  count_ : Int

inductive Pc where
  | ready
  /-- At the head of the first loop of `locksFor`, holding `LockSet::mu_`. -/
  | loop (todo : List Key) (last : Key) (initsz : Nat)
  /-- At the head of the second loop of `locksFor`. -/
  | locking (i : Nat)
  /-- At the head of the loop of `LockSetLock::unlock`. -/
  | unlocking (i : Nat)
  /-- Between the two statements of that loop. -/
  | counting (i : Nat)
  | gone
  deriving DecidableEq

structure Client where
  /-- The arguments of the calls of `locksFor` still to be made. -/
  calls : List (List Key)
  locks_ : List Nat
  pc : Pc

structure State (ι : Type u) where
  m_ : List (Key × Nat)
  mu_ : Option ι
  heap : Nat → Lock ι
  fresh : Nat
  clients : ι → Client

/-- `std::sort(keys.begin(), keys.end())` -/
def sort (keys : List Key) : List Key := keys.insertionSort (· ≤ ·)

section Step

variable {ι : Type u}

def State.setLock (s : State ι) (l : Nat) (lk : Lock ι) : State ι :=
  { s with heap := Function.update s.heap l lk }

/-- `m_[key] = std::make_unique<Lock>()` -/
def State.makeLock (s : State ι) (key : Key) : State ι :=
  { s with
    m_ := (key, s.fresh) :: s.m_
    heap := Function.update s.heap s.fresh ⟨none, 0⟩
    fresh := s.fresh + 1 }

def State.countUp (s : State ι) (lk : Nat) : State ι :=
  s.setLock lk { s.heap lk with count_ := (s.heap lk).count_ + 1 }

def lockFor (s : State ι) (key : Key) : Nat × State ι :=
  match s.m_.lookup key with
  | none => (s.fresh, (s.makeLock key).countUp s.fresh)
  | some lk => (lk, s.countUp lk)

section Lemmas

variable {s : State ι} {l : Nat} {lk : Lock ι}

@[simp] theorem setLock_m_ : (s.setLock l lk).m_ = s.m_ := rfl
@[simp] theorem setLock_mu_ : (s.setLock l lk).mu_ = s.mu_ := rfl
@[simp] theorem setLock_heap : (s.setLock l lk).heap = Function.update s.heap l lk := rfl
@[simp] theorem setLock_fresh : (s.setLock l lk).fresh = s.fresh := rfl
@[simp] theorem setLock_clients : (s.setLock l lk).clients = s.clients := rfl

/-- What the Locks are after a store into one of them. -/
theorem forall_setLock {P : Nat → Lock ι → Prop} (hHere : P l lk)
    (hElse : ∀ l', l' ≠ l → P l' (s.heap l')) (l' : Nat) : P l' ((s.setLock l lk).heap l') :=
  (Function.forall_update_iff s.heap P).mpr ⟨hHere, hElse⟩ l'

/-- What a store into a Lock leaves as it is. -/
theorem setLock_keeps {β : Type v} (f : Lock ι → β) (hSame : f lk = f (s.heap l)) (l' : Nat) :
    f ((s.setLock l lk).heap l') = f (s.heap l') := by
  rw [setLock_heap, Function.apply_update fun _ => f, hSame, Function.update_eq_self]

end Lemmas

/-- What `lockFor` changes. -/
structure Registers (s : State ι) (key : Key) (l : Nat) (s' : State ι) : Prop where
  found : s'.m_.lookup key = some l
  known : ∀ k, k ≠ key → s'.m_.lookup k = s.m_.lookup k
  keeps : ∀ l', s.m_.lookup key = some l' → l' = l
  fresh : s.m_.lookup key = none → l = s.fresh ∧ s'.fresh = s.fresh + 1
  size : s.fresh ≤ s'.fresh
  mu_ : s'.mu_ = s.mu_
  clients : s'.clients = s.clients
  heap : ∀ l', l' ≠ l → s'.heap l' = s.heap l'
  count : s.m_.lookup key = some l → s'.heap l = { s.heap l with count_ := (s.heap l).count_ + 1 }
  first : s.m_.lookup key = none → s'.heap l = ⟨none, 1⟩

theorem lockFor_spec (s : State ι) (key : Key) :
    Registers s key (lockFor s key).1 (lockFor s key).2 := by
  unfold lockFor
  split
  · rename_i hNone
    exact {
      found := List.lookup_cons_self
      known := by
        intro k hk
        simp [State.makeLock, State.countUp, List.lookup_cons, beq_eq_false_iff_ne.mpr hk]
      keeps := by
        intro l' h
        rw [hNone] at h
        cases h
      fresh := fun _ => ⟨rfl, rfl⟩
      size := Nat.le_succ _
      mu_ := rfl
      clients := rfl
      heap := by
        intro l' h
        simp [State.makeLock, State.countUp, Function.update_of_ne h]
      count := by
        intro h
        rw [hNone] at h
        cases h
      first := by simp [State.makeLock, State.countUp] }
  · rename_i lk hSome
    exact {
      found := hSome
      known := fun _ _ => rfl
      keeps := by
        intro l' h
        rw [hSome] at h
        exact (Option.some.inj h).symm
      fresh := by
        intro h
        rw [hSome] at h
        cases h
      size := Nat.le_refl _
      mu_ := rfl
      clients := rfl
      heap := fun l' h => Function.update_of_ne h _ _
      count := fun _ => Function.update_self _ _ _
      first := by
        intro h
        rw [hSome] at h
        cases h }

variable [DecidableEq ι]

def State.setClient (s : State ι) (c : ι) (cl : Client) : State ι :=
  { s with clients := Function.update s.clients c cl }

section Lemmas

variable {s : State ι} {c : ι} {cl : Client}

@[simp] theorem setClient_m_ : (s.setClient c cl).m_ = s.m_ := rfl
@[simp] theorem setClient_mu_ : (s.setClient c cl).mu_ = s.mu_ := rfl
@[simp] theorem setClient_heap : (s.setClient c cl).heap = s.heap := rfl
@[simp] theorem setClient_fresh : (s.setClient c cl).fresh = s.fresh := rfl
@[simp] theorem setClient_clients :
    (s.setClient c cl).clients = Function.update s.clients c cl := rfl

end Lemmas

/-- The next step of client `c`, if it has one and is not blocked. -/
def step (s : State ι) (c : ι) : Option (State ι) :=
  match s.clients c with
  | ⟨keys :: calls, locks_, .ready⟩ =>
    if s.mu_ = none then
      some { s.setClient c ⟨calls, locks_, .loop (sort keys) [] locks_.length⟩ with mu_ := some c }
    else none
  | ⟨calls, locks_, .loop (key :: todo) last initsz⟩ =>
    if key = [] ∨ key = last then some (s.setClient c ⟨calls, locks_, .loop todo last initsz⟩)
    else
      let (lk, s) := lockFor s key
      some (s.setClient c ⟨calls, locks_ ++ [lk], .loop todo key initsz⟩)
  | ⟨calls, locks_, .loop [] _ initsz⟩ =>
    some { s.setClient c ⟨calls, locks_, .locking initsz⟩ with mu_ := none }
  | ⟨calls, locks_, .locking i⟩ =>
    match locks_[i]? with
    | some l =>
      if (s.heap l).mu_ = none then
        some ((s.setLock l { s.heap l with mu_ := some c }).setClient c
          ⟨calls, locks_, .locking (i + 1)⟩)
      else none
    | none => some (s.setClient c ⟨calls, locks_, .ready⟩)
  | ⟨[], locks_, .ready⟩ => some (s.setClient c ⟨[], locks_, .unlocking 0⟩)
  | ⟨calls, locks_, .unlocking i⟩ =>
    match locks_[i]? with
    | some l =>
      some ((s.setLock l { s.heap l with mu_ := none }).setClient c ⟨calls, locks_, .counting i⟩)
    | none => some (s.setClient c ⟨calls, [], .gone⟩)
  | ⟨calls, locks_, .counting i⟩ =>
    match locks_[i]? with
    | some l =>
      some ((s.setLock l { s.heap l with count_ := (s.heap l).count_ - 1 }).setClient c
        ⟨calls, locks_, .unlocking (i + 1)⟩)
    | none => none
  | ⟨_, _, .gone⟩ => none

/-- Every client has its calls to make, on a fresh `LockSetLock`. -/
def start (calls : ι → List (List Key)) : State ι :=
  ⟨[], none, fun _ => ⟨none, 0⟩, 0, fun c => ⟨calls c, [], .ready⟩⟩

def machine (calls : ι → List (List Key)) : Lib.Machine (State ι) ι where
  init s := s = start calls
  step := step

/-! ## What one step does -/

inductive Step (s : State ι) (c : ι) : State ι → Prop where
  | enter (keys : List Key) (calls : List (List Key)) (locks_ : List Nat)
      (hAt : s.clients c = ⟨keys :: calls, locks_, .ready⟩) (hFree : s.mu_ = none) :
      Step s c { s.setClient c ⟨calls, locks_, .loop (sort keys) [] locks_.length⟩ with
        mu_ := some c }
  | skip (calls : List (List Key)) (locks_ : List Nat) (key : Key) (todo : List Key) (last : Key)
      (initsz : Nat) (hAt : s.clients c = ⟨calls, locks_, .loop (key :: todo) last initsz⟩)
      (hSkip : key = [] ∨ key = last) :
      Step s c (s.setClient c ⟨calls, locks_, .loop todo last initsz⟩)
  | register (calls : List (List Key)) (locks_ : List Nat) (key : Key) (todo : List Key)
      (last : Key) (initsz : Nat)
      (hAt : s.clients c = ⟨calls, locks_, .loop (key :: todo) last initsz⟩)
      (hKey : ¬(key = [] ∨ key = last)) :
      Step s c ((lockFor s key).2.setClient c
        ⟨calls, locks_ ++ [(lockFor s key).1], .loop todo key initsz⟩)
  | leave (calls : List (List Key)) (locks_ : List Nat) (last : Key) (initsz : Nat)
      (hAt : s.clients c = ⟨calls, locks_, .loop [] last initsz⟩) :
      Step s c { s.setClient c ⟨calls, locks_, .locking initsz⟩ with mu_ := none }
  | lock (calls : List (List Key)) (locks_ : List Nat) (i l : Nat)
      (hAt : s.clients c = ⟨calls, locks_, .locking i⟩) (hl : locks_[i]? = some l)
      (hFree : (s.heap l).mu_ = none) :
      Step s c ((s.setLock l { s.heap l with mu_ := some c }).setClient c
        ⟨calls, locks_, .locking (i + 1)⟩)
  | finish (calls : List (List Key)) (locks_ : List Nat) (i : Nat)
      (hAt : s.clients c = ⟨calls, locks_, .locking i⟩) (hEnd : locks_[i]? = none) :
      Step s c (s.setClient c ⟨calls, locks_, .ready⟩)
  | destroy (locks_ : List Nat) (hAt : s.clients c = ⟨[], locks_, .ready⟩) :
      Step s c (s.setClient c ⟨[], locks_, .unlocking 0⟩)
  | unlock (calls : List (List Key)) (locks_ : List Nat) (i l : Nat)
      (hAt : s.clients c = ⟨calls, locks_, .unlocking i⟩) (hl : locks_[i]? = some l) :
      Step s c ((s.setLock l { s.heap l with mu_ := none }).setClient c
        ⟨calls, locks_, .counting i⟩)
  | count (calls : List (List Key)) (locks_ : List Nat) (i l : Nat)
      (hAt : s.clients c = ⟨calls, locks_, .counting i⟩) (hl : locks_[i]? = some l) :
      Step s c ((s.setLock l { s.heap l with count_ := (s.heap l).count_ - 1 }).setClient c
        ⟨calls, locks_, .unlocking (i + 1)⟩)
  | clear (calls : List (List Key)) (locks_ : List Nat) (i : Nat)
      (hAt : s.clients c = ⟨calls, locks_, .unlocking i⟩) (hEnd : locks_[i]? = none) :
      Step s c (s.setClient c ⟨calls, [], .gone⟩)

theorem step_cases {s s' : State ι} {c : ι} (h : step s c = some s') : Step s c s' := by
  unfold step at h
  split at h
  · rename_i keys calls locks_ hAt
    split at h
    · rename_i hFree
      cases h
      exact .enter keys calls locks_ hAt hFree
    · cases h
  · rename_i calls locks_ key todo last initsz hAt
    split at h
    · rename_i hSkip
      cases h
      exact .skip calls locks_ key todo last initsz hAt hSkip
    · rename_i hKey
      cases h
      exact .register calls locks_ key todo last initsz hAt hKey
  · rename_i calls locks_ last initsz hAt
    cases h
    exact .leave calls locks_ last initsz hAt
  · rename_i calls locks_ i hAt
    split at h
    · rename_i l hl
      split at h
      · rename_i hFree
        cases h
        exact .lock calls locks_ i l hAt hl hFree
      · cases h
    · rename_i hEnd
      cases h
      exact .finish calls locks_ i hAt hEnd
  · rename_i locks_ hAt
    cases h
    exact .destroy locks_ hAt
  · rename_i calls locks_ i hAt
    split at h
    · rename_i l hl
      cases h
      exact .unlock calls locks_ i l hAt hl
    · rename_i hEnd
      cases h
      exact .clear calls locks_ i hAt hEnd
  · rename_i calls locks_ i hAt
    split at h
    · rename_i l hl
      cases h
      exact .count calls locks_ i l hAt hl
    · cases h
  · cases h

theorem step_elsewhere {s s' : State ι} {c : ι} (hStep : step s c = some s') {c' : ι} (hc : c' ≠ c) :
    s'.clients c' = s.clients c' := by
  cases step_cases hStep with
  | register calls locks_ key todo last initsz hAt hKey =>
    rw [setClient_clients, Function.update_of_ne hc, (lockFor_spec s key).clients]
  | enter | skip | leave | lock | finish | destroy | unlock | count | clear =>
    exact Function.update_of_ne hc _ _

end Step

end CcCommon.Util.LockSet
