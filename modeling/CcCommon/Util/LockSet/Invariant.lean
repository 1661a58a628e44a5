import CcCommon.Lib.Count
import CcCommon.Util.LockSet
import Mathlib.Data.Fintype.Card

/-! # Who holds which Lock

The clients of this module make one call of `locksFor` each.
-/

namespace CcCommon.Util.LockSet

set_option autoImplicit false

universe u

/-! ## The keys that the first loop registers -/

/-- The keys that the loop takes out of the rest of the sorted list. -/
def wanted : List Key → Key → List Key
  | [], _ => []
  | key :: todo, last =>
    if key = [] ∨ key = last then wanted todo last else key :: wanted todo key

def distinctKeys (keys : List Key) : List Key := wanted (sort keys) []

theorem wanted_skip {key last : Key} {todo : List Key} (h : key = [] ∨ key = last) :
    wanted (key :: todo) last = wanted todo last := by
  rw [wanted, if_pos h]

theorem wanted_take {key last : Key} {todo : List Key} (h : ¬(key = [] ∨ key = last)) :
    wanted (key :: todo) last = key :: wanted todo key := by
  rw [wanted, if_neg h]

theorem mem_wanted {k last : Key} {todo : List Key} (hSorted : todo.Pairwise (· ≤ ·))
    (hLast : ∀ k' ∈ todo, last ≤ k') :
    k ∈ wanted todo last ↔ k ∈ todo ∧ k ≠ [] ∧ k ≠ last := by
  induction todo generalizing last with
  | nil => simp [wanted]
  | cons key todo ih =>
    obtain ⟨hHead, hTail⟩ := List.pairwise_cons.mp hSorted
    have hLastTodo : ∀ k' ∈ todo, last ≤ k' := fun k' hk' => hLast k' (List.mem_cons_of_mem _ hk')
    by_cases hSkip : key = [] ∨ key = last
    · rw [wanted_skip hSkip, ih hTail hLastTodo, List.mem_cons]
      constructor
      · rintro ⟨hk, hNe⟩
        exact ⟨Or.inr hk, hNe⟩
      · rintro ⟨rfl | hk, hEmpty, hNe⟩
        · rcases hSkip with h | h
          · exact absurd h hEmpty
          · exact absurd h hNe
        · exact ⟨hk, hEmpty, hNe⟩
    · rw [wanted_take hSkip, List.mem_cons, ih hTail hHead, List.mem_cons]
      push Not at hSkip
      constructor
      · rintro (rfl | ⟨hk, hEmpty, hNe⟩)
        · exact ⟨Or.inl rfl, hSkip⟩
        · refine ⟨Or.inr hk, hEmpty, ?_⟩
          rintro rfl
          -- `last ≤ key ≤ last`
          exact hSkip.2 (le_antisymm (hHead _ hk) (hLast key List.mem_cons_self))
      · rintro ⟨rfl | hk, hEmpty, _⟩
        · exact Or.inl rfl
        · by_cases hEq : k = key
          · exact Or.inl hEq
          · exact Or.inr ⟨hk, hEmpty, hEq⟩

theorem wanted_sorted {last : Key} {todo : List Key} (hSorted : todo.Pairwise (· ≤ ·))
    (hLast : ∀ k ∈ todo, last ≤ k) : (wanted todo last).Pairwise (· < ·) := by
  induction todo generalizing last with
  | nil => exact List.Pairwise.nil
  | cons key todo ih =>
    obtain ⟨hHead, hTail⟩ := List.pairwise_cons.mp hSorted
    by_cases hSkip : key = [] ∨ key = last
    · rw [wanted_skip hSkip]
      exact ih hTail fun k hk => hLast k (List.mem_cons_of_mem _ hk)
    · rw [wanted_take hSkip]
      refine List.pairwise_cons.mpr ⟨?_, ih hTail hHead⟩
      intro k hk
      obtain ⟨hMem, _, hNe⟩ := (mem_wanted hTail hHead).mp hk
      exact lt_of_le_of_ne (hHead k hMem) (Ne.symm hNe)

theorem sort_sorted (keys : List Key) : (sort keys).Pairwise (· ≤ ·) :=
  List.pairwise_insertionSort (· ≤ ·) keys

theorem nil_le (k : Key) : ([] : Key) ≤ k := by
  cases k with
  | nil => exact le_refl _
  | cons a as => exact le_of_lt List.Lex.nil

theorem mem_distinctKeys {k : Key} {keys : List Key} :
    k ∈ distinctKeys keys ↔ k ∈ keys ∧ k ≠ [] := by
  rw [distinctKeys, mem_wanted (sort_sorted keys) fun k _ => nil_le k, and_self, sort,
    List.mem_insertionSort]

theorem distinctKeys_sorted (keys : List Key) : (distinctKeys keys).Pairwise (· < ·) :=
  wanted_sorted (sort_sorted keys) fun k _ => nil_le k

theorem distinctKeys_nodup (keys : List Key) : (distinctKeys keys).Nodup :=
  (distinctKeys_sorted keys).imp fun h => ne_of_lt h

/-! ## What a client holds -/

/-- The Locks whose mutex the client holds. -/
def held (cl : Client) : List Nat :=
  match cl.pc with
  | .ready => cl.locks_
  | .loop _ _ initsz => cl.locks_.take initsz
  | .locking i => cl.locks_.take i
  | .unlocking i => cl.locks_.drop i
  | .counting i => cl.locks_.drop (i + 1)
  | .gone => []

/-- The Locks that the client has registered and not yet decremented. -/
def registered (cl : Client) : List Nat :=
  match cl.pc with
  | .ready | .loop _ _ _ | .locking _ => cl.locks_
  | .unlocking i | .counting i => cl.locks_.drop i
  | .gone => []

def Pc.inLoop : Pc → Bool
  | .loop _ _ _ => true
  | _ => false

def Maps (m_ : List (Key × Nat)) (k : Key) (l : Nat) : Prop := m_.lookup k = some l

/-- The stages of a client that calls `locksFor(keys)` and then lets go. -/
inductive Stage (m_ : List (Key × Nat)) (keys : List Key) : Client → Prop where
  | fresh : Stage m_ keys ⟨[keys], [], .ready⟩
  | loop (done todo : List Key) (last : Key) (locks_ : List Nat)
      (hKeys : distinctKeys keys = done ++ wanted todo last)
      (hLocks : List.Forall₂ (Maps m_) done locks_) : Stage m_ keys ⟨[], locks_, .loop todo last 0⟩
  | locking (i : Nat) (locks_ : List Nat)
      (hLocks : List.Forall₂ (Maps m_) (distinctKeys keys) locks_) (hi : i ≤ locks_.length) :
      Stage m_ keys ⟨[], locks_, .locking i⟩
  | inside (locks_ : List Nat) (hLocks : List.Forall₂ (Maps m_) (distinctKeys keys) locks_) :
      Stage m_ keys ⟨[], locks_, .ready⟩
  | unlocking (i : Nat) (locks_ : List Nat)
      (hLocks : List.Forall₂ (Maps m_) (distinctKeys keys) locks_) (hi : i ≤ locks_.length) :
      Stage m_ keys ⟨[], locks_, .unlocking i⟩
  | counting (i : Nat) (locks_ : List Nat)
      (hLocks : List.Forall₂ (Maps m_) (distinctKeys keys) locks_) (hi : i < locks_.length) :
      Stage m_ keys ⟨[], locks_, .counting i⟩
  | gone : Stage m_ keys ⟨[], [], .gone⟩

theorem Stage.mono {m_ m' : List (Key × Nat)} {keys : List Key} {cl : Client}
    (hMaps : ∀ k l, Maps m_ k l → Maps m' k l) (h : Stage m_ keys cl) : Stage m' keys cl := by
  cases h with
  | fresh => exact .fresh
  | loop done todo last locks_ hKeys hLocks =>
    exact .loop done todo last locks_ hKeys (hLocks.imp hMaps)
  | locking i locks_ hLocks hi => exact .locking i locks_ (hLocks.imp hMaps) hi
  | inside locks_ hLocks => exact .inside locks_ (hLocks.imp hMaps)
  | unlocking i locks_ hLocks hi => exact .unlocking i locks_ (hLocks.imp hMaps) hi
  | counting i locks_ hLocks hi => exact .counting i locks_ (hLocks.imp hMaps) hi
  | gone => exact .gone

/-- The Lock at a place of `locks_` is that of the key at that place. -/
theorem maps_getElem {m_ : List (Key × Nat)} {ks : List Key} {locks_ : List Nat}
    (h : List.Forall₂ (Maps m_) ks locks_) {i l : Nat} (hl : locks_[i]? = some l) :
    ∃ k, ks[i]? = some k ∧ Maps m_ k l := by
  induction h generalizing i with
  | nil => cases hl
  | cons hMaps _ ih =>
    cases i with
    | zero =>
      cases hl
      exact ⟨_, rfl, hMaps⟩
    | succ i => exact ih hl

theorem maps_of_mem {m_ : List (Key × Nat)} {ks : List Key} {locks_ : List Nat}
    (h : List.Forall₂ (Maps m_) ks locks_) {l : Nat} (hl : l ∈ locks_) :
    ∃ k ∈ ks, Maps m_ k l := by
  obtain ⟨i, hi⟩ := List.mem_iff_getElem?.mp hl
  obtain ⟨k, hk, hMaps⟩ := maps_getElem h hi
  exact ⟨k, List.mem_of_getElem? hk, hMaps⟩

theorem mem_of_maps {m_ : List (Key × Nat)} {ks : List Key} {locks_ : List Nat}
    (h : List.Forall₂ (Maps m_) ks locks_) {k : Key} (hk : k ∈ ks) :
    ∃ l ∈ locks_, Maps m_ k l := by
  induction h with
  | nil => cases hk
  | cons hMaps _ ih =>
    rcases List.mem_cons.mp hk with rfl | hk
    · exact ⟨_, List.mem_cons_self, hMaps⟩
    · obtain ⟨l, hl, hMaps⟩ := ih hk
      exact ⟨l, List.mem_cons_of_mem _ hl, hMaps⟩

theorem held_subset {cl : Client} {l : Nat} (h : l ∈ held cl) : l ∈ cl.locks_ := by
  unfold held at h
  split at h
  · exact h
  · exact List.mem_of_mem_take h
  · exact List.mem_of_mem_take h
  · exact List.mem_of_mem_drop h
  · exact List.mem_of_mem_drop h
  · cases h

theorem registered_subset {cl : Client} {l : Nat} (h : l ∈ registered cl) : l ∈ cl.locks_ := by
  unfold registered at h
  split at h
  · exact h
  · exact h
  · exact h
  · exact List.mem_of_mem_drop h
  · exact List.mem_of_mem_drop h
  · cases h

theorem Stage.maps {m_ : List (Key × Nat)} {keys : List Key} {cl : Client} (h : Stage m_ keys cl)
    {l : Nat} (hl : l ∈ cl.locks_) : ∃ k, Maps m_ k l := by
  cases h with
  | fresh => cases hl
  | loop done todo last locks_ hKeys hLocks =>
    obtain ⟨k, _, hk⟩ := maps_of_mem hLocks hl
    exact ⟨k, hk⟩
  | locking i locks_ hLocks hi =>
    obtain ⟨k, _, hk⟩ := maps_of_mem hLocks hl
    exact ⟨k, hk⟩
  | inside locks_ hLocks =>
    obtain ⟨k, _, hk⟩ := maps_of_mem hLocks hl
    exact ⟨k, hk⟩
  | unlocking i locks_ hLocks hi =>
    obtain ⟨k, _, hk⟩ := maps_of_mem hLocks hl
    exact ⟨k, hk⟩
  | counting i locks_ hLocks hi =>
    obtain ⟨k, _, hk⟩ := maps_of_mem hLocks hl
    exact ⟨k, hk⟩
  | gone => cases hl

def Injective (m_ : List (Key × Nat)) : Prop := ∀ k k' l, Maps m_ k l → Maps m_ k' l → k = k'

theorem maps_nodup {m_ : List (Key × Nat)} (hInj : Injective m_) {ks : List Key}
    {locks_ : List Nat} (h : List.Forall₂ (Maps m_) ks locks_) (hKeys : ks.Nodup) :
    locks_.Nodup := by
  induction h with
  | nil => exact List.nodup_nil
  | @cons k l ks locks_ hMaps hRest ih =>
    obtain ⟨hk, hKeys⟩ := List.nodup_cons.mp hKeys
    refine List.nodup_cons.mpr ⟨?_, ih hKeys⟩
    intro hl
    obtain ⟨k', hk', hMaps'⟩ := maps_of_mem hRest hl
    exact hk (hInj k k' l hMaps hMaps' ▸ hk')

theorem take_step {locks_ : List Nat} {i l : Nat} (hl : locks_[i]? = some l) :
    locks_.take (i + 1) = locks_.take i ++ [l] := by
  rw [List.take_add_one, hl]
  rfl

theorem drop_step {locks_ : List Nat} {i l : Nat} (hl : locks_[i]? = some l) :
    locks_.drop i = l :: locks_.drop (i + 1) := by
  rw [List.drop_eq_getElem?_toList_append, hl]
  rfl

/-! ## What `lockFor` keeps -/

section Registers

variable {ι : Type u} {s s' : State ι} {key : Key} {l₀ : Nat}

theorem Registers.maps (h : Registers s key l₀ s') (k : Key) (l : Nat) (hk : Maps s.m_ k l) :
    Maps s'.m_ k l := by
  by_cases hEq : k = key
  · rw [hEq] at hk ⊢
    rw [h.keeps l hk]
    exact h.found
  · exact (h.known k hEq).trans hk

/-- An entry of `m_` afterwards is an old one or the one of the key. -/
theorem Registers.cases (h : Registers s key l₀ s') {k : Key} {l : Nat} (hk : Maps s'.m_ k l) :
    Maps s.m_ k l ∨ (s.m_.lookup key = none ∧ k = key ∧ l = s.fresh) := by
  by_cases hEq : k = key
  · rw [hEq] at hk ⊢
    obtain rfl : l₀ = l := Option.some.inj (h.found.symm.trans hk)
    cases hLookup : s.m_.lookup key with
    | none => exact Or.inr ⟨rfl, rfl, (h.fresh hLookup).1⟩
    | some l' =>
      obtain rfl := h.keeps l' hLookup
      exact Or.inl hLookup
  · exact Or.inl ((h.known k hEq).symm.trans hk)

theorem Registers.addr (h : Registers s key l₀ s') (hAddr : ∀ k l, Maps s.m_ k l → l < s.fresh)
    (k : Key) (l : Nat) (hk : Maps s'.m_ k l) : l < s'.fresh := by
  rcases h.cases hk with hOld | ⟨hNone, _, rfl⟩
  · exact Nat.lt_of_lt_of_le (hAddr k l hOld) h.size
  · rw [(h.fresh hNone).2]
    exact Nat.lt_succ_self _

theorem Registers.injective (h : Registers s key l₀ s')
    (hAddr : ∀ k l, Maps s.m_ k l → l < s.fresh) (hInj : Injective s.m_) : Injective s'.m_ := by
  intro k k' l hk hk'
  rcases h.cases hk with hOld | ⟨_, rfl, rfl⟩
  · rcases h.cases hk' with hOld' | ⟨_, _, rfl⟩
    · exact hInj k k' l hOld hOld'
    · exact absurd (hAddr k _ hOld) (Nat.lt_irrefl _)
  · rcases h.cases hk' with hOld' | ⟨_, rfl, _⟩
    · exact absurd (hAddr k' _ hOld') (Nat.lt_irrefl _)
    · rfl

end Registers

/-! ## The invariant -/

section Invariant

open Lib.Count (count weight count_update weight_of weight_of_not weight_same)

variable {ι : Type u} [Fintype ι]

structure Inv (keys : ι → List Key) (s : State ι) : Prop where
  stage : ∀ c, Stage s.m_ (keys c) (s.clients c)
  addr : ∀ k l, Maps s.m_ k l → l < s.fresh
  inj : Injective s.m_
  loop : ∀ c, s.mu_ = some c ↔ (s.clients c).pc.inLoop = true
  owner : ∀ l c, (s.heap l).mu_ = some c ↔ l ∈ held (s.clients c)
  count : ∀ l, (s.heap l).count_ = count Finset.univ (fun cl => l ∈ registered cl) s.clients

variable {keys : ι → List Key} {s s' : State ι} {c : ι} {cl : Client}

theorem Inv.loop_unique (h : Inv keys s) (hIn : (s.clients c).pc.inLoop = true) {c' : ι}
    (hc : c' ≠ c) : (s.clients c').pc.inLoop = false := by
  by_contra hIn'
  have hMine := (h.loop c).mpr hIn
  have hTheirs := (h.loop c').mpr (by simpa using hIn')
  rw [hMine] at hTheirs
  exact hc (Option.some.inj hTheirs).symm

/-- The next Lock to be allocated is one that nobody has. -/
theorem Inv.fresh_heap (h : Inv keys s) : s.heap s.fresh = ⟨none, 0⟩ := by
  have hNobody : ∀ c', s.fresh ∉ (s.clients c').locks_ := by
    intro c' hMem
    obtain ⟨k, hk⟩ := (h.stage c').maps hMem
    exact absurd (h.addr k _ hk) (Nat.lt_irrefl _)
  have hMu : (s.heap s.fresh).mu_ = none := by
    by_contra hSome
    obtain ⟨c', hc'⟩ := Option.ne_none_iff_exists'.mp hSome
    exact hNobody c' (held_subset ((h.owner _ c').mp hc'))
  have hCount : (s.heap s.fresh).count_ = 0 := by
    rw [h.count]
    exact Lib.Count.count_eq_zero fun c' _ hMem => hNobody c' (registered_subset hMem)
  rw [← hMu, ← hCount]

theorem Inv.registers_heap (h : Inv keys s) {key : Key} {l₀ : Nat}
    (hSpec : Registers s key l₀ s') :
    s'.heap l₀ = { s.heap l₀ with count_ := (s.heap l₀).count_ + 1 } := by
  cases hLookup : s.m_.lookup key with
  | none =>
    rw [hSpec.first hLookup, (hSpec.fresh hLookup).1, h.fresh_heap]
    rfl
  | some l =>
    obtain rfl := hSpec.keeps l hLookup
    exact hSpec.count hLookup

/-- What `lockFor` returns for a further key is none of the Locks that the client has. -/
theorem Inv.registers_new (h : Inv keys s) {key : Key} {l₀ : Nat} (hSpec : Registers s key l₀ s')
    {done : List Key} {locks_ : List Nat} (hLocks : List.Forall₂ (Maps s.m_) done locks_)
    (hKey : key ∉ done) : l₀ ∉ locks_ := by
  intro hl
  obtain ⟨k, hk, hOld⟩ := maps_of_mem hLocks hl
  have hInj := hSpec.injective h.addr h.inj
  have hSame : k = key := hInj k key l₀ (hSpec.maps k l₀ hOld) hSpec.found
  exact hKey (hSame ▸ hk)

variable [DecidableEq ι]

/-- What is left to show when client `c` moves. -/
theorem Inv.move (h : Inv keys s) (hClients : s'.clients = Function.update s.clients c cl)
    (hStage : Stage s'.m_ (keys c) cl) (hMaps : ∀ k l, Maps s.m_ k l → Maps s'.m_ k l)
    (hAddr : ∀ k l, Maps s'.m_ k l → l < s'.fresh) (hInj : Injective s'.m_)
    (hLoop : ∀ c', s'.mu_ = some c' ↔ (Function.update s.clients c cl c').pc.inLoop = true)
    (hOthers : ∀ l c', c' ≠ c → ((s'.heap l).mu_ = some c' ↔ (s.heap l).mu_ = some c'))
    (hOwner : ∀ l, (s'.heap l).mu_ = some c ↔ l ∈ held cl)
    (hCount : ∀ l, (s'.heap l).count_ = (s.heap l).count_ +
      (weight (fun cl => l ∈ registered cl) cl -
        weight (fun cl => l ∈ registered cl) (s.clients c))) : Inv keys s' := by
  constructor
  · rw [hClients, Function.forall_update_iff s.clients fun c' cl => Stage s'.m_ (keys c') cl]
    exact ⟨hStage, fun c' _ => (h.stage c').mono hMaps⟩
  · exact hAddr
  · exact hInj
  · rw [hClients]
    exact hLoop
  · intro l
    rw [hClients, Function.forall_update_iff s.clients fun c' cl =>
      (s'.heap l).mu_ = some c' ↔ l ∈ held cl]
    exact ⟨hOwner l, fun c' hc => (hOthers l c' hc).trans (h.owner l c')⟩
  · intro l
    rw [hClients, hCount, h.count, count_update (Finset.mem_univ c)]

theorem Inv.loop_keep (h : Inv keys s) (hLoop : cl.pc.inLoop = (s.clients c).pc.inLoop) :
    ∀ c', s.mu_ = some c' ↔ (Function.update s.clients c cl c').pc.inLoop = true := by
  rw [Function.forall_update_iff s.clients fun c' cl => s.mu_ = some c' ↔ cl.pc.inLoop = true, hLoop]
  exact ⟨h.loop c, fun c' _ => h.loop c'⟩

/-- A move that touches no Lock and leaves `m_` and `LockSet::mu_` alone. -/
theorem Inv.quiet (h : Inv keys s) (hStage : Stage s.m_ (keys c) cl)
    (hLoop : cl.pc.inLoop = (s.clients c).pc.inLoop) (hHeld : held cl = held (s.clients c))
    (hRegistered : registered cl = registered (s.clients c)) : Inv keys (s.setClient c cl) := by
  refine h.move (c := c) rfl hStage (fun _ _ hk => hk) h.addr h.inj (h.loop_keep hLoop) ?_ ?_ ?_
  · intro l c' _
    rfl
  · intro l
    rw [hHeld]
    exact h.owner l c
  · intro l
    simp only [weight, hRegistered, setClient_heap]
    omega

theorem enter_inv {args : List Key} {calls : List (List Key)} {locks_ : List Nat} (h : Inv keys s)
    (hAt : s.clients c = ⟨args :: calls, locks_, .ready⟩) (hFree : s.mu_ = none) :
    Inv keys { s.setClient c ⟨calls, locks_, .loop (sort args) [] locks_.length⟩ with
      mu_ := some c } := by
  have hStage := h.stage c
  rw [hAt] at hStage
  cases hStage
  have hNoLoop : ∀ c', (s.clients c').pc.inLoop = false := by
    intro c'
    by_contra hIn
    have hMu := (h.loop c').mpr (by simpa using hIn)
    rw [hFree] at hMu
    cases hMu
  refine h.move (c := c) rfl (.loop [] _ _ _ rfl .nil) (fun _ _ hk => hk) h.addr h.inj ?_ ?_ ?_ ?_
  · apply (Function.forall_update_iff s.clients fun c' cl => some c = some c' ↔
      cl.pc.inLoop = true).mpr
    refine ⟨iff_of_true rfl rfl, fun c' hc => ?_⟩
    rw [hNoLoop c']
    simp [Ne.symm hc]
  · intro l c' _
    rfl
  · intro l
    have hOld := h.owner l c
    rw [hAt] at hOld
    exact hOld
  · intro l
    rw [hAt, weight_same (by rfl), Int.add_zero]
    rfl

theorem skip_inv {calls : List (List Key)} {locks_ : List Nat} {key last : Key} {todo : List Key}
    {initsz : Nat} (h : Inv keys s)
    (hAt : s.clients c = ⟨calls, locks_, .loop (key :: todo) last initsz⟩)
    (hSkip : key = [] ∨ key = last) :
    Inv keys (s.setClient c ⟨calls, locks_, .loop todo last initsz⟩) := by
  have hStage := h.stage c
  rw [hAt] at hStage
  cases hStage with
  | loop done _ _ _ hKeys hLocks =>
    rw [wanted_skip hSkip] at hKeys
    apply h.quiet (.loop done todo last locks_ hKeys hLocks) <;> rw [hAt] <;> rfl

theorem leave_inv {calls : List (List Key)} {locks_ : List Nat} {last : Key} {initsz : Nat}
    (h : Inv keys s) (hAt : s.clients c = ⟨calls, locks_, .loop [] last initsz⟩) :
    Inv keys { s.setClient c ⟨calls, locks_, .locking initsz⟩ with mu_ := none } := by
  have hIn : (s.clients c).pc.inLoop = true := by rw [hAt]; rfl
  have hStage := h.stage c
  rw [hAt] at hStage
  cases hStage with
  | loop done _ _ _ hKeys hLocks =>
    rw [wanted, List.append_nil] at hKeys
    rw [← hKeys] at hLocks
    refine h.move (c := c) rfl (.locking 0 locks_ hLocks (Nat.zero_le _)) (fun _ _ hk => hk) h.addr
      h.inj ?_ ?_ ?_ ?_
    · apply (Function.forall_update_iff s.clients fun c' cl => none = some c' ↔
        cl.pc.inLoop = true).mpr
      refine ⟨iff_of_false nofun nofun, fun c' hc => ?_⟩
      rw [h.loop_unique hIn hc]
      simp
    · intro l c' _
      rfl
    · intro l
      have hOld := h.owner l c
      rw [hAt] at hOld
      exact hOld
    · intro l
      rw [hAt, weight_same (by rfl), Int.add_zero]
      rfl

theorem register_inv {calls : List (List Key)} {locks_ : List Nat} {key last : Key}
    {todo : List Key} {initsz l₀ : Nat} (h : Inv keys s) (hSpec : Registers s key l₀ s')
    (hAt : s.clients c = ⟨calls, locks_, .loop (key :: todo) last initsz⟩)
    (hKey : ¬(key = [] ∨ key = last)) :
    Inv keys (s'.setClient c ⟨calls, locks_ ++ [l₀], .loop todo key initsz⟩) := by
  have hStage := h.stage c
  rw [hAt] at hStage
  cases hStage with
  | loop done _ _ _ hKeys hLocks =>
    rw [wanted_take hKey] at hKeys
    have hNotDone : key ∉ done := by
      have hNodup := distinctKeys_nodup (keys c)
      rw [hKeys] at hNodup
      exact fun hMem => (List.nodup_append.mp hNodup).2.2 key hMem key List.mem_cons_self rfl
    have hNew := h.registers_new hSpec hLocks hNotDone
    have hHeap : ∀ l, (s'.heap l).mu_ = (s.heap l).mu_ := by
      intro l
      by_cases hl : l = l₀
      · rw [hl, h.registers_heap hSpec]
      · rw [hSpec.heap l hl]
    have hLocks' : List.Forall₂ (Maps s'.m_) (done ++ [key]) (locks_ ++ [l₀]) :=
      List.rel_append (hLocks.imp hSpec.maps) (.cons hSpec.found .nil)
    refine h.move (c := c) (by rw [setClient_clients, hSpec.clients])
      (.loop (done ++ [key]) todo key _ (by rw [hKeys, List.append_assoc]; rfl) hLocks')
      hSpec.maps (hSpec.addr h.addr) (hSpec.injective h.addr h.inj) ?_ ?_ ?_ ?_
    · intro c'
      rw [setClient_mu_, hSpec.mu_]
      exact h.loop_keep (by rw [hAt]; rfl) c'
    · intro l c' _
      rw [setClient_heap, hHeap]
    · intro l
      have hOld := h.owner l c
      rw [hAt] at hOld
      rw [setClient_heap, hHeap]
      exact hOld
    · intro l
      rw [setClient_heap, hAt]
      by_cases hl : l = l₀
      · rw [hl, h.registers_heap hSpec, weight_of (by simp [registered]),
          weight_of_not (by simpa [registered] using hNew)]
        rfl
      · rw [hSpec.heap l hl, weight_same (by simp [registered, hl]), Int.add_zero]

theorem lock_inv {calls : List (List Key)} {locks_ : List Nat} {i l : Nat} (h : Inv keys s)
    (hAt : s.clients c = ⟨calls, locks_, .locking i⟩) (hl : locks_[i]? = some l)
    (hFree : (s.heap l).mu_ = none) :
    Inv keys ((s.setLock l { s.heap l with mu_ := some c }).setClient c
      ⟨calls, locks_, .locking (i + 1)⟩) := by
  have hStage := h.stage c
  rw [hAt] at hStage
  cases hStage with
  | locking _ _ hLocks hi =>
    have hLess : i < locks_.length := (List.getElem?_eq_some_iff.mp hl).1
    refine h.move (c := c) rfl (.locking (i + 1) locks_ hLocks hLess) (fun _ _ hk => hk) h.addr
      h.inj (h.loop_keep (by rw [hAt]; rfl)) ?_ ?_ ?_
    · intro l' c' hc
      rw [setClient_heap]
      refine forall_setLock (P := fun l' lk => lk.mu_ = some c' ↔ (s.heap l').mu_ = some c') ?_ ?_ l'
      · rw [hFree]
        simp [Ne.symm hc]
      · exact fun _ _ => Iff.rfl
    · intro l'
      have hHeld : held ⟨[], locks_, .locking (i + 1)⟩ = held (s.clients c) ++ [l] := by
        rw [hAt]
        exact take_step hl
      rw [hHeld, setClient_heap]
      refine forall_setLock (P := fun l' lk => lk.mu_ = some c ↔ l' ∈ held (s.clients c) ++ [l]) ?_ ?_ l'
      · simp
      · intro l' hNe
        simp [h.owner l' c, hNe]
    · intro l'
      rw [hAt, weight_same (by rfl), Int.add_zero, setClient_heap]
      exact setLock_keeps Lock.count_ (by rfl) l'

theorem finish_inv {calls : List (List Key)} {locks_ : List Nat} {i : Nat} (h : Inv keys s)
    (hAt : s.clients c = ⟨calls, locks_, .locking i⟩) (hEnd : locks_[i]? = none) :
    Inv keys (s.setClient c ⟨calls, locks_, .ready⟩) := by
  have hStage := h.stage c
  rw [hAt] at hStage
  cases hStage with
  | locking _ _ hLocks hi =>
    refine h.quiet (.inside locks_ hLocks) (by rw [hAt]; rfl) ?_ (by rw [hAt]; rfl)
    rw [hAt]
    exact (List.take_of_length_le (List.getElem?_eq_none_iff.mp hEnd)).symm

theorem destroy_inv {locks_ : List Nat} (h : Inv keys s)
    (hAt : s.clients c = ⟨[], locks_, .ready⟩) :
    Inv keys (s.setClient c ⟨[], locks_, .unlocking 0⟩) := by
  have hStage := h.stage c
  rw [hAt] at hStage
  cases hStage with
  | inside _ hLocks =>
    apply h.quiet (.unlocking 0 locks_ hLocks (Nat.zero_le _)) <;> rw [hAt] <;> rfl

theorem unlock_inv {calls : List (List Key)} {locks_ : List Nat} {i l : Nat} (h : Inv keys s)
    (hAt : s.clients c = ⟨calls, locks_, .unlocking i⟩) (hl : locks_[i]? = some l) :
    Inv keys ((s.setLock l { s.heap l with mu_ := none }).setClient c
      ⟨calls, locks_, .counting i⟩) := by
  have hStage := h.stage c
  rw [hAt] at hStage
  cases hStage with
  | unlocking _ _ hLocks hi =>
    have hLess : i < locks_.length := (List.getElem?_eq_some_iff.mp hl).1
    have hHeld : held (s.clients c) = l :: held ⟨[], locks_, .counting i⟩ := by
      rw [hAt]
      exact drop_step hl
    have hNew : l ∉ held ⟨[], locks_, .counting i⟩ := by
      have hNodup := (maps_nodup h.inj hLocks (distinctKeys_nodup _)).sublist (List.drop_sublist i _)
      rw [drop_step hl] at hNodup
      exact (List.nodup_cons.mp hNodup).1
    have hMine : (s.heap l).mu_ = some c := by
      rw [h.owner, hHeld]
      exact List.mem_cons_self
    refine h.move (c := c) rfl (.counting i locks_ hLocks hLess) (fun _ _ hk => hk) h.addr
      h.inj (h.loop_keep (by rw [hAt]; rfl)) ?_ ?_ ?_
    · intro l' c' hc
      rw [setClient_heap]
      refine forall_setLock (P := fun l' lk => lk.mu_ = some c' ↔ (s.heap l').mu_ = some c') ?_ ?_ l'
      · rw [hMine]
        simp [Ne.symm hc]
      · exact fun _ _ => Iff.rfl
    · intro l'
      rw [setClient_heap]
      refine forall_setLock
        (P := fun l' lk => lk.mu_ = some c ↔ l' ∈ held ⟨[], locks_, .counting i⟩) ?_ ?_ l'
      · simp [hNew]
      · intro l' hNe
        rw [h.owner l' c, hHeld, List.mem_cons]
        simp [hNe]
    · intro l'
      rw [hAt, weight_same (by rfl), Int.add_zero, setClient_heap]
      exact setLock_keeps Lock.count_ (by rfl) l'

theorem count_inv {calls : List (List Key)} {locks_ : List Nat} {i l : Nat} (h : Inv keys s)
    (hAt : s.clients c = ⟨calls, locks_, .counting i⟩) (hl : locks_[i]? = some l) :
    Inv keys ((s.setLock l { s.heap l with count_ := (s.heap l).count_ - 1 }).setClient c
      ⟨calls, locks_, .unlocking (i + 1)⟩) := by
  have hStage := h.stage c
  rw [hAt] at hStage
  cases hStage with
  | counting _ _ hLocks hi =>
    have hRegistered : registered (s.clients c) = l :: registered ⟨[], locks_, .unlocking (i + 1)⟩ := by
      rw [hAt]
      exact drop_step hl
    have hNew : l ∉ registered ⟨[], locks_, .unlocking (i + 1)⟩ := by
      have hNodup := (maps_nodup h.inj hLocks (distinctKeys_nodup _)).sublist (List.drop_sublist i _)
      rw [drop_step hl] at hNodup
      exact (List.nodup_cons.mp hNodup).1
    have hMu : ∀ l', ((s.setLock l { s.heap l with
        count_ := (s.heap l).count_ - 1 }).heap l').mu_ = (s.heap l').mu_ :=
      setLock_keeps Lock.mu_ (by rfl)
    refine h.move (c := c) rfl (.unlocking (i + 1) locks_ hLocks hi) (fun _ _ hk => hk) h.addr
      h.inj (h.loop_keep (by rw [hAt]; rfl)) ?_ ?_ ?_
    · intro l' c' _
      rw [setClient_heap, hMu]
    · intro l'
      have hOld := h.owner l' c
      rw [hAt] at hOld
      rw [setClient_heap, hMu]
      exact hOld
    · intro l'
      rw [setClient_heap]
      refine forall_setLock (P := fun l' lk => lk.count_ = (s.heap l').count_ +
        (weight (fun cl => l' ∈ registered cl) ⟨[], locks_, .unlocking (i + 1)⟩ -
          weight (fun cl => l' ∈ registered cl) (s.clients c))) ?_ ?_ l'
      · have hBefore : l ∈ registered (s.clients c) := by
          rw [hRegistered]
          exact List.mem_cons_self
        rw [weight, weight, if_neg hNew, if_pos hBefore]
        rfl
      · intro l' hNe
        rw [weight_same (by simp [hRegistered, hNe]), Int.add_zero]

theorem clear_inv {calls : List (List Key)} {locks_ : List Nat} {i : Nat} (h : Inv keys s)
    (hAt : s.clients c = ⟨calls, locks_, .unlocking i⟩) (hEnd : locks_[i]? = none) :
    Inv keys (s.setClient c ⟨calls, [], .gone⟩) := by
  have hDrop := List.drop_of_length_le (List.getElem?_eq_none_iff.mp hEnd)
  have hStage := h.stage c
  rw [hAt] at hStage
  cases hStage with
  | unlocking _ _ hLocks hi =>
    refine h.quiet .gone (by rw [hAt]; rfl) ?_ ?_
    · rw [hAt]
      exact hDrop.symm
    · rw [hAt]
      exact hDrop.symm

theorem step_inv (h : Inv keys s) (hStep : step s c = some s') : Inv keys s' := by
  cases step_cases hStep with
  | enter args calls locks_ hAt hFree => exact enter_inv h hAt hFree
  | skip calls locks_ key todo last initsz hAt hSkip => exact skip_inv h hAt hSkip
  | register calls locks_ key todo last initsz hAt hKey =>
    exact register_inv h (lockFor_spec s key) hAt hKey
  | leave calls locks_ last initsz hAt => exact leave_inv h hAt
  | lock calls locks_ i l hAt hl hFree => exact lock_inv h hAt hl hFree
  | finish calls locks_ i hAt hEnd => exact finish_inv h hAt hEnd
  | destroy locks_ hAt => exact destroy_inv h hAt
  | unlock calls locks_ i l hAt hl => exact unlock_inv h hAt hl
  | count calls locks_ i l hAt hl => exact count_inv h hAt hl
  | clear calls locks_ i hAt hEnd => exact clear_inv h hAt hEnd

theorem start_inv {s₀ : State ι} (h : (machine fun c => [keys c]).init s₀) : Inv keys s₀ := by
  obtain rfl : s₀ = _ := h
  constructor
  · exact fun c => .fresh
  · intro k l hk
    cases hk
  · intro k k' l hk
    cases hk
  · intro c
    simp [start, Pc.inLoop]
  · intro l c
    simp [start, held]
  · intro l
    rw [Lib.Count.count_eq_zero fun c _ hMem => by cases hMem]
    rfl

theorem reachable_inv (h : (machine fun c => [keys c]).Reachable s) : Inv keys s :=
  h.induct (fun _ hInit => start_inv hInit) fun _ _ _ hInv hStep => step_inv hInv hStep

end Invariant

end CcCommon.Util.LockSet
