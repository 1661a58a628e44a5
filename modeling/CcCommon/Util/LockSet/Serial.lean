import CcCommon.Lib.Serial
import CcCommon.Util.LockSet.Exclusion

/-! # What the LockSet is for

The clients share data that is kept under the keys. A client works on the data
of its keys after `locksFor` has returned and before its LockSetLock is
destroyed, in as many operations as it likes.
-/

namespace CcCommon.Util.LockSet

open Lib.Serial (World Event Operation serial)

set_option autoImplicit false

universe u v w

section Shared

variable {ι : Type u} {V : Type v} {L : Type w}

/-- The empty key is one that `locksFor` passes over. -/
def guarded (keys : ι → List Key) (c : ι) : Set Key := { k | k ∈ keys c ∧ k ≠ [] }

structure Shared (ι : Type u) (V : Type v) (L : Type w) where
  locks : State ι
  world : World ι Key V L

inductive Move (keys : ι → List Key) (V : Type v) (L : Type w) where
  | lock (c : ι)
  | work (e : Event (guarded keys) V L)

/-- What the clients do with the data, in the order in which they do it. -/
def worked {keys : ι → List Key} (as : List (Move keys V L)) : List (Event (guarded keys) V L) :=
  as.filterMap fun
    | .lock _ => none
    | .work e => some e

instance (s : State ι) (c : ι) : Decidable (Inside s c) :=
  inferInstanceAs (Decidable (_ ∧ _))

variable [DecidableEq ι]

def Shared.move {keys : ι → List Key} (s : Shared ι V L) : Move keys V L → Option (Shared ι V L)
  | .lock c => (step s.locks c).map fun locks => { s with locks := locks }
  | .work e => if Inside s.locks e.client then some { s with world := s.world.exec [e] } else none

def Shared.opened (keys : ι → List Key) (world : World ι Key V L) : Shared ι V L :=
  ⟨start fun c => [keys c], world⟩

def sharing (keys : ι → List Key) (world : World ι Key V L) :
    Lib.Machine (Shared ι V L) (Move keys V L) where
  init s := s = .opened keys world
  step := Shared.move

end Shared

/-! ## Who has been inside -/

def Pc.leaving : Pc → Bool
  | .unlocking _ | .counting _ | .gone => true
  | _ => false

section Entered

variable {ι : Type u} {s s' : State ι} {c : ι}

/-- `locksFor` has returned. -/
def Entered (s : State ι) (c : ι) : Prop := Inside s c ∨ (s.clients c).pc.leaving = true

theorem not_entered_of_calls {calls : List Key} {rest : List (List Key)}
    (hCalls : (s.clients c).calls = calls :: rest) (hPc : (s.clients c).pc = .ready) :
    ¬ Entered s c := by
  rintro (⟨-, hNone⟩ | hLeaving)
  · rw [hCalls] at hNone
    cases hNone
  · rw [hPc] at hLeaving
    cases hLeaving

theorem not_entered_of_pc (hReady : (s.clients c).pc ≠ .ready)
    (hLeaving : (s.clients c).pc.leaving = false) : ¬ Entered s c := by
  rintro (⟨hPc, -⟩ | h)
  · exact hReady hPc
  · rw [hLeaving] at h
    cases h

theorem entered_of_leaving (h : (s.clients c).pc.leaving = true) : Entered s c ∧ ¬ Inside s c := by
  refine ⟨Or.inr h, ?_⟩
  rintro ⟨hPc, -⟩
  rw [hPc] at h
  cases h

/-- What a step of a client does to who is inside. -/
inductive Enters (s : State ι) (c : ι) (s' : State ι) : Prop where
  | comes (hBefore : ¬ Entered s c) (hAfter : Inside s' c)
  | stays (hEntered : Entered s' c ↔ Entered s c) (hInside : Inside s' c → Inside s c)

theorem Enters.outside (hBefore : ¬ Entered s c) (hAfter : ¬ Entered s' c) : Enters s c s' :=
  .stays (iff_of_false hAfter hBefore) fun hIn => absurd (Or.inl hIn) hAfter

theorem Enters.leaves (hBefore : Entered s c) (hAfter : (s'.clients c).pc.leaving = true) :
    Enters s c s' :=
  .stays (iff_of_true (Or.inr hAfter) hBefore) fun hIn =>
    absurd hIn (entered_of_leaving hAfter).2

variable [DecidableEq ι]

theorem step_enters [Fintype ι] {keys : ι → List Key} (h : Inv keys s)
    (hStep : step s c = some s') : Enters s c s' := by
  have hStage := h.stage c
  cases step_cases hStep with
  | enter args calls locks_ hAt hFree =>
    apply Enters.outside (not_entered_of_calls (by rw [hAt]) (by rw [hAt]))
    apply not_entered_of_pc <;> simp [Pc.leaving]
  | skip calls locks_ key todo last initsz hAt hSkip =>
    apply Enters.outside
    · apply not_entered_of_pc <;> simp [hAt, Pc.leaving]
    · apply not_entered_of_pc <;> simp [Pc.leaving]
  | register calls locks_ key todo last initsz hAt hKey =>
    apply Enters.outside
    · apply not_entered_of_pc <;> simp [hAt, Pc.leaving]
    · apply not_entered_of_pc <;> simp [Pc.leaving]
  | leave calls locks_ last initsz hAt =>
    apply Enters.outside
    · apply not_entered_of_pc <;> simp [hAt, Pc.leaving]
    · apply not_entered_of_pc <;> simp [Pc.leaving]
  | lock calls locks_ i l hAt hl hFree =>
    apply Enters.outside
    · apply not_entered_of_pc <;> simp [hAt, Pc.leaving]
    · apply not_entered_of_pc <;> simp [Pc.leaving]
  | finish calls locks_ i hAt hEnd =>
    rw [hAt] at hStage
    cases hStage with
    | locking _ _ hLocks hi =>
      refine .comes ?_ ?_
      · apply not_entered_of_pc <;> simp [hAt, Pc.leaving]
      · constructor <;> simp
  | destroy locks_ hAt =>
    apply Enters.leaves
    · exact Or.inl ⟨by rw [hAt], by rw [hAt]⟩
    · simp [Pc.leaving]
  | unlock calls locks_ i l hAt hl =>
    apply Enters.leaves
    · exact Or.inr (by rw [hAt]; rfl)
    · simp [Pc.leaving]
  | count calls locks_ i l hAt hl =>
    apply Enters.leaves
    · exact Or.inr (by rw [hAt]; rfl)
    · simp [Pc.leaving]
  | clear calls locks_ i hAt hEnd =>
    apply Enters.leaves
    · exact Or.inr (by rw [hAt]; rfl)
    · simp [Pc.leaving]

end Entered

/-! ## The clients in the order in which they came in -/

section Order

variable {ι : Type u} {V : Type v} {L : Type w} [Fintype ι] [DecidableEq ι] {keys : ι → List Key}
  {world : World ι Key V L} {s s' : Shared ι V L} {es : List (Event (guarded keys) V L)}
  {order : List ι} {c : ι}

/-- The order is one in which what the clients have done could have been done by one after the
other. -/
structure Serializes (keys : ι → List Key) (world : World ι Key V L)
    (es : List (Event (guarded keys) V L)) (s : Shared ι V L) (order : List ι) : Prop where
  inv : Inv keys s.locks
  nodup : order.Nodup
  entered : ∀ c, c ∈ order ↔ Entered s.locks c
  apart : order.Pairwise fun c d => Inside s.locks c → Disjoint (guarded keys c) (guarded keys d)
  clients : ∀ e ∈ es, Entered s.locks e.client
  world : s.world = world.exec (serial order es)

omit [DecidableEq ι] in
theorem Inv.apart {s : State ι} (h : Inv keys s) {c d : ι} (hIn : Inside s c) (hIn' : Inside s d)
    (hNe : c ≠ d) : Disjoint (guarded keys c) (guarded keys d) := by
  rw [Set.disjoint_left]
  rintro k ⟨hk, hFull⟩ ⟨hk', -⟩
  exact hNe (h.accounts.exclusive c d hIn hIn' k hk hk' hFull)

theorem Serializes.work {e : Event (guarded keys) V L} (h : Serializes keys world es s order)
    (hIn : Inside s.locks e.client) :
    Serializes keys world (es ++ [e]) { s with world := s.world.exec [e] } order := by
  refine ⟨h.inv, h.nodup, h.entered, h.apart, ?_, ?_⟩
  · intro e' he'
    obtain hOld | hNew := List.mem_append.mp he'
    · exact h.clients e' hOld
    · rw [List.mem_singleton.mp hNew]
      exact Or.inl hIn
  · have hMem : e.client ∈ order := (h.entered e.client).mpr (Or.inl hIn)
    rw [Lib.Serial.exec_serial_concat h.nodup h.apart hMem hIn, ← h.world]

/-- A client that came in is the last one in the order. -/
theorem Serializes.lock {locks : State ι} (h : Serializes keys world es s order)
    (hStep : step s.locks c = some locks) :
    ∃ order', order <+: order' ∧ Serializes keys world es { s with locks := locks } order' := by
  have hInv := step_inv h.inv hStep
  have hSame : ∀ c', c' ≠ c → (Entered locks c' ↔ Entered s.locks c') ∧
      (Inside locks c' ↔ Inside s.locks c') := by
    intro c' hc
    rw [Entered, Entered, Inside, Inside, step_elsewhere hStep hc]
    exact ⟨Iff.rfl, Iff.rfl⟩
  cases step_enters h.inv hStep with
  | comes hBefore hAfter =>
    have hNew : c ∉ order := fun hMem => hBefore ((h.entered c).mp hMem)
    have hOld : ∀ d ∈ order, Entered locks d ↔ Entered s.locks d :=
      fun d hd => (hSame d fun hEq => hNew (hEq ▸ hd)).1
    refine ⟨order ++ [c], List.prefix_append _ _, hInv, ?_, ?_, ?_, ?_, ?_⟩
    · exact List.nodup_append.mpr ⟨h.nodup, List.nodup_singleton c, by
        rintro d hd _ hc rfl
        exact hNew (List.mem_singleton.mp hc ▸ hd)⟩
    · intro d
      rw [List.mem_append, List.mem_singleton, h.entered d]
      by_cases hd : d = c
      · exact iff_of_true (Or.inr hd) (Or.inl (hd ▸ hAfter))
      · simp [hd, (hSame d hd).1]
    · refine List.pairwise_append.mpr ⟨?_, List.pairwise_singleton _ _, ?_⟩
      · refine h.apart.imp_of_mem ?_
        intro d d' hd _ hApart hIn
        exact hApart ((hSame d fun hEq => hNew (hEq ▸ hd)).2.mp hIn)
      · intro d hd d' hd' hIn
        obtain rfl := List.mem_singleton.mp hd'
        exact hInv.apart hIn hAfter fun hEq => hNew (hEq ▸ hd)
    · intro e he
      have hMem := (h.entered e.client).mpr (h.clients e he)
      exact (hOld e.client hMem).mpr (h.clients e he)
    · rw [Lib.Serial.serial_new]
      · exact h.world
      · rintro e he rfl
        exact hBefore (h.clients e he)
  | stays hEntered hInside =>
    have hAll : ∀ d, (Entered locks d ↔ Entered s.locks d) ∧ (Inside locks d → Inside s.locks d) := by
      intro d
      by_cases hd : d = c
      · rw [hd]
        exact ⟨hEntered, hInside⟩
      · exact ⟨(hSame d hd).1, (hSame d hd).2.mp⟩
    refine ⟨order, List.prefix_refl _, hInv, h.nodup, ?_, ?_, ?_, h.world⟩
    · exact fun d => (h.entered d).trans (hAll d).1.symm
    · exact h.apart.imp fun hApart hIn => hApart ((hAll _).2 hIn)
    · exact fun e he => (hAll e.client).1.mpr (h.clients e he)

theorem Serializes.step {a : Move keys V L} {as : List (Move keys V L)}
    (h : Serializes keys world (worked as) s order) (hStep : (sharing keys world).step s a = some s') :
    ∃ order', order <+: order' ∧ Serializes keys world (worked (as ++ [a])) s' order' := by
  cases a with
  | lock c =>
    obtain ⟨locks, hLocks, rfl⟩ := Option.map_eq_some_iff.mp hStep
    have hWorked : worked (as ++ [.lock c]) = worked as := by simp [worked]
    rw [hWorked]
    exact h.lock hLocks
  | work e =>
    simp only [sharing, Shared.move] at hStep
    split at hStep
    · rename_i hIn
      cases hStep
      have hWorked : worked (as ++ [.work e]) = worked as ++ [e] := by simp [worked]
      rw [hWorked]
      exact ⟨order, List.prefix_refl _, h.work hIn⟩
    · cases hStep

theorem Serializes.opened (keys : ι → List Key) (world : World ι Key V L) :
    Serializes keys world [] (.opened keys world) [] := by
  refine ⟨start_inv rfl, List.nodup_nil, ?_, List.Pairwise.nil, nofun, rfl⟩
  intro c
  refine iff_of_false List.not_mem_nil (not_entered_of_calls rfl rfl)

/-- The order of a run goes on from that of each part of the run. -/
theorem exists_order {as : List (Move keys V L)}
    (hRun : (sharing keys world).run (.opened keys world) as = some s) :
    ∃ order, Serializes keys world (worked as) s order ∧
      ∀ done u, done <+: as → (sharing keys world).run (.opened keys world) done = some u →
        ∃ first, first <+: order ∧ ∀ c, c ∈ first ↔ Entered u.locks c := by
  induction as using List.reverseRecOn generalizing s with
  | nil =>
    cases hRun
    have hStart := Serializes.opened keys world
    refine ⟨[], hStart, ?_⟩
    intro done u hDone hu
    rw [List.prefix_nil.mp hDone] at hu
    cases hu
    exact ⟨[], List.prefix_refl _, hStart.entered⟩
  | append_singleton as a ih =>
    obtain ⟨t, ht, hStep⟩ := Lib.Machine.run_concat_some hRun
    obtain ⟨order, hOrder, hParts⟩ := ih ht
    obtain ⟨order', hPrefix, hOrder'⟩ := hOrder.step hStep
    refine ⟨order', hOrder', ?_⟩
    intro done u hDone hu
    obtain rfl | hDone := List.prefix_concat_iff.mp hDone
    · rw [hRun] at hu
      cases hu
      exact ⟨order', List.prefix_refl _, hOrder'.entered⟩
    · obtain ⟨first, hFirst, hEntered⟩ := hParts done u hDone hu
      exact ⟨first, hFirst.trans hPrefix, hEntered⟩

/-- However the clients are interleaved, what they have done to the data, and what each has seen of
it, is as if they had come one after the other, in the order in which `locksFor` returned to them.
-/
theorem lockSet_serializable {as : List (Move keys V L)}
    (hRun : (sharing keys world).run (.opened keys world) as = some s) :
    ∃ order : List ι, order.Nodup ∧ (∀ c, c ∈ order ↔ Entered s.locks c) ∧
      s.world = world.exec (serial order (worked as)) ∧
      ∀ done u, done <+: as → (sharing keys world).run (.opened keys world) done = some u →
        ∃ first, first <+: order ∧ ∀ c, c ∈ first ↔ Entered u.locks c := by
  obtain ⟨order, hOrder, hParts⟩ := exists_order hRun
  exact ⟨order, hOrder.nodup, hOrder.entered, hOrder.world, hParts⟩

end Order

/-- The client keeps the number it finds under the key, and adds one to it. -/
def increment {keys : Bool → List Key} (c : Bool) (key : Key) (hKey : key ∈ guarded keys c) :
    Event (guarded keys) Nat Nat where
  client := c
  op :=
    { run := fun d _ => (Function.update d key (d key + 1), d key)
      writes := by
        intro d l k hk
        refine Function.update_of_ne ?_ _ _
        rintro rfl
        exact hk hKey
      reads := by
        intro d d' l hSame
        refine ⟨hSame hKey, fun k hk => ?_⟩
        by_cases hEq : k = key
        · rw [hEq]
          simp [hSame hKey]
        · simp [hEq, hSame hk] }

/-- The client `true` works before and after `false` has come in, on a key of its own. -/
def overlapping (c : Bool) : List Key := if c then [[.last 255]] else [[.last 255, .last 255], []]

def overlappingMoves : List (Move overlapping Nat Nat) :=
  let first := increment true [.last 255] ⟨by decide, by decide⟩
  List.replicate 5 (.lock true) ++ [.work first] ++ List.replicate 6 (.lock false) ++
    [.work (increment false [.last 255, .last 255] ⟨by decide, by decide⟩), .work first, .lock true]

def fives : World Bool Key Nat Nat := ⟨fun _ => 5, fun _ => 0⟩

/-- The client `true` has added one twice, and has kept what the second addition found. -/
theorem lockSet_serializable_overlapping :
    ∃ s, (sharing overlapping fives).run (.opened overlapping fives) overlappingMoves = some s ∧
      (s.world.data [.last 255], s.world.locals true) = (7, 6) ∧
      ∃ order : List Bool, order.Nodup ∧ (∀ c, c ∈ order ↔ Entered s.locks c) ∧
        s.world = fives.exec (serial order (worked overlappingMoves)) := by
  have hSeen : ((sharing overlapping fives).run (.opened overlapping fives) overlappingMoves).map
      (fun s => (s.world.data [.last 255], s.world.locals true)) = some (7, 6) := rfl
  obtain ⟨s, hRun, hData⟩ := Option.map_eq_some_iff.mp hSeen
  obtain ⟨order, hNodup, hEntered, hWorld, -⟩ := lockSet_serializable hRun
  exact ⟨s, hRun, hData, order, hNodup, hEntered, hWorld⟩

end CcCommon.Util.LockSet
