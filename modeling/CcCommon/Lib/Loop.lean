import Mathlib.Data.Seq.Basic

/-! # Loops that take one answer a round

A round takes the next answer from the outside, changes the state and says
whether it was the last. The answers are a sequence that may be infinite: a
loop that goes on forever is one that no finite number of them ends. -/

namespace CcCommon.Lib

set_option autoImplicit false

universe u v w

/-- A loop after some rounds. -/
inductive Loop (σ : Type u) where
  | running (s : σ)
  | left (s : σ)

namespace Loop

variable {σ : Type u} {τ : Type v} {α : Type w}

def state : Loop σ → σ
  | running s => s
  | left s => s

def run (round : σ → α → Bool × σ) : σ → List α → Loop σ
  | s, [] => .running s
  | s, a :: as =>
    match round s a with
    | (true, s') => .left s'
    | (false, s') => run round s' as

variable {round : σ → α → Bool × σ} {s t : σ} {a : α} {as : List α}

theorem run_last (h : (round s a).1 = true) : run round s (a :: as) = .left (round s a).2 := by
  rw [run]
  split
  · rename_i s' hRound
    rw [hRound]
  · rename_i s' hRound
    rw [hRound] at h
    cases h

theorem run_next (h : (round s a).1 = false) :
    run round s (a :: as) = run round (round s a).2 as := by
  rw [run]
  split
  · rename_i s' hRound
    rw [hRound] at h
    cases h
  · rename_i s' hRound
    rw [hRound]

theorem run_concat (h : run round s as = .running t) :
    run round s (as ++ [a]) = run round t [a] := by
  induction as generalizing s with
  | nil =>
    cases h
    rfl
  | cons b as ih =>
    cases hLast : (round s b).1 with
    | true =>
      rw [run_last hLast] at h
      cases h
    | false =>
      rw [run_next hLast] at h
      rw [List.cons_append, run_next hLast]
      exact ih h

/-- If the answer alone tells whether a round is the last, the loop runs on until such an answer. -/
theorem running_iff {Last : α → Prop} (hLast : ∀ s a, (round s a).1 = true ↔ Last a) :
    (∃ t, run round s as = .running t) ↔ ∀ a ∈ as, ¬ Last a := by
  induction as generalizing s with
  | nil => exact iff_of_true ⟨s, rfl⟩ (by simp)
  | cons a as ih =>
    rw [List.forall_mem_cons, ← hLast s a]
    cases hRound : (round s a).1 with
    | true =>
      rw [run_last hRound]
      exact iff_of_false (fun ⟨_, hFalse⟩ => by cases hFalse) (fun hNot => hNot.1 rfl)
    | false =>
      rw [run_next hRound, ih]
      simp

/-- What a round keeps, a loop keeps. -/
theorem run_induct {I : σ → Prop} (hRound : ∀ s, ∀ a ∈ as, I s → I (round s a).2) (h : I s) :
    I (run round s as).state := by
  induction as generalizing s with
  | nil => exact h
  | cons a as ih =>
    have hFirst := hRound s a List.mem_cons_self h
    cases hLast : (round s a).1 with
    | true =>
      rw [run_last hLast]
      exact hFirst
    | false =>
      rw [run_next hLast]
      exact ih (fun t b hb => hRound t b (List.mem_cons_of_mem a hb)) hFirst

/-- Two loops on the same answers that end in the same round, in states that belong together. -/
def Alike (R : σ → τ → Prop) : Loop σ → Loop τ → Prop
  | .running s, .running t => R s t
  | .left s, .left t => R s t
  | _, _ => False

theorem run_alike {R : σ → τ → Prop} {round' : τ → α → Bool × τ} {t : τ}
    (hRound : ∀ s t a, R s t → (round s a).1 = (round' t a).1 ∧ R (round s a).2 (round' t a).2)
    (h : R s t) : Alike R (run round s as) (run round' t as) := by
  induction as generalizing s t with
  | nil => exact h
  | cons a as ih =>
    obtain ⟨hSame, hNext⟩ := hRound s t a h
    cases hLast : (round s a).1 with
    | true =>
      rw [run_last hLast, run_last (hSame ▸ hLast)]
      exact hNext
    | false =>
      rw [run_next hLast, run_next (hSame ▸ hLast)]
      exact ih hNext

/-! ## Sequences of answers -/

variable {os : Stream'.Seq α} {k : Nat}

theorem take_concat (h : os.get? k = some a) : os.take (k + 1) = os.take k ++ [a] := by
  induction k generalizing os with
  | zero =>
    cases os using Stream'.Seq.recOn with
    | nil => cases h
    | cons x os =>
      obtain rfl : x = a := Option.some.inj h
      rw [Stream'.Seq.take_succ_cons, Stream'.Seq.take_zero, Stream'.Seq.take_zero, List.nil_append]
  | succ k ih =>
    cases os using Stream'.Seq.recOn with
    | nil => cases h
    | cons x os =>
      rw [Stream'.Seq.get?_cons_succ] at h
      rw [Stream'.Seq.take_succ_cons, ih h, Stream'.Seq.take_succ_cons, List.cons_append]

theorem get?_of_mem_take (h : a ∈ os.take k) : ∃ j < k, os.get? j = some a := by
  obtain ⟨j, hj⟩ := List.mem_iff_getElem?.mp h
  rw [Stream'.Seq.getElem?_take] at hj
  split at hj
  · rename_i hLt
    exact ⟨j, hLt, hj⟩
  · cases hj

/-- The round that takes the answer `a`, when the loop has come to it. -/
theorem run_take_succ (hRun : run round s (os.take k) = .running t) (h : os.get? k = some a) :
    run round s (os.take (k + 1)) = run round t [a] := by
  rw [take_concat h]
  exact run_concat hRun

end Loop

end CcCommon.Lib
