import Mathlib.Data.List.Infix

/-! # Cursors

A place in a stream that is read piece by piece. Some of the elements that were
passed are kept, so that the cursor can go back to them.
-/

namespace CcCommon.Lib

set_option autoImplicit false

universe u

/-- The elements that can be gone back to, and those that are there to be passed. -/
structure Cursor (α : Type u) where
  before : List α
  after : List α

namespace Cursor

variable {α : Type u}

def next : Cursor α → Cursor α
  | ⟨before, []⟩ => ⟨before, []⟩
  | ⟨before, a :: after⟩ => ⟨before ++ [a], after⟩

/-- More of the stream has come in, and of what was passed the last `n` elements are kept. -/
def refill (c : Cursor α) (n : Nat) (xs : List α) : Cursor α :=
  ⟨c.before.drop (c.before.length - n), c.after ++ xs⟩

/-- The cursor has passed `passed`, and what has come in of the stream is `stream`. It has at least
the last `n` elements of it, or all. -/
structure At (n : Nat) (c : Cursor α) (passed stream : List α) : Prop where
  kept : c.before <:+ passed
  exact : passed ++ c.after = stream
  remembered : min n stream.length ≤ c.before.length + c.after.length

variable {n : Nat} {c : Cursor α} {passed stream : List α} {a : α}

theorem At.start : At n ⟨[], []⟩ ([] : List α) [] := ⟨List.suffix_refl [], rfl, Nat.min_le_right _ _⟩

theorem At.next {rest : List α} (h : c.At n passed stream) (hAfter : c.after = a :: rest) :
    c.next.At n (passed ++ [a]) stream := by
  obtain ⟨before, after⟩ := c
  obtain rfl : after = a :: rest := hAfter
  obtain ⟨forgotten, hKept⟩ := h.kept
  refine ⟨?_, ?_, ?_⟩
  · rw [← hKept]
    exact ⟨forgotten, (List.append_assoc forgotten before [a]).symm⟩
  · rw [← h.exact]
    exact (List.append_cons passed a rest).symm
  · apply h.remembered.trans
    simp only [Cursor.next, List.length_append, List.length_cons, List.length_nil]
    omega

/-- Back at the last element that was passed. -/
theorem At.back {init : List α} (h : c.At n passed stream) (hBefore : c.before = init ++ [a]) :
    At n ⟨init, a :: c.after⟩ passed.dropLast stream ∧ passed = passed.dropLast ++ [a] := by
  obtain ⟨forgotten, hKept⟩ := h.kept
  have hPassed : passed = (forgotten ++ init) ++ [a] := by
    rw [← hKept, hBefore, List.append_assoc]
  have hLast : passed.dropLast = forgotten ++ init := by
    rw [hPassed, List.dropLast_concat]
  rw [hLast]
  refine ⟨⟨⟨forgotten, rfl⟩, ?_, ?_⟩, hPassed⟩
  · rw [← h.exact, hPassed]
    simp
  · apply h.remembered.trans
    rw [hBefore]
    simp only [List.length_append, List.length_cons, List.length_nil]
    omega

theorem length_refill (n : Nat) (xs : List α) :
    (c.refill n xs).before.length = min n c.before.length := by
  rw [refill, List.length_drop]
  omega

theorem At.refill (h : c.At n passed stream) (xs : List α) :
    (c.refill n xs).At n passed (stream ++ xs) where
  kept := (List.drop_suffix _ _).trans h.kept
  exact := by
    rw [← h.exact, List.append_assoc]
    rfl
  remembered := by
    have hRemembered := h.remembered
    rw [length_refill, Cursor.refill, List.length_append, List.length_append]
    omega

/-- Where the cursor is, the stream goes on with what is there to be passed. -/
theorem At.getElem? (h : c.At n passed stream) (i : Nat) :
    stream[passed.length + i]? = c.after[i]? := by
  rw [← h.exact, List.getElem?_append_right (Nat.le_add_right _ _), Nat.add_sub_cancel_left]

/-- What the cursor can go back to are the last elements that were passed. -/
theorem At.take_reverse (h : c.At n passed stream) {k : Nat} (hk : k ≤ c.before.length) :
    passed.reverse.take k = c.before.reverse.take k := by
  obtain ⟨forgotten, rfl⟩ := h.kept
  rw [List.reverse_append, List.take_append_of_le_length (by rwa [List.length_reverse])]

end Cursor

end CcCommon.Lib
