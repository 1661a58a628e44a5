import Mathlib.Data.List.Basic

/-! # Buffers

A buffer is memory that elements are stored into. What a program does with it
is seen as a pipe: elements go in at one end and come out at the other, and
nothing else happens to them.
-/

namespace CcCommon.Lib

set_option autoImplicit false

universe u

variable {α : Type u}

/-! ## Memory -/

/-- Store `xs` from index `i` on. -/
def store (mem : List α) (i : Nat) (xs : List α) : List α :=
  mem.take i ++ xs ++ mem.drop (i + xs.length)

theorem store_length {mem xs : List α} {i : Nat} (h : i + xs.length ≤ mem.length) :
    (store mem i xs).length = mem.length := by
  simp only [store, List.length_append, List.length_take, List.length_drop]
  omega

theorem take_store {mem xs : List α} {i : Nat} (h : i ≤ mem.length) :
    (store mem i xs).take (i + xs.length) = mem.take i ++ xs := by
  rw [store]
  apply List.take_left'
  rw [List.length_append, List.length_take, Nat.min_eq_left h]

/-! ## Pipes -/

/-- What has come out of a pipe, and what is still inside. -/
structure Pipe (α : Type u) where
  passed : List α
  inside : List α

namespace Pipe

variable (p : Pipe α)

/-- All that has gone into the pipe. -/
def total : List α := p.passed ++ p.inside

def put (xs : List α) : Pipe α := ⟨p.passed, p.inside ++ xs⟩

def take (n : Nat) : Pipe α := ⟨p.passed ++ p.inside.take n, p.inside.drop n⟩

@[simp] theorem total_put (xs : List α) : (p.put xs).total = p.total ++ xs :=
  (List.append_assoc _ _ _).symm

@[simp] theorem total_take (n : Nat) : (p.take n).total = p.total := by
  rw [total, take, List.append_assoc, List.take_append_drop]
  rfl

@[simp] theorem take_zero : p.take 0 = p := by
  simp [take]

theorem take_take (m n : Nat) : (p.take m).take n = p.take (m + n) := by
  simp only [take, List.append_assoc, ← List.take_add, List.drop_drop]

end Pipe

end CcCommon.Lib
