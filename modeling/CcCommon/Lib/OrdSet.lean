import Mathlib.Data.List.Sort

/-! # Sets that are kept in order

The elements of an ordered set, as a list in which each stands once.
-/

namespace CcCommon.Lib

set_option autoImplicit false

universe u

structure OrdSet (α : Type u) [LinearOrder α] where
  toList : List α
  sorted : toList.Pairwise (· ≤ ·)
  nodup : toList.Nodup

namespace OrdSet

variable {α : Type u} [LinearOrder α]

instance : Membership α (OrdSet α) := ⟨fun s a => a ∈ s.toList⟩

instance (a : α) (s : OrdSet α) : Decidable (a ∈ s) := inferInstanceAs (Decidable (a ∈ s.toList))

def empty : OrdSet α := ⟨[], List.Pairwise.nil, List.nodup_nil⟩

def insert (s : OrdSet α) (a : α) : OrdSet α :=
  if h : a ∈ s then s
  else {
    toList := s.toList.orderedInsert (· ≤ ·) a
    sorted := s.sorted.orderedInsert a s.toList
    nodup := (List.perm_orderedInsert _ a s.toList).nodup_iff.mpr (List.nodup_cons.mpr ⟨h, s.nodup⟩) }

def erase (s : OrdSet α) (a : α) : OrdSet α :=
  ⟨s.toList.erase a, s.sorted.sublist List.erase_sublist, s.nodup.erase a⟩

variable {s : OrdSet α} {a b : α}

@[simp] theorem mem_toList : a ∈ s.toList ↔ a ∈ s := Iff.rfl

@[simp] theorem not_mem_empty : a ∉ (empty : OrdSet α) := List.not_mem_nil

@[simp] theorem mem_insert : b ∈ s.insert a ↔ b = a ∨ b ∈ s := by
  unfold insert
  split
  · rename_i h
    constructor
    · exact Or.inr
    · rintro (rfl | hb)
      · exact h
      · exact hb
  · exact List.mem_orderedInsert (· ≤ ·)

theorem length_insert_le (a : α) : (s.insert a).toList.length ≤ s.toList.length + 1 := by
  unfold insert
  split
  · exact Nat.le_succ _
  · exact (List.orderedInsert_length (· ≤ ·) s.toList a).le

@[simp] theorem mem_erase : b ∈ s.erase a ↔ b ≠ a ∧ b ∈ s := s.nodup.mem_erase_iff

end OrdSet

end CcCommon.Lib
