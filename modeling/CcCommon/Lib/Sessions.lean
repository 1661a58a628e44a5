import Mathlib.Algebra.BigOperators.Group.List.Basic
import Mathlib.Algebra.Ring.Int.Defs
import Mathlib.Data.List.Basic

/-! # Sessions

What happens to a resource that is used again and again: each time it is
taken, worked on, and given back.
-/

namespace CcCommon.Lib

set_option autoImplicit false

universe u

/-- A session begins with `first` and ends with `last`; in between there is only what is in
`during`. -/
structure Session (ε : Type u) where
  first : ε
  during : ε → Prop
  last : List ε

namespace Session

variable {ε : Type u} (S : Session ε)

/-- A session that has not ended. -/
def Begun (es : List ε) : Prop := ∃ body, (∀ e ∈ body, S.during e) ∧ es = S.first :: body

/-- A session that has ended. -/
def Whole (es : List ε) : Prop := ∃ begun, S.Begun begun ∧ es = begun ++ S.last

/-- Whole sessions one after the other, and one more that has begun exactly if `live`. -/
def Series (live : Prop) (es : List ε) : Prop :=
  ∃ (wholes : List (List ε)) (current : List ε),
    (∀ w ∈ wholes, S.Whole w) ∧ es = wholes.flatten ++ current ∧
    (live → S.Begun current) ∧ (¬ live → current = [])

variable {S} {live : Prop} {es : List ε}

theorem Series.nil (h : ¬ live) : S.Series live [] :=
  ⟨[], [], by simp, rfl, fun hLive => absurd hLive h, fun _ => rfl⟩

theorem Series.iff {live' : Prop} (h : S.Series live es) (hIff : live' ↔ live) :
    S.Series live' es := by
  rwa [propext hIff]

theorem Series.start (h : S.Series live es) (hLive : ¬ live) {live' : Prop} (hLive' : live') :
    S.Series live' (es ++ [S.first]) := by
  obtain ⟨wholes, current, hWholes, rfl, -, hCurrent⟩ := h
  obtain rfl := hCurrent hLive
  refine ⟨wholes, [S.first], hWholes, by simp, ?_, fun hNot => absurd hLive' hNot⟩
  exact fun _ => ⟨[], by simp, rfl⟩

theorem Series.continue (h : S.Series live es) (hLive : live) {e : ε} (he : S.during e) :
    S.Series live (es ++ [e]) := by
  obtain ⟨wholes, current, hWholes, rfl, hCurrent, -⟩ := h
  obtain ⟨body, hBody, rfl⟩ := hCurrent hLive
  refine ⟨wholes, S.first :: body ++ [e], hWholes, by simp, ?_, fun hNot => absurd hLive hNot⟩
  intro _
  refine ⟨body ++ [e], ?_, rfl⟩
  intro e' he'
  rcases List.mem_append.mp he' with hOld | hNew
  · exact hBody e' hOld
  · rwa [List.mem_singleton.mp hNew]

theorem Series.continues (h : S.Series live es) (hLive : live) {more : List ε}
    (hMore : ∀ e ∈ more, S.during e) : S.Series live (es ++ more) := by
  induction more generalizing es with
  | nil => rwa [List.append_nil]
  | cons e more ih =>
    have hNext := h.continue hLive (hMore e List.mem_cons_self)
    rw [List.append_cons]
    exact ih hNext fun e' he' => hMore e' (List.mem_cons_of_mem e he')

theorem Series.finish (h : S.Series live es) (hLive : live) {live' : Prop} (hLive' : ¬ live') :
    S.Series live' (es ++ S.last) := by
  obtain ⟨wholes, current, hWholes, rfl, hCurrent, -⟩ := h
  refine ⟨wholes ++ [current ++ S.last], [], ?_, by simp, fun hNot => absurd hNot hLive',
    fun _ => rfl⟩
  intro w hw
  rcases List.mem_append.mp hw with hOld | hNew
  · exact hWholes w hOld
  · rw [List.mem_singleton.mp hNew]
    exact ⟨current, hCurrent hLive, rfl⟩

/-! ## Sums over sessions -/

section Sum

variable {w : ε → Int}

theorem Begun.sum (hDuring : ∀ e, S.during e → w e = 0) (h : S.Begun es) :
    (es.map w).sum = w S.first := by
  obtain ⟨body, hBody, rfl⟩ := h
  have hZero : (body.map w).sum = 0 := by
    apply List.sum_eq_zero
    intro x hx
    obtain ⟨e, he, rfl⟩ := List.mem_map.mp hx
    exact hDuring e (hBody e he)
  rw [List.map_cons, List.sum_cons, hZero, add_zero]

/-- What is given back makes up for what was taken. -/
theorem Series.sum_eq_zero (hDuring : ∀ e, S.during e → w e = 0)
    (hLast : w S.first + (S.last.map w).sum = 0) (h : S.Series False es) :
    (es.map w).sum = 0 := by
  obtain ⟨wholes, current, hWholes, rfl, -, hCurrent⟩ := h
  rw [hCurrent not_false, List.append_nil]
  clear hCurrent
  induction wholes with
  | nil => rfl
  | cons whole wholes ih =>
    obtain ⟨begun, hBegun, hWhole⟩ := hWholes whole List.mem_cons_self
    have hZero : (whole.map w).sum = 0 := by
      rw [hWhole, List.map_append, List.sum_append, hBegun.sum hDuring, hLast]
    rw [List.flatten_cons, List.map_append, List.sum_append, hZero, zero_add]
    exact ih fun whole' hMem => hWholes whole' (List.mem_cons_of_mem whole hMem)

end Sum

end Session

end CcCommon.Lib
