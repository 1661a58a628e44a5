import Mathlib.Data.List.Infix
import Mathlib.Data.Set.Lattice
import Mathlib.Logic.Function.Basic
import Mathlib.Order.CompletePartialOrder

/-! # Serial executions

Clients work on data that is kept under keys. An operation of a client reads
and writes the data of the client's own keys and what the client has kept for
itself, so operations of clients without a common key commute.
-/

namespace CcCommon.Lib.Serial

set_option autoImplicit false

universe u v w x

structure World (ι : Type u) (κ : Type v) (V : Type w) (L : Type x) where
  data : κ → V
  /-- What each client has kept for itself: what it has read, say. -/
  locals : ι → L

/-- An operation on the data of the keys in `S`. -/
structure Operation {κ : Type v} (S : Set κ) (V : Type w) (L : Type x) where
  run : (κ → V) → L → (κ → V) × L
  writes : ∀ d l k, k ∉ S → (run d l).1 k = d k
  reads : ∀ d d' l, Set.EqOn d d' S →
    (run d l).2 = (run d' l).2 ∧ Set.EqOn (run d l).1 (run d' l).1 S

structure Event {ι : Type u} {κ : Type v} (keys : ι → Set κ) (V : Type w) (L : Type x) where
  client : ι
  op : Operation (keys client) V L

section Perform

variable {ι : Type u} {κ : Type v} {V : Type w} {L : Type x} [DecidableEq ι] {S T : Set κ}

def World.perform (world : World ι κ V L) (c : ι) (op : Operation S V L) : World ι κ V L :=
  let after := op.run world.data (world.locals c)
  ⟨after.1, Function.update world.locals c after.2⟩

theorem perform_locals_of_ne (world : World ι κ V L) {c d : ι} (op : Operation S V L) (h : d ≠ c) :
    (world.perform c op).locals d = world.locals d :=
  Function.update_of_ne h _ _

theorem perform_eqOn (world : World ι κ V L) {c : ι} (op : Operation S V L) (h : Disjoint S T) :
    Set.EqOn (world.perform c op).data world.data T :=
  fun k hk => op.writes _ _ k (Set.disjoint_right.mp h hk)

/-- What one operation finds and leaves is the same before and after the other. -/
theorem perform_after (world : World ι κ V L) {c d : ι} (f : Operation S V L) (g : Operation T V L)
    (hClients : d ≠ c) (hKeys : Disjoint S T) :
    ((world.perform c f).perform d g).locals d = (world.perform d g).locals d ∧
      Set.EqOn ((world.perform c f).perform d g).data (world.perform d g).data T := by
  have hSame := g.reads (world.perform c f).data world.data (world.locals d)
    (perform_eqOn world f hKeys)
  simp only [World.perform, Function.update_self, Function.update_of_ne hClients]
  exact hSame

theorem perform_comm (world : World ι κ V L) {c d : ι} (f : Operation S V L) (g : Operation T V L)
    (hClients : c ≠ d) (hKeys : Disjoint S T) :
    (world.perform c f).perform d g = (world.perform d g).perform c f := by
  obtain ⟨hLocals, hData⟩ := perform_after world f g (Ne.symm hClients) hKeys
  obtain ⟨hLocals', hData'⟩ := perform_after world g f hClients hKeys.symm
  have hSameData : ∀ k, ((world.perform c f).perform d g).data k =
      ((world.perform d g).perform c f).data k := by
    intro k
    by_cases hT : k ∈ T
    · have hS := Set.disjoint_right.mp hKeys hT
      exact (hData hT).trans (f.writes _ _ k hS).symm
    · by_cases hS : k ∈ S
      · exact (g.writes _ _ k hT).trans (hData' hS).symm
      · -- neither of them writes `k`
        exact ((g.writes _ _ k hT).trans (f.writes _ _ k hS)).trans
          ((f.writes _ _ k hS).trans (g.writes _ _ k hT)).symm
  have hSameLocals : ∀ e, ((world.perform c f).perform d g).locals e =
      ((world.perform d g).perform c f).locals e := by
    intro e
    by_cases hd : e = d
    · rw [hd, hLocals]
      exact (perform_locals_of_ne _ f (Ne.symm hClients)).symm
    · by_cases hc : e = c
      · rw [hc, hLocals']
        exact perform_locals_of_ne _ g hClients
      · rw [perform_locals_of_ne _ g hd, perform_locals_of_ne _ f hc, perform_locals_of_ne _ f hc,
          perform_locals_of_ne _ g hd]
  exact congrArg₂ World.mk (funext hSameData) (funext hSameLocals)

end Perform

section Exec

variable {ι : Type u} {κ : Type v} {V : Type w} {L : Type x} [DecidableEq ι] {keys : ι → Set κ}

def World.exec (world : World ι κ V L) : List (Event keys V L) → World ι κ V L
  | [] => world
  | e :: es => (world.perform e.client e.op).exec es

variable {world : World ι κ V L} {e : Event keys V L} {es es' : List (Event keys V L)}
  {order : List ι} {c : ι} {inside : ι → Prop}

theorem exec_append : world.exec (es ++ es') = (world.exec es).exec es' := by
  induction es generalizing world with
  | nil => rfl
  | cons e es ih => exact ih

/-- The operation of a client can be done before those of clients that have no key in common with
it. -/
theorem exec_comm (h : ∀ e' ∈ es, e.client ≠ e'.client ∧ Disjoint (keys e.client) (keys e'.client)) :
    (world.exec es).exec [e] = (world.exec [e]).exec es := by
  induction es generalizing world with
  | nil => rfl
  | cons e' es ih =>
    obtain ⟨hClients, hKeys⟩ := h e' List.mem_cons_self
    calc (world.exec (e' :: es)).exec [e]
      _ = ((world.perform e'.client e'.op).exec [e]).exec es :=
        ih fun e'' h'' => h e'' (List.mem_cons_of_mem _ h'')
      _ = (world.exec [e]).exec (e' :: es) :=
        congrArg (World.exec · es) (perform_comm world e.op e'.op hClients hKeys).symm

/-! ## One client after the other -/

/-- What the clients have done, with all that one of them has done at its place in the order. -/
def serial (order : List ι) (es : List (Event keys V L)) : List (Event keys V L) :=
  order.flatMap fun c => es.filter fun e => e.client = c

theorem mem_serial (h : e ∈ serial order es) : e.client ∈ order := by
  obtain ⟨c, hc, he⟩ := List.mem_flatMap.mp h
  rwa [of_decide_eq_true (List.mem_filter.mp he).2]

theorem serial_append {before after : List ι} :
    serial (before ++ after) es = serial before es ++ serial after es :=
  List.flatMap_append

theorem serial_cons {after : List ι} :
    serial (c :: after) es = (es.filter fun e => e.client = c) ++ serial after es :=
  List.flatMap_cons

/-- A client that has done nothing yet can come last. -/
theorem serial_new (h : ∀ e ∈ es, e.client ≠ c) : serial (order ++ [c]) es = serial order es := by
  have hNone : (es.filter fun e => e.client = c) = [] :=
    List.filter_eq_nil_iff.mpr fun e he => by simpa using h e he
  rw [serial_append, serial_cons, hNone]
  simp [serial]

theorem serial_concat_other (h : e.client ∉ order) : serial order (es ++ [e]) = serial order es := by
  refine List.flatMap_congr fun c hc => ?_
  have hOther : e.client ≠ c := fun hEq => h (hEq ▸ hc)
  simp [List.filter_append, hOther]

/-- An operation of a client that is inside, where clients that came after one that is inside have
no key in common with it. -/
theorem exec_serial_concat (hNodup : order.Nodup)
    (hApart : order.Pairwise fun c d => inside c → Disjoint (keys c) (keys d))
    (hMem : e.client ∈ order) (hInside : inside e.client) :
    world.exec (serial order (es ++ [e])) = (world.exec (serial order es)).exec [e] := by
  obtain ⟨before, after, rfl⟩ := List.append_of_mem hMem
  obtain ⟨-, hAfter, hBefore⟩ := List.nodup_append.mp hNodup
  have hNotBefore : e.client ∉ before := fun h => hBefore _ h _ List.mem_cons_self rfl
  have hNotAfter : e.client ∉ after := (List.nodup_cons.mp hAfter).1
  have hLater : ∀ e' ∈ serial after es,
      e.client ≠ e'.client ∧ Disjoint (keys e.client) (keys e'.client) := by
    intro e' he'
    have hMem' := mem_serial he'
    have hCons := (List.pairwise_append.mp hApart).2.1
    exact ⟨fun hEq => hNotAfter (hEq ▸ hMem'),
      (List.pairwise_cons.mp hCons).1 e'.client hMem' hInside⟩
  have hOwn : ((es ++ [e]).filter fun e' => e'.client = e.client) =
      (es.filter fun e' => e'.client = e.client) ++ [e] := by
    simp [List.filter_append]
  rw [serial_append, serial_cons, serial_concat_other hNotBefore, serial_concat_other hNotAfter, hOwn,
    serial_append, serial_cons]
  simp only [exec_append]
  exact (exec_comm hLater).symm

end Exec

end CcCommon.Lib.Serial
