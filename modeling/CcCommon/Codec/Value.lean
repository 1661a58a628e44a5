import Mathlib.Algebra.Group.Nat.Defs
import Mathlib.Data.List.Basic

/-! # codec/codec.h: codec_value

A value that the encoders read. `μ` is what the memory of a node holds
besides its content (addresses, capacities, unselected bytes); the abstract
value is the same tree with nothing there. A `codec_value_kv` is two values
side by side, so the entries of a map are laid out key, value, key, value.
-/

namespace CcCommon.Codec

set_option autoImplicit false

/-- `codec_value_type`; `unset` is the 0 of a zeroed struct. -/
inductive CodecValueType where
  | unset | nil | bool | posInt | negInt | float32 | float64
  | string | bytes | array | map | customExt
  deriving DecidableEq, Repr

inductive CodecValue (μ : Type) where
  | nil (m : μ)
  | bool (m : μ) (b : Bool)
  | posInt (m : μ) (n : UInt64)
  | negInt (m : μ) (n : UInt64)
  | float32 (m : μ) (bits : UInt32)
  | float64 (m : μ) (bits : UInt64)
  | string (m : μ) (p : List UInt8)
  | bytes (m : μ) (p : List UInt8)
  | array (m : μ) (vs : List (CodecValue μ))
  | map (m : μ) (kvs : List (CodecValue μ × CodecValue μ))
  | customExt (m : μ) (tag : UInt8) (p : List UInt8)

/-- A value with no memory around it. -/
abbrev Value : Type := CodecValue Unit

/-- The first value a C `int` cannot hold. -/
def intLimit : Nat := 2 ^ 31

namespace CodecValue

variable {μ : Type}

def type : CodecValue μ → CodecValueType
  | nil _ => .nil
  | bool _ _ => .bool
  | posInt _ _ => .posInt
  | negInt _ _ => .negInt
  | float32 _ _ => .float32
  | float64 _ _ => .float64
  | string _ _ => .string
  | bytes _ _ => .bytes
  | array _ _ => .array
  | map _ _ => .map
  | customExt _ _ _ => .customExt

/-- `vArray.len` or `vMap.len`. -/
def count : CodecValue μ → Nat
  | array _ vs => vs.length
  | map _ kvs => kvs.length
  | _ => 0

/-- The bytes of a string, a byte string or an extension. -/
def payload : CodecValue μ → List UInt8
  | string _ p => p
  | bytes _ p => p
  | customExt _ _ p => p
  | _ => []

def entries {α : Type} : List (α × α) → List α
  | [] => []
  | (k, v) :: kvs => k :: v :: entries kvs

@[simp] theorem entries_length {α : Type} (kvs : List (α × α)) :
    (entries kvs).length = 2 * kvs.length := by
  induction kvs with
  | nil => rfl
  | cons kv kvs ih => simp only [entries, List.length_cons, ih]; omega

theorem entries_append {α : Type} (kvs lws : List (α × α)) :
    entries (kvs ++ lws) = entries kvs ++ entries lws := by
  induction kvs with
  | nil => rfl
  | cons kv kvs ih => simp only [entries, List.cons_append, ih]

theorem mem_entries {α : Type} {kvs : List (α × α)} {a : α} :
    a ∈ entries kvs ↔ ∃ kv ∈ kvs, a = kv.1 ∨ a = kv.2 := by
  induction kvs with
  | nil => simp [entries]
  | cons kv kvs ih => simp [entries, ih, or_assoc]

/-- The values of a container in memory order. -/
def children : CodecValue μ → List (CodecValue μ)
  | array _ vs => vs
  | map _ kvs => entries kvs
  | _ => []

section Induction

variable {motive : CodecValue μ → Prop}

mutual
private theorem ind_value (h : ∀ v, (∀ c ∈ v.children, motive c) → motive v) :
    ∀ v : CodecValue μ, motive v
  | array m vs => h (array m vs) (ind_list h vs)
  | map m kvs => h (map m kvs) (ind_pairs h kvs)
  | nil m => h (nil m) (by simp [children])
  | bool m b => h (bool m b) (by simp [children])
  | posInt m n => h (posInt m n) (by simp [children])
  | negInt m n => h (negInt m n) (by simp [children])
  | float32 m b => h (float32 m b) (by simp [children])
  | float64 m b => h (float64 m b) (by simp [children])
  | string m p => h (string m p) (by simp [children])
  | bytes m p => h (bytes m p) (by simp [children])
  | customExt m t p => h (customExt m t p) (by simp [children])

private theorem ind_list (h : ∀ v, (∀ c ∈ v.children, motive c) → motive v) :
    ∀ vs : List (CodecValue μ), ∀ c ∈ vs, motive c
  | [], _, hc => by cases hc
  | v :: vs, c, hc => by
    rcases List.mem_cons.mp hc with hc | hc
    · rw [hc]
      exact ind_value h v
    · exact ind_list h vs c hc

private theorem ind_pairs (h : ∀ v, (∀ c ∈ v.children, motive c) → motive v) :
    ∀ kvs : List (CodecValue μ × CodecValue μ), ∀ c ∈ entries kvs, motive c
  | [], _, hc => by cases hc
  | (k, v) :: kvs, c, hc => by
    rcases List.mem_cons.mp hc with hc | hc
    · rw [hc]
      exact ind_value h k
    · rcases List.mem_cons.mp hc with hc | hc
      · rw [hc]
        exact ind_value h v
      · exact ind_pairs h kvs c hc
end

/-- Induction on a value from the values directly inside it. -/
theorem ind (h : ∀ v, (∀ c ∈ v.children, motive c) → motive v) (v : CodecValue μ) : motive v :=
  ind_value h v

end Induction

/-- `p` holds at every node. -/
inductive All (p : CodecValue μ → Prop) : CodecValue μ → Prop where
  | node {v : CodecValue μ} (root : p v) (inner : ∀ c ∈ v.children, All p c) : All p v

theorem All.root {p : CodecValue μ → Prop} {v : CodecValue μ} (h : All p v) : p v := by
  cases h with
  | node root _ => exact root

theorem All.inner {p : CodecValue μ → Prop} {v : CodecValue μ} (h : All p v) :
    ∀ c ∈ v.children, All p c := by
  cases h with
  | node _ inner => exact inner

theorem All.leaf {p : CodecValue μ → Prop} {v : CodecValue μ} (root : p v)
    (hLeaf : v.children = []) : All p v := by
  refine .node root fun c hc => ?_
  rw [hLeaf] at hc
  cases hc

theorem All.imp {p q : CodecValue μ → Prop} (hpq : ∀ v, p v → q v) {v : CodecValue μ}
    (h : All p v) : All q v := by
  induction h with
  | node root _ ih => exact .node (hpq _ root) ih

/-- Every element loop over the value fits an `int` counter. -/
def IntCounts (v : CodecValue μ) : Prop := v.All fun w => w.count < intLimit

mutual
/-- The abstract value. -/
def erase : CodecValue μ → Value
  | nil _ => .nil ()
  | bool _ b => .bool () b
  | posInt _ n => .posInt () n
  | negInt _ n => .negInt () n
  | float32 _ bits => .float32 () bits
  | float64 _ bits => .float64 () bits
  | string _ p => .string () p
  | bytes _ p => .bytes () p
  | array _ vs => .array () (eraseList vs)
  | map _ kvs => .map () (erasePairs kvs)
  | customExt _ tag p => .customExt () tag p

def eraseList : List (CodecValue μ) → List Value
  | [] => []
  | v :: vs => v.erase :: eraseList vs

def erasePairs : List (CodecValue μ × CodecValue μ) → List (Value × Value)
  | [] => []
  | (k, v) :: kvs => (k.erase, v.erase) :: erasePairs kvs
end

@[simp] theorem eraseList_eq (vs : List (CodecValue μ)) : eraseList vs = vs.map erase := by
  induction vs with
  | nil => rfl
  | cons v vs ih => simp only [eraseList, List.map_cons, ih]

@[simp] theorem erasePairs_length (kvs : List (CodecValue μ × CodecValue μ)) :
    (erasePairs kvs).length = kvs.length := by
  induction kvs with
  | nil => rfl
  | cons kv kvs ih => simp only [erasePairs, List.length_cons, ih]

@[simp] theorem entries_erasePairs (kvs : List (CodecValue μ × CodecValue μ)) :
    entries (erasePairs kvs) = (entries kvs).map erase := by
  induction kvs with
  | nil => rfl
  | cons kv kvs ih => simp only [erasePairs, entries, List.map_cons, ih]

theorem children_erase (v : CodecValue μ) : v.erase.children = v.children.map erase := by
  cases v <;> simp [erase, children]

section Relabel

variable {ν ξ : Type}

mutual
/-- The same tree with other memory around its nodes. -/
def relabel (f : CodecValue μ → ν) : CodecValue μ → CodecValue ν
  | nil m => .nil (f (nil m))
  | bool m b => .bool (f (bool m b)) b
  | posInt m n => .posInt (f (posInt m n)) n
  | negInt m n => .negInt (f (negInt m n)) n
  | float32 m bits => .float32 (f (float32 m bits)) bits
  | float64 m bits => .float64 (f (float64 m bits)) bits
  | string m p => .string (f (string m p)) p
  | bytes m p => .bytes (f (bytes m p)) p
  | array m vs => .array (f (array m vs)) (relabelList f vs)
  | map m kvs => .map (f (map m kvs)) (relabelPairs f kvs)
  | customExt m tag p => .customExt (f (customExt m tag p)) tag p

def relabelList (f : CodecValue μ → ν) : List (CodecValue μ) → List (CodecValue ν)
  | [] => []
  | v :: vs => v.relabel f :: relabelList f vs

def relabelPairs (f : CodecValue μ → ν) :
    List (CodecValue μ × CodecValue μ) → List (CodecValue ν × CodecValue ν)
  | [] => []
  | (k, v) :: kvs => (k.relabel f, v.relabel f) :: relabelPairs f kvs
end

variable (f : CodecValue μ → ν)

@[simp] theorem relabelList_eq (vs : List (CodecValue μ)) :
    relabelList f vs = vs.map (relabel f) := by
  induction vs with
  | nil => rfl
  | cons v vs ih => simp only [relabelList, List.map_cons, ih]

@[simp] theorem relabelPairs_length (kvs : List (CodecValue μ × CodecValue μ)) :
    (relabelPairs f kvs).length = kvs.length := by
  induction kvs with
  | nil => rfl
  | cons kv kvs ih => simp only [relabelPairs, List.length_cons, ih]

@[simp] theorem entries_relabelPairs (kvs : List (CodecValue μ × CodecValue μ)) :
    entries (relabelPairs f kvs) = (entries kvs).map (relabel f) := by
  induction kvs with
  | nil => rfl
  | cons kv kvs ih => simp only [relabelPairs, entries, List.map_cons, ih]

mutual
theorem erase_relabel : ∀ v : CodecValue μ, (v.relabel f).erase = v.erase
  | array _ vs => by rw [relabel, erase, erase, erase_relabelList vs]
  | map _ kvs => by rw [relabel, erase, erase, erase_relabelPairs kvs]
  | nil _ | bool _ _ | posInt _ _ | negInt _ _ | float32 _ _ | float64 _ _ | string _ _ | bytes _ _
  | customExt _ _ _ => rfl

theorem erase_relabelList : ∀ vs : List (CodecValue μ), eraseList (relabelList f vs) = eraseList vs
  | [] => rfl
  | v :: vs => by rw [relabelList, eraseList, eraseList, erase_relabel v, erase_relabelList vs]

theorem erase_relabelPairs : ∀ kvs : List (CodecValue μ × CodecValue μ),
    erasePairs (relabelPairs f kvs) = erasePairs kvs
  | [] => rfl
  | (k, v) :: kvs => by
    rw [relabelPairs, erasePairs, erasePairs, erase_relabel k, erase_relabel v, erase_relabelPairs kvs]
end

mutual
theorem erase_unit : ∀ v : Value, v.erase = v
  | array _ vs => by rw [erase, erase_unitList vs]
  | map _ kvs => by rw [erase, erase_unitPairs kvs]
  | nil _ | bool _ _ | posInt _ _ | negInt _ _ | float32 _ _ | float64 _ _ | string _ _ | bytes _ _
  | customExt _ _ _ => rfl

theorem erase_unitList : ∀ vs : List Value, eraseList vs = vs
  | [] => rfl
  | v :: vs => by rw [eraseList, erase_unit v, erase_unitList vs]

theorem erase_unitPairs : ∀ kvs : List (Value × Value), erasePairs kvs = kvs
  | [] => rfl
  | (k, v) :: kvs => by rw [erasePairs, erase_unit k, erase_unit v, erase_unitPairs kvs]
end

mutual
theorem relabel_relabel (g : CodecValue ν → ξ) :
    ∀ v : CodecValue μ, (v.relabel f).relabel g = v.relabel fun u => g (u.relabel f)
  | array _ vs => by simp only [relabel, relabel_relabelList g vs]
  | map _ kvs => by simp only [relabel, relabel_relabelPairs g kvs]
  | nil _ | bool _ _ | posInt _ _ | negInt _ _ | float32 _ _ | float64 _ _ | string _ _ | bytes _ _
  | customExt _ _ _ => rfl

theorem relabel_relabelList (g : CodecValue ν → ξ) : ∀ vs : List (CodecValue μ),
    relabelList g (relabelList f vs) = relabelList (fun u => g (u.relabel f)) vs
  | [] => rfl
  | v :: vs => by
    simp only [relabelList]
    rw [relabel_relabel g v, relabel_relabelList g vs]

theorem relabel_relabelPairs (g : CodecValue ν → ξ) : ∀ kvs : List (CodecValue μ × CodecValue μ),
    relabelPairs g (relabelPairs f kvs) = relabelPairs (fun u => g (u.relabel f)) kvs
  | [] => rfl
  | (k, v) :: kvs => by
    simp only [relabelPairs]
    rw [relabel_relabel g k, relabel_relabel g v, relabel_relabelPairs g kvs]
end

theorem children_relabel (v : CodecValue μ) :
    (v.relabel f).children = v.children.map (relabel f) := by
  cases v <;> simp [relabel, children]

theorem all_relabel {p : CodecValue ν → Prop} {q : CodecValue μ → Prop}
    (h : ∀ v, q v → p (v.relabel f)) {v : CodecValue μ} (hv : v.All q) : (v.relabel f).All p := by
  induction hv with
  | @node v root _ ih =>
    refine .node (h v root) fun c hc => ?_
    rw [children_relabel] at hc
    obtain ⟨u, hu, rfl⟩ := List.mem_map.mp hc
    exact ih u hu

end Relabel

/-- The node is a float. -/
def IsFloat : CodecValue μ → Prop
  | float32 _ _ | float64 _ _ => True
  | _ => False

end CodecValue

end CcCommon.Codec
