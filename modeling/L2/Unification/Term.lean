import Mathlib.Data.Set.Finite.Lattice
import Mathlib.Data.Set.Finite.List

/-!
# First-order terms over variables and atoms

A term is a variable, an atom, or a list of terms.  Lists carry no head symbol, so
two of them are alike in shape exactly when they have the same length.  A
substitution is a function from variables to terms, total and not required to be
finite, and it acts by simultaneous replacement.

The size lemmas at the end are the occurs check: a variable never takes the value
of a term that properly contains it.
-/

namespace Unification

inductive Term (V A : Type) where
  | var (v : V)
  | atom (a : A)
  | node (ts : List (Term V A))

namespace Term

variable {V A : Type}

/-- Induction in which the hypothesis for a list speaks of its members. -/
@[elab_as_elim, induction_eliminator]
theorem memInduction {P : Term V A → Prop} (var : ∀ v, P (.var v)) (atom : ∀ a, P (.atom a))
    (node : ∀ ts, (∀ t ∈ ts, P t) → P (.node ts)) (t : Term V A) : P t :=
  Term.rec (motive_1 := P) (motive_2 := fun ts => ∀ t ∈ ts, P t) var atom (fun ts ih => node ts ih)
    (fun _ h => absurd h List.not_mem_nil)
    (fun _ _ hd tl u hu => (List.mem_cons.mp hu).elim (fun e => e ▸ hd) (tl u)) t

mutual
def subst (θ : V → Term V A) : Term V A → Term V A
  | .var v => θ v
  | .atom a => .atom a
  | .node ts => .node (substs θ ts)

def substs (θ : V → Term V A) : List (Term V A) → List (Term V A)
  | [] => []
  | t :: ts => subst θ t :: substs θ ts
end

theorem substs_eq_map (θ : V → Term V A) (ts : List (Term V A)) :
    substs θ ts = ts.map (subst θ) := by
  induction ts with
  | nil => rfl
  | cons t ts ih => rw [substs, ih, List.map_cons]

@[simp] theorem subst_var (θ : V → Term V A) (v : V) : (var v).subst θ = θ v := rfl

@[simp] theorem subst_atom (θ : V → Term V A) (a : A) : (atom a).subst θ = atom a := rfl

@[simp] theorem subst_node (θ : V → Term V A) (ts : List (Term V A)) :
    (node ts).subst θ = node (ts.map (subst θ)) := by
  rw [subst, substs_eq_map]

mutual
def Mem (v : V) : Term V A → Prop
  | .var w => v = w
  | .atom _ => False
  | .node ts => MemAny v ts

def MemAny (v : V) : List (Term V A) → Prop
  | [] => False
  | t :: ts => Mem v t ∨ MemAny v ts
end

theorem memAny_iff (v : V) (ts : List (Term V A)) : MemAny v ts ↔ ∃ t ∈ ts, Mem v t := by
  induction ts with
  | nil => simp [MemAny]
  | cons t ts ih => simp [MemAny, ih]

@[simp] theorem mem_var {v w : V} : Mem v (var w : Term V A) ↔ v = w := Iff.rfl

@[simp] theorem mem_atom {v : V} {a : A} : ¬ Mem v (atom a : Term V A) := id

@[simp] theorem mem_node {v : V} {ts : List (Term V A)} :
    Mem v (node ts) ↔ ∃ t ∈ ts, Mem v t := memAny_iff v ts

theorem finite_mem (t : Term V A) : {v | Mem v t}.Finite := by
  induction t with
  | var w => exact Set.finite_singleton w
  | atom a => exact Set.finite_empty
  | node ts ih =>
    have : {v | Mem v (node ts)} = ⋃ t ∈ {t | t ∈ ts}, {v | Mem v t} := by
      ext v; simp
    rw [this]
    exact (List.finite_toSet ts).biUnion ih

/-- A substitution acts through the variables a term contains. -/
theorem subst_congr {θ η : V → Term V A} {t : Term V A} (h : ∀ v, Mem v t → θ v = η v) :
    t.subst θ = t.subst η := by
  induction t with
  | var v => exact h v rfl
  | atom a => rfl
  | node ts ih =>
    simp only [subst_node, node.injEq]
    exact List.map_congr_left fun t ht => ih t ht fun v hv => h v (mem_node.mpr ⟨t, ht, hv⟩)

theorem subst_subst (θ η : V → Term V A) (t : Term V A) :
    (t.subst θ).subst η = t.subst (fun v => (θ v).subst η) := by
  induction t with
  | var v => rfl
  | atom a => rfl
  | node ts ih =>
    simp only [subst_node, List.map_map, node.injEq]
    exact List.map_congr_left ih

theorem mem_subst {θ : V → Term V A} {t : Term V A} {w : V} :
    Mem w (t.subst θ) ↔ ∃ v, Mem v t ∧ Mem w (θ v) := by
  induction t with
  | var v => simp
  | atom a => simp
  | node ts ih =>
    simp only [subst_node, mem_node, List.mem_map]
    constructor
    · rintro ⟨_, ⟨t, ht, rfl⟩, hw⟩
      obtain ⟨v, hv, hw⟩ := (ih t ht).mp hw
      exact ⟨v, ⟨t, ht, hv⟩, hw⟩
    · rintro ⟨v, ⟨t, ht, hv⟩, hw⟩
      exact ⟨_, ⟨t, ht, rfl⟩, (ih t ht).mpr ⟨v, hv, hw⟩⟩

/-! ## Size and the occurs check -/

mutual
def size : Term V A → Nat
  | .var _ => 1
  | .atom _ => 1
  | .node ts => sizes ts + 1

def sizes : List (Term V A) → Nat
  | [] => 0
  | t :: ts => size t + sizes ts
end

theorem size_le_sizes {t : Term V A} {ts : List (Term V A)} (h : t ∈ ts) :
    t.size ≤ sizes ts := by
  induction ts with
  | nil => exact absurd h List.not_mem_nil
  | cons u us ih =>
    rw [sizes]
    rcases List.mem_cons.mp h with rfl | h
    · exact Nat.le_add_right _ _
    · exact Nat.le_trans (ih h) (Nat.le_add_left _ _)

theorem size_lt_node {t : Term V A} {ts : List (Term V A)} (h : t ∈ ts) :
    t.size < (node ts).size :=
  Nat.lt_succ_of_le (size_le_sizes h)

theorem size_subst_le {θ : V → Term V A} {v : V} {t : Term V A} (h : Mem v t) :
    (θ v).size ≤ (t.subst θ).size := by
  induction t with
  | var w => rw [mem_var.mp h]; exact Nat.le_refl _
  | atom a => exact absurd h mem_atom
  | node ts ih =>
    obtain ⟨t, ht, hv⟩ := mem_node.mp h
    rw [subst_node]
    exact Nat.le_trans (ih t ht hv) (Nat.le_of_lt (size_lt_node (List.mem_map_of_mem ht)))

/-- No substitution equates a variable with a list that contains it. -/
theorem subst_ne_node {θ : V → Term V A} {v : V} {ts : List (Term V A)}
    (h : Mem v (node ts)) : θ v ≠ (node ts).subst θ := by
  intro e
  obtain ⟨t, ht, hv⟩ := mem_node.mp h
  have hle : (θ v).size ≤ (t.subst θ).size := size_subst_le hv
  rw [e, subst_node] at hle
  exact Nat.not_le_of_lt (size_lt_node (List.mem_map_of_mem ht)) hle

end Term

end Unification
