import L2.Unification.Term
import Mathlib.Order.WellFoundedSet
import Mathlib.Logic.Function.Basic
import Mathlib.Logic.Relation

/-!
# Stores of variable cells

A store gives every variable the contents of its cell, and a cell that holds its own
variable is unbound.  The solutions of a store are the substitutions that agree with
every cell, so a store that binds more has fewer solutions and `Solves` orders stores
by generality.

An acyclic store has a most general solution, `resolve`, which follows bindings to
the end.  `Acyclic.set` and `solves_set` are the two facts a unifier needs about
binding one more variable.
-/

namespace Unification

open Relation Function

abbrev Store (V A : Type) := V → Term V A

namespace Store

variable {V A : Type} {σ : Store V A} {θ : V → Term V A}

def Bound (σ : Store V A) (v : V) : Prop := σ v ≠ .var v

instance [DecidableEq V] (σ : Store V A) (v : V) : Decidable (Bound σ v) :=
  match h : σ v with
  | .var w => decidable_of_iff (w ≠ v) (by simp [Bound, h])
  | .atom _ => isTrue (by simp [Bound, h])
  | .node _ => isTrue (by simp [Bound, h])

/-- One step along a binding, from a bound variable to a variable of its value. -/
def Points (σ : Store V A) (v w : V) : Prop := Bound σ v ∧ Term.Mem w (σ v)

/-- Finitely many cells are bound and no variable is reached from itself. -/
structure Acyclic (σ : Store V A) : Prop where
  finite : {v | Bound σ v}.Finite
  irrefl : ∀ v, ¬ TransGen (Points σ) v v

/-- `θ` agrees with every binding of the store. -/
def Solves (θ : V → Term V A) (σ : Store V A) : Prop := ∀ v, θ v = (σ v).subst θ

/-- `σ'` has the bindings of `σ` and perhaps more. -/
def Extends (σ' σ : Store V A) : Prop := ∀ v, Bound σ v → σ' v = σ v

theorem Extends.refl (σ : Store V A) : Extends σ σ := fun _ _ => rfl

theorem Extends.trans {σ₁ σ₂ σ₃ : Store V A} (h : Extends σ₃ σ₂) (h' : Extends σ₂ σ₁) :
    Extends σ₃ σ₁ := fun v hv => by
  rw [h v (by rwa [Bound, h' v hv]), h' v hv]

theorem Solves.of_extends {σ' : Store V A} (hθ : Solves θ σ') (h : Extends σ' σ) :
    Solves θ σ := by
  intro v
  by_cases hv : Bound σ v
  · rw [← h v hv, hθ v]
  · rw [not_not.mp hv, Term.subst_var]

theorem Acyclic.wf (h : Acyclic σ) : WellFounded fun w v => Points σ v w := by
  have unbound : ∀ v, ¬ Bound σ v → Acc (fun w v => Points σ v w) v :=
    fun v hv => ⟨v, fun w hw => absurd hw.1 hv⟩
  let r : V → V → Prop := fun w v => TransGen (Points σ) v w
  have : Std.Irrefl r := ⟨h.irrefl⟩
  have : IsTrans V r := ⟨fun _ _ _ hab hbc => hbc.trans hab⟩
  have : IsStrictOrder V r := {}
  have hon : {v | Bound σ v}.WellFoundedOn r := h.finite.wellFoundedOn
  refine ⟨fun v => ?_⟩
  by_cases hv : Bound σ v
  · refine hon.induction (P := Acc fun w v => Points σ v w) hv fun u _ ih => ⟨u, fun w hw => ?_⟩
    by_cases hbw : Bound σ w
    · exact ih w hbw (TransGen.single hw)
    · exact unbound w hbw
  · exact unbound v hv

theorem acyclic_of_wf (hf : {v | Bound σ v}.Finite)
    (hwf : WellFounded fun w v => Points σ v w) : Acyclic σ := by
  refine ⟨hf, fun v hv => ?_⟩
  have hcycle : TransGen (fun w v => Points σ v w) v v := transGen_swap.mp hv
  exact hwf.transGen.irrefl.irrefl v hcycle

/-- The store of a fresh heap, every cell holding itself. -/
theorem acyclic_var : Acyclic (Term.var : Store V A) := by
  refine acyclic_of_wf ?_ ⟨fun v => ⟨v, fun w hw => absurd rfl hw.1⟩⟩
  have : {v | Bound (Term.var : Store V A) v} = ∅ := by ext v; simp [Bound]
  rw [this]
  exact Set.finite_empty

/-! ## The most general solution -/

open Classical in
/-- Follow the bindings of an acyclic store to the end. -/
noncomputable def resolve (h : Acyclic σ) : V → Term V A :=
  h.wf.fix fun v rec =>
    if hv : Bound σ v then
      (σ v).subst fun w => if hw : Term.Mem w (σ v) then rec w ⟨hv, hw⟩ else .var w
    else .var v

theorem resolve_of_not_bound (h : Acyclic σ) {v : V} (hv : ¬ Bound σ v) :
    resolve h v = .var v := by
  rw [resolve, WellFounded.fix_eq, dif_neg hv]

theorem solves_resolve (h : Acyclic σ) : Solves (resolve h) σ := by
  intro v
  by_cases hv : Bound σ v
  · conv_lhs => rw [resolve, WellFounded.fix_eq, dif_pos hv]
    exact Term.subst_congr fun w hw => dif_pos hw
  · rw [not_not.mp hv, Term.subst_var]

theorem not_bound_of_mem_resolve (h : Acyclic σ) {v w : V} (hw : Term.Mem w (resolve h v)) :
    ¬ Bound σ w := by
  induction v using h.wf.induction with
  | _ v ih =>
    by_cases hv : Bound σ v
    · rw [solves_resolve h v] at hw
      obtain ⟨u, hu, hw⟩ := Term.mem_subst.mp hw
      exact ih u ⟨hv, hu⟩ hw
    · rw [resolve_of_not_bound h hv, Term.mem_var] at hw
      exact hw ▸ hv

/-- `resolve` is the most general solution: every other one is an instance of it. -/
theorem Solves.eq_resolve_subst (h : Acyclic σ) (hθ : Solves θ σ) (v : V) :
    θ v = (resolve h v).subst θ := by
  induction v using h.wf.induction with
  | _ v ih =>
    by_cases hv : Bound σ v
    · rw [solves_resolve h v, Term.subst_subst, hθ v]
      exact Term.subst_congr fun w hw => ih w ⟨hv, hw⟩
    · rw [resolve_of_not_bound h hv, Term.subst_var]

theorem Solves.subst_eq (h : Acyclic σ) (hθ : Solves θ σ) (t : Term V A) :
    t.subst θ = (t.subst (resolve h)).subst θ := by
  rw [Term.subst_subst]
  exact Term.subst_congr fun v _ => hθ.eq_resolve_subst h v

theorem not_bound_of_mem_subst (h : Acyclic σ) {t : Term V A} {w : V}
    (hw : Term.Mem w (t.subst (resolve h))) : ¬ Bound σ w := by
  obtain ⟨v, -, hw⟩ := Term.mem_subst.mp hw
  exact not_bound_of_mem_resolve h hw

/-! ## Binding one more variable -/

section Set

variable [DecidableEq V] {v : V} {t : Term V A}

/-- Overwrite the cell of `v`. -/
def set (σ : Store V A) (v : V) (t : Term V A) : Store V A := update σ v t

theorem set_self : set σ v t v = t := update_self _ _ _

theorem set_of_ne {w : V} (h : w ≠ v) : set σ v t w = σ w := update_of_ne h _ _

theorem extends_set (hv : ¬ Bound σ v) : Extends (set σ v t) σ :=
  fun _ hw => set_of_ne fun e => hv (e ▸ hw)

theorem solves_set (hv : ¬ Bound σ v) :
    Solves θ (set σ v t) ↔ Solves θ σ ∧ θ v = t.subst θ := by
  constructor
  · intro h
    refine ⟨fun w => ?_, by simpa [set_self] using h v⟩
    by_cases hw : w = v
    · rw [hw, not_not.mp hv, Term.subst_var]
    · simpa [set_of_ne hw] using h w
  · rintro ⟨h, ht⟩ w
    by_cases hw : w = v
    · rw [hw, set_self, ht]
    · rw [set_of_ne hw, h w]

theorem points_set_of_ne {u w : V} (hu : u ≠ v) : Points (set σ v t) u w ↔ Points σ u w := by
  simp only [Points, Bound, set_of_ne hu]

/-- Binding an unbound variable to a value that does not resolve to contain it keeps
the store acyclic: from the value's variables nothing leads back to `v`. -/
theorem Acyclic.set (h : Acyclic σ) (hv : ¬ Bound σ v)
    (ht : ¬ Term.Mem v (t.subst (resolve h))) : Acyclic (set σ v t) := by
  have ne_of_away : ∀ u, ¬ Term.Mem v (resolve h u) → u ≠ v := by
    rintro u hu rfl
    exact hu (by rw [resolve_of_not_bound h hv]; exact Term.mem_var.mpr rfl)
  have away : ∀ u, ¬ Term.Mem v (resolve h u) →
      Acc (fun w u' => Points (Store.set σ v t) u' w) u := by
    intro u
    induction u using h.wf.induction with
    | _ u ih =>
      intro hu
      refine ⟨u, fun w hw => ?_⟩
      have hw := (points_set_of_ne (ne_of_away u hu)).mp hw
      refine ih w hw fun hm => hu ?_
      rw [solves_resolve h u]
      exact Term.mem_subst.mpr ⟨w, hw.2, hm⟩
  have atVar : Acc (fun w u' => Points (Store.set σ v t) u' w) v := by
    refine ⟨v, fun w hw => away w fun hm => ht ?_⟩
    have hw := hw.2
    rw [set_self] at hw
    exact Term.mem_subst.mpr ⟨w, hw, hm⟩
  refine acyclic_of_wf ((h.finite.insert v).subset fun u hu => ?_) ⟨fun u => ?_⟩
  · by_cases he : u = v
    · exact Set.mem_insert_iff.mpr (Or.inl he)
    · exact Set.mem_insert_of_mem v (by simpa [Bound, set_of_ne he] using hu)
  · induction u using h.wf.induction with
    | _ u ih =>
      by_cases he : u = v
      · exact he ▸ atVar
      · exact ⟨u, fun w hw => ih w ((points_set_of_ne he).mp hw)⟩

/-- The variables left after binding `v`: those of the old resolution, less `v`. -/
theorem mem_resolve_set (h : Acyclic σ) (h' : Acyclic (set σ v t)) (hv : ¬ Bound σ v)
    (ht : ¬ Term.Mem v (t.subst (resolve h))) {S : Set V}
    (hS : ∀ w, Term.Mem w (t.subst (resolve h)) → w ∈ S) {u : Term V A}
    (hu : ∀ w, Term.Mem w (u.subst (resolve h)) → w ∈ S) {w : V}
    (hw : Term.Mem w (u.subst (resolve h'))) : w ∈ S \ {v} := by
  have hsol : Solves (resolve h') σ := ((solves_set hv).mp (solves_resolve h')).1
  have hnb := not_bound_of_mem_subst h' hw
  have hwv : w ≠ v := by
    rintro rfl
    refine hnb ?_
    rw [Bound, set_self]
    rintro rfl
    exact ht (by rw [Term.subst_var, resolve_of_not_bound h hv]; exact Term.mem_var.mpr rfl)
  have stays : ∀ x, ¬ Bound σ x → x ≠ v → resolve h' x = .var x := fun x hx hxv =>
    resolve_of_not_bound h' (by rwa [Bound, set_of_ne hxv])
  refine ⟨?_, hwv⟩
  rw [hsol.subst_eq h] at hw
  obtain ⟨x, hx, hw⟩ := Term.mem_subst.mp hw
  have hxb := not_bound_of_mem_subst h hx
  by_cases hxv : x = v
  · rw [hxv, ((solves_set hv).mp (solves_resolve h')).2, hsol.subst_eq h] at hw
    obtain ⟨y, hy, hw⟩ := Term.mem_subst.mp hw
    have hyv : y ≠ v := fun e => ht (e ▸ hy)
    rw [stays y (not_bound_of_mem_subst h hy) hyv, Term.mem_var] at hw
    exact hw ▸ hS y hy
  · rw [stays x hxb hxv, Term.mem_var] at hw
    exact hw ▸ hu x hx

end Set

end Store

end Unification
