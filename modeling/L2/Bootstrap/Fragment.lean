import L2.Fuel
import L2.Unification.Store

/-!
# Fragments

A fragment is a variable, a token, or a list of fragments.  In memory all three are
chains of `_list_` cells: a token is a nonempty chain of characters, and a variable is
one cell whose `rst` is itself and whose `fst` is its value, or itself while it has
none.  Only `set_val` writes to a cell that is already reachable, and only to the
`fst` of a variable, so the memory a fragment lives in is a store of variable cells.
-/

namespace L2.Bootstrap

open Unification

abbrev Var := Nat

/-- A nonempty chain of characters.  The empty chain is the empty list. -/
abbrev Token := { cs : List Char // cs ≠ [] }

abbrev Fragment := Term Var Token

abbrev Vals := Store Var Token

def getVal (σ : Vals) (var : Var) : Fragment := σ var

def setVal (σ : Vals) (var : Var) (val : Fragment) : Vals := Store.set σ var val

/-- Follow a variable until a cell that holds itself or something other than a
variable. -/
def evaluate (σ : Vals) : Nat → Fragment → Option Fragment
  | 0, _ => none
  | n + 1, .var v => if Store.Bound σ v then evaluate σ n (getVal σ v) else some (.var v)
  | _ + 1, val => some val

def recursiveEvaluate (σ : Vals) : Nat → Fragment → Option Fragment
  | 0, _ => none
  | n + 1, fragment => do
    match ← evaluate σ n fragment with
    | .node ts => return .node (← ts.mapM (recursiveEvaluate σ n))
    | d => return d

/-- The variables copied so far with their copies, newest first, and the address of the
next variable that `var` makes. -/
structure Copies where
  vars : List (Var × Var)
  next : Var

/-- A variable that is met for the first time is copied to a new one; its value is not
looked at. -/
def copyVar (v : Var) (c : Copies) : Var × Copies :=
  match c.vars.lookup v with
  | some nv => (nv, c)
  | none => (c.next, ⟨(v, c.next) :: c.vars, c.next + 1⟩)

mutual

def copyFragment : Fragment → Copies → Fragment × Copies
  | .var v, c => (.var (copyVar v c).1, (copyVar v c).2)
  | .atom a, c => (.atom a, c)
  | .node ts, c => (.node (copyFragments ts c).1, (copyFragments ts c).2)

def copyFragments : List Fragment → Copies → List Fragment × Copies
  | [], c => ([], c)
  | t :: ts, c =>
    let (u, c) := copyFragment t c
    let (us, c) := copyFragments ts c
    (u :: us, c)

end

theorem length_copyFragments (ts : List Fragment) (c : Copies) :
    (copyFragments ts c).1.length = ts.length := by
  induction ts generalizing c with
  | nil => rfl
  | cons t ts ih => simp [copyFragments, ih]

variable {σ : Vals}

/-! ## Evaluation follows the store -/

theorem evaluate_stable : Fuel.Stable (evaluate σ) := by
  intro n
  induction n with
  | zero => exact fun _ _ h => absurd h (by simp [evaluate])
  | succ n ih =>
    intro t d h
    cases t with
    | var v =>
      rw [evaluate] at h ⊢
      split at h
      · exact (if_pos ‹_›).trans (ih _ _ h)
      · exact (if_neg ‹_›).trans h
    | atom a => exact h
    | node ts => exact h

/-- An evaluated fragment is unbound if it is a variable. -/
theorem not_bound_of_evaluate {n : Nat} {t : Fragment} {v : Var}
    (h : evaluate σ n t = some (.var v)) : ¬ Store.Bound σ v := by
  induction n generalizing t with
  | zero => exact absurd h (by simp [evaluate])
  | succ n ih =>
    cases t with
    | var w =>
      rw [evaluate] at h
      split at h
      · exact ih h
      · simp only [Option.some.injEq, Term.var.injEq] at h
        exact h ▸ ‹_›
    | atom a => simp [evaluate] at h
    | node ts => simp [evaluate] at h

theorem subst_evaluate {θ : Var → Fragment} (hθ : Store.Solves θ σ) {n : Nat} {t d : Fragment}
    (h : evaluate σ n t = some d) : d.subst θ = t.subst θ := by
  induction n generalizing t with
  | zero => exact absurd h (by simp [evaluate])
  | succ n ih =>
    cases t with
    | var v =>
      rw [evaluate] at h
      split at h
      · rw [ih h, Term.subst_var, hθ v, getVal]
      · rw [← Option.some.inj h]
    | atom a => rw [← Option.some.inj h]
    | node ts => rw [← Option.some.inj h]

theorem evaluate_terminates (hσ : Store.Acyclic σ) (t : Fragment) :
    ∃ n d, evaluate σ n t = some d := by
  cases t with
  | var v =>
    induction v using hσ.wf.induction with
    | _ v ih =>
      by_cases hv : Store.Bound σ v
      · cases hval : getVal σ v with
        | var w =>
          have hw : Term.Mem w (getVal σ v) := by rw [hval]; exact Term.mem_var.mpr rfl
          obtain ⟨n, d, hn⟩ := ih w ⟨hv, hw⟩
          exact ⟨n + 1, d, by rw [evaluate, if_pos hv, hval, hn]⟩
        | atom a => exact ⟨2, .atom a, by rw [evaluate, if_pos hv, hval, evaluate]; simp⟩
        | node ts => exact ⟨2, .node ts, by rw [evaluate, if_pos hv, hval, evaluate]; simp⟩
      · exact ⟨1, .var v, by rw [evaluate, if_neg hv]⟩
  | atom a => exact ⟨1, .atom a, rfl⟩
  | node ts => exact ⟨1, .node ts, rfl⟩

theorem recursiveEvaluate_succ_eq_some {n : Nat} {t u : Fragment} :
    recursiveEvaluate σ (n + 1) t = some u ↔
      ∃ d, evaluate σ n t = some d ∧
        ((∃ ts us, d = .node ts ∧ ts.mapM (recursiveEvaluate σ n) = some us ∧ u = .node us) ∨
          ((∀ ts, d ≠ .node ts) ∧ u = d)) := by
  rw [recursiveEvaluate]
  simp only [Option.bind_eq_bind, Option.bind_eq_some_iff]
  refine exists_congr fun d => and_congr_right fun _ => ?_
  cases d with
  | var v => simp [eq_comm]
  | atom a => simp [eq_comm]
  | node ts => simp [Option.bind_eq_some_iff, eq_comm (a := u)]

theorem recursiveEvaluate_stable : Fuel.Stable (recursiveEvaluate σ) := by
  intro n
  induction n with
  | zero => exact fun _ _ h => absurd h (by simp [recursiveEvaluate])
  | succ n ih =>
    intro t u h
    obtain ⟨d, hd, h⟩ := recursiveEvaluate_succ_eq_some.mp h
    refine recursiveEvaluate_succ_eq_some.mpr ⟨d, evaluate_stable n t d hd, ?_⟩
    rcases h with ⟨ts, us, hts, hus, hu⟩ | h
    · exact Or.inl ⟨ts, us, hts, Fuel.mapM_mono ih hus, hu⟩
    · exact Or.inr h

/-- What `recursive_evaluate` returns is the fragment with every binding substituted. -/
theorem recursiveEvaluate_eq (hσ : Store.Acyclic σ) (t : Fragment) :
    ∃ n, recursiveEvaluate σ n t = some (t.subst (Store.resolve hσ)) := by
  induction hs : (t.subst (Store.resolve hσ)).size using Nat.strong_induction_on generalizing t with
  | _ s ih =>
    obtain ⟨n, d, hd⟩ := evaluate_terminates hσ t
    have hsub := subst_evaluate (Store.solves_resolve hσ) hd
    cases d with
    | var v =>
      rw [← hsub, Term.subst_var, Store.resolve_of_not_bound hσ (not_bound_of_evaluate hd)]
      exact ⟨n + 1, recursiveEvaluate_succ_eq_some.mpr
        ⟨_, hd, Or.inr ⟨by simp, rfl⟩⟩⟩
    | atom a =>
      rw [← hsub]
      exact ⟨n + 1, recursiveEvaluate_succ_eq_some.mpr
        ⟨_, hd, Or.inr ⟨by simp, rfl⟩⟩⟩
    | node ts =>
      rw [← hsub, Term.subst_node]
      have hbelow : ∀ u ∈ ts, ∃ m, recursiveEvaluate σ m u =
          some (u.subst (Store.resolve hσ)) := by
        intro u hu
        refine ih _ ?_ u rfl
        rw [← hs, ← hsub, Term.subst_node]
        exact Term.size_lt_node (List.mem_map_of_mem hu)
      obtain ⟨m, hm⟩ := Fuel.exists_mapM recursiveEvaluate_stable hbelow
      refine ⟨max n m + 1, recursiveEvaluate_succ_eq_some.mpr
        ⟨_, evaluate_stable.le (Nat.le_max_left n m) hd, Or.inl ⟨ts, _, rfl, ?_, rfl⟩⟩⟩
      exact Fuel.mapM_mono (fun _ _ => recursiveEvaluate_stable.le (Nat.le_max_right n m)) hm

end L2.Bootstrap
