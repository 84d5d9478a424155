import L2.Bootstrap.Fragment
import Mathlib.Data.Finset.Basic

/-!
# The unifier

`unify` walks two fragments together, binding variables in place as it goes, and stops
at the first pair it cannot equate, leaving whatever it has bound so far.
-/

namespace L2.Bootstrap

open Unification

def tokenEquals (a b : Token) : Bool :=
  a.1.length == b.1.length && (a.1.zip b.1).all fun p => p.1 == p.2

def occursIn (σ : Vals) (var : Var) : Nat → Fragment → Option Bool
  | 0, _ => none
  | n + 1, val => do
    match ← evaluate σ n val with
    | .var w => return var == w
    | .atom _ => return false
    | .node as => as.anyM (occursIn σ var n)

def unifyVar (σ : Vals) (n : Nat) (var : Var) (val : Fragment) : Option (Bool × Vals) := do
  if ← occursIn σ var n val then return (false, σ) else return (true, setVal σ var val)

/-- The loop over the members of two lists, stopping at the first that do not unify. -/
def unifyAll (u : Vals → Fragment → Fragment → Option (Bool × Vals)) :
    Vals → List Fragment → List Fragment → Option (Bool × Vals)
  | σ, a :: as, b :: bs => do
    let (unified, σ) ← u σ a b
    if unified then unifyAll u σ as bs else return (false, σ)
  | σ, _, _ => some (true, σ)

/-- The cases of `unify` once both fragments are evaluated; `u` is the recursive call. -/
def unifyEvaluated (n : Nat) (u : Vals → Fragment → Fragment → Option (Bool × Vals)) (σ : Vals) :
    Fragment → Fragment → Option (Bool × Vals)
  | .var v, .var w => if v = w then some (true, σ) else unifyVar σ n v (.var w)
  | .var v, yl => unifyVar σ n v yl
  | xl, .var w => unifyVar σ n w xl
  | .atom a, .atom b => some (tokenEquals a b, σ)
  | .atom _, .node _ => some (false, σ)
  | .node _, .atom _ => some (false, σ)
  | .node xs, .node ys =>
    if xs.length = ys.length then unifyAll u σ xs ys else some (false, σ)

def unify : Nat → Vals → Fragment → Fragment → Option (Bool × Vals)
  | 0, _, _, _ => none
  | n + 1, σ, x, y => do
    unifyEvaluated n (unify n) σ (← evaluate σ n x) (← evaluate σ n y)

variable {σ : Vals}

theorem length_beq_and_zip_all {cs ds : List Char} :
    (cs.length == ds.length && (cs.zip ds).all fun p => p.1 == p.2) = true ↔ cs = ds := by
  induction cs generalizing ds with
  | nil => cases ds <;> simp
  | cons c cs ih =>
    cases ds with
    | nil => simp
    | cons d ds =>
      rw [List.cons.injEq, ← @ih ds]
      simp only [List.length_cons, List.zip_cons_cons, List.all_cons, Bool.and_eq_true,
        beq_iff_eq, Nat.add_right_cancel_iff]
      exact and_left_comm

theorem tokenEquals_iff {a b : Token} : tokenEquals a b = true ↔ a = b :=
  length_beq_and_zip_all.trans Subtype.ext_iff.symm

/-! ## The occurs check -/

theorem occursIn_succ_eq_some {var : Var} {n : Nat} {val : Fragment} {b : Bool} :
    occursIn σ var (n + 1) val = some b ↔
      (∃ w, evaluate σ n val = some (.var w) ∧ b = (var == w)) ∨
      (∃ a, evaluate σ n val = some (.atom a) ∧ b = false) ∨
      (∃ as, evaluate σ n val = some (.node as) ∧ as.anyM (occursIn σ var n) = some b) := by
  rw [occursIn]
  cases evaluate σ n val with
  | none => simp
  | some d =>
    cases d with
    | var w => simpa using eq_comm
    | atom a => simp
    | node as => simp

theorem occursIn_stable (var : Var) : Fuel.Stable (occursIn σ var) := by
  intro n
  induction n with
  | zero => exact fun _ _ h => absurd h (by simp [occursIn])
  | succ n ih =>
    intro t b h
    refine occursIn_succ_eq_some.mpr ?_
    rcases occursIn_succ_eq_some.mp h with ⟨w, hw, hb⟩ | ⟨a, ha, hb⟩ | ⟨as, has, hb⟩
    · exact Or.inl ⟨w, evaluate_stable n _ _ hw, hb⟩
    · exact Or.inr (Or.inl ⟨a, evaluate_stable n _ _ ha, hb⟩)
    · exact Or.inr (Or.inr ⟨as, evaluate_stable n _ _ has, Fuel.anyM_mono ih hb⟩)

theorem anyM_eq_some_iff_exists {f : Fragment → Option Bool} {p : Fragment → Prop}
    {as : List Fragment} {b : Bool} (hf : ∀ a ∈ as, ∀ c, f a = some c → (c = true ↔ p a))
    (h : as.anyM f = some b) : b = true ↔ ∃ a ∈ as, p a := by
  induction as with
  | nil =>
    have : false = b := Option.some.inj h
    simp [← this]
  | cons a as ih =>
    rcases Fuel.anyM_eq_some_cons.mp h with ⟨ha, rfl⟩ | ⟨ha, hb⟩
    · exact iff_of_true rfl ⟨a, List.mem_cons_self, (hf a List.mem_cons_self _ ha).mp rfl⟩
    · have hna : ¬ p a := fun hp => absurd ((hf a List.mem_cons_self _ ha).mpr hp) (by simp)
      rw [ih (fun c hc => hf c (List.mem_cons_of_mem a hc)) hb]
      simp [hna]

theorem occursIn_iff (hσ : Store.Acyclic σ) {var : Var} {n : Nat} {val : Fragment} {b : Bool}
    (h : occursIn σ var n val = some b) :
    b = true ↔ Term.Mem var (val.subst (Store.resolve hσ)) := by
  have hsol := Store.solves_resolve hσ
  induction n generalizing val b with
  | zero => exact absurd h (by simp [occursIn])
  | succ n ih =>
    rcases occursIn_succ_eq_some.mp h with ⟨w, hw, rfl⟩ | ⟨a, ha, rfl⟩ | ⟨as, has, hb⟩
    · rw [← subst_evaluate hsol hw, Term.subst_var,
        Store.resolve_of_not_bound hσ (not_bound_of_evaluate hw), beq_iff_eq, Term.mem_var]
    · rw [← subst_evaluate hsol ha]
      simp
    · rw [← subst_evaluate hsol has, Term.subst_node, Term.mem_node,
        anyM_eq_some_iff_exists (fun a _ c hc => ih hc) hb]
      simp

theorem occursIn_terminates (hσ : Store.Acyclic σ) (var : Var) (val : Fragment) :
    ∃ n b, occursIn σ var n val = some b := by
  induction hs : (val.subst (Store.resolve hσ)).size using Nat.strong_induction_on
    generalizing val with
  | _ s ih =>
    obtain ⟨n, d, hd⟩ := evaluate_terminates hσ val
    cases d with
    | var w => exact ⟨n + 1, _, occursIn_succ_eq_some.mpr (Or.inl ⟨w, hd, rfl⟩)⟩
    | atom a => exact ⟨n + 1, _, occursIn_succ_eq_some.mpr (Or.inr (Or.inl ⟨a, hd, rfl⟩))⟩
    | node as =>
      have hbelow : ∀ a ∈ as, ∃ m b, occursIn σ var m a = some b := by
        intro a ha
        refine ih _ ?_ a rfl
        rw [← hs, ← subst_evaluate (Store.solves_resolve hσ) hd, Term.subst_node]
        exact Term.size_lt_node (List.mem_map_of_mem ha)
      obtain ⟨m, b, hm⟩ := Fuel.exists_anyM (occursIn_stable var) hbelow
      refine ⟨max n m + 1, b, occursIn_succ_eq_some.mpr (Or.inr (Or.inr
        ⟨as, evaluate_stable.le (Nat.le_max_left n m) hd, ?_⟩))⟩
      exact Fuel.anyM_mono (fun _ _ => (occursIn_stable var).le (Nat.le_max_right n m)) hm

/-! ## What a run of the unifier establishes -/

/-- `general` says both that the run succeeds when some extension of the store
equates the fragments, and that the store it leaves is no more bound than that
extension. -/
structure UnifySpec (σ : Vals) (x y : Fragment) (r : Bool × Vals) : Prop where
  acyclic : Store.Acyclic r.2
  extend : Store.Extends r.2 σ
  sound : r.1 = true → ∀ θ, Store.Solves θ r.2 → x.subst θ = y.subst θ
  general : ∀ θ, Store.Solves θ σ → x.subst θ = y.subst θ → r.1 = true ∧ Store.Solves θ r.2

namespace UnifySpec

variable {x y x' y' : Fragment} {r : Bool × Vals}

theorem symm (h : UnifySpec σ x y r) : UnifySpec σ y x r where
  acyclic := h.acyclic
  extend := h.extend
  sound hr θ hθ := (h.sound hr θ hθ).symm
  general θ hθ e := h.general θ hθ e.symm

theorem congr (h : UnifySpec σ x y r) (hx : ∀ θ, Store.Solves θ σ → x.subst θ = x'.subst θ)
    (hy : ∀ θ, Store.Solves θ σ → y.subst θ = y'.subst θ) : UnifySpec σ x' y' r where
  acyclic := h.acyclic
  extend := h.extend
  sound hr θ hθ := by
    rw [← hx θ (hθ.of_extends h.extend), ← hy θ (hθ.of_extends h.extend)]
    exact h.sound hr θ hθ
  general θ hθ e := h.general θ hθ (by rw [hx θ hθ, hy θ hθ]; exact e)

/-- A run that leaves the store alone decides a question the store already settles. -/
theorem of_decided (hσ : Store.Acyclic σ) {b : Bool}
    (h : ∀ θ, Store.Solves θ σ → (b = true ↔ x.subst θ = y.subst θ)) :
    UnifySpec σ x y (b, σ) where
  acyclic := hσ
  extend := Store.Extends.refl σ
  sound hb θ hθ := (h θ hθ).mp hb
  general θ hθ e := ⟨(h θ hθ).mpr e, hθ⟩

end UnifySpec

theorem unifyVar_eq_some {n : Nat} {v : Var} {t : Fragment} {r : Bool × Vals} :
    unifyVar σ n v t = some r ↔
      (occursIn σ v n t = some true ∧ r = (false, σ)) ∨
        (occursIn σ v n t = some false ∧ r = (true, setVal σ v t)) := by
  rw [unifyVar]
  cases h : occursIn σ v n t with
  | none => simp
  | some b => cases b <;> simp [eq_comm (a := r)]

/-- `hne` is what `unify` has tested before it binds a variable to another. -/
theorem unifyVar_spec (hσ : Store.Acyclic σ) {v : Var} (hv : ¬ Store.Bound σ v) {t : Fragment}
    (hne : ∀ w, t = .var w → v ≠ w ∧ ¬ Store.Bound σ w) {n : Nat} {r : Bool × Vals}
    (h : unifyVar σ n v t = some r) : UnifySpec σ (.var v) t r := by
  rcases unifyVar_eq_some.mp h with ⟨ho, rfl⟩ | ⟨ho, rfl⟩
  · have hm := (occursIn_iff hσ ho).mp rfl
    refine UnifySpec.of_decided hσ fun θ hθ => iff_of_false (by simp) ?_
    rw [Term.subst_var, hθ.subst_eq hσ]
    cases t with
    | var w =>
      obtain ⟨hvw, hw⟩ := hne w rfl
      rw [Term.subst_var, Store.resolve_of_not_bound hσ hw, Term.mem_var] at hm
      exact absurd hm hvw
    | atom a => exact absurd hm (by simp)
    | node ts =>
      rw [Term.subst_node] at hm ⊢
      exact Term.subst_ne_node hm
  · have hm : ¬ Term.Mem v (t.subst (Store.resolve hσ)) :=
      fun hm => absurd ((occursIn_iff hσ ho).mpr hm) (by simp)
    exact {
      acyclic := hσ.set hv hm
      extend := Store.extends_set hv
      sound := fun _ θ hθ => ((Store.solves_set hv).mp hθ).2
      general := fun θ hθ e => ⟨rfl, (Store.solves_set hv).mpr ⟨hθ, e⟩⟩ }

theorem unifyAll_spec {u : Vals → Fragment → Fragment → Option (Bool × Vals)}
    (hu : ∀ σ x y r, Store.Acyclic σ → u σ x y = some r → UnifySpec σ x y r)
    (hσ : Store.Acyclic σ) {xs ys : List Fragment} (hlen : xs.length = ys.length)
    {r : Bool × Vals} (h : unifyAll u σ xs ys = some r) :
    UnifySpec σ (.node xs) (.node ys) r := by
  induction xs generalizing ys σ with
  | nil =>
    cases ys with
    | nil =>
      rw [← Option.some.inj h]
      exact UnifySpec.of_decided hσ fun θ _ => iff_of_true rfl rfl
    | cons b bs => simp at hlen
  | cons a as ih =>
    cases ys with
    | nil => simp at hlen
    | cons b bs =>
      have split : ∀ θ, (Term.node (a :: as)).subst θ = (Term.node (b :: bs)).subst θ ↔
          a.subst θ = b.subst θ ∧ (Term.node as).subst θ = (Term.node bs).subst θ := by
        intro θ; simp
      rw [unifyAll, Option.bind_eq_bind, Option.bind_eq_some_iff] at h
      obtain ⟨⟨unified, σ₁⟩, h₁, h⟩ := h
      have s₁ := hu σ a b _ hσ h₁
      cases unified with
      | false =>
        have h : (false, σ₁) = r := Option.some.inj h
        subst h
        exact { acyclic := s₁.acyclic
                extend := s₁.extend
                sound := fun hr => absurd hr (by simp)
                general := fun θ hθ e => absurd (s₁.general θ hθ ((split θ).mp e).1).1 (by simp) }
      | true =>
        have s₂ := ih s₁.acyclic (Nat.succ.inj hlen) h
        exact { acyclic := s₂.acyclic
                extend := s₂.extend.trans s₁.extend
                sound := fun hr θ hθ => (split θ).mpr
                  ⟨s₁.sound rfl θ (hθ.of_extends s₂.extend), s₂.sound hr θ hθ⟩
                general := fun θ hθ e => by
                  obtain ⟨e₁, e₂⟩ := (split θ).mp e
                  exact s₂.general θ (s₁.general θ hθ e₁).2 e₂ }

theorem unifyEvaluated_spec {n : Nat} {u : Vals → Fragment → Fragment → Option (Bool × Vals)}
    (hu : ∀ σ x y r, Store.Acyclic σ → u σ x y = some r → UnifySpec σ x y r)
    (hσ : Store.Acyclic σ) {xl yl : Fragment} (hx : ∀ v, xl = .var v → ¬ Store.Bound σ v)
    (hy : ∀ v, yl = .var v → ¬ Store.Bound σ v) {r : Bool × Vals}
    (h : unifyEvaluated n u σ xl yl = some r) : UnifySpec σ xl yl r := by
  cases xl with
  | var v =>
    cases yl with
    | var w =>
      rw [unifyEvaluated] at h
      split at h
      · subst_vars
        rw [← Option.some.inj h]
        exact UnifySpec.of_decided hσ fun θ _ => iff_of_true rfl rfl
      · refine unifyVar_spec hσ (hx v rfl) (fun u hu => ?_) h
        rw [← Term.var.inj hu]
        exact ⟨‹_›, hy w rfl⟩
    | atom a => exact unifyVar_spec hσ (hx v rfl) (by simp) h
    | node ts => exact unifyVar_spec hσ (hx v rfl) (by simp) h
  | atom a =>
    cases yl with
    | var w => exact (unifyVar_spec hσ (hy w rfl) (by simp) h).symm
    | atom b =>
      rw [← Option.some.inj h]
      exact UnifySpec.of_decided hσ fun θ _ => by simp [tokenEquals_iff]
    | node ts =>
      rw [← Option.some.inj h]
      exact UnifySpec.of_decided hσ fun θ _ => by simp
  | node xs =>
    cases yl with
    | var w => exact (unifyVar_spec hσ (hy w rfl) (by simp) h).symm
    | atom b =>
      rw [← Option.some.inj h]
      exact UnifySpec.of_decided hσ fun θ _ => by simp
    | node ys =>
      rw [unifyEvaluated] at h
      split at h
      · exact unifyAll_spec hu hσ ‹_› h
      · rw [← Option.some.inj h]
        refine UnifySpec.of_decided hσ fun θ _ => iff_of_false (by simp) fun e => ‹¬ _› ?_
        rw [Term.subst_node, Term.subst_node, Term.node.injEq] at e
        simpa using congrArg List.length e

theorem unify_succ_eq_some {n : Nat} {x y : Fragment} {r : Bool × Vals} :
    unify (n + 1) σ x y = some r ↔ ∃ xl yl, evaluate σ n x = some xl ∧
      evaluate σ n y = some yl ∧ unifyEvaluated n (unify n) σ xl yl = some r := by
  rw [unify]
  simp only [Option.bind_eq_bind, Option.bind_eq_some_iff]
  exact exists_congr fun xl => ⟨fun ⟨hx, yl, h⟩ => ⟨yl, hx, h⟩, fun ⟨yl, hx, h⟩ => ⟨hx, yl, h⟩⟩

theorem unify_spec {n : Nat} (hσ : Store.Acyclic σ) {x y : Fragment} {r : Bool × Vals}
    (h : unify n σ x y = some r) : UnifySpec σ x y r := by
  induction n generalizing σ x y r with
  | zero => exact absurd h (by simp [unify])
  | succ n ih =>
    obtain ⟨xl, yl, hx, hy, h⟩ := unify_succ_eq_some.mp h
    have hs := unifyEvaluated_spec (fun _ _ _ _ hσ h => ih hσ h) hσ
      (fun v e => not_bound_of_evaluate (e ▸ hx)) (fun v e => not_bound_of_evaluate (e ▸ hy)) h
    exact hs.congr (fun θ hθ => subst_evaluate hθ hx) fun θ hθ => subst_evaluate hθ hy

/-! ## Termination

The unbound variables of the two fragments lie in a finite set.  A binding takes one
away from the set for good, and between bindings the fragments get smaller. -/

theorem unifyVar_mono {n m : Nat} (h : n ≤ m) {v : Var} {t : Fragment} {r : Bool × Vals}
    (hr : unifyVar σ n v t = some r) : unifyVar σ m v t = some r := by
  refine unifyVar_eq_some.mpr ((unifyVar_eq_some.mp hr).imp ?_ ?_) <;>
    exact And.imp_left ((occursIn_stable v).le h)

theorem unifyAll_mono {u u' : Vals → Fragment → Fragment → Option (Bool × Vals)}
    (hu : ∀ σ x y r, u σ x y = some r → u' σ x y = some r) {xs ys : List Fragment}
    {r : Bool × Vals} (h : unifyAll u σ xs ys = some r) : unifyAll u' σ xs ys = some r := by
  induction xs generalizing ys σ with
  | nil => exact h
  | cons a as ih =>
    cases ys with
    | nil => exact h
    | cons b bs =>
      rw [unifyAll, Option.bind_eq_bind, Option.bind_eq_some_iff] at h ⊢
      obtain ⟨⟨unified, σ₁⟩, h₁, h⟩ := h
      refine ⟨(unified, σ₁), hu _ _ _ _ h₁, ?_⟩
      cases unified with
      | false => exact h
      | true => exact ih h

theorem unifyEvaluated_mono {n m : Nat} (hnm : n ≤ m)
    {u u' : Vals → Fragment → Fragment → Option (Bool × Vals)}
    (hu : ∀ σ x y r, u σ x y = some r → u' σ x y = some r) {xl yl : Fragment} {r : Bool × Vals}
    (h : unifyEvaluated n u σ xl yl = some r) : unifyEvaluated m u' σ xl yl = some r := by
  cases xl with
  | var v =>
    cases yl with
    | var w =>
      rw [unifyEvaluated] at h ⊢
      split at h
      · rwa [if_pos ‹_›]
      · rw [if_neg ‹_›]
        exact unifyVar_mono hnm h
    | atom a => exact unifyVar_mono hnm h
    | node ts => exact unifyVar_mono hnm h
  | atom a =>
    cases yl with
    | var w => exact unifyVar_mono hnm h
    | atom b => exact h
    | node ts => exact h
  | node xs =>
    cases yl with
    | var w => exact unifyVar_mono hnm h
    | atom b => exact h
    | node ys =>
      rw [unifyEvaluated] at h ⊢
      split at h
      · rw [if_pos ‹_›]
        exact unifyAll_mono hu h
      · rwa [if_neg ‹_›]

theorem unify_stable :
    Fuel.Stable fun n (p : Vals × Fragment × Fragment) => unify n p.1 p.2.1 p.2.2 := by
  intro n
  induction n with
  | zero => exact fun _ _ h => absurd h (by simp [unify])
  | succ n ih =>
    rintro ⟨σ, x, y⟩ r h
    obtain ⟨xl, yl, hx, hy, h⟩ := unify_succ_eq_some.mp h
    exact unify_succ_eq_some.mpr ⟨xl, yl, evaluate_stable n _ _ hx, evaluate_stable n _ _ hy,
      unifyEvaluated_mono (Nat.le_succ n) (fun σ x y r h => ih (σ, x, y) r h) h⟩

theorem unify_mono {n m : Nat} (h : n ≤ m) {x y : Fragment} {r : Bool × Vals}
    (hr : unify n σ x y = some r) : unify m σ x y = some r :=
  unify_stable.le (a := (σ, x, y)) h hr

/-- Every variable left in `t` once the bindings are followed is in `S`. -/
def Within (hσ : Store.Acyclic σ) (S : Finset Var) (t : Fragment) : Prop :=
  ∀ w, Term.Mem w (t.subst (Store.resolve hσ)) → w ∈ S

/-- The store is as it was, or every fragment within `S` is now within a smaller set. -/
def Shrinks (S : Finset Var) (σ σ' : Vals) : Prop :=
  σ' = σ ∨ ∃ S' ⊂ S, ∀ (hσ : Store.Acyclic σ) (hσ' : Store.Acyclic σ') t,
    Within hσ S t → Within hσ' S' t

def Answers (S : Finset Var) (σ : Vals) (f : Nat → Option (Bool × Vals)) : Prop :=
  ∃ n r, f n = some r ∧ Shrinks S σ r.2

theorem within_node {hσ : Store.Acyclic σ} {S : Finset Var} {ts : List Fragment} :
    Within hσ S (.node ts) ↔ ∀ t ∈ ts, Within hσ S t := by
  simp only [Within, Term.subst_node, Term.mem_node, List.mem_map]
  constructor
  · exact fun h t ht w hw => h w ⟨_, ⟨t, ht, rfl⟩, hw⟩
  · rintro h w ⟨_, ⟨t, ht, rfl⟩, hw⟩
    exact h t ht w hw

theorem within_congr {hσ : Store.Acyclic σ} {S : Finset Var} {t u : Fragment}
    (h : t.subst (Store.resolve hσ) = u.subst (Store.resolve hσ)) :
    Within hσ S t ↔ Within hσ S u := by
  rw [Within, Within, h]

theorem unifyVar_answers (hσ : Store.Acyclic σ) {S : Finset Var} {v : Var}
    (hv : ¬ Store.Bound σ v) {t : Fragment} (hx : Within hσ S (.var v)) (hy : Within hσ S t) :
    Answers S σ fun n => unifyVar σ n v t := by
  obtain ⟨n, b, hn⟩ := occursIn_terminates hσ v t
  cases b with
  | true => exact ⟨n, (false, σ), unifyVar_eq_some.mpr (Or.inl ⟨hn, rfl⟩), Or.inl rfl⟩
  | false =>
    have hm : ¬ Term.Mem v (t.subst (Store.resolve hσ)) :=
      fun hm => absurd ((occursIn_iff hσ hn).mpr hm) (by simp)
    have hvS : v ∈ S := hx v <| by
      rw [Term.subst_var, Store.resolve_of_not_bound hσ hv]
      exact Term.mem_var.mpr rfl
    refine ⟨n, (true, setVal σ v t), unifyVar_eq_some.mpr (Or.inr ⟨hn, rfl⟩), Or.inr
      ⟨S.erase v, Finset.erase_ssubset hvS, fun _ hσ' u hu w hw => ?_⟩⟩
    have := Store.mem_resolve_set hσ hσ' hv hm (S := ↑S) hy hu hw
    exact Finset.mem_erase.mpr ⟨this.2, this.1⟩

theorem unifyAll_answers {S : Finset Var} (hσ : Store.Acyclic σ) {xs ys : List Fragment}
    (hx : ∀ a ∈ xs, Within hσ S a) (hy : ∀ b ∈ ys, Within hσ S b)
    (smaller : ∀ S' ⊂ S, ∀ σ (hσ : Store.Acyclic σ) x y, Within hσ S' x → Within hσ S' y →
      Answers S' σ fun n => unify n σ x y)
    (members : ∀ a ∈ xs, ∀ b ∈ ys, Answers S σ fun n => unify n σ a b) :
    Answers S σ fun n => unifyAll (unify n) σ xs ys := by
  induction xs generalizing ys σ S with
  | nil => exact ⟨0, (true, σ), rfl, Or.inl rfl⟩
  | cons a as ih =>
    cases ys with
    | nil => exact ⟨0, (true, σ), rfl, Or.inl rfl⟩
    | cons b bs =>
      obtain ⟨n, ⟨unified, σ₁⟩, h₁, hs₁⟩ := members a List.mem_cons_self b List.mem_cons_self
      cases unified with
      | false => exact ⟨n, (false, σ₁), by simp only [unifyAll, h₁]; rfl, hs₁⟩
      | true =>
        have hσ₁ := (unify_spec hσ h₁).acyclic
        have rest : Answers S σ fun m => unifyAll (unify m) σ₁ as bs := by
          rcases hs₁ with rfl | ⟨S₁, hsub, hs₁⟩
          · exact ih hσ (fun c hc => hx c (List.mem_cons_of_mem a hc))
              (fun c hc => hy c (List.mem_cons_of_mem b hc)) smaller
              fun c hc d hd => members c (List.mem_cons_of_mem a hc) d (List.mem_cons_of_mem b hd)
          · have hx₁ : ∀ c ∈ as, Within hσ₁ S₁ c := fun c hc =>
              hs₁ hσ hσ₁ c (hx c (List.mem_cons_of_mem a hc))
            have hy₁ : ∀ c ∈ bs, Within hσ₁ S₁ c := fun c hc =>
              hs₁ hσ hσ₁ c (hy c (List.mem_cons_of_mem b hc))
            obtain ⟨m, r, hm, hr⟩ := ih hσ₁ hx₁ hy₁
              (fun S' hS' => smaller S' (hS'.trans hsub))
              fun c hc d hd => smaller S₁ hsub σ₁ hσ₁ c d (hx₁ c hc) (hy₁ d hd)
            refine ⟨m, r, hm, Or.inr ?_⟩
            rcases hr with hr | ⟨S₂, hsub₂, hr⟩
            · exact ⟨S₁, hsub, fun h h' t ht => by
                have := hs₁ h hσ₁ t ht
                simp only [hr] at h' ⊢
                exact this⟩
            · exact ⟨S₂, hsub₂.trans hsub, fun h h' t ht => hr hσ₁ h' t (hs₁ h hσ₁ t ht)⟩
        obtain ⟨m, r, hm, hr⟩ := rest
        refine ⟨max n m, r, ?_, hr⟩
        simp only [unifyAll, unify_mono (Nat.le_max_left n m) h₁, Option.bind_eq_bind,
          Option.bind_some, if_true]
        exact unifyAll_mono (fun _ _ _ _ => unify_mono (Nat.le_max_right n m)) hm

theorem unifyEvaluated_answers {S : Finset Var} (hσ : Store.Acyclic σ) {xl yl : Fragment}
    (hxb : ∀ v, xl = .var v → ¬ Store.Bound σ v) (hyb : ∀ v, yl = .var v → ¬ Store.Bound σ v)
    (hx : Within hσ S xl) (hy : Within hσ S yl)
    (smaller : ∀ S' ⊂ S, ∀ σ (hσ : Store.Acyclic σ) x y, Within hσ S' x → Within hσ S' y →
      Answers S' σ fun n => unify n σ x y)
    (members : ∀ xs ys, xl = .node xs → yl = .node ys → ∀ a ∈ xs, ∀ b ∈ ys,
      Answers S σ fun n => unify n σ a b) :
    Answers S σ fun n => unifyEvaluated n (unify n) σ xl yl := by
  cases xl with
  | var v =>
    cases yl with
    | var w =>
      simp only [unifyEvaluated]
      split
      · exact ⟨0, (true, σ), rfl, Or.inl rfl⟩
      · exact unifyVar_answers hσ (hxb v rfl) hx hy
    | atom a => exact unifyVar_answers hσ (hxb v rfl) hx hy
    | node ts => exact unifyVar_answers hσ (hxb v rfl) hx hy
  | atom a =>
    cases yl with
    | var w => exact unifyVar_answers hσ (hyb w rfl) hy hx
    | atom b => exact ⟨0, (tokenEquals a b, σ), rfl, Or.inl rfl⟩
    | node ts => exact ⟨0, (false, σ), rfl, Or.inl rfl⟩
  | node xs =>
    cases yl with
    | var w => exact unifyVar_answers hσ (hyb w rfl) hy hx
    | atom b => exact ⟨0, (false, σ), rfl, Or.inl rfl⟩
    | node ys =>
      simp only [unifyEvaluated]
      split
      · exact unifyAll_answers hσ (within_node.mp hx) (within_node.mp hy) smaller
          (members xs ys rfl rfl)
      · exact ⟨0, (false, σ), rfl, Or.inl rfl⟩

theorem unify_answers (S : Finset Var) (hσ : Store.Acyclic σ) {x y : Fragment}
    (hx : Within hσ S x) (hy : Within hσ S y) : Answers S σ fun n => unify n σ x y := by
  induction S using Finset.strongInduction generalizing σ x y with
  | _ S outer =>
    induction hs : (x.subst (Store.resolve hσ)).size using Nat.strong_induction_on
      generalizing x y with
    | _ s inner =>
      obtain ⟨n, xl, hxl⟩ := evaluate_terminates hσ x
      obtain ⟨m, yl, hyl⟩ := evaluate_terminates hσ y
      have ex := subst_evaluate (Store.solves_resolve hσ) hxl
      have ey := subst_evaluate (Store.solves_resolve hσ) hyl
      have hx := (within_congr ex).mpr hx
      have hy := (within_congr ey).mpr hy
      have members : ∀ xs ys, xl = .node xs → yl = .node ys → ∀ a ∈ xs, ∀ b ∈ ys,
          Answers S σ fun n => unify n σ a b := by
        rintro xs ys rfl rfl a ha b hb
        refine inner _ ?_ (within_node.mp hx a ha) (within_node.mp hy b hb) rfl
        rw [← hs, ← ex, Term.subst_node]
        exact Term.size_lt_node (List.mem_map_of_mem ha)
      obtain ⟨k, r, hk, hr⟩ := unifyEvaluated_answers hσ
        (fun v e => not_bound_of_evaluate (e ▸ hxl)) (fun v e => not_bound_of_evaluate (e ▸ hyl))
        hx hy (fun S' hS' σ hσ x y => outer S' hS' hσ) members
      refine ⟨max k (max n m) + 1, r, unify_succ_eq_some.mpr ⟨xl, yl, ?_, ?_, ?_⟩, hr⟩
      · exact evaluate_stable.le (by omega) hxl
      · exact evaluate_stable.le (by omega) hyl
      · exact unifyEvaluated_mono (Nat.le_max_left _ _)
          (fun _ _ _ _ => unify_mono (Nat.le_max_left _ _)) hk

theorem unify_terminates (hσ : Store.Acyclic σ) (x y : Fragment) :
    ∃ n r, unify n σ x y = some r := by
  have hfin := (Term.finite_mem (x.subst (Store.resolve hσ))).union
    (Term.finite_mem (y.subst (Store.resolve hσ)))
  obtain ⟨n, r, h, -⟩ := unify_answers hfin.toFinset hσ (x := x) (y := y)
    (fun w hw => hfin.mem_toFinset.mpr (Or.inl hw)) fun w hw => hfin.mem_toFinset.mpr (Or.inr hw)
  exact ⟨n, r, h⟩

/-- `unify` ends in every acyclic store, leaves an acyclic store that evaluation ends in,
and decides whether the fragments have a common instance among the extensions of the
store.  When they do, what it leaves is the most general such extension: it evaluates
the fragments alike, it keeps every old binding, and every extension that equates the
fragments is a solution of it. -/
theorem unify_mostGeneral (hσ : Store.Acyclic σ) (x y : Fragment) :
    ∃ unified σ', (∃ N, ∀ n ≥ N, unify n σ x y = some (unified, σ')) ∧
      Store.Acyclic σ' ∧
      (∀ t, ∃ d u N, ∀ n ≥ N, evaluate σ' n t = some d ∧ recursiveEvaluate σ' n t = some u) ∧
      (unified = true →
        (∃ u N, ∀ n ≥ N,
          recursiveEvaluate σ' n x = some u ∧ recursiveEvaluate σ' n y = some u) ∧
        Store.Extends σ' σ ∧
        ∀ θ, Store.Solves θ σ → x.subst θ = y.subst θ → Store.Solves θ σ') ∧
      (unified = false → ¬ ∃ θ, Store.Solves θ σ ∧ x.subst θ = y.subst θ) := by
  obtain ⟨n, ⟨unified, σ'⟩, h⟩ := unify_terminates hσ x y
  have hs := unify_spec hσ h
  have hσ' : Store.Acyclic σ' := hs.acyclic
  have settles : ∀ t, ∃ N, ∀ n ≥ N,
      recursiveEvaluate σ' n t = some (t.subst (Store.resolve hσ')) := fun t => by
    obtain ⟨m, hm⟩ := recursiveEvaluate_eq hσ' t
    exact ⟨m, fun k hk => recursiveEvaluate_stable.le hk hm⟩
  refine ⟨unified, σ', ⟨n, fun m hm => unify_mono hm h⟩, hσ', fun t => ?_, fun hu => ?_, ?_⟩
  · obtain ⟨m, d, hm⟩ := evaluate_terminates hσ' t
    obtain ⟨k, hk⟩ := settles t
    exact ⟨d, _, max m k, fun j hj => ⟨evaluate_stable.le (by omega) hm, hk j (by omega)⟩⟩
  · obtain ⟨m, hm⟩ := settles x
    obtain ⟨k, hk⟩ := settles y
    have e := hs.sound hu _ (Store.solves_resolve hσ')
    refine ⟨⟨_, max m k, fun j hj => ⟨hm j (by omega), ?_⟩⟩, hs.extend,
      fun θ hθ he => (hs.general θ hθ he).2⟩
    rw [e]
    exact hk j (by omega)
  · rintro rfl ⟨θ, hθ, e⟩
    exact absurd (hs.general θ hθ e).1 (by simp)

/-- `0` is bound to `1`, and this one to a list with `2` in it. -/
def chainStore : Vals := fun v =>
  if v = 0 then .var 1 else if v = 1 then .node [.var 2] else .var v

theorem acyclic_chainStore : Store.Acyclic chainStore := by
  have hlt : ∀ v w, Store.Points chainStore v w → v < w := by
    rintro v w ⟨hbound, hmem⟩
    by_cases h0 : v = 0
    · subst h0
      have hw : w = 1 := hmem
      rw [hw]
      exact Nat.zero_lt_one
    · by_cases h1 : v = 1
      · subst h1
        have hw : w = 2 := hmem.resolve_right id
        rw [hw]
        exact Nat.one_lt_two
      · unfold Store.Bound chainStore at hbound
        rw [if_neg h0, if_neg h1] at hbound
        exact absurd rfl hbound
  refine ⟨?_, ?_⟩
  · apply (Set.toFinite {0, 1}).subset
    intro v hbound
    by_contra hv
    rw [Set.mem_insert_iff, Set.mem_singleton_iff, not_or] at hv
    have hbound : chainStore v ≠ .var v := hbound
    unfold chainStore at hbound
    rw [if_neg hv.1, if_neg hv.2] at hbound
    exact hbound rfl
  · intro v hcycle
    have hless : ∀ w, Relation.TransGen (Store.Points chainStore) v w → v < w := by
      intro w h
      induction h with
      | single h => exact hlt _ _ h
      | tail _ h ih => exact Nat.lt_trans ih (hlt _ _ h)
    exact Nat.lt_irrefl v (hless v hcycle)

/-- A variable at the front of a chain, and one that gets what is at its end. -/
theorem unify_mostGeneral_chain :
    ∃ σ', (∃ N, ∀ n ≥ N, unify n chainStore (.node [.var 0, .var 3])
        (.node [.var 3, .node [.node []]]) = some (true, σ')) ∧
      Store.Acyclic σ' ∧ Store.Extends σ' chainStore ∧
      ∃ u N, ∀ n ≥ N, recursiveEvaluate σ' n (.node [.var 0, .var 3]) = some u ∧
        recursiveEvaluate σ' n (.node [.var 3, .node [.node []]]) = some u := by
  obtain ⟨unified, σ', hr, ha, -, htrue, hfalse⟩ :=
    unify_mostGeneral acyclic_chainStore (.node [.var 0, .var 3])
      (.node [.var 3, .node [.node []]])
  let θ : Var → Fragment := fun v =>
    if v = 2 then .node [] else if v = 0 ∨ v = 1 ∨ v = 3 then .node [.node []] else .var v
  have hsolves : Store.Solves θ chainStore := by
    intro v
    by_cases h0 : v = 0
    · subst h0
      rfl
    · by_cases h1 : v = 1
      · subst h1
        rfl
      · unfold chainStore
        rw [if_neg h0, if_neg h1]
        rfl
  have hunified : unified = true := by
    by_contra hu
    exact hfalse (Bool.eq_false_iff.mpr hu) ⟨θ, hsolves, rfl⟩
  subst hunified
  obtain ⟨hsame, hextends, -⟩ := htrue rfl
  exact ⟨σ', hr, ha, hextends, hsame⟩

end L2.Bootstrap
