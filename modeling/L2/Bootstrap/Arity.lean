import L2.Bootstrap.InferTypes

/-!
# Arity and kind of what is applied

What a reference stands for is a function or a continuation with some number of
parameters, as far as the program text tells.  A signature of the matching shape keeps
its shape under copying and under instantiation, so an expression that has been checked
can only be applied to as many arguments as it has parameters.  The check covers the
expressions that the graph reaches from the top level, and only if the lists are the
components.
-/

namespace L2.Bootstrap

open Graph Unification

inductive Kind where
  | function (parameters : Nat)
  | continuation (parameters : Nat)
  deriving DecidableEq

/-- The signature has the shape that the kind asks for. -/
def Kind.Fits : Kind → Fragment → Prop
  | .function n, f => ∃ ts r, f = .node [functionToken, .node ts, r] ∧ ts.length = n
  | .continuation n, f => ∃ ts, f = .node [continuationToken, .node ts] ∧ ts.length = n

namespace Expr

def kind : Expr → Option Kind
  | function _ _ parameters _ => some (.function parameters.length)
  | continuation _ _ parameters _ => some (.continuation parameters.length)
  | withExpr _ _ _ _ => some (.continuation 1)
  | _ => none

def isWith : Expr → Bool
  | withExpr _ _ _ _ => true
  | _ => false

/-- What an invoke or a jump applies. -/
def applied : Expr → Option Expr
  | invoke _ reference _ | jump _ reference _ => some reference
  | _ => none

/-- A with expression is only applied as what its reference is bound to could be: by a jump with
one argument. -/
def AppliesWith : Expr → Prop
  | invoke _ reference _ => reference.isWith = false
  | jump _ reference arguments => reference.isWith = true → arguments.length = 1
  | _ => True

end Expr

namespace Program

/-- What an expression is or is bound to. -/
def denotes (p : Program) : Expr → Option Kind
  | .symbol _ _ bindingAug => do
    let target ← p.lookup bindingAug.expression
    if target.reference? = some bindingAug.symbol then target.kind else none
  | e => e.kind

/-- An invoke applies a function to as many arguments as it has parameters, and a jump a
continuation, where the reference is or is bound to one or the other. -/
def WellApplied (p : Program) : Expr → Prop
  | .invoke _ reference arguments =>
    ∀ k, p.denotes reference = some k → k = .function arguments.length
  | .jump _ reference arguments =>
    ∀ k, p.denotes reference = some k → k = .continuation arguments.length
  | _ => True

def dependencies (p : Program) : ExprId → List ExprId := (findDependencies p.exprs).of

def ids (p : Program) : List ExprId := p.exprs.map Expr.id

/-- In the walk of the graph, whatever is not the first of its component escapes. -/
def Settled (p : Program) : Prop :=
  ∀ w, Walk.visitAll p.dependencies (((findDependencies p.exprs).nodes p.ids).length + 1) p.ids
    Walk.start = some w → Walk.Settled p.dependencies w

def Reached (p : Program) (e : Expr) : Prop := ∃ s ∈ p.ids, Reaches p.dependencies s e.id

end Program

/-! ## Shapes -/

theorem Kind.fits_function {ts : List Fragment} {r : Fragment} {n : Nat} (h : ts.length = n) :
    (Kind.function n).Fits (.node [functionToken, .node ts, r]) := ⟨ts, r, rfl, h⟩

theorem Kind.fits_continuation {ts : List Fragment} {n : Nat} (h : ts.length = n) :
    (Kind.continuation n).Fits (.node [continuationToken, .node ts]) := ⟨ts, rfl, h⟩

theorem Kind.Fits.unique {k l : Kind} {f : Fragment} (h : k.Fits f) (h' : l.Fits f) : k = l := by
  cases k with
  | function n =>
    obtain ⟨ts, r, rfl, rfl⟩ := h
    cases l with
    | function m =>
      obtain ⟨us, r', e, rfl⟩ := h'
      simp only [Term.node.injEq, List.cons.injEq] at e
      rw [e.2.1]
    | continuation m =>
      obtain ⟨us, e, rfl⟩ := h'
      simp at e
  | continuation n =>
    obtain ⟨ts, rfl, rfl⟩ := h
    cases l with
    | function m =>
      obtain ⟨us, r', e, rfl⟩ := h'
      simp at e
    | continuation m =>
      obtain ⟨us, e, rfl⟩ := h'
      simp only [Term.node.injEq, List.cons.injEq] at e
      rw [e.2.1]

theorem Kind.Fits.subst {k : Kind} {f : Fragment} (h : k.Fits f) (θ : Var → Fragment) :
    k.Fits (f.subst θ) := by
  cases k with
  | function n =>
    obtain ⟨ts, r, rfl, rfl⟩ := h
    exact ⟨ts.map (Term.subst θ), r.subst θ, by simp [functionToken], List.length_map _⟩
  | continuation n =>
    obtain ⟨ts, rfl, rfl⟩ := h
    exact ⟨ts.map (Term.subst θ), by simp [continuationToken], List.length_map _⟩

theorem Kind.Fits.copyFragment {k : Kind} {f : Fragment} (h : k.Fits f) (c : Copies) :
    k.Fits (copyFragment f c).1 := by
  cases k with
  | function n =>
    obtain ⟨ts, r, rfl, rfl⟩ := h
    exact ⟨(copyFragments ts c).1, _, rfl, length_copyFragments ts c⟩
  | continuation n =>
    obtain ⟨ts, rfl, rfl⟩ := h
    exact ⟨(copyFragments ts c).1, rfl, length_copyFragments ts c⟩

variable {p : Program} {n : Nat} {scc : List ExprId} {st st' : InferState}

theorem Kind.Fits.scopedSignature {k : Kind} {e : ExprId} (h : k.Fits (st.signature e)) :
    k.Fits (scopedSignature scc e st).1 := by
  unfold L2.Bootstrap.scopedSignature
  split
  · exact h
  · exact h.copyFragment _

theorem scopedSignature_of_mem {e : ExprId} (he : e ∈ scc) :
    (scopedSignature scc e st).1 = st.signature e := by
  unfold scopedSignature
  rw [if_pos he]

/-! ## Edges -/

theorem Program.mem_dependencies {e : Expr} (he : e ∈ visited p.exprs) {s t : ExprId}
    (h : (s, t) ∈ vfindDependencies [] e) : t ∈ p.dependencies s :=
  Dependencies.mem_of.mpr (mem_findDependencies.mpr ⟨e, he, h⟩)

/-- A symbol and what it is bound to depend on each other. -/
theorem Program.symbol_mutual {id : ExprId} {name : Option String} {b : BindingAug}
    (he : .symbol id name b ∈ visited p.exprs) : Mutual p.dependencies id b.expression :=
  ⟨Reaches.edge (mem_dependencies he (by simp [vfindDependencies])),
    Reaches.edge (mem_dependencies he (by simp [vfindDependencies]))⟩

theorem Program.applied_edge {e r : Expr} (he : e ∈ visited p.exprs) (hr : e.applied = some r) :
    r.id ∈ p.dependencies e.id := by
  cases e with
  | invoke id reference arguments =>
    obtain rfl : reference = r := Option.some.inj hr
    exact mem_dependencies he (mem_prependAll.mpr (Or.inr List.mem_cons_self))
  | jump id reference arguments =>
    obtain rfl : reference = r := Option.some.inj hr
    exact mem_dependencies he
      (mem_prependAll.mpr (Or.inr (List.mem_cons_of_mem _ List.mem_cons_self)))
  | _ => exact absurd hr (by simp [Expr.applied])

theorem Program.applied_visited {e r : Expr} (he : e ∈ visited p.exprs)
    (hr : e.applied = some r) : r ∈ visited p.exprs := by
  refine visited_subset he ?_
  cases e with
  | invoke id reference arguments =>
    obtain rfl : reference = r := Option.some.inj hr
    simp [visitExpressions, mem_visitExpressions_self]
  | jump id reference arguments =>
    obtain rfl : reference = r := Option.some.inj hr
    simp [visitExpressions, mem_visitExpressions_self]
  | _ => exact absurd hr (by simp [Expr.applied])

/-! ## One component -/

/-- The signatures of the expressions among `ids` fit what the expressions stand for.  The
signature of a with expression is that of its value. -/
def FitsAll (p : Program) (st : InferState) (ids : List ExprId) : Prop :=
  ∀ e ∈ visited p.exprs, e.id ∈ ids → e.isWith = false → ∀ k, p.denotes e = some k →
    k.Fits (st.signature e.id)

/-- The equations of every expression of `scc`, made with the signatures `signature`, are
satisfied by `θ`. -/
def SatisfiesAll (p : Program) (signature : ExprId → Fragment) (scc : List ExprId)
    (θ : Var → Fragment) : Prop :=
  ∀ id ∈ scc, ∀ e, p.lookup id = some e → ∃ stₑ : InferState,
    stₑ.signature = signature ∧ Satisfies θ (equations scc stₑ e).1

/-- The symbol of a definition in the component gets a signature that fits. -/
theorem SatisfiesAll.fits_reference {signature : ExprId → Fragment} {θ : Var → Fragment}
    (h : SatisfiesAll p signature scc θ) {t : Expr} (ht : p.lookup t.id = some t)
    (hm : t.id ∈ scc) {s : Symbol} (hs : t.reference? = some s) {k : Kind}
    (hk : t.kind = some k) : k.Fits ((signature s.id).subst θ) := by
  obtain ⟨stₑ, rfl, hsat⟩ := h t.id hm t ht
  cases t with
  | function id reference parameters expression =>
    obtain rfl : reference = s := Option.some.inj hs
    obtain rfl : Kind.function parameters.length = k := Option.some.inj hk
    have hr := hsat _ List.mem_cons_self
    have hf := hsat _ (List.mem_cons_of_mem _ List.mem_cons_self)
    rw [← hr, hf]
    exact (Kind.fits_function (List.length_map _)).subst θ
  | continuation id reference parameters expression =>
    obtain rfl : reference = s := Option.some.inj hs
    obtain rfl : Kind.continuation parameters.length = k := Option.some.inj hk
    have hr := hsat _ List.mem_cons_self
    have hf := hsat _ (List.mem_cons_of_mem _ List.mem_cons_self)
    rw [← hr, hf]
    exact (Kind.fits_continuation (List.length_map _)).subst θ
  | withExpr id reference parameter expression =>
    obtain rfl : reference = s := Option.some.inj hs
    obtain rfl : Kind.continuation 1 = k := Option.some.inj hk
    have hr := hsat _ (List.mem_cons_of_mem _ List.mem_cons_self)
    rw [hr]
    exact (Kind.fits_continuation rfl).subst θ
  | _ => exact absurd hk (by simp [Expr.kind])

theorem SatisfiesAll.fits {signature : ExprId → Fragment} {θ : Var → Fragment}
    (h : SatisfiesAll p signature scc θ)
    (hscc : ∀ s ∈ scc, ∀ t, Mutual p.dependencies s t → t ∈ scc) {e : Expr}
    (he : e ∈ visited p.exprs) (hm : e.id ∈ scc) (hw : e.isWith = false) {k : Kind}
    (hk : p.denotes e = some k) : k.Fits ((signature e.id).subst θ) := by
  obtain ⟨stₑ, rfl, hsat⟩ := h e.id hm e (Program.lookup_of_mem (p.visited_subset_table he))
  cases e with
  | symbol id name b =>
    obtain ⟨t, ht, hk⟩ := Option.bind_eq_some_iff.mp hk
    split at hk
    · obtain ⟨-, hid⟩ := Program.mem_of_lookup ht
      have hmt : t.id ∈ scc := hid ▸ hscc id hm _ (Program.symbol_mutual he)
      have hfit := h.fits_reference (hid ▸ ht) hmt ‹_› hk
      have hsym : (stₑ.signature id).subst θ = (stₑ.signature b.symbol.id).subst θ :=
        hsat _ List.mem_cons_self
      show k.Fits ((stₑ.signature id).subst θ)
      rwa [hsym]
    · exact absurd hk (by simp)
  | function id reference parameters expression =>
    obtain rfl : Kind.function parameters.length = k := Option.some.inj hk
    have hf := hsat _ (List.mem_cons_of_mem _ List.mem_cons_self)
    show (Kind.function parameters.length).Fits ((stₑ.signature id).subst θ)
    rw [hf]
    exact (Kind.fits_function (List.length_map _)).subst θ
  | continuation id reference parameters expression =>
    obtain rfl : Kind.continuation parameters.length = k := Option.some.inj hk
    have hf := hsat _ (List.mem_cons_of_mem _ List.mem_cons_self)
    show (Kind.continuation parameters.length).Fits ((stₑ.signature id).subst θ)
    rw [hf]
    exact (Kind.fits_continuation (List.length_map _)).subst θ
  | withExpr id reference parameter expression => exact absurd hw (by simp [Expr.isWith])
  | _ => exact absurd hk (by simp [Program.denotes, Expr.kind])

/-- An expression of the component is applied as its reference allows, if the reference is
in the component or has been dealt with before. -/
theorem SatisfiesAll.wellApplied {done : List ExprId} {σ : Vals} (hσ : Store.Acyclic σ)
    (h : SatisfiesAll p st.signature scc (Store.resolve hσ)) (hdone : FitsAll p st done)
    (hscc : ∀ s ∈ scc, ∀ t, Mutual p.dependencies s t → t ∈ scc)
    (hdeps : ∀ s ∈ scc, ∀ t ∈ p.dependencies s, t ∈ scc ∨ t ∈ done) {e : Expr}
    (he : e ∈ visited p.exprs) (hm : e.id ∈ scc)
    (hw : ∀ r, e.applied = some r → r.isWith = false) : p.WellApplied e := by
  obtain ⟨stₑ, hsig, hsat⟩ := h e.id hm e (Program.lookup_of_mem (p.visited_subset_table he))
  -- The signature that the equation of `e` has for its reference fits as well.
  have reference : ∀ r, e.applied = some r → ∀ k, p.denotes r = some k →
      ∀ stᵣ : InferState, stᵣ.signature = st.signature →
        k.Fits ((scopedSignature scc r.id stᵣ).1.subst (Store.resolve hσ)) := by
    intro r hr k hk stᵣ hstᵣ
    have hrv := Program.applied_visited he hr
    rcases Decidable.em (r.id ∈ scc) with hin | hout
    · rw [scopedSignature_of_mem hin, hstᵣ]
      exact h.fits hscc hrv hin (hw r hr) hk
    · have hold := (hdeps e.id hm r.id (Program.applied_edge he hr)).resolve_left hout
      have hfit := hdone r hrv hold (hw r hr) k hk
      rw [← hstᵣ] at hfit
      exact hfit.scopedSignature.subst _
  cases e with
  | invoke id r arguments =>
    intro k hk
    have hfit := reference r rfl k hk (scopedSignatures scc (arguments.map Expr.id) stₑ).2
      (scopedSignatures_snd.1.trans hsig)
    have hlen : (scopedSignatures scc (arguments.map Expr.id) stₑ).1.length = arguments.length := by
      rw [length_scopedSignatures, List.length_map]
    have heq : (scopedSignature scc r.id
      (scopedSignatures scc (arguments.map Expr.id) stₑ).2).1.subst
        (Store.resolve hσ) = _ := hsat _ List.mem_cons_self
    rw [heq] at hfit
    exact hfit.unique ((Kind.fits_function hlen).subst _)
  | jump id r arguments =>
    intro k hk
    have hfit := reference r rfl k hk (scopedSignatures scc (arguments.map Expr.id) stₑ).2
      (scopedSignatures_snd.1.trans hsig)
    have hlen : (scopedSignatures scc (arguments.map Expr.id) stₑ).1.length = arguments.length := by
      rw [length_scopedSignatures, List.length_map]
    have heq : (scopedSignature scc r.id
      (scopedSignatures scc (arguments.map Expr.id) stₑ).2).1.subst
        (Store.resolve hσ) = _ := hsat _ List.mem_cons_self
    rw [heq] at hfit
    exact hfit.unique ((Kind.fits_continuation hlen).subst _)
  | _ => exact trivial

/-! ## All components -/

/-- The loop over the components that are left, `rest`, when those before have been dealt
with. -/
theorem inferSccs_wellApplied {out pre rest : List (List ExprId)} {ss : List ExprId}
    (hc : Components p.dependencies ss out) (e : out = pre ++ rest) (hσ : Store.Acyclic st.vals)
    (hdone : FitsAll p st pre.flatten) (h : inferSccs p n rest st = some (.ok st')) :
    ∀ e ∈ visited p.exprs, e.id ∈ rest.flatten →
      (∀ r, e.applied = some r → r.isWith = false) → p.WellApplied e := by
  induction rest generalizing pre st with
  | nil => exact fun _ _ hm => absurd hm List.not_mem_nil
  | cons scc rest ih =>
    obtain ⟨r, h₁, h₂⟩ := Option.bind_eq_some_iff.mp h
    cases r with
    | error err => simp at h₂
    | ok st₁ =>
      obtain ⟨st₂, h₂, h₃⟩ := Option.bind_eq_some_iff.mp h₂
      obtain ⟨hσ₁, -, hsig₁, hsat⟩ := inferExpressions_spec h₁ hσ
      have hmem : scc ∈ out := by rw [e]; simp
      have hscc : ∀ s ∈ scc, ∀ t, Mutual p.dependencies s t → t ∈ scc :=
        fun s hs t ht => (hc.mem_iff scc hmem s hs t).mpr ht
      have hdeps : ∀ s ∈ scc, ∀ t ∈ p.dependencies s, t ∈ scc ∨ t ∈ pre.flatten :=
        fun s hs t ht => hc.ordered pre scc rest e s hs t (Reaches.edge ht)
      have hall : SatisfiesAll p st.signature scc (Store.resolve hσ₁) := by
        intro id hid e he
        obtain ⟨stₑ, hstₑ, hs⟩ := hsat id hid e he
        exact ⟨stₑ, hstₑ, hs _ (Store.solves_resolve hσ₁)⟩
      have hnodup : (pre.flatten ++ scc ++ rest.flatten).Nodup := by
        have := hc.nodup
        rw [e] at this
        simpa using this
      have hn : scc.Nodup := (List.nodup_append.mp (List.nodup_append.mp hnodup).1).2.1
      obtain ⟨hv, hin, hout⟩ := evaluateSignatures_spec hn h₂ hσ₁
      have hdone₂ : FitsAll p st₂ (pre ++ [scc]).flatten := by
        intro x hx hm hw k hk
        by_cases hxs : x.id ∈ scc
        · rw [hin x.id hxs, hsig₁]
          exact hall.fits hscc hx hxs hw hk
        · rw [hout x.id hxs, hsig₁]
          refine hdone x hx ?_ hw k hk
          simpa [hxs] using hm
      intro x hx hm hw
      rw [List.flatten_cons, List.mem_append] at hm
      rcases hm with hm | hm
      · exact hall.wellApplied hσ₁ hdone hscc hdeps hx hm hw
      · exact ih (by rw [e]; simp) (hv ▸ hσ₁) hdone₂ h₃ x hx hm hw

theorem sccsOf_unique {deps : ExprId → List ExprId} {m : Nat} {ss : List ExprId}
    {out out' : List (List ExprId)} (h : sccsOf deps n ss = some out)
    (h' : sccsOf deps m ss = some out') : out = out' := by
  obtain ⟨st₁, h₁, e₁⟩ := Option.bind_eq_some_iff.mp h
  obtain ⟨st₂, h₂, e₂⟩ := Option.bind_eq_some_iff.mp h'
  rw [constructAll_stable.unique h₁ h₂] at e₁
  exact Option.some.inj (e₁.symm.trans e₂)

theorem Program.denotes_of_isWith {r : Expr} (h : r.isWith = true) :
    p.denotes r = some (.continuation 1) := by
  cases r with
  | withExpr => rfl
  | _ => exact absurd h Bool.false_ne_true

/-- The signature of a with expression says nothing about what it is, so how it is applied is not
checked. -/
theorem Program.wellApplied_iff_of_isWith {e r : Expr} (hr : e.applied = some r)
    (h : r.isWith = true) : p.WellApplied e ↔ e.AppliesWith := by
  have hk := denotes_of_isWith (p := p) h
  cases e with
  | invoke id reference arguments =>
    obtain rfl : reference = r := Option.some.inj hr
    show (∀ k, _ → _) ↔ reference.isWith = false
    rw [h]
    exact iff_of_false (fun hw => by cases hw _ hk) nofun
  | jump id reference arguments =>
    obtain rfl : reference = r := Option.some.inj hr
    show (∀ k, _ → _) ↔ (reference.isWith = true → _)
    rw [hk, forall_prop_of_true h]
    simp only [Option.some.injEq, forall_eq', Kind.continuation.injEq]
    exact eq_comm
  | _ => exact absurd hr nofun

theorem Expr.AppliesWith.of_isWith {e : Expr}
    (h : ∀ r, e.applied = some r → r.isWith = false) : e.AppliesWith := by
  cases e with
  | invoke id reference arguments => exact h reference rfl
  | jump id reference arguments =>
    intro hw
    rw [h reference rfl] at hw
    exact absurd hw Bool.false_ne_true
  | _ => exact trivial

/-- What is known of nothing is applied well. -/
theorem Program.wellApplied_of_denotes {e : Expr}
    (h : ∀ r, e.applied = some r → p.denotes r = none) : p.WellApplied e := by
  cases e with
  | invoke id reference arguments =>
    intro k hk
    rw [h reference rfl] at hk
    cases hk
  | jump id reference arguments =>
    intro k hk
    rw [h reference rfl] at hk
    cases hk
  | _ => exact trivial

/-- In a program that passes, an invoke or a jump that the graph reaches, or whose reference is
not known to be anything, is well applied exactly if it applies no with expression or jumps to
one with one argument, provided that in the walk of the graph whatever is not the first of its
component escapes. -/
theorem inferTypes_wellApplied (p : Program) (next : Var) (n : Nat) (st : InferState)
    (h : inferTypes p next n = some (.ok st)) (hs : p.Settled) :
    ∀ e ∈ visited p.exprs, (p.Reached e ∨ ∀ r, e.applied = some r → p.denotes r = none) →
      (p.WellApplied e ↔ e.AppliesWith) := by
  intro e he hr
  by_cases hw : ∀ r, e.applied = some r → r.isWith = false
  · apply iff_of_true _ (.of_isWith hw)
    rcases hr with hr | hnone
    · obtain ⟨w, out, hwalk, hout, hiff⟩ := sccsOf_components_iff (findDependencies p.exprs) p.ids
      obtain ⟨sccs, hsccs, hinfer⟩ := Option.bind_eq_some_iff.mp h
      obtain rfl : sccs = out := sccsOf_unique hsccs (hout _ (Nat.lt_succ_self _))
      have hc : Components p.dependencies p.ids sccs := hiff.mpr (hs w hwalk)
      have hm : e.id ∈ sccs.flatten := (hc.mem_flatten e.id).mpr hr
      exact inferSccs_wellApplied hc (List.nil_append sccs).symm Store.acyclic_var
        (fun _ _ hx => absurd hx List.not_mem_nil) hinfer e he hm hw
    · exact Program.wellApplied_of_denotes hnone
  · rw [not_forall] at hw
    obtain ⟨r, hw⟩ := hw
    rw [Classical.not_imp, Bool.not_eq_false] at hw
    exact Program.wellApplied_iff_of_isWith hw.1 hw.2

/-- `[(function f () (literal 0))]` -/
def invokedFunction : Program where
  exprs := [.invoke 1 (.function 2 ⟨4, some "f"⟩ [] (.literal 3 0)) []]
  undefined := []
  distinct := by decide

theorem inferTypes_invokedFunction :
    ∃ e ∈ visited invokedFunction.exprs, e.id = 1 ∧ invokedFunction.WellApplied e := by
  obtain ⟨st, h⟩ : ∃ st, inferTypes invokedFunction 5 9 = some (.ok st) :=
    exists_of_passes (by decide +kernel)
  have edges : findDependencies invokedFunction.exprs = [(1, 2), (2, 3)] := rfl
  have le : ∀ v r, Reaches invokedFunction.dependencies v r → v ≤ r := by
    intro v r hr
    induction hr with
    | refl => exact Nat.le_refl v
    | tail _ ht ih =>
      have hmem := Dependencies.mem_of.mp ht
      rw [edges] at hmem
      simp only [List.mem_cons, Prod.mk.injEq, List.not_mem_nil, or_false] at hmem
      rcases hmem with ⟨rfl, rfl⟩ | ⟨rfl, rfl⟩
      · exact Nat.le_trans ih (by decide)
      · exact Nat.le_trans ih (by decide)
  have settled : invokedFunction.Settled := by
    intro w hw
    obtain ⟨hv, -⟩ := constructAll_simulates hw Walk.Inv.start tracks_start
    exact Walk.settled_of_acyclic hv.inv.nodup
      fun v r hm => Nat.le_antisymm (le v r hm.1) (le r v hm.2)
  have hmem : Expr.invoke 1 (.function 2 ⟨4, some "f"⟩ [] (.literal 3 0)) [] ∈
      visited invokedFunction.exprs := by simp [visited, invokedFunction, visitExpressions]
  have hreached : invokedFunction.Reached
      (.invoke 1 (.function 2 ⟨4, some "f"⟩ [] (.literal 3 0)) []) := ⟨1, by decide, .refl⟩
  exact ⟨_, hmem, rfl,
    (inferTypes_wellApplied invokedFunction 5 9 st h settled _ hmem (.inl hreached)).mpr rfl⟩

/-- `(function f (y) (continuation d (z) [d]))` -/
def invokedContinuation : Program where
  exprs := [.function 1 ⟨5, some "f"⟩ [⟨6, some "y"⟩]
    (.continuation 2 ⟨7, some "d"⟩ [⟨8, some "z"⟩]
      (.invoke 3 (.symbol 4 (some "d") ⟨⟨7, some "d"⟩, 2⟩) []))]
  undefined := []
  distinct := by decide

/-- `(function f () [h g]) (function g (z) f) (function h (x) [g (literal 0) g])` -/
def splitComponent : Program where
  exprs :=
    let f : Symbol := ⟨20, some "f"⟩
    let g : Symbol := ⟨21, some "g"⟩
    let h : Symbol := ⟨22, some "h"⟩
    [.function 1 f [] (.invoke 2 (.symbol 3 (some "h") ⟨h, 7⟩) [.symbol 4 (some "g") ⟨g, 5⟩]),
      .function 5 g [⟨23, some "z"⟩] (.symbol 6 (some "f") ⟨f, 1⟩),
      .function 7 h [⟨24, some "x"⟩] (.invoke 8 (.symbol 9 (some "g") ⟨g, 5⟩)
        [.literal 10 0, .symbol 11 (some "g") ⟨g, 5⟩])]
  undefined := []
  distinct := by decide

/-- In the first program an invoke applies a continuation: it is in the body of the
continuation, which nothing depends on.  In the second an invoke applies a function of one
parameter to two arguments: it ends up in another list than the function, before it. -/
theorem inferTypes_ill_applied :
    (∃ n st, inferTypes invokedContinuation 9 n = some (.ok st) ∧
      ∃ e ∈ visited invokedContinuation.exprs, ¬ invokedContinuation.WellApplied e) ∧
    ∃ n st, inferTypes splitComponent 25 n = some (.ok st) ∧
      ∃ e ∈ visited splitComponent.exprs, ¬ splitComponent.WellApplied e := by
  constructor
  · obtain ⟨st, h⟩ : ∃ st, inferTypes invokedContinuation 9 9 = some (.ok st) :=
      exists_of_passes (by decide +kernel)
    refine ⟨9, st, h, .invoke 3 (.symbol 4 (some "d") ⟨⟨7, some "d"⟩, 2⟩) [], ?_, fun hw => ?_⟩
    · simp [visited, invokedContinuation, visitExpressions]
    · exact absurd (hw (.continuation 1) rfl) (by decide)
  · obtain ⟨st, h⟩ : ∃ st, inferTypes splitComponent 25 15 = some (.ok st) :=
      exists_of_passes (by decide +kernel)
    refine ⟨15, st, h, .invoke 8 (.symbol 9 (some "g") ⟨⟨21, some "g"⟩, 5⟩)
        [.literal 10 0, .symbol 11 (some "g") ⟨⟨21, some "g"⟩, 5⟩], ?_, fun hw => ?_⟩
    · simp [visited, splitComponent, visitExpressions, visitArguments]
    · exact absurd (hw (.function 1) rfl) (by decide)

end L2.Bootstrap
