import L2.Bootstrap.Dependencies
import L2.Bootstrap.Unify

/-!
# Type inference

`infer_types` goes through the strongly connected components in the order in which they
were emitted.  Each expression of a component gives equations between signatures, which
are unified in place; when all have been, the signatures of the component are replaced
by their values.  The signature of an expression outside the component is copied with
new variables, so that every use may instantiate it differently.
-/

namespace L2.Bootstrap

open Unification

/-- The symbol of a storage expression is not visited, but the expression depends on it. -/
def storageSymbols (es : List Expr) : List Expr :=
  es.filterMap fun
    | .storage id reference _ => some (.ofSymbol reference id)
    | _ => none

/-- Linked top-level expressions, and the storage expressions that `link_symbols` made for
undefined symbols. -/
structure Program where
  exprs : List Expr
  undefined : List Expr
  distinct : ((visited exprs ++ undefined ++ storageSymbols (visited exprs)).map Expr.id).Nodup

/-- Every expression that can be in the graph. -/
def Program.table (p : Program) : List Expr :=
  visited p.exprs ++ p.undefined ++ storageSymbols (visited p.exprs)

/-- What an address points to. -/
def Program.lookup (p : Program) (id : ExprId) : Option Expr := p.table.find? fun e => e.id = id

structure InferState where
  vals : Vals
  signature : ExprId → Fragment
  /-- The address of the next variable that `var` makes. -/
  next : Var

structure UnificationError where
  lhs : Fragment
  rhs : Fragment
  expr : ExprId

def functionToken : Fragment := .atom ⟨"function".toList, by decide⟩

def continuationToken : Fragment := .atom ⟨"continuation".toList, by decide⟩

def scopedSignature (scc : List ExprId) (e : ExprId) (st : InferState) : Fragment × InferState :=
  if e ∈ scc then (st.signature e, st)
  else
    let (c, copies) := copyFragment (st.signature e) ⟨[], st.next⟩
    (c, { st with next := copies.next })

def scopedSignatures (scc : List ExprId) : List ExprId → InferState → List Fragment × InferState
  | [], st => ([], st)
  | e :: es, st =>
    let (s, st) := scopedSignature scc e st
    let (ss, st) := scopedSignatures scc es st
    (s :: ss, st)

/-- The left-hand sides and right-hand sides of the signature equations of an expression,
newest first. -/
def equations (scc : List ExprId) (st : InferState) :
    Expr → List (Fragment × Fragment) × InferState
  | .function id reference parameters expression =>
    let paramsSignature := parameters.map fun p => st.signature p.id
    ([(st.signature id, st.signature reference.id),
      (st.signature id,
        .node [functionToken, .node paramsSignature, st.signature expression.id])], st)
  | .continuation id reference parameters _ =>
    let paramsSignature := parameters.map fun p => st.signature p.id
    ([(st.signature id, st.signature reference.id),
      (st.signature id, .node [continuationToken, .node paramsSignature])], st)
  | .constrain id expression _ => ([(st.signature id, st.signature expression.id)], st)
  | .invoke id reference arguments =>
    let (paramsSignature, st) := scopedSignatures scc (arguments.map Expr.id) st
    let (signature, st) := scopedSignature scc reference.id st
    ([(signature, .node [functionToken, .node paramsSignature, st.signature id])], st)
  | .jump _ reference arguments =>
    let (paramsSignature, st) := scopedSignatures scc (arguments.map Expr.id) st
    let (signature, st) := scopedSignature scc reference.id st
    ([(signature, .node [continuationToken, .node paramsSignature])], st)
  | .withExpr id reference _ expression =>
    ([(st.signature id, st.signature expression.id),
      (st.signature reference.id, .node [continuationToken, .node [st.signature id]])], st)
  | .ifExpr id _ consequent alternate =>
    let (consequentSig, st) := scopedSignature scc consequent.id st
    let (alternateSig, st) := scopedSignature scc alternate.id st
    ([(st.signature id, consequentSig), (consequentSig, alternateSig)], st)
  | .symbol id _ bindingAug => ([(st.signature id, st.signature bindingAug.symbol.id)], st)
  | .storage _ _ _ | .literal _ _ => ([], st)

/-- Unify the equations of `e` in turn. -/
def unifyEquations (n : Nat) (e : ExprId) :
    List (Fragment × Fragment) → Vals → Option (Except UnificationError Vals)
  | [], σ => some (.ok σ)
  | (lhs, rhs) :: eqs, σ => do
    match ← unify n σ lhs rhs with
    | (true, σ) => unifyEquations n e eqs σ
    | (false, σ) => return .error ⟨← recursiveEvaluate σ n lhs, ← recursiveEvaluate σ n rhs, e⟩

/-- The first loop over a component. -/
def inferExpressions (p : Program) (n : Nat) (scc : List ExprId) :
    List ExprId → InferState → Option (Except UnificationError InferState)
  | [], st => some (.ok st)
  | id :: ids, st => do
    match p.lookup id with
    | none => inferExpressions p n scc ids st
    | some e =>
      let (eqs, st) := equations scc st e
      match ← unifyEquations n id eqs st.vals with
      | .ok σ => inferExpressions p n scc ids { st with vals := σ }
      | .error err => return .error err

/-- The second loop over a component. -/
def evaluateSignatures (n : Nat) : List ExprId → InferState → Option InferState
  | [], st => some st
  | id :: ids, st => do
    let d ← recursiveEvaluate st.vals n (st.signature id)
    evaluateSignatures n ids { st with signature := Function.update st.signature id d }

def inferSccs (p : Program) (n : Nat) :
    List (List ExprId) → InferState → Option (Except UnificationError InferState)
  | [], st => some (.ok st)
  | scc :: sccs, st => do
    match ← inferExpressions p n scc scc st with
    | .ok st => inferSccs p n sccs (← evaluateSignatures n scc st)
    | .error err => return .error err

/-- Every expression is made with a variable for a signature, and a constrain expression
then gets the fragment of its reference. -/
def startSignature (p : Program) (id : ExprId) : Fragment :=
  match p.lookup id with
  | some (.constrain _ _ signature) => signature
  | _ => .var id

def inferTypes (p : Program) (next : Var) (n : Nat) :
    Option (Except UnificationError InferState) := do
  let sccs ← sccsOf (findDependencies p.exprs).of n (p.exprs.map Expr.id)
  inferSccs p n sccs { vals := Term.var, signature := startSignature p, next := next }

/-- The program passes. -/
def passes {α ε : Type} : Option (Except ε α) → Bool
  | some (.ok _) => true
  | _ => false

theorem exists_of_passes {α ε : Type} {r : Option (Except ε α)} (h : passes r = true) :
    ∃ a, r = some (.ok a) := by
  match r, h with
  | some (.ok a), _ => exact ⟨a, rfl⟩

/-! ## What a component's loops establish -/

variable {p : Program} {n : Nat} {scc : List ExprId} {st st' : InferState}

theorem Program.lookup_of_mem {e : Expr} (he : e ∈ p.table) : p.lookup e.id = some e := by
  unfold Program.lookup
  have hd : (p.table.map Expr.id).Nodup := p.distinct
  cases h : p.table.find? fun x => x.id = e.id with
  | none => exact absurd (List.find?_eq_none.mp h e he) (by simp)
  | some x =>
    have hx : x.id = e.id := by simpa using List.find?_some h
    rw [List.inj_on_of_nodup_map hd (List.mem_of_find?_eq_some h) he hx]

theorem Program.mem_of_lookup {id : ExprId} {e : Expr} (h : p.lookup id = some e) :
    e ∈ p.table ∧ e.id = id :=
  ⟨List.mem_of_find?_eq_some h, by simpa using List.find?_some h⟩

theorem Program.visited_subset_table : visited p.exprs ⊆ p.table := by
  intro e he
  simp only [Program.table, List.append_assoc]
  exact List.mem_append_left _ he

theorem scopedSignature_snd {e : ExprId} :
    (scopedSignature scc e st).2.signature = st.signature ∧
      (scopedSignature scc e st).2.vals = st.vals := by
  unfold scopedSignature
  split <;> exact ⟨rfl, rfl⟩

theorem scopedSignatures_snd {es : List ExprId} :
    (scopedSignatures scc es st).2.signature = st.signature ∧
      (scopedSignatures scc es st).2.vals = st.vals := by
  induction es generalizing st with
  | nil => exact ⟨rfl, rfl⟩
  | cons e es ih =>
    have h := @scopedSignature_snd scc st e
    have h' := @ih (scopedSignature scc e st).2
    exact ⟨h'.1.trans h.1, h'.2.trans h.2⟩

theorem length_scopedSignatures {es : List ExprId} :
    (scopedSignatures scc es st).1.length = es.length := by
  induction es generalizing st with
  | nil => rfl
  | cons e es ih => simp [scopedSignatures, ih]

/-- Making equations changes neither signatures nor values. -/
theorem equations_snd {e : Expr} :
    (equations scc st e).2.signature = st.signature ∧
      (equations scc st e).2.vals = st.vals := by
  cases e with
  | invoke id reference arguments =>
    have h := @scopedSignatures_snd scc st (arguments.map Expr.id)
    have h' := @scopedSignature_snd scc (scopedSignatures scc (arguments.map Expr.id) st).2
      reference.id
    exact ⟨h'.1.trans h.1, h'.2.trans h.2⟩
  | jump id reference arguments =>
    have h := @scopedSignatures_snd scc st (arguments.map Expr.id)
    have h' := @scopedSignature_snd scc (scopedSignatures scc (arguments.map Expr.id) st).2
      reference.id
    exact ⟨h'.1.trans h.1, h'.2.trans h.2⟩
  | ifExpr id condition consequent alternate =>
    have h := @scopedSignature_snd scc st consequent.id
    have h' := @scopedSignature_snd scc (scopedSignature scc consequent.id st).2 alternate.id
    exact ⟨h'.1.trans h.1, h'.2.trans h.2⟩
  | _ => exact ⟨rfl, rfl⟩

/-- `θ` satisfies the equations. -/
def Satisfies (θ : Var → Fragment) (eqs : List (Fragment × Fragment)) : Prop :=
  ∀ q ∈ eqs, q.1.subst θ = q.2.subst θ

theorem unifyEquations_spec {e : ExprId} {eqs : List (Fragment × Fragment)} {σ σ' : Vals}
    (h : unifyEquations n e eqs σ = some (.ok σ')) (hσ : Store.Acyclic σ) :
    Store.Acyclic σ' ∧ Store.Extends σ' σ ∧ ∀ θ, Store.Solves θ σ' → Satisfies θ eqs := by
  induction eqs generalizing σ with
  | nil =>
    simp only [unifyEquations, Option.some.injEq, Except.ok.injEq] at h
    subst h
    exact ⟨hσ, Store.Extends.refl σ, fun _ _ _ hq => absurd hq List.not_mem_nil⟩
  | cons q eqs ih =>
    obtain ⟨lhs, rhs⟩ := q
    obtain ⟨⟨unified, σ₁⟩, h₁, h₂⟩ := Option.bind_eq_some_iff.mp h
    have hs := unify_spec hσ h₁
    cases unified with
    | false => simp [Option.bind_eq_some_iff] at h₂
    | true =>
      obtain ⟨hσ', he, hsat⟩ := ih h₂ hs.acyclic
      refine ⟨hσ', he.trans hs.extend, fun θ hθ q hq => ?_⟩
      rcases List.mem_cons.mp hq with rfl | hq
      · exact hs.sound rfl θ (hθ.of_extends he)
      · exact hsat θ hθ q hq

/-- The first loop keeps the signatures, and what solves the values that it leaves satisfies
the equations of every expression. -/
theorem inferExpressions_spec {ids : List ExprId}
    (h : inferExpressions p n scc ids st = some (.ok st')) (hσ : Store.Acyclic st.vals) :
    Store.Acyclic st'.vals ∧ Store.Extends st'.vals st.vals ∧ st'.signature = st.signature ∧
      ∀ id ∈ ids, ∀ e, p.lookup id = some e → ∃ stₑ : InferState,
        stₑ.signature = st.signature ∧
          ∀ θ, Store.Solves θ st'.vals → Satisfies θ (equations scc stₑ e).1 := by
  induction ids generalizing st with
  | nil =>
    simp only [inferExpressions, Option.some.injEq, Except.ok.injEq] at h
    subst h
    exact ⟨hσ, Store.Extends.refl _, rfl, fun _ hid => absurd hid List.not_mem_nil⟩
  | cons id ids ih =>
    rw [inferExpressions] at h
    cases hl : p.lookup id with
    | none =>
      simp only [hl] at h
      obtain ⟨ha, he, hs, hrest⟩ := ih h hσ
      refine ⟨ha, he, hs, fun x hx e hxe => ?_⟩
      rcases List.mem_cons.mp hx with rfl | hx
      · exact absurd (hl.symm.trans hxe) (by simp)
      · exact hrest x hx e hxe
    | some e =>
      simp only [hl] at h
      obtain ⟨r, h₁, h₂⟩ := Option.bind_eq_some_iff.mp h
      have hsnd := @equations_snd scc st e
      cases r with
      | error err => simp at h₂
      | ok σ =>
        rw [hsnd.2] at h₁
        obtain ⟨hσ₁, he₁, hsat₁⟩ := unifyEquations_spec h₁ hσ
        obtain ⟨ha, he, hs, hrest⟩ := ih h₂ hσ₁
        have hsig : st'.signature = st.signature := hs.trans hsnd.1
        refine ⟨ha, he.trans he₁, hsig, fun x hx e' hxe => ?_⟩
        rcases List.mem_cons.mp hx with rfl | hx
        · obtain rfl : e = e' := Option.some.inj (hl.symm.trans hxe)
          exact ⟨st, rfl, fun θ hθ => hsat₁ θ (hθ.of_extends he)⟩
        · obtain ⟨stₑ, hstₑ, hsat⟩ := hrest x hx e' hxe
          exact ⟨stₑ, hstₑ.trans hsnd.1, hsat⟩

theorem evaluateSignatures_spec {ids : List ExprId} (hn : ids.Nodup)
    (h : evaluateSignatures n ids st = some st') (hσ : Store.Acyclic st.vals) :
    st'.vals = st.vals ∧
      (∀ x ∈ ids, st'.signature x = (st.signature x).subst (Store.resolve hσ)) ∧
      ∀ x, x ∉ ids → st'.signature x = st.signature x := by
  induction ids generalizing st with
  | nil =>
    obtain rfl : st = st' := Option.some.inj h
    exact ⟨rfl, fun _ hx => absurd hx List.not_mem_nil, fun _ _ => rfl⟩
  | cons id ids ih =>
    obtain ⟨hid, hn⟩ := List.nodup_cons.mp hn
    obtain ⟨d, h₁, h₂⟩ := Option.bind_eq_some_iff.mp h
    obtain ⟨m, hm⟩ := recursiveEvaluate_eq hσ (st.signature id)
    have hd : d = (st.signature id).subst (Store.resolve hσ) :=
      recursiveEvaluate_stable.unique h₁ hm
    obtain ⟨hv, hin, hout⟩ := ih hn h₂ hσ
    have hother : ∀ x, x ≠ id → Function.update st.signature id d x = st.signature x :=
      fun x hx => Function.update_of_ne hx _ _
    refine ⟨hv, fun x hx => ?_, fun x hx => ?_⟩
    · rcases List.mem_cons.mp hx with rfl | hx
      · rw [hout x hid, ← hd]
        exact Function.update_self _ _ _
      · rw [hin x hx]
        exact congrArg _ (hother x (ne_of_mem_of_not_mem hx hid))
    · rw [List.mem_cons, not_or] at hx
      exact (hout x hx.2).trans (hother x hx.1)

end L2.Bootstrap
