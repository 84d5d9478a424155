import L2.Semantics.Simplification

/-!
# Rewriting expressions

The visitors of the self-hosted compiler that rewrite the trees before they are linked.
Each is applied to every expression after its subexpressions, and every expression that
one of them makes is a simplification of the one that was there.
-/

namespace L2.SelfHost

open Scope (Expr)
open Semantics

/-- `veliminate-constrain` -/
def veliminateConstrain : Expr → Expr
  | .constrain expression => expression
  | e => e

/-- `vswap-branches`.  One of the two literals must be zero and the other must not. -/
def vswapBranches (e : Expr) : Expr :=
  match e with
  | .ifExpr (.ifExpr cond (.literal consVal) (.literal altVal)) consequent alternate =>
    if (consVal ≠ 0 ∨ altVal ≠ 0) ∧ ¬ (consVal ≠ 0 ∧ altVal ≠ 0) then
      if altVal ≠ 0 then .ifExpr cond alternate consequent
      else .ifExpr cond consequent alternate
    else e
  | _ => e

/-- The loop `search` of `vdominate-jumps`. -/
def search (e : Expr) : List Expr → Expr
  | [] => e
  | .jump id reference arguments :: _ => .jump id reference arguments
  | _ :: exprs => search e exprs

/-- `vdominate-jumps` -/
def vdominateJumps (e : Expr) : Expr :=
  match e with
  | .invoke reference arguments | .jump _ reference arguments => search e (reference :: arguments)
  | .ifExpr (.jump id reference arguments) _ _ => .jump id reference arguments
  | _ => e

mutual

/-- `visit-expressions` -/
def visitExpressions (visitor : Expr → Expr) : Expr → Expr
  | .literal value => visitor (.literal value)
  | .symbol name => visitor (.symbol name)
  | .linked bndg => visitor (.linked bndg)
  | .ifExpr condition consequent alternate =>
    visitor (.ifExpr (visitExpressions visitor condition) (visitExpressions visitor consequent)
      (visitExpressions visitor alternate))
  | .function id reference parameters expression =>
    visitor (.function id reference parameters (visitExpressions visitor expression))
  | .continuation id reference parameters expression =>
    visitor (.continuation id reference parameters (visitExpressions visitor expression))
  | .withExpr id reference expression =>
    visitor (.withExpr id reference (visitExpressions visitor expression))
  | .constrain expression => visitor (.constrain (visitExpressions visitor expression))
  | .storage id reference arguments =>
    visitor (.storage id reference (visitArguments visitor arguments))
  | .jump id reference arguments =>
    visitor (.jump id (visitExpressions visitor reference) (visitArguments visitor arguments))
  | .invoke reference arguments =>
    visitor (.invoke (visitExpressions visitor reference) (visitArguments visitor arguments))

/-- The loops over the arguments. -/
def visitArguments (visitor : Expr → Expr) : List Expr → List Expr
  | [] => []
  | elt :: arguments => visitExpressions visitor elt :: visitArguments visitor arguments

end

/-- The rewritings in the order of `compile-program`. -/
def rewriteExpression (expr : Expr) : Expr :=
  let expr := visitExpressions veliminateConstrain expr
  let expr := visitExpressions vswapBranches expr
  visitExpressions vdominateJumps expr

/-! ## Visitors that simplify -/

/-- A visitor that simplifies what it is applied to after the parts have been simplified. -/
def SimplifyingVisitor (visitor : Expr → Expr) : Prop :=
  ∀ e e', Congruent Simplifies e e' → Simplifies e (visitor e')

mutual

theorem simplifies_visitExpressions {visitor : Expr → Expr} (h : SimplifyingVisitor visitor) :
    ∀ e : Expr, Simplifies e (visitExpressions visitor e)
  | .literal _ => h _ _ .literal
  | .symbol _ => h _ _ .symbol
  | .linked _ => h _ _ .linked
  | .ifExpr condition consequent alternate =>
    h _ _ (.ifExpr (simplifies_visitExpressions h condition)
      (simplifies_visitExpressions h consequent) (simplifies_visitExpressions h alternate))
  | .function _ _ _ expression => h _ _ (.function (simplifies_visitExpressions h expression))
  | .continuation _ _ _ expression =>
    h _ _ (.continuation (simplifies_visitExpressions h expression))
  | .withExpr _ _ expression => h _ _ (.withExpr (simplifies_visitExpressions h expression))
  | .constrain expression => h _ _ (.constrain (simplifies_visitExpressions h expression))
  | .storage _ _ arguments => h _ _ (.storage (simplifies_visitArguments h arguments))
  | .jump _ reference arguments =>
    h _ _ (.jump (simplifies_visitExpressions h reference) (simplifies_visitArguments h arguments))
  | .invoke reference arguments =>
    h _ _ (.invoke (simplifies_visitExpressions h reference)
      (simplifies_visitArguments h arguments))

theorem simplifies_visitArguments {visitor : Expr → Expr} (h : SimplifyingVisitor visitor) :
    ∀ arguments : List Expr,
      List.Forall₂ Simplifies arguments (visitArguments visitor arguments)
  | [] => .nil
  | elt :: arguments =>
    .cons (simplifies_visitExpressions h elt) (simplifies_visitArguments h arguments)

end

theorem simplifying_veliminateConstrain : SimplifyingVisitor veliminateConstrain := by
  intro e e' h
  cases e' with
  | constrain expression =>
    cases h with
    | constrain he => exact .eliminate he
  | _ => exact .congruent h

/-- The visitor leaves an expression alone, or it is an `if` on an `if` between a zero and
another number. -/
theorem vswapBranches_cases (e : Expr) :
    vswapBranches e = e ∨ ∃ cond v consequent alternate, v ≠ 0 ∧
      (e = .ifExpr (.ifExpr cond (.literal v) (.literal 0)) consequent alternate ∧
          vswapBranches e = .ifExpr cond consequent alternate ∨
        e = .ifExpr (.ifExpr cond (.literal 0) (.literal v)) consequent alternate ∧
          vswapBranches e = .ifExpr cond alternate consequent) := by
  unfold vswapBranches
  split
  case h_2 => exact Or.inl rfl
  case h_1 cond consVal altVal consequent alternate =>
    by_cases hcons : consVal = 0 <;> by_cases halt : altVal = 0
    · left
      rw [if_neg (fun h => h.1.elim (absurd hcons) (absurd halt))]
    · right
      subst hcons
      refine ⟨cond, altVal, consequent, alternate, halt, Or.inr ⟨rfl, ?_⟩⟩
      rw [if_pos ⟨Or.inr halt, fun h => h.1 rfl⟩, if_pos halt]
    · right
      subst halt
      refine ⟨cond, consVal, consequent, alternate, hcons, Or.inl ⟨rfl, ?_⟩⟩
      rw [if_pos ⟨Or.inl hcons, fun h => h.2 rfl⟩, if_neg (not_not.mpr rfl)]
    · left
      rw [if_neg (fun h => h.2 ⟨hcons, halt⟩)]

theorem simplifying_vswapBranches : SimplifyingVisitor vswapBranches := by
  intro e e' h
  rcases vswapBranches_cases e' with
    heq | ⟨cond, v, consequent, alternate, hv, ⟨rfl, heq⟩ | ⟨rfl, heq⟩⟩
  · rw [heq]
    exact .congruent h
  · rw [heq]
    cases h with
    | ifExpr hcondition hconsequent halternate => exact .keep hv hcondition hconsequent halternate
  · rw [heq]
    cases h with
    | ifExpr hcondition hconsequent halternate => exact .swap hv hcondition hconsequent halternate

/-- The search ends at a jump, or with the expression that it is made for. -/
theorem search_cases (e : Expr) (exprs : List Expr) :
    search e exprs = e ∨ IsJump (search e exprs) ∧ search e exprs ∈ exprs := by
  induction exprs with
  | nil => exact Or.inl rfl
  | cons x exprs ih =>
    have hrest : search e exprs = e ∨
        IsJump (search e exprs) ∧ search e exprs ∈ x :: exprs :=
      ih.imp_right fun h => ⟨h.1, List.mem_cons_of_mem x h.2⟩
    cases x with
    | jump id reference arguments => exact Or.inr ⟨trivial, List.mem_cons_self⟩
    | _ => exact hrest

/-- What is found among simplified expressions simplifies one of the expressions. -/
theorem exists_simplifies_of_mem {exprs exprs' : List Expr}
    (h : List.Forall₂ Simplifies exprs exprs') {j : Expr} (hj : j ∈ exprs') :
    ∃ e ∈ exprs, Simplifies e j := by
  obtain ⟨before, after, rfl⟩ := List.mem_iff_append.mp hj
  obtain ⟨_, e, _, rfl, _, he, _⟩ := exists_of_forall₂_append_cons h
  exact ⟨e, List.mem_append_right _ List.mem_cons_self, he⟩

theorem simplifying_vdominateJumps : SimplifyingVisitor vdominateJumps := by
  intro e e' h
  cases e' with
  | invoke reference' arguments' =>
    show Simplifies e (search _ (reference' :: arguments'))
    rcases search_cases (.invoke reference' arguments') (reference' :: arguments') with
      heq | ⟨hjump, hmem⟩
    · rw [heq]
      exact .congruent h
    · cases h with
      | invoke hreference harguments =>
        obtain ⟨u, hu, hsimplifies⟩ := exists_simplifies_of_mem (.cons hreference harguments) hmem
        exact .invokeOperand hjump hu hsimplifies
  | jump id reference' arguments' =>
    show Simplifies e (search _ (reference' :: arguments'))
    rcases search_cases (.jump id reference' arguments') (reference' :: arguments') with
      heq | ⟨hjump, hmem⟩
    · rw [heq]
      exact .congruent h
    · cases h with
      | jump hreference harguments =>
        obtain ⟨u, hu, hsimplifies⟩ := exists_simplifies_of_mem (.cons hreference harguments) hmem
        exact .jumpOperand hjump hu hsimplifies
  | ifExpr condition' consequent' alternate' =>
    cases condition' with
    | jump id reference' arguments' =>
      cases h with
      | ifExpr hcondition _ _ => exact .condition trivial hcondition
    | _ => exact .congruent h
  | _ => exact .congruent h

/-! ## The rewritings together -/

/-- The functions that can be called, each with its body changed. -/
def mapFunctions (f : Expr → Expr) (functions : Word → Option Code) : Word → Option Code :=
  fun w => (functions w).map fun code => { code with expression := f code.expression }

theorem simplifiesHeap_initial {addresses : Addresses} {f : Expr → Expr}
    (h : ∀ e, Simplifies e (f e)) (functions : Word → Option Code) :
    SimplifiesHeap addresses (.initial functions) (.initial (mapFunctions f functions)) where
  functions w := by
    show Option.Rel SimplifiesCode (functions w) ((functions w).map _)
    cases functions w with
    | none => exact .none
    | some code => exact .some (.mk (h code.expression))
  continuations _ := .none
  parameters := rfl
  activations := rfl

/-- One visit of all trees. -/
theorem allows_visitExpressions {visitor : Expr → Expr} (h : SimplifyingVisitor visitor)
    (addresses : Addresses) (env : Env) (functions : Word → Option Code) (exprs : List Expr) :
    Allows addresses (start env (.initial functions) exprs)
      (start env (.initial (mapFunctions (visitExpressions visitor) functions))
        (exprs.map (visitExpressions visitor))) := by
  apply allows_of_simplifies
  · rw [List.forall₂_map_right_iff, List.forall₂_same]
    exact fun e _ => simplifies_visitExpressions h e
  · exact simplifiesHeap_initial (simplifies_visitExpressions h) functions

/-- Everything that the rewritten program may do, among functions whose bodies were
rewritten, the program may do. -/
theorem rewriteExpression_allowed (addresses : Addresses) (env : Env)
    (functions : Word → Option Code) (exprs : List Expr) :
    Allows addresses (start env (.initial functions) exprs)
      (start env (.initial (mapFunctions rewriteExpression functions))
        (exprs.map rewriteExpression)) := by
  have heliminate := allows_visitExpressions simplifying_veliminateConstrain addresses env
    functions exprs
  have hswap := allows_visitExpressions simplifying_vswapBranches addresses env
    (mapFunctions (visitExpressions veliminateConstrain) functions)
    (exprs.map (visitExpressions veliminateConstrain))
  have hdominate := allows_visitExpressions simplifying_vdominateJumps addresses env
    (mapFunctions (visitExpressions vswapBranches)
      (mapFunctions (visitExpressions veliminateConstrain) functions))
    ((exprs.map (visitExpressions veliminateConstrain)).map (visitExpressions vswapBranches))
  have hall := heliminate.trans (hswap.trans hdominate)
  rw [List.map_map, List.map_map] at hall
  unfold mapFunctions at hall ⊢
  simp only [Option.map_map] at hall
  exact hall

end L2.SelfHost
