import L2.Bootstrap.Expression
import L2.Bootstrap.Sccs

/-!
# The dependency graph

`vfind_dependencies` prepends to the dependency lists of an expression and of those it
refers to.  `Dependencies` records the prepends, so that every value of it is a finite
graph with its edges in some order.
-/

namespace L2.Bootstrap

open Graph

/-- The prepends so far, newest first: `(s, t)` is `t` prepended to the list of `s`. -/
abbrev Dependencies := List (ExprId × ExprId)

namespace Dependencies

/-- The dependency list of `s`. -/
def of (g : Dependencies) (s : ExprId) : List ExprId :=
  (g.filter fun e => e.1 = s).map Prod.snd

theorem mem_of {g : Dependencies} {s t : ExprId} : t ∈ g.of s ↔ (s, t) ∈ g := by
  simp [of]

end Dependencies

/-- The dependencies of an `if`, an `invoke` and so on, each prepended in turn. -/
def prependAll (s : ExprId) (ts : List ExprId) (g : Dependencies) : Dependencies :=
  ts.foldl (fun g t => (s, t) :: g) g

def vfindDependencies (g : Dependencies) : Expr → Dependencies
  | .ifExpr id condition consequent alternate =>
    prependAll id [condition.id, consequent.id, alternate.id] g
  | .function id _ _ expression => (id, expression.id) :: g
  | .withExpr id _ _ expression => (id, expression.id) :: g
  | .continuation _ _ _ _ => g
  | .storage id reference arguments =>
    prependAll id (arguments.map Expr.id) ((id, reference.id) :: g)
  | .jump id reference arguments =>
    prependAll id (arguments.map Expr.id) ((reference.id, id) :: (id, reference.id) :: g)
  | .invoke id reference arguments =>
    prependAll id (arguments.map Expr.id) ((id, reference.id) :: g)
  | .symbol id _ bindingAug =>
    (bindingAug.expression, id) :: (id, bindingAug.expression) :: g
  | .constrain id expression _ => (expression.id, id) :: (id, expression.id) :: g
  | .literal _ _ => g

/-- The graph that `infer_types` makes of its expressions. -/
def findDependencies (exprs : List Expr) : Dependencies :=
  (visited exprs).foldl vfindDependencies []

theorem mem_prependAll {s : ExprId} {ts : List ExprId} {g : Dependencies} {e : ExprId × ExprId} :
    e ∈ prependAll s ts g ↔ (∃ t ∈ ts, e = (s, t)) ∨ e ∈ g := by
  unfold prependAll
  induction ts generalizing g with
  | nil => simp
  | cons t ts ih =>
    rw [List.foldl_cons, ih]
    simp only [List.mem_cons, exists_eq_or_imp]
    exact or_left_comm.trans or_assoc.symm

/-- Each expression adds its own edges to what is there. -/
theorem mem_vfindDependencies {g : Dependencies} {s : Expr} {e : ExprId × ExprId} :
    e ∈ vfindDependencies g s ↔ e ∈ vfindDependencies [] s ∨ e ∈ g := by
  cases s <;> simp only [vfindDependencies, mem_prependAll, List.mem_cons, List.not_mem_nil,
    or_false, false_or, or_assoc]

theorem mem_findDependencies {exprs : List Expr} {e : ExprId × ExprId} :
    e ∈ findDependencies exprs ↔ ∃ s ∈ visited exprs, e ∈ vfindDependencies [] s := by
  have fold : ∀ (ss : List Expr) (g : Dependencies), e ∈ ss.foldl vfindDependencies g ↔
      (∃ s ∈ ss, e ∈ vfindDependencies [] s) ∨ e ∈ g := by
    intro ss
    induction ss with
    | nil => simp
    | cons s ss ih =>
      intro g
      rw [List.foldl_cons, ih, mem_vfindDependencies]
      simp only [List.mem_cons, exists_eq_or_imp]
      exact or_left_comm.trans or_assoc.symm
  rw [findDependencies, fold]
  simp

/-! ## When the lists are the components -/

/-- A vertex that is in the graph or among the expressions. -/
def Dependencies.nodes (g : Dependencies) (exprs : List ExprId) : List ExprId :=
  exprs ++ g.map Prod.snd

/-- On the graph of any list of expressions, the lists that `construct_sccs` emits are the
strongly connected components, each after those it depends on, exactly if in the
depth-first walk every expression that is not the first of its component to be entered
escapes. -/
theorem sccsOf_components_iff (g : Dependencies) (exprs : List ExprId) :
    ∃ w out, Walk.visitAll g.of ((g.nodes exprs).length + 1) exprs Walk.start = some w ∧
      (∀ n, (g.nodes exprs).length < n → sccsOf g.of n exprs = some out) ∧
      (Components g.of exprs out ↔ Walk.Settled g.of w) := by
  refine exists_sccsOf (fun s _ t ht => ?_) fun s hs => List.mem_append_left _ hs
  exact List.mem_append_right _ (List.mem_map_of_mem (Dependencies.mem_of.mp ht))

/-- `(function f () g) (function g () [(constrain f …)])`, with the addresses 1 to 8. -/
def mutualFunctions : List Expr :=
  let f : Symbol := ⟨7, some "f"⟩
  let g : Symbol := ⟨8, some "g"⟩
  [.function 1 f [] (.symbol 2 (some "g") ⟨g, 3⟩),
    .function 3 g []
      (.invoke 4 (.constrain 5 (.symbol 6 (some "f") ⟨f, 1⟩) (.var 0)) [])]

/-- The constrain expression keeps the depth 2 of the symbol `f` as its lowlink.  The symbol
`g`, on another branch, has that depth too and is taken for the root of a component. -/
theorem sccsOf_mutualFunctions :
    ∃ n out, sccsOf (findDependencies mutualFunctions).of n (mutualFunctions.map Expr.id) =
        some out ∧
      ¬ Components (findDependencies mutualFunctions).of (mutualFunctions.map Expr.id) out := by
  refine ⟨9, [[4, 3, 2], [5, 6, 1]], by decide, fun hc => ?_⟩
  have edge : ∀ s t, t ∈ (findDependencies mutualFunctions).of s →
      Reaches (findDependencies mutualFunctions).of s t := fun _ _ => Reaches.edge
  have there : Reaches (findDependencies mutualFunctions).of 4 5 := edge 4 5 (by decide)
  have back : Reaches (findDependencies mutualFunctions).of 5 4 :=
    (edge 5 6 (by decide)).trans <| (edge 6 1 (by decide)).trans <|
      (edge 1 2 (by decide)).trans <| (edge 2 3 (by decide)).trans <| edge 3 4 (by decide)
  have := (hc.mem_iff [4, 3, 2] (by decide) 4 (by decide) 5).mpr ⟨there, back⟩
  exact absurd this (by decide)

end L2.Bootstrap
