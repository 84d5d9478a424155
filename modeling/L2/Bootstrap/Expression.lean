import L2.Bootstrap.Fragment

/-!
# Expressions

The expression tree after the symbols have been linked.  An expression is known by its
address, its `ExprId`.  A symbol that introduces a binding (the reference of a function,
a parameter) is a `Symbol`; a symbol expression carries the binding that
`link_symbols` gave it.  Meta expressions are gone by then, and assembly expressions
do not exist yet.
-/

namespace L2.Bootstrap

abbrev ExprId := Nat

/-- A symbol expression in the place of a reference or of a parameter. -/
structure Symbol where
  id : ExprId
  name : Option String
  deriving DecidableEq

/-- The fields of `struct binding_aug` that say what a symbol stands for. -/
structure BindingAug where
  symbol : Symbol
  expression : ExprId
  deriving DecidableEq

inductive Expr where
  | literal (id : ExprId) (value : BitVec 64)
  | symbol (id : ExprId) (name : Option String) (bindingAug : BindingAug)
  | storage (id : ExprId) (reference : Symbol) (arguments : List Expr)
  | function (id : ExprId) (reference : Symbol) (parameters : List Symbol) (expression : Expr)
  | continuation (id : ExprId) (reference : Symbol) (parameters : List Symbol)
      (expression : Expr)
  | withExpr (id : ExprId) (reference : Symbol) (parameter : Symbol) (expression : Expr)
  | invoke (id : ExprId) (reference : Expr) (arguments : List Expr)
  | jump (id : ExprId) (reference : Expr) (arguments : List Expr)
  | ifExpr (id : ExprId) (condition consequent alternate : Expr)
  /-- The signature is the fragment that the constrain expression's reference made. -/
  | constrain (id : ExprId) (expression : Expr) (signature : Fragment)

namespace Expr

def id : Expr → ExprId
  | literal id _ | symbol id _ _ | storage id _ _ | function id _ _ _ | continuation id _ _ _
  | withExpr id _ _ _ | invoke id _ _ | jump id _ _ | ifExpr id _ _ _ | constrain id _ _ => id

/-- The symbol that stands for a definition. -/
def reference? : Expr → Option Symbol
  | storage _ reference _ | function _ reference _ _ | continuation _ reference _ _
  | withExpr _ reference _ _ => some reference
  | _ => none

/-- A symbol as an expression: its binding is the one it introduces in `e`. -/
def ofSymbol (s : Symbol) (e : ExprId) : Expr := symbol s.id s.name ⟨s, e⟩

end Expr

mutual

/-- The expressions in the order in which `visit_expressions` hands them to its
visitor. -/
def visitExpressions : Expr → List Expr
  | .ifExpr id condition consequent alternate =>
    visitExpressions condition ++ visitExpressions consequent ++ visitExpressions alternate ++
      [.ifExpr id condition consequent alternate]
  | .function id reference parameters expression =>
    visitExpressions expression ++ [.function id reference parameters expression]
  | .continuation id reference parameters expression =>
    visitExpressions expression ++ [.continuation id reference parameters expression]
  | .withExpr id reference parameter expression =>
    visitExpressions expression ++ [.withExpr id reference parameter expression]
  | .constrain id expression signature =>
    visitExpressions expression ++ [.constrain id expression signature]
  | .jump id reference arguments =>
    visitExpressions reference ++ visitArguments arguments ++ [.jump id reference arguments]
  | .invoke id reference arguments =>
    visitExpressions reference ++ visitArguments arguments ++ [.invoke id reference arguments]
  | .storage id reference arguments =>
    visitArguments arguments ++ [.storage id reference arguments]
  | .literal id value => [.literal id value]
  | .symbol id name bindingAug => [.symbol id name bindingAug]

def visitArguments : List Expr → List Expr
  | [] => []
  | e :: es => visitExpressions e ++ visitArguments es

end

/-- The expressions that the visitors are handed. -/
def visited (exprs : List Expr) : List Expr := exprs.flatMap visitExpressions

theorem mem_visitExpressions_self (e : Expr) : e ∈ visitExpressions e := by
  cases e <;> simp [visitExpressions]

theorem append_below {x : Expr} {l m : List Expr} (hl : x ∈ l → visitExpressions x ⊆ l)
    (hm : x ∈ m → visitExpressions x ⊆ m) (h : x ∈ l ++ m) : visitExpressions x ⊆ l ++ m := by
  rcases List.mem_append.mp h with h | h
  · exact List.Subset.trans (hl h) (List.subset_append_left l m)
  · exact List.Subset.trans (hm h) (List.subset_append_right l m)

theorem self_below {x e : Expr} {l : List Expr} (he : visitExpressions e = l ++ [e])
    (hl : x ∈ l → visitExpressions x ⊆ l) (h : x ∈ visitExpressions e) :
    visitExpressions x ⊆ visitExpressions e := by
  rw [he] at h
  rcases List.mem_append.mp h with h | h
  · rw [he]
    exact List.Subset.trans (hl h) (List.subset_append_left l [e])
  · rw [List.mem_singleton.mp h]
    exact List.Subset.refl _

mutual

/-- What is visited below an expression that is visited is visited. -/
theorem visitExpressions_subset {x : Expr} : ∀ e : Expr, x ∈ visitExpressions e →
    visitExpressions x ⊆ visitExpressions e
  | .ifExpr _ condition consequent alternate =>
    self_below rfl <| append_below
      (append_below (visitExpressions_subset condition) (visitExpressions_subset consequent))
      (visitExpressions_subset alternate)
  | .function _ _ _ expression => self_below rfl (visitExpressions_subset expression)
  | .continuation _ _ _ expression => self_below rfl (visitExpressions_subset expression)
  | .withExpr _ _ _ expression => self_below rfl (visitExpressions_subset expression)
  | .constrain _ expression _ => self_below rfl (visitExpressions_subset expression)
  | .jump _ reference arguments =>
    self_below rfl <| append_below (visitExpressions_subset reference)
      (visitArguments_subset arguments)
  | .invoke _ reference arguments =>
    self_below rfl <| append_below (visitExpressions_subset reference)
      (visitArguments_subset arguments)
  | .storage _ _ arguments => self_below rfl (visitArguments_subset arguments)
  | .literal _ _ => self_below (l := []) rfl fun h => absurd h List.not_mem_nil
  | .symbol _ _ _ => self_below (l := []) rfl fun h => absurd h List.not_mem_nil

theorem visitArguments_subset {x : Expr} : ∀ es : List Expr, x ∈ visitArguments es →
    visitExpressions x ⊆ visitArguments es
  | [] => fun h => absurd h List.not_mem_nil
  | e :: es => append_below (visitExpressions_subset e) (visitArguments_subset es)

end

theorem visited_subset {exprs : List Expr} {e : Expr} (h : e ∈ visited exprs) :
    visitExpressions e ⊆ visited exprs := by
  obtain ⟨x, hx, he⟩ := List.mem_flatMap.mp h
  exact fun y hy => List.mem_flatMap.mpr ⟨x, hx, visitExpressions_subset x he hy⟩

end L2.Bootstrap
