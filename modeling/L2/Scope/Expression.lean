import Mathlib.Data.List.Basic

/-!
# Expressions before and after linking

What the two `link_symbols` and `escape_analysis` see of an expression.  A symbol that was
read from a token has the name of the token, which is never empty, and no binding; a symbol
without a name is only ever made together with its binding (`bind_symbol`, `use_binding`).
Binders may have no name: `make_with` gives its parameter none, and `generate_metaprogram`
the parameters of its thunks.
-/

namespace L2.Scope

/-- The name of a token. -/
abbrev Name := { s : String // s ≠ "" }

abbrev ExprId := Nat

/-- The types of the expressions that introduce bindings. -/
inductive BinderType where
  | function
  | continuation
  | withExpr
  | storage
  deriving DecidableEq

/-- A `struct binding_aug`: what its `expression` is, and whether its `symbol` is the
reference of that expression or one of the parameters. -/
inductive Binding where
  | reference (name : Option Name) (type : BinderType) (expression : ExprId)
  | parameter (name : Option Name) (type : BinderType) (expression : ExprId) (index : Nat)
  /-- The reference of the storage expression that `link_symbols` makes for an unknown
  name; it is no part of the program. -/
  | undefined (name : Name)
  deriving DecidableEq

namespace Binding

def name : Binding → Option Name
  | reference name _ _ => name
  | parameter name _ _ _ => name
  | undefined name => some name

end Binding

inductive Expr where
  | literal (value : BitVec 64)
  | symbol (name : Name)
  /-- A symbol expression whose `binding_aug` is set. -/
  | linked (binding : Binding)
  | storage (id : ExprId) (reference : Option Name) (arguments : List Expr)
  | function (id : ExprId) (reference : Option Name) (parameters : List (Option Name))
      (expression : Expr)
  | continuation (id : ExprId) (reference : Option Name) (parameters : List (Option Name))
      (expression : Expr)
  | withExpr (id : ExprId) (reference : Option Name) (expression : Expr)
  | invoke (reference : Expr) (arguments : List Expr)
  | jump (id : ExprId) (reference : Expr) (arguments : List Expr)
  | ifExpr (condition consequent alternate : Expr)
  | constrain (expression : Expr)

/-- The bindings of the parameters of an expression. -/
def parameterBindings (type : BinderType) (id : ExprId) (parameters : List (Option Name)) :
    List Binding :=
  parameters.mapIdx fun i name => .parameter name type id i

/-- The bindings of a `with` or continuation, in the order in which they come into
scope. -/
def continuationBindings (id : ExprId) (reference : Option Name)
    (parameters : List (Option Name)) : List Binding :=
  .reference reference .continuation id :: parameterBindings .continuation id parameters

/-- `make_with` makes one parameter, without a name. -/
def withBindings (id : ExprId) (reference : Option Name) : List Binding :=
  .reference reference .withExpr id :: parameterBindings .withExpr id [none]

end L2.Scope
