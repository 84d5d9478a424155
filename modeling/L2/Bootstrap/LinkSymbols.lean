import L2.Scope.Expression

/-!
# Linking symbols

`link_symbols` of the bootstrap compiler.  The environments are lists that are extended by
value: what a construct prepends to them is gone when the call for it returns.  Only the
list of the undefined bindings is passed by reference.
-/

namespace L2.Bootstrap

open Scope (Name Binding Expr parameterBindings continuationBindings withBindings)

/-- The `static_bindings` and `dynamic_bindings` that a call of `link_symbols` is passed. -/
structure Environment where
  staticBindings : List Binding
  dynamicBindings : List Binding

/-- `prepend` for each element of a list in turn. -/
def prependBindings (bndgs bindings : List Binding) : List Binding :=
  bndgs.foldl (fun bindings bndg => bndg :: bindings) bindings

/-- What is prepended to `*bindings`: static bindings outside every function, dynamic ones
inside. -/
def Environment.extend (staticStorage : Bool) (bndgs : List Binding) (env : Environment) :
    Environment :=
  if staticStorage then { env with staticBindings := prependBindings bndgs env.staticBindings }
  else { env with dynamicBindings := prependBindings bndgs env.dynamicBindings }

@[simp] theorem Environment.extend_true (bndgs : List Binding) (env : Environment) :
    env.extend true bndgs =
      { env with staticBindings := prependBindings bndgs env.staticBindings } := rfl

@[simp] theorem Environment.extend_false (bndgs : List Binding) (env : Environment) :
    env.extend false bndgs =
      { env with dynamicBindings := prependBindings bndgs env.dynamicBindings } := rfl

/-- The environment of a function's body: its reference is static, and of the dynamic
bindings only its parameters are left. -/
def Environment.enter (bndg : Binding) (parameters : List Binding) (env : Environment) :
    Environment where
  staticBindings := bndg :: env.staticBindings
  dynamicBindings := prependBindings parameters []

/-- The binding that `assign_binding` assigns, if it does. -/
def assignBinding (name : Name) (bindings : List Binding) : Option Binding :=
  bindings.find? (fun ba => ba.name = some name)

/-- The case of a symbol that has no binding yet. -/
def linkSymbol (name : Name) (undefinedBindings : List Binding) (env : Environment) :
    Binding × List Binding :=
  match assignBinding name env.dynamicBindings with
  | some bndg => (bndg, undefinedBindings)
  | none => match assignBinding name env.staticBindings with
    | some bndg => (bndg, undefinedBindings)
    | none => match assignBinding name undefinedBindings with
      | some bndg => (bndg, undefinedBindings)
      | none => (.undefined name, .undefined name :: undefinedBindings)

mutual

def linkSymbols (staticStorage : Bool) (undefinedBindings : List Binding) (env : Environment) :
    Expr → Expr × List Binding
  | .literal value => (.literal value, undefinedBindings)
  | .linked bndg => (.linked bndg, undefinedBindings)
  | .symbol name =>
    let (bndg, undefinedBindings) := linkSymbol name undefinedBindings env
    (.linked bndg, undefinedBindings)
  | .function id reference parameters expression =>
    let (expression, undefinedBindings) := linkSymbols false undefinedBindings
      (env.enter (.reference reference .function id) (parameterBindings .function id parameters))
      expression
    (.function id reference parameters expression, undefinedBindings)
  | .continuation id reference parameters expression =>
    let (expression, undefinedBindings) := linkSymbols staticStorage undefinedBindings
      (env.extend staticStorage (continuationBindings id reference parameters)) expression
    (.continuation id reference parameters expression, undefinedBindings)
  | .withExpr id reference expression =>
    let (expression, undefinedBindings) := linkSymbols staticStorage undefinedBindings
      (env.extend staticStorage (withBindings id reference)) expression
    (.withExpr id reference expression, undefinedBindings)
  | .storage id reference arguments =>
    let (arguments, undefinedBindings) := linkArguments staticStorage undefinedBindings
      (env.extend staticStorage [.reference reference .storage id]) arguments
    (.storage id reference arguments, undefinedBindings)
  | .ifExpr condition consequent alternate =>
    let (condition, undefinedBindings) :=
      linkSymbols staticStorage undefinedBindings env condition
    let (consequent, undefinedBindings) :=
      linkSymbols staticStorage undefinedBindings env consequent
    let (alternate, undefinedBindings) :=
      linkSymbols staticStorage undefinedBindings env alternate
    (.ifExpr condition consequent alternate, undefinedBindings)
  | .invoke reference arguments =>
    let (reference, undefinedBindings) :=
      linkSymbols staticStorage undefinedBindings env reference
    let (arguments, undefinedBindings) :=
      linkArguments staticStorage undefinedBindings env arguments
    (.invoke reference arguments, undefinedBindings)
  | .jump id reference arguments =>
    let (reference, undefinedBindings) :=
      linkSymbols staticStorage undefinedBindings env reference
    let (arguments, undefinedBindings) :=
      linkArguments staticStorage undefinedBindings env arguments
    (.jump id reference arguments, undefinedBindings)
  | .constrain expression =>
    let (expression, undefinedBindings) :=
      linkSymbols staticStorage undefinedBindings env expression
    (.constrain expression, undefinedBindings)

def linkArguments (staticStorage : Bool) (undefinedBindings : List Binding) (env : Environment) :
    List Expr → List Expr × List Binding
  | [] => ([], undefinedBindings)
  | u :: arguments =>
    let (u, undefinedBindings) := linkSymbols staticStorage undefinedBindings env u
    let (arguments, undefinedBindings) :=
      linkArguments staticStorage undefinedBindings env arguments
    (u :: arguments, undefinedBindings)

end

/-- The functions and storages among the top-level expressions, the last one first. -/
def globalBindingAugsOf (exprs : List Expr) : List Binding :=
  exprs.foldl (fun bindingAugs t =>
    match t with
    | .function id reference _ _ => .reference reference .function id :: bindingAugs
    | .storage id reference _ => .reference reference .storage id :: bindingAugs
    | _ => bindingAugs) []

/-- The linking in the loop of `compile_program`. -/
def linkProgram (exprs : List Expr) : List Expr × List Binding :=
  linkArguments true [] ⟨globalBindingAugsOf exprs, []⟩ exprs

end L2.Bootstrap
