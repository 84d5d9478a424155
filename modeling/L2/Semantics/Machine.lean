import L2.Scope.Occurrences
import L2.Semantics.Transition

/-!
# What expressions mean

The language as a machine.  An expression is evaluated in front of a list of frames, which
is what a `with` captures.  Which of the operands of an `invoke`, `jump` or `storage` comes
next is open until none is left.  The memory of storages belongs to the world outside: it
sees every store, every call of a function that is not the program's, and may call back,
return or jump.
-/

namespace L2.Semantics

open Scope (Name ExprId Binding BinderType Construct Path Expr)
open Transition (Refines)

abbrev Word := BitVec 64

/-- Where the references point to.  The parameters, the storages and the continuations of
a function are made anew whenever it is invoked. -/
structure Addresses where
  ofFunction : ExprId → Word
  ofExpression : Nat → ExprId → Word
  ofName : Name → Word

/-- Where an expression is evaluated: in which place of the program, and in which
activation of the function around it.  The activation outside every function is `0`. -/
structure Env where
  globals : List Binding
  path : Path
  activation : Nat

/-- The environment inside an expression that introduces bindings. -/
def Env.push (c : Construct) (env : Env) : Env := { env with path := c :: env.path }

/-- What has become of an operand. -/
inductive Slot where
  | todo (e : Expr)
  | done (v : Word)
  /-- The reference of a jump that goes to it without looking at its value. -/
  | continuation (id : ExprId) (reference : Option Name) (parameters : List (Option Name))
      (expression : Expr)

/-- What the operands are for. -/
inductive Kind where
  | storage (id : ExprId)
  | invoke
  | jump
  deriving DecidableEq

inductive Frame where
  | branch (consequent alternate : Expr) (env : Env)
  /-- An operand, with those before and after it. -/
  | operand (kind : Kind) (before after : List Slot) (env : Env)
  /-- The body of a continuation: that it completes is undefined behaviour. -/
  | completes
  /-- A call from outside. -/
  | foreign
  /-- The rest of the program. -/
  | program (exprs : List Expr) (env : Env)

/-- What is left to do, the innermost first. -/
abbrev Kont := List Frame

/-- The function that a reference is to. -/
structure Code where
  id : ExprId
  arity : Nat
  expression : Expr
  globals : List Binding
  path : Path

/-- The continuation that a reference is to. -/
inductive Target where
  | resume (k : Kont)
  | body (id : ExprId) (arity : Nat) (expression : Expr) (env : Env)

structure Heap where
  functions : Word → Option Code
  continuations : Word → Option Target
  /-- The words of the parameters of an expression in an activation. -/
  parameters : Nat → ExprId → List Word
  activations : Nat

namespace Heap

def setFunction (address : Word) (code : Code) (heap : Heap) : Heap :=
  { heap with functions := Function.update heap.functions address (some code) }

def setContinuation (address : Word) (target : Target) (heap : Heap) : Heap :=
  { heap with continuations := Function.update heap.continuations address (some target) }

def setParameters (activation : Nat) (id : ExprId) (words : List Word) (heap : Heap) : Heap :=
  { heap with
    parameters := Function.update heap.parameters activation
      (Function.update (heap.parameters activation) id words) }

/-- A new activation of a function. -/
def activate (id : ExprId) (words : List Word) (heap : Heap) : Heap :=
  { heap.setParameters (heap.activations + 1) id words with
    activations := heap.activations + 1 }

end Heap

inductive Control where
  | eval (e : Expr) (env : Env)
  | ret (v : Word)
  | operands (kind : Kind) (slots : List Slot) (env : Env)
  /-- The world outside has been called. -/
  | foreign
  /-- A continuation that is not the program's was jumped to. -/
  | reached (continuation : Word) (arguments : List Word)
  | undefined

structure State where
  control : Control
  kont : Kont
  heap : Heap

/-- What the world outside sees and does. -/
inductive Event where
  | called (function : Word) (arguments : List Word)
  | stored (reference : Word) (index : Nat) (v : Word)
  /-- The world outside returns, jumps or calls back; and a call from there has returned. -/
  | returned (v : Word)
  | jumped (continuation : Word) (arguments : List Word)
  | calledBack (function : Word) (arguments : List Word)
  | answered (v : Word)

inductive Outcome where
  | value (v : Word)
  | reached (continuation : Word) (arguments : List Word)
  | undefined

/-- The activation that a binding in scope belongs to. -/
def Env.activationOf (env : Env) (bndg : Binding) : Nat :=
  if bndg ∈ env.path.dynamicBindings then env.activation else 0

/-- The value of a symbol that refers to a binding. -/
def bindingValue (addresses : Addresses) (heap : Heap) (env : Env) (bndg : Binding) : Word :=
  match bndg with
  | .reference _ .function id => addresses.ofFunction id
  | .reference _ _ id => addresses.ofExpression (env.activationOf bndg) id
  | .parameter _ _ id index => (heap.parameters (env.activationOf bndg) id).getD index 0
  | .undefined name => addresses.ofName name

/-- The value of an expression without parts. -/
def atomValue (addresses : Addresses) (heap : Heap) (env : Env) : Expr → Option Word
  | .literal value => some value
  | .symbol name => some (bindingValue addresses heap env (env.path.resolve env.globals name))
  | .linked bndg => some (bindingValue addresses heap env bndg)
  | _ => none

/-- A jump.  The arguments overwrite the parameters of the continuation. -/
def jumpTo (continuation : Word) (arguments : List Word) (heap : Heap) : State :=
  match heap.continuations continuation with
  | none => ⟨.reached continuation arguments, [], heap⟩
  | some (.resume k) =>
    match arguments with
    | [v] => ⟨.ret v, k, heap⟩
    | _ => ⟨.undefined, [], heap⟩
  | some (.body id arity expression env) =>
    if arguments.length = arity then
      ⟨.eval expression env, [.completes], heap.setParameters env.activation id arguments⟩
    else ⟨.undefined, [], heap⟩

/-- A call, in front of what is left to do after it. -/
def call (function : Word) (arguments : List Word) (k : Kont) (heap : Heap) : State :=
  match heap.functions function with
  | none => ⟨.foreign, k, heap⟩
  | some code =>
    if arguments.length = code.arity then
      ⟨.eval code.expression ⟨code.globals, code.path, heap.activations + 1⟩, k,
        heap.activate code.id arguments⟩
    else ⟨.undefined, [], heap⟩

/-- What the value of an operand does when it is there. -/
def operandEvent (addresses : Addresses) (env : Env) (index : Nat) (v : Word) :
    Kind → Option Event
  | .storage id => some (.stored (addresses.ofExpression env.activation id) index v)
  | _ => none

inductive Step (addresses : Addresses) : State → Option Event → State → Prop
  | atom {e env k heap v} : atomValue addresses heap env e = some v →
    Step addresses ⟨.eval e env, k, heap⟩ none ⟨.ret v, k, heap⟩
  | constrain {expression env k heap} :
    Step addresses ⟨.eval (.constrain expression) env, k, heap⟩ none
      ⟨.eval expression env, k, heap⟩
  | ifExpr {condition consequent alternate env k heap} :
    Step addresses ⟨.eval (.ifExpr condition consequent alternate) env, k, heap⟩ none
      ⟨.eval condition env, .branch consequent alternate env :: k, heap⟩
  | branch {v consequent alternate env k heap} :
    Step addresses ⟨.ret v, .branch consequent alternate env :: k, heap⟩ none
      ⟨.eval (if v ≠ 0 then consequent else alternate) env, k, heap⟩
  | function {id reference parameters expression env k heap} :
    Step addresses ⟨.eval (.function id reference parameters expression) env, k, heap⟩ none
      ⟨.ret (addresses.ofFunction id), k, heap.setFunction (addresses.ofFunction id)
        ⟨id, parameters.length, expression, env.globals,
          ⟨.function, id, reference, parameters⟩ :: env.path⟩⟩
  | continuation {id reference parameters expression env k heap} :
    Step addresses ⟨.eval (.continuation id reference parameters expression) env, k, heap⟩ none
      ⟨.ret (addresses.ofExpression env.activation id), k,
        heap.setContinuation (addresses.ofExpression env.activation id)
          (.body id parameters.length expression
            (env.push ⟨.continuation, id, reference, parameters⟩))⟩
  | withExpr {id reference expression env k heap} :
    Step addresses ⟨.eval (.withExpr id reference expression) env, k, heap⟩ none
      ⟨.eval expression (env.push ⟨.withExpr, id, reference, [none]⟩), k,
        heap.setContinuation (addresses.ofExpression env.activation id) (.resume k)⟩
  | storage {id reference arguments env k heap} :
    Step addresses ⟨.eval (.storage id reference arguments) env, k, heap⟩ none
      ⟨.operands (.storage id) (arguments.map .todo) (env.push ⟨.storage, id, reference, []⟩),
        k, heap⟩
  | invoke {reference arguments env k heap} :
    Step addresses ⟨.eval (.invoke reference arguments) env, k, heap⟩ none
      ⟨.operands .invoke ((reference :: arguments).map .todo) env, k, heap⟩
  | jump {id reference arguments env k heap} :
    Step addresses ⟨.eval (.jump id reference arguments) env, k, heap⟩ none
      ⟨.operands .jump ((reference :: arguments).map .todo) env, k, heap⟩
  -- the operands come in any order
  | choose {kind before e after env k heap} :
    Step addresses ⟨.operands kind (before ++ .todo e :: after) env, k, heap⟩ none
      ⟨.eval e env, .operand kind before after env :: k, heap⟩
  | operand {v kind before after env k heap} :
    Step addresses ⟨.ret v, .operand kind before after env :: k, heap⟩
      (operandEvent addresses env before.length v kind)
      ⟨.operands kind (before ++ .done v :: after) env, k, heap⟩
  | stored {id env k heap} {values : List Word} :
    Step addresses ⟨.operands (.storage id) (values.map .done) env, k, heap⟩ none
      ⟨.ret (addresses.ofExpression env.activation id), k, heap⟩
  | called {function env k heap} {arguments : List Word} :
    Step addresses ⟨.operands .invoke ((function :: arguments).map .done) env, k, heap⟩
      (some (.called function arguments)) (call function arguments k heap)
  | jumped {continuation env k heap} {arguments : List Word} :
    Step addresses ⟨.operands .jump ((continuation :: arguments).map .done) env, k, heap⟩ none
      (jumpTo continuation arguments heap)
  | foreignReturn {v k heap} :
    Step addresses ⟨.foreign, k, heap⟩ (some (.returned v)) ⟨.ret v, k, heap⟩
  | foreignJump {continuation arguments k heap} :
    Step addresses ⟨.foreign, k, heap⟩ (some (.jumped continuation arguments))
      (jumpTo continuation arguments heap)
  | foreignCall {function arguments k heap} :
    Step addresses ⟨.foreign, k, heap⟩ (some (.calledBack function arguments))
      (call function arguments (.foreign :: k) heap)
  | answer {v k heap} :
    Step addresses ⟨.ret v, .foreign :: k, heap⟩ (some (.answered v)) ⟨.foreign, k, heap⟩
  | next {v e exprs env k heap} :
    Step addresses ⟨.ret v, .program (e :: exprs) env :: k, heap⟩ none
      ⟨.eval e env, .program exprs env :: k, heap⟩
  | finish {v env k heap} :
    Step addresses ⟨.ret v, .program [] env :: k, heap⟩ none ⟨.ret v, k, heap⟩

/-- A heap in which some functions can be called. -/
def Heap.initial (functions : Word → Option Code) : Heap where
  functions := functions
  continuations := fun _ => none
  parameters := fun _ _ => []
  activations := 0

/-- The start of a program, whose expressions are evaluated one after the other. -/
def start (env : Env) (heap : Heap) (exprs : List Expr) : State :=
  ⟨.ret 0, [.program exprs env], heap⟩

/-- How a run has ended, if it has. -/
def outcome : State → Option Outcome
  | ⟨.ret v, [], _⟩ => some (.value v)
  | ⟨.ret _, .completes :: _, _⟩ => some .undefined
  | ⟨.reached continuation arguments, _, _⟩ => some (.reached continuation arguments)
  | ⟨.undefined, _, _⟩ => some .undefined
  | _ => none

/-- Everything that the second state may do the first may do as well. -/
abbrev Allows (addresses : Addresses) (s s' : State) : Prop :=
  Refines (Step addresses) outcome (Step addresses) outcome s s'

end L2.Semantics
