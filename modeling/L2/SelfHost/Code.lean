import L2.Scope.Expression
import L2.SelfHost.Intrinsics
import Mathlib.Logic.Function.Basic

/-!
# What the back end works on

The back end does not change the shape of the trees, but it changes the objects that they
are made of: which binding the value of an expression has, what a symbol refers to, the
parameters of a construct, and everything about bindings.  So the trees are given with a
number for every expression, and a `Store` has the fields that change under these numbers.
Every binding that is made for an expression is identified by what it was made for.
-/

namespace L2.SelfHost

open Scope (Name Binding parameterBindings)
open X86 (Word)

/-- The address of an expression. -/
abbrev NodeId := Nat

abbrev RegUseVec := Word

inductive Code where
  | literal (n : NodeId) (value : Word)
  | symbol (n : NodeId) (binding : Binding)
  | storage (n : NodeId) (reference : Option Name) (arguments : List Code)
  | function (n : NodeId) (reference : Option Name) (parameters : List (Option Name))
      (expression : Code)
  | continuation (n : NodeId) (reference : Option Name) (parameters : List (Option Name))
      (expression : Code)
  | withExpr (n : NodeId) (reference : Option Name) (expression : Code)
  | invoke (n : NodeId) (target : Code) (arguments : List Code)
  | jump (n : NodeId) (target : Code) (arguments : List Code)
  | ifExpr (n : NodeId) (condition consequent alternate : Code)
  | constrain (n : NodeId) (expression : Code)

namespace Code

def id : Code → NodeId
  | literal n _ | symbol n _ | storage n _ _ | function n _ _ _ | continuation n _ _ _
  | withExpr n _ _ | invoke n _ _ | jump n _ _ | ifExpr n _ _ _ | constrain n _ => n

def isLiteral : Code → Bool
  | literal _ _ => true
  | _ => false

def isContinuation : Code → Bool
  | continuation _ _ _ _ => true
  | _ => false

def isFunction : Code → Bool
  | function _ _ _ _ => true
  | _ => false

mutual

/-- The expressions of a tree in the order in which `visit-expressions` comes to them. -/
def nodes : Code → List Code
  | literal n value => [literal n value]
  | symbol n binding => [symbol n binding]
  | storage n reference arguments => nodesOf arguments ++ [storage n reference arguments]
  | function n reference parameters e => nodes e ++ [function n reference parameters e]
  | continuation n reference parameters e => nodes e ++ [continuation n reference parameters e]
  | withExpr n reference e => nodes e ++ [withExpr n reference e]
  | invoke n target arguments =>
    nodes target ++ nodesOf arguments ++ [invoke n target arguments]
  | jump n target arguments => nodes target ++ nodesOf arguments ++ [jump n target arguments]
  | ifExpr n condition consequent alternate =>
    nodes condition ++ nodes consequent ++ nodes alternate ++
      [ifExpr n condition consequent alternate]
  | constrain n e => nodes e ++ [constrain n e]

def nodesOf : List Code → List Code
  | [] => []
  | e :: es => nodes e ++ nodesOf es

end

end Code

/-- The binding for the value of an expression, the bindings that have their places in the
text of the program, and the labels that come with the expression `n`. -/
inductive BndgId where
  | value (n : NodeId)
  | named (bndg : Binding)
  | label (n : NodeId) (i : Nat)
  deriving DecidableEq

namespace BndgId

/-- The expression that `bndg-expression` is, if it is one of the program. -/
def expression : BndgId → Option NodeId
  | value n => some n
  | named (.reference _ _ n) => some n
  | named (.parameter _ _ n _) => some n
  | named (.undefined _) => none
  | label _ _ => none

def mode : BndgId → BndgMode
  | value _ => .value
  | named (.parameter _ _ _ _) => .value
  | _ => .reference

def state : BndgId → BndgState
  | named (.undefined _) => .undefined
  | _ => .defined

/-- A binding that has no name has the empty string. -/
def name : BndgId → String
  | named bndg => bndg.name.elim "" Subtype.val
  | _ => ""

end BndgId

/-- The references and the parameters of a construct. -/
def Code.reference : Code → BndgId
  | .storage n reference _ => .named (.reference reference .storage n)
  | .function n reference _ _ => .named (.reference reference .function n)
  | .continuation n reference _ _ => .named (.reference reference .continuation n)
  | .withExpr n reference _ => .named (.reference reference .withExpr n)
  | .symbol _ binding => .named binding
  | e => .value e.id

def Code.parameters : Code → List BndgId
  | .function n _ parameters _ => (parameterBindings .function n parameters).map .named
  | .continuation n _ parameters _ => (parameterBindings .continuation n parameters).map .named
  | .withExpr n _ _ => (parameterBindings .withExpr n [none]).map .named
  | _ => []

/-- The expressions of a program with what `escape-analysis` has found about them. -/
structure Program where
  exprs : List Code
  escapes : NodeId → Bool
  jumps : NodeId → List Code
  shortCircuit : NodeId → Option Code

/-- The expression that a number stands for. -/
def Program.find (p : Program) (n : NodeId) : Option Code :=
  (Code.nodesOf p.exprs).find? (·.id = n)

/-- Whether the storage is `absolute-storage`. -/
def Storage.isAbsolute : Storage → Bool
  | absolute _ => true
  | _ => false

inductive BndgContext where
  | intraFunction | extraFunction
  deriving DecidableEq

/-- The fields of a `bndg-aug` that the back end reads and that change.  `preferred` is
`bndg-preferred-storage` together with `bndg-preferred-offset`. -/
structure BndgAug where
  context : BndgContext
  storage : Storage
  size : Nat
  preferred : Storage
  isRead : Bool
  isCondition : Bool
  conditionJump : JumpCode
  deriving DecidableEq

/-- `make-binding-aug`; the size is not set there. -/
def makeBindingAug (context : BndgContext) (storage : Storage) : BndgAug :=
  ⟨context, storage, 0, .nil, false, false, .nop⟩

/-- The binding as it is made.  References of functions, undefined bindings and labels are
in static memory from the start. -/
def BndgId.make : BndgId → BndgAug
  | named (.reference _ .function _) | named (.undefined _) | label _ _ =>
    makeBindingAug .extraFunction (.absolute 0)
  | _ => makeBindingAug .intraFunction .nil

/-- What generates the code of an expression: `expr:generator`. -/
inductive ExprGenerator where
  | function | continuation | withExpr | storage | jump | invoke | optimizedIf | constrain
  | symbol | literal
  | intrinsic (generator : Generator)
  deriving DecidableEq

structure Store where
  bndg : BndgId → BndgAug
  bindingAug : NodeId → BndgId
  symbolReference : NodeId → BndgId
  parameters : NodeId → List BndgId
  depth : NodeId → Nat
  generator : NodeId → Option ExprGenerator
  frameSize : NodeId → Word
  registersUsed : NodeId → RegUseVec

namespace Store

def modify (st : Store) (b : BndgId) (f : BndgAug → BndgAug) : Store :=
  { st with bndg := Function.update st.bndg b (f (st.bndg b)) }

def modifyAll (st : Store) (bs : List BndgId) (f : BndgAug → BndgAug) : Store :=
  bs.foldl (fun st b => st.modify b f) st

def setBindingAug (st : Store) (n : NodeId) (b : BndgId) : Store :=
  { st with bindingAug := Function.update st.bindingAug n b }

def setParameters (st : Store) (n : NodeId) (bs : List BndgId) : Store :=
  { st with parameters := Function.update st.parameters n bs }

def setSymbolReference (st : Store) (n : NodeId) (b : BndgId) : Store :=
  { st with symbolReference := Function.update st.symbolReference n b }

def setDepth (st : Store) (n : NodeId) (depth : Nat) : Store :=
  { st with depth := Function.update st.depth n depth }

def setGenerator (st : Store) (n : NodeId) (g : ExprGenerator) : Store :=
  { st with generator := Function.update st.generator n (some g) }

def setFrame (st : Store) (n : NodeId) (frameSize : Word) (registersUsed : RegUseVec) : Store :=
  { st with
    frameSize := Function.update st.frameSize n frameSize
    registersUsed := Function.update st.registersUsed n registersUsed }

/-- The binding for the value of `e`: `expr:binding-aug`. -/
def aug (st : Store) (e : Code) : BndgId := st.bindingAug e.id

/-- `bndg-depth` -/
def bndgDepth (st : Store) (b : BndgId) : Nat := b.expression.elim 0 st.depth

/-- `bndg-assigned?` -/
def assigned (st : Store) (b : BndgId) : Bool := (st.bndg b).storage ≠ .nil

/-- A binding as the generators of intrinsics and the assembler see it. -/
def view (st : Store) (b : BndgId) : Bndg where
  name := b.name
  state := b.state
  mode := b.mode
  storage := (st.bndg b).storage
  size := (st.bndg b).size
  conditionJump := (st.bndg b).conditionJump
  isCondition := (st.bndg b).isCondition

/-- What the constructors of expressions set. -/
def initial (p : Program) : Store where
  bndg := BndgId.make
  bindingAug := .value
  symbolReference n := ((p.find n).map Code.reference).getD (.value n)
  parameters n := ((p.find n).map Code.parameters).getD []
  depth _ := 0
  generator _ := none
  frameSize _ := 0
  registersUsed _ := 0

end Store

mutual

/-- An expression as the intrinsics see it. -/
def Code.view (st : Store) : Code → Expr
  | .literal n value => .literal value (st.view (st.bindingAug n))
  | .symbol n _ => .symbol (st.view (st.symbolReference n)) (st.view (st.bindingAug n))
  | .invoke n target arguments =>
    .invoke (target.view st) (viewArguments st arguments) (st.view (st.bindingAug n))
  | .storage n _ _ | .function n _ _ _ | .continuation n _ _ _ | .withExpr n _ _
  | .jump n _ _ | .ifExpr n _ _ _ | .constrain n _ => .other (st.view (st.bindingAug n))

def viewArguments (st : Store) : List Code → List Expr
  | [] => []
  | e :: es => e.view st :: viewArguments st es

end

end L2.SelfHost
