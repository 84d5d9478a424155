import L2.SelfHost.Passes

/-!
# Assigning locations

`initialize-expressions` gives the values of some expressions and some more bindings places
in registers or in memory.  Every initializer makes one call of it, with expressions that
lie below its own, after it has decided which of them share a binding; an `InitCall` is what it
passes.  Where the source would look into the arguments of a jump that has none, or past
the end of the table of registers, there is no answer.
-/

namespace L2.SelfHost

open X86 (Word)

/-! ## Registers and memory -/

def registerInUse (reg : Register) (regUseVec : RegUseVec) : Bool :=
  (1 : Word) <<< (reg &&& 0xF) &&& regUseVec ≠ 0

def useRegister (reg : Register) (regUseVec : RegUseVec) : RegUseVec :=
  (1 : Word) <<< (reg &&& 0xF) ||| regUseVec

def setStorage (storage : Storage) (bndg : BndgAug) : BndgAug := { bndg with storage := storage }

def setSize (size : Nat) (bndg : BndgAug) : BndgAug := { bndg with size := size }

def tryBndgToPreferredLocation (st : Store) (bndg : BndgId) (inUse : RegUseVec) :
    RegUseVec × Store :=
  match (st.bndg bndg).preferred with
  | .nil => (inUse, st)
  | .register reg =>
    if registerInUse reg inUse ∨ reg = noRegister then (inUse, st)
    else (useRegister reg inUse,
      st.modify bndg (setStorage (.register reg) ∘ setSize wordSize))
  | preferred => (inUse, st.modify bndg (setStorage preferred))

/-- `binding-to-register/memory-prefs` -/
def bindingToRegisterMemoryPrefs : List Register :=
  [10, 11, 0, 9, 8, 1, 2, 6, 7, 12, 13, 14, 15, 3, 4, 5].map reg64

/-- `binding-to-register/memory` -/
def bindingToRegisterMemory (st : Store) (bndg : BndgId) (offset : Word) (inUse : RegUseVec) :
    Option (RegUseVec × Store) :=
  if inUse = 0xFFFFFFFFFFFFFFFF then
    some (inUse, st.modify bndg fun b =>
      { b with size := wordSize, storage := memoryStorage b.context offset })
  else
    (bindingToRegisterMemoryPrefs.find? fun testReg => !registerInUse testReg inUse).map
      fun freeRegister => (useRegister freeRegister inUse,
        st.modify bndg (setStorage (.register freeRegister) ∘ setSize wordSize))

/-- A round of the loops that try the preferred locations, of those of the bindings that are
read and at least `depth` deep. -/
def tryPreferredRound (depth : Nat) (inUse : RegUseVec) (st : Store) (u : BndgId) :
    RegUseVec × Store :=
  if depth ≤ st.bndgDepth u ∧ (st.bndg u).isRead then tryBndgToPreferredLocation st u inUse
  else (inUse, st)

def tryPreferred (depth : Nat) (inUse : RegUseVec) (st : Store) : List BndgId → RegUseVec × Store
  | [] => (inUse, st)
  | u :: us =>
    let r := tryPreferredRound depth inUse st u
    tryPreferred depth r.1 r.2 us

/-- A round of the loops `assign-args`, for the bindings that are still without a location. -/
def assignArgsRound (depth : Nat) (offset : Word) (inUse : RegUseVec) (st : Store) (v : BndgId) :
    Option (RegUseVec × Store) :=
  if depth ≤ st.bndgDepth v ∧ ¬ st.assigned v ∧ (st.bndg v).isRead then
    bindingToRegisterMemory st v offset inUse
  else some (inUse, st)

def assignArgs (depth : Nat) (offset : Word) (inUse : RegUseVec) (st : Store) :
    List BndgId → Option (RegUseVec × Store)
  | [] => some (inUse, st)
  | v :: us => (assignArgsRound depth offset inUse st v).bind fun r =>
    assignArgs depth (offset + words 1) r.1 r.2 us

/-- What an initializer returns. -/
structure Initialized where
  bottomOffset : Word
  inUse : RegUseVec
  store : Store

/-- The unsigned minimum. -/
def minWord (a b : Word) : Word := if a < b then a else b

/-- The loop `init-subs`. -/
def initSubs (init : Word → Store → Code → Option Initialized) (subExprOffset : Word)
    (r : Initialized) : List Code → Option Initialized
  | [] => some r
  | u :: us => (init subExprOffset r.store u).bind fun r' =>
    initSubs init subExprOffset
      ⟨minWord r.bottomOffset r'.bottomOffset, r.inUse ||| r'.inUse, r'.store⟩ us

/-- What is passed to `initialize-expressions`, with the store as it is then. -/
structure InitCall where
  store : Store
  exprs : List Code
  bndgs : List BndgId
  mask : RegUseVec

/-- No binding of the list has a location. -/
def clear (st : Store) (bs : List BndgId) : Store := st.modifyAll bs (setStorage .nil)

/-- The part of `initialize-expressions` after the loop `init-subs`. -/
def locate (call : InitCall) (offset : Word) (depth : Nat) (r : Initialized) : Option Initialized :=
  let exprs := call.exprs.map r.store.aug
  let preferred := tryPreferred (depth + 1) r.inUse (clear (clear r.store exprs) call.bndgs) exprs
  let preferred := tryPreferred depth preferred.1 preferred.2 call.bndgs
  (assignArgs (depth + 1) (offset - words call.exprs.length) preferred.1 preferred.2 exprs).bind
    fun r' => (assignArgs depth (offset - words (call.exprs.length + call.bndgs.length)) r'.1 r'.2
      call.bndgs).map fun r'' => ⟨r.bottomOffset, r''.1, r''.2⟩

def initializeExpressions (init : Word → Store → Code → Option Initialized) (call : InitCall)
    (offset : Word) (depth : Nat) : Option Initialized :=
  let subExprOffset := offset - words (call.exprs.length + call.bndgs.length)
  (initSubs init subExprOffset ⟨subExprOffset, call.mask, call.store⟩ call.exprs).bind
    (locate call offset depth)

/-! ## The initializers -/

/-- The masks with the registers that each kind of expression leaves to its code. -/
def plainMask : RegUseVec := 0xFFFFFFFFFFFF0830
def operandMask : RegUseVec := 0xFFFFFFFFFFFF0C30
def bodyMask : RegUseVec := 0xFFFFFFFFFFFF0C38
def invokeMask : RegUseVec := 0xFFFFFFFFFFFF0031
def divisionMask : RegUseVec := 0xFFFFFFFFFFFF0034
def multiplicationMask : RegUseVec := 0xFFFFFFFFFFFF0030

/-- The registers that a call may change. -/
def callClobbers : RegUseVec := 0xFFFFFFFFFFFF0FF7

/-- `rdi`, `rsi`, `rdx`, `rcx`, `r8` and `r9`. -/
def callRegs : List Register := [7, 6, 2, 1, 8, 9].map reg64

def setPreferred (preferred : Storage) (bndg : BndgAug) : BndgAug :=
  { bndg with preferred := preferred }

/-- The loops `set-prefs`. -/
def setPrefs (st : Store) : List BndgId → List Register → Store
  | b :: bs, reg :: regs => setPrefs (st.modify b (setPreferred (.register reg))) bs regs
  | _, _ => st

/-- The loop `assign-params` for the parameters that are passed on the stack. -/
def assignParams (st : Store) (offset : Word) : List BndgId → Store
  | [] => st
  | u :: us => assignParams (st.modify u (setPreferred (.frameRelative offset)))
      (offset + words 1) us

/-- The loops that give expressions the bindings of parameters. -/
def setBindingAugs (st : Store) : List Code → List BndgId → Store
  | u :: us, v :: vs => setBindingAugs (st.setBindingAug u.id v) us vs
  | _, _ => st

/-- `coalesce-expr-bndg` -/
def coalesceExprBndg (st : Store) (e : Code) : Store :=
  match e with
  | .symbol n _ =>
    if (st.symbolReference n).mode = .value then st.setBindingAug n (st.symbolReference n) else st
  | _ => st

/-- `vreplace-value-bindings` -/
def vreplaceValueBindings (replTarget replacement : BndgId) (st : Store) (e : Code) : Store :=
  let st := if st.aug e = replTarget then st.setBindingAug e.id replacement else st
  match e with
  | .continuation n _ _ _ | .withExpr n _ _ | .function n _ _ _ =>
    st.setParameters n ((st.parameters n).map fun b => if b = replTarget then replacement else b)
  | .symbol n _ =>
    if st.symbolReference n = replTarget then st.setSymbolReference n replacement else st
  | _ => st

/-- `visit-expressions` with it. -/
def replaceValueBindings (replTarget replacement : BndgId) (st : Store) (e : Code) : Store :=
  e.nodes.foldl (vreplaceValueBindings replTarget replacement) st

variable (p : Program)

/-- `bndg-escapes` -/
def bndgEscapes (bndg : BndgId) : Bool :=
  match bndg.expression.bind p.find with
  | some (.continuation n _ _ _) | some (.withExpr n _ _) => p.escapes n
  | _ => true

def initializeFunction (st : Store) (n : NodeId) (body : Code) : InitCall where
  store :=
    let st := setPrefs st (st.parameters n) callRegs
    let st := assignParams st (words 2) ((st.parameters n).drop 6)
    st.modify (st.aug body) (setPreferred (.register rax))
  exprs := [body]
  bndgs := st.parameters n
  mask := plainMask

def initializeContinuation (st : Store) (n : NodeId) (body : Code) : InitCall :=
  ⟨st, [body], st.parameters n, bodyMask⟩

/-- The loop `search` over the jumps to a `with` expression with the given body. -/
def searchJumps (st : Store) (n : NodeId) (body : Code) : List Code → Option Store
  | [] => some st
  | .jump _ _ (.symbol m _ :: _) :: remJumps =>
    let replTarget := st.symbolReference m
    if replTarget.mode = .value ∧ st.depth n < st.bndgDepth replTarget ∧
        ¬ bndgEscapes p replTarget then
      (st.parameters n).head?.map fun param => replaceValueBindings replTarget param st body
    else searchJumps st n body remJumps
  | .jump _ _ (_ :: _) :: remJumps => searchJumps st n body remJumps
  | _ :: _ => none

def initializeWith (st : Store) (n : NodeId) (body : Code) : Option InitCall := do
  let st := st.setBindingAug body.id (st.bindingAug n)
  let st := if p.escapes n then st
    else st.setParameters n (st.bindingAug n :: (st.parameters n).tail)
  let st ← searchJumps p st n body (p.jumps n)
  some ⟨st, [body], st.parameters n, bodyMask⟩

def initializeStorage (st : Store) (arguments : List Code) : InitCall :=
  ⟨st, arguments, [], bodyMask⟩

/-- A continuation that is the target itself is left out: its body and the arguments are
initialized.  The argument of a jump to a known target with one parameter shares the
binding of that. -/
def initializeJump (st : Store) (n : NodeId) (target : Code) (arguments : List Code) :
    Option InitCall :=
  match target with
  | .continuation m _ _ body =>
    some ⟨setBindingAugs st arguments (st.parameters m), body :: arguments, [], bodyMask⟩
  | _ =>
    match (p.shortCircuit n).map fun dest => st.parameters dest.id with
    | some [param] =>
      arguments.head?.map fun arg =>
        ⟨st.setBindingAug arg.id param, target :: arguments, [], operandMask⟩
    | _ => some ⟨st, target :: arguments, [], operandMask⟩

def initializeInvoke (st : Store) (target : Code) (arguments : List Code) : InitCall where
  store := setPrefs st (arguments.map st.aug) callRegs
  exprs := target :: arguments
  bndgs := []
  mask := invokeMask

def setIsCondition (bndg : BndgAug) : BndgAug := { bndg with isCondition := true }

/-- The loop `gen-cond`: the store, and the conditions of a chain of `if` expressions with
literals for branches, the last first. -/
def genConds (conds : List Code) (st : Store) : Code → Store × List Code
  | .ifExpr n condition consequent alternate =>
    if consequent.isLiteral then
      genConds (condition :: conds) (st.modify (st.aug condition) setIsCondition) alternate
    else if alternate.isLiteral then
      genConds (condition :: conds) (st.modify (st.aug condition) setIsCondition) consequent
    else
      (st.modify (st.bindingAug n) setIsCondition,
        .ifExpr n condition consequent alternate :: conds)
  | subIf => (st.modify (st.aug subIf) setIsCondition, subIf :: conds)

def initializeOptimizedIf (st : Store) (n : NodeId) (condition consequent alternate : Code) :
    InitCall :=
  let (st, conds) := genConds [] st condition
  ⟨(st.setBindingAug consequent.id (st.bindingAug n)).setBindingAug alternate.id (st.bindingAug n),
    consequent :: alternate :: conds, [], plainMask⟩

def initializeConstrain (st : Store) (n : NodeId) (e : Code) : InitCall :=
  ⟨st.setBindingAug e.id (st.bindingAug n), [e], [], plainMask⟩

/-! ### Intrinsics -/

/-- The name that an invocation has for its target. -/
def Store.targetName (st : Store) : Code → String
  | .invoke _ (.symbol n _) _ => (st.symbolReference n).name
  | _ => ""

/-- The base of an address that is the sum of a literal and something else. -/
def baseOf : Code → Option Code
  | .invoke _ _ [.literal _ _, base] => some base
  | .invoke _ _ [base, .literal _ _] => some base
  | _ => none

def setConditionJump (code : JumpCode) (bndg : BndgAug) : BndgAug :=
  { bndg with conditionJump := code }

/-- The jump that an operation leaves for a condition. -/
def conditionJumpOf (name : String) : Option JumpCode :=
  if name ∈ ["bor", "bxor", "band", "+", "-"] then some .jnz
  else if name = "=" then some .je
  else if name = "<" then some .jb
  else if name = ">" then some .ja
  else none

def assignConditionJump (st : Store) (n : Code) : Store :=
  match conditionJumpOf (st.targetName n) with
  | some code => st.modify (st.aug n) (setConditionJump code)
  | none => st

def initializeBinaryOperator (st : Store) (n arg1 arg2 : Code) : InitCall :=
  let name := st.targetName n
  if name ∈ ["/", "rem"] then
    ⟨st.modify (st.aug arg1) (setPreferred (.register rax)), [arg1, arg2], [], divisionMask⟩
  else if name = "*" then
    ⟨st.modify (st.aug arg1) (setPreferred (.register rax)), [arg1, arg2], [], multiplicationMask⟩
  else if name ∈ ["<<", ">>"] then
    ⟨st.modify (st.aug arg2) (setPreferred (.register rcx)), [arg1, arg2], [], plainMask⟩
  else
    ⟨coalesceExprBndg (coalesceExprBndg (assignConditionJump st n) arg1) arg2, [arg1, arg2], [],
      operandMask⟩

def initializeIntrinsic (st : Store) (n : Code) (g : Generator) : List Code → Option InitCall
  | [arg1] =>
    match g with
    | .getBaseOffset => (baseOf arg1).map fun base =>
      ⟨coalesceExprBndg st base, [base], [], plainMask⟩
    | .unary => some ⟨coalesceExprBndg st arg1, [arg1], [], plainMask⟩
    | _ => none
  | [arg1, arg2] =>
    match g with
    | .setBaseOffset => (baseOf arg1).map fun base =>
      ⟨coalesceExprBndg (coalesceExprBndg st base) arg2, [base, arg2], [], operandMask⟩
    | .rightImm => some ⟨coalesceExprBndg (assignConditionJump st n) arg1, [arg1], [], operandMask⟩
    | .binary => some (initializeBinaryOperator st n arg1 arg2)
    | _ => none
  | _ => none

/-! ### Dispatch -/

/-- The list `inits` holds the one initializer of intrinsics that there is. -/
inductive Intrinsics where
  | arithmetic

variable (inits : List Intrinsics)

/-- The first of the initializers in the list that accepts the expression. -/
def intrinsicOf (st : Store) (n : Code) : Option Generator :=
  inits.findSome? fun | .arithmetic => initializeArithmeticIntrinsics (n.view st)

/-- The call that the initializer of an expression makes, with the generator that it
leaves.  Those of symbols and literals make none. -/
def callOf (st : Store) (n : Code) : Option (ExprGenerator × InitCall) :=
  match n with
  | .function m _ _ body => some (.function, initializeFunction st m body)
  | .continuation m _ _ body => some (.continuation, initializeContinuation st m body)
  | .withExpr m _ body => (initializeWith p st m body).map (.withExpr, ·)
  | .storage _ _ arguments => some (.storage, initializeStorage st arguments)
  | .jump m target arguments => (initializeJump p st m target arguments).map (.jump, ·)
  | .invoke m target arguments =>
    match intrinsicOf inits st (.invoke m target arguments) with
    | some g => (initializeIntrinsic st (.invoke m target arguments) g arguments).map
      (.intrinsic g, ·)
    | none => some (.invoke, initializeInvoke st target arguments)
  | .ifExpr m condition consequent alternate =>
    some (.optimizedIf, initializeOptimizedIf st m condition consequent alternate)
  | .constrain m e => some (.constrain, initializeConstrain st m e)
  | .symbol _ _ | .literal _ _ => none

/-- Every initializer sets the size of the value and the generator in the end. -/
def setGenerated (g : ExprGenerator) (n : Code) (st : Store) : Store :=
  (st.modify (st.aug n) (setSize wordSize)).setGenerator n.id g

/-- What an initializer does after its call, with what that returns. -/
def finish (g : ExprGenerator) (n : Code) (offset : Word) (r : Initialized) : Initialized :=
  match g with
  | .function =>
    let st := r.store.setFrame n.id r.bottomOffset r.inUse
    ⟨offset, 0x800, setGenerated g n (st.modifyAll (st.parameters n.id) (setSize wordSize))⟩
  | .invoke => ⟨r.bottomOffset, r.inUse ||| callClobbers, setGenerated g n r.store⟩
  | .intrinsic .binary =>
    ⟨r.bottomOffset, if r.store.targetName n = "*" then r.inUse ||| 4 else r.inUse,
      setGenerated g n r.store⟩
  | _ => ⟨r.bottomOffset, r.inUse, setGenerated g n r.store⟩

/-- The case of symbols and literals. -/
def initializeLeaf (g : ExprGenerator) (n : Code) (offset : Word) (st : Store) : Initialized :=
  ⟨offset, 0x800, setGenerated g n st⟩

/-- `initialize-expressions` is called with the frame of the function for an offset. -/
def callOffset (n : Code) (offset : Word) (st : Store) : Word :=
  if n.isFunction then st.frameSize n.id else offset

def initializeExpression : Nat → Word → Store → Code → Option Initialized
  | 0, _, _, _ => none
  | fuel + 1, offset, st, n =>
    match n with
    | .symbol _ _ => some (initializeLeaf .symbol n offset st)
    | .literal _ _ => some (initializeLeaf .literal n offset st)
    | n => do
      let (g, call) ← callOf p inits st n
      let r ← initializeExpressions (initializeExpression fuel) call (callOffset n offset st)
        (st.depth n.id)
      some (finish g n offset r)

/-! ## Whole programs -/

/-- The first loop of `compile-program` from the escape analysis on. -/
def prepare (offset : Word) (st : Store) : List Code → Word × Store
  | [] => (offset, st)
  | e :: es =>
    let (offset, st) := placePermBindings p.escapes offset
      (assignExprIsReads (classifyProgramBindings st e) e) e
    prepare offset st es

/-- The second loop. -/
def initializeAll (fuel : Nat) (offset : Word) (st : Store) : List Code → Option Store
  | [] => some st
  | e :: es => do
    let st := assignDepths 0 st e
    let r ← initializeExpressions (initializeExpression p inits fuel) ⟨st, [e], [], 0⟩ offset 0
    initializeAll fuel offset r.store es

/-- `compile-program` up to the call of `generate-program`. -/
def initializeProgram (fuel : Nat) : Option Store :=
  let (offset, st) := prepare p (-words 1) (Store.initial p) p.exprs
  initializeAll p inits fuel (offset - words 1) st p.exprs

end L2.SelfHost
