import L2.SelfHost.Initialize

/-!
# Generating code

The generators write instructions and call `generate-expression` on other expressions.  A
generator is given here as the list of what it does in order, its `Piece`s, and
`generateExpression` carries them out.  There is no answer where an expression has no
generator, or where the first argument of a jump is looked at that has none.
-/

namespace L2.SelfHost

open X86 (Word)

/-- An instruction in the lists that the assembler is given.  The displacements of jumps
and calls to labels are left to the linker. -/
inductive ListedInstr where
  | label (bndg : BndgId)
  | plain (instr : Instr)
  | push (op : Operand)
  | jmp (op : Operand)
  | call (op : Operand)
  | jmpTo (bndg : BndgId)
  | callTo (bndg : BndgId)
  | jumpOn (code : JumpCode) (bndg : BndgId)
  | leave
  | ret

inductive Piece where
  | expression (e : Code)
  | instr (instr : ListedInstr)

/-- An instruction that is not a jump. -/
def Piece.plain (code : InstrCode) (operands : List Operand) : Piece :=
  .instr (.plain ⟨code, operands⟩)

/-- The binding of the label that `make-continuation` and `make-with` make. -/
def instrBndg (n : NodeId) : BndgId := .label n 0

/-- The labels that generators make themselves. -/
def endInstrBndg (n : NodeId) : BndgId := .label n 1
def consequentInstrBndg (n : NodeId) : BndgId := .label n 2
def alternateInstrBndg (n : NodeId) : BndgId := .label n 3

def rbx : Register := reg64 3
def r12 : Register := reg64 12
def r13 : Register := reg64 13
def r14 : Register := reg64 14
def r15 : Register := reg64 15

/-- `callee-saved-x64-r64s` -/
def calleeSavedRegs : List Register := [rbx, r12, r13, r14, r15]

/-- The registers in a continuation buffer with the words at which they are. -/
def contRegs : List (Register × Nat) := [(rbx, 4), (r12, 5), (r13, 3), (r14, 2), (r15, 6)]

def contCir : Word := words 1
def contRbp : Word := words 0

/-- A word in memory. -/
def wordAt (base : Register) (disp : Word) : Operand := makeMemOp wordSize base noRegister 0 disp 4

variable (p : Program) (st : Store) (raw : Nat)

/-- `bndg->op` -/
def opOf (b : BndgId) : Operand := bndgToOp raw (st.view b)

/-- `generate-bndg-bndg-move` -/
def moveBndgBndg (dst src : BndgId) (tmp : Register) : List Piece :=
  (generateBndgBndgMove raw (st.view dst) (st.view src) tmp).map fun i => .instr (.plain i)

/-- `generate-register-bndg-move` -/
def moveRegisterBndg (dst : Register) (src : BndgId) : List Piece :=
  if (st.bndg src).storage = .register dst then []
  else [.plain .mov [makeRegOp dst, opOf st raw src]]

/-- `generate-bndg-register-move` -/
def moveBndgRegister (dst : BndgId) (src : Register) : List Piece :=
  if (st.bndg dst).storage = .register src then []
  else [.plain .mov [opOf st raw dst, makeRegOp src]]

/-- The callee-saved registers that a function uses, with the words where they are saved. -/
def savedRegs (n : NodeId) : List (Register × Word) :=
  (calleeSavedRegs.mapIdx fun i reg => (reg, words i - words calleeSavedLen)).filter
    fun (reg, _) => registerInUse reg (st.registersUsed n)

/-- The loop over the parameters that are on the stack. -/
def generateParams (offset : Word) : List BndgId → List Piece
  | [] => []
  | u :: us =>
    .plain .mov [opOf st raw u, wordAt rbp offset, makeRegOp r11] ::
      generateParams (offset + words 1) us

/-- The moves at the start of a function. -/
def generateProloguePieces (params : List BndgId) : List Piece :=
  ((params.zip callRegs).flatMap fun (u, reg) => moveBndgRegister st raw u reg) ++
    generateParams st raw (words 2) (params.drop 6)

/-- The value of a function expression, and the start of the function itself. -/
def enterFunction (n : NodeId) (ref : BndgId) : List Piece :=
  [.plain .lea [opOf st raw (st.bindingAug n), opOf st raw ref, makeRegOp r11],
    .instr (.jmpTo (endInstrBndg n)),
    .instr (.label ref),
    .instr (.push (makeRegOp rbp)),
    .plain .mov [makeRegOp rbp, makeRegOp rsp],
    .plain .sub [makeRegOp rsp, makeImmOp 4 (-st.frameSize n)]]

def saveRegs (n : NodeId) : List Piece :=
  (savedRegs st n).map fun (reg, offset) => .plain .mov [wordAt rbp offset, makeRegOp reg]

def restoreRegs (n : NodeId) : List Piece :=
  (savedRegs st n).map fun (reg, offset) => .plain .mov [makeRegOp reg, wordAt rbp offset]

def leaveFunction (n : NodeId) : List Piece :=
  [.instr .leave, .instr .ret, .instr (.label (endInstrBndg n))]

def generateFunction (n : NodeId) (ref : BndgId) (body : Code) : List Piece :=
  enterFunction st raw n ref ++ saveRegs st n ++ generateProloguePieces st raw (st.parameters n) ++
    .expression body :: moveRegisterBndg st raw rax (st.aug body) ++ restoreRegs st n ++
      leaveFunction n

def generateStoreContinuation (n : NodeId) (ref : BndgId) : List Piece :=
  .plain .lea [makeRegOp r11, opOf st raw ref] ::
    (contRegs.map fun (reg, i) => .plain .mov [wordAt r11 (words i), makeRegOp reg]) ++
    [.plain .lea [wordAt r11 contCir, opOf st raw (instrBndg n), makeRegOp r10],
      .plain .mov [wordAt r11 contRbp, makeRegOp rbp]]

/-- The value of an escaping continuation is its buffer. -/
def generateBuffer (n : NodeId) (ref : BndgId) : List Piece :=
  .plain .lea [opOf st raw (st.bindingAug n), opOf st raw ref, makeRegOp r11] ::
    generateStoreContinuation st raw n ref

def generateContinuation (n : NodeId) (ref : BndgId) (body : Code) : List Piece :=
  (if p.escapes n then generateBuffer st raw n ref else []) ++
    [.instr (.jmpTo (endInstrBndg n)), .instr (.label (instrBndg n)), .expression body,
      .instr (.label (endInstrBndg n))]

/-- The end of a `with` expression, where the jumps to it come together with its body. -/
def joinWith (n : NodeId) (param : BndgId) : List Piece :=
  if bndgEq (st.view (st.bindingAug n)) (st.view param) then [.instr (.label (instrBndg n))]
  else
    .instr (.jmpTo (endInstrBndg n)) :: .instr (.label (instrBndg n)) ::
      moveBndgBndg st raw (st.bindingAug n) param r11 ++ [.instr (.label (endInstrBndg n))]

def generateWith (n : NodeId) (ref : BndgId) (body : Code) : Option (List Piece) :=
  (st.parameters n).head?.map fun param =>
    (if p.escapes n then generateStoreContinuation st raw n ref else []) ++
      .expression body :: moveBndgBndg st raw (st.bindingAug n) (st.aug body) r11 ++
        joinWith st raw n param

def generateStorage (n : NodeId) (ref : BndgId) (arguments : List Code) : List Piece :=
  arguments.map .expression ++
    [.plain .lea [opOf st raw (st.bindingAug n), opOf st raw ref, makeRegOp r11]]

def generateBufferToDest (destReg : Register) (offset : Word) : List Code → List Piece
  | [] => []
  | t :: ts =>
    .plain .mov [wordAt destReg offset, opOf st raw (st.aug t), makeRegOp r11] ::
      generateBufferToDest destReg (offset + words 1) ts

def generateLoadContinuation (srcReg : Register) : List Piece :=
  (contRegs.map fun (reg, i) => .plain .mov [makeRegOp reg, wordAt srcReg (words i)]) ++
    [.plain .mov [makeRegOp r11, wordAt srcReg contCir],
      .plain .mov [makeRegOp rbp, wordAt srcReg contRbp],
      .instr (.jmp (makeRegOp r11))]

/-- The loop `enter`: whether `n` is in the place of the value of a `with` expression around
it, and of which. -/
def enter (n : NodeId) (withExpr : Code) : Code → Option Code
  | .withExpr m ref e =>
    if m = n then some withExpr else enter n (.withExpr m ref e) e
  | .jump m (.continuation _ _ _ e) _ => if m = n then some withExpr else enter n withExpr e
  | current => if current.id = n then some withExpr else none

/-- The body of the `with` expression that `enter` has found. -/
def Code.withBody : Code → Code
  | .withExpr _ _ e => e
  | e => e

/-- The moves from the arguments of a jump to the parameters. -/
def generateArgumentMoves (arguments : List Code) (params : List BndgId) : List Piece :=
  (arguments.zip params).flatMap fun (t, u) => moveBndgBndg st raw u (st.aug t) r11

def generateJump (n : NodeId) (target : Code) (arguments : List Code) : Option (List Piece) :=
  let direct : Option (List Piece) := match target with
    | .continuation m _ _ body =>
      if p.escapes m then none
      else some (arguments.map .expression ++
        generateArgumentMoves st raw arguments (st.parameters m) ++
        [.instr (.label (instrBndg m)), .expression body])
    | _ => none
  match direct with
  | some pieces => some pieces
  | none =>
    match (p.shortCircuit n).bind fun dest => enter n dest dest with
    | some withExpr =>
      arguments.head?.map fun arg =>
        .expression arg :: moveBndgBndg st raw (st.aug withExpr.withBody) (st.aug arg) r11
    | none =>
      match p.shortCircuit n with
      | some dest =>
        some ((if target.isContinuation then [.expression target] else []) ++
          arguments.map .expression ++
          generateArgumentMoves st raw arguments (st.parameters dest.id) ++
          [.instr (.jmpTo (instrBndg dest.id))])
      | none =>
        some (arguments.map .expression ++ [.expression target] ++
          moveRegisterBndg st raw r10 (st.aug target) ++
          generateBufferToDest st raw r10 (BitVec.ofNat 64 contSize) arguments ++
          generateLoadContinuation r10)

/-- `absolute-reference-symbol?` -/
def absoluteReferenceSymbol : Code → Bool
  | .symbol n _ =>
    (st.symbolReference n).mode = .reference && (st.bndg (st.symbolReference n)).storage.isAbsolute
  | _ => false

/-- The pushes and moves before a call. -/
def generateArgumentPieces (arguments : List BndgId) : List Piece :=
  ((arguments.drop 6).reverse.map fun b => .instr (.push (opOf st raw b))) ++
    (arguments.zip callRegs).flatMap fun (b, reg) => moveRegisterBndg st raw reg b

def generateCall (target : Code) : List Piece :=
  [.plain .xor [makeRegOp rax, makeRegOp rax],
    .instr (if absoluteReferenceSymbol st target then .callTo (st.symbolReference target.id)
      else .call (opOf st raw (st.aug target)))]

def dropArguments (n : Nat) : List Piece :=
  if 6 < n then [.plain .add [makeRegOp rsp, makeImmOp 4 (words (n - 6))]] else []

def generateInvoke (n : NodeId) (target : Code) (arguments : List Code) : List Piece :=
  (if absoluteReferenceSymbol st target then [] else [.expression target]) ++
    (arguments.map Piece.expression ++
      (generateArgumentPieces st raw (arguments.map st.aug) ++
        (generateCall st raw target ++
          (moveBndgRegister st raw (st.bindingAug n) rax ++ dropArguments arguments.length))))

def negateJumpCondition : JumpCode → JumpCode
  | .jae => .jb
  | .jbe => .ja
  | .jb => .jae
  | .ja => .jbe
  | .je => .jnz
  | .jnz => .je
  | .nop => .nop

/-- A value is or-ed with itself where the code that computed it leaves no condition. -/
def testPieces (b : BndgId) : List Piece :=
  if (st.bndg b).conditionJump = .nop then
    [.plain .or [opOf st raw b, opOf st raw b, makeRegOp r11]]
  else []

/-- The jump on the condition that the value `b` is not zero. -/
def jumpInstrOf (b : BndgId) : JumpCode :=
  if (st.bndg b).conditionJump = .nop then .jnz else (st.bndg b).conditionJump

def jumpPiece (code : JumpCode) (b : BndgId) : Piece := .instr (.jumpOn code b)

/-- The case of a condition that is no chain. -/
def generateTest (n : NodeId) (subIf : Code) : List Piece :=
  .expression subIf :: testPieces st raw (st.aug subIf) ++
    [jumpPiece (negateJumpCondition (jumpInstrOf st (st.aug subIf))) (alternateInstrBndg n)]

/-- The loop `gen-cond` for the condition of `n`. -/
def genCond (n : NodeId) : Code → List Piece
  | .literal _ value => if value ≠ 0 then [] else [.instr (.jmpTo (alternateInstrBndg n))]
  | .ifExpr m condition consequent alternate =>
    let test := .expression condition :: testPieces st raw (st.aug condition)
    let jmpInstr := jumpInstrOf st (st.aug condition)
    match consequent, alternate with
    | .literal _ value, _ =>
      test ++ [jumpPiece jmpInstr
        (if value ≠ 0 then consequentInstrBndg n else alternateInstrBndg n)] ++ genCond n alternate
    | _, .literal _ value =>
      test ++ [jumpPiece (negateJumpCondition jmpInstr)
        (if value ≠ 0 then consequentInstrBndg n else alternateInstrBndg n)] ++ genCond n consequent
    | _, _ => generateTest st raw n (.ifExpr m condition consequent alternate)
  | subIf => generateTest st raw n subIf

def generateBranch (n : NodeId) (branch : Code) : List Piece :=
  .expression branch :: moveBndgBndg st raw (st.bindingAug n) (st.aug branch) r11

def generateOptimizedIf (n : NodeId) (condition consequent alternate : Code) : List Piece :=
  genCond st raw n condition ++
    .instr (.label (consequentInstrBndg n)) :: generateBranch st raw n consequent ++
    .instr (.jmpTo (endInstrBndg n)) :: .instr (.label (alternateInstrBndg n)) ::
      generateBranch st raw n alternate ++ [.instr (.label (endInstrBndg n))]

def generateConstrain (n : NodeId) (e : Code) : List Piece :=
  .expression e :: moveBndgBndg st raw (st.bindingAug n) (st.aug e) r11

/-- The expressions that the generator of an intrinsic starts with. -/
def intrinsicOperands (g : Generator) (n : Code) : List Code → List Code
  | [arg1] =>
    match g with
    | .getBaseOffset => (baseOf arg1).toList
    | .unary => [arg1]
    | _ => []
  | [arg1, arg2] =>
    match g with
    | .setBaseOffset =>
      if (matchSetBaseOffset (n.view st)).any fun (_, _, offset, _) => sbyte offset then
        arg2 :: (baseOf arg1).toList
      else []
    | .rightImm => [arg1]
    | .binary => [arg1, arg2]
    | _ => []
  | _ => []

/-- `bndg->op` and the rest of the code of an intrinsic are those of the intrinsics alone. -/
def generateIntrinsic (g : Generator) (n : Code) (arguments : List Code) : List Piece :=
  (intrinsicOperands st g n arguments).map .expression ++
    (generate raw (fun _ => []) g (n.view st)).map fun i => .instr (.plain i)

/-- The generators are set by the initializers of the kinds of expressions, so no other
kind comes to one of them. -/
def piecesOf (n : Code) (g : ExprGenerator) : Option (List Piece) :=
  match g, n with
  | .function, .function m _ _ body => some (generateFunction st raw m n.reference body)
  | .continuation, .continuation m _ _ body =>
    some (generateContinuation p st raw m n.reference body)
  | .withExpr, .withExpr m _ body => generateWith p st raw m n.reference body
  | .storage, .storage m _ arguments => some (generateStorage st raw m n.reference arguments)
  | .jump, .jump m target arguments => generateJump p st raw m target arguments
  | .invoke, .invoke m target arguments => some (generateInvoke st raw m target arguments)
  | .optimizedIf, .ifExpr m condition consequent alternate =>
    some (generateOptimizedIf st raw m condition consequent alternate)
  | .constrain, .constrain m e => some (generateConstrain st raw m e)
  | .symbol, .symbol m _ =>
    some ((generateSymbol raw (st.view (st.symbolReference m)) (st.view (st.bindingAug m))).map
      fun i => .instr (.plain i))
  | .literal, .literal m value =>
    some ((generateLiteral raw value (st.view (st.bindingAug m))).map fun i => .instr (.plain i))
  | .intrinsic g, .invoke _ _ arguments => some (generateIntrinsic st raw g n arguments)
  | _, _ => none

/-- The pieces of an expression, if its generator has been set. -/
def pieces (n : Code) : Option (List Piece) := (st.generator n.id).bind (piecesOf p st raw n)

/-- What one piece comes to. -/
def generatePiece (generateExpression : Code → Option (List ListedInstr)) :
    Piece → Option (List ListedInstr)
  | .expression e => generateExpression e
  | .instr i => some [i]

def generateExpression : Nat → Code → Option (List ListedInstr)
  | 0, _ => none
  | fuel + 1, n => do
    let ps ← pieces p st raw n
    let code ← ps.mapM (generatePiece (generateExpression fuel))
    some code.flatten

/-- The instructions of a program, and those of its functions. -/
structure Listing where
  instrs : List ListedInstr
  funcSecs : List (String × List ListedInstr)

def generateAll (fuel : Nat) : List Code → Option Listing
  | [] => some ⟨[], []⟩
  | e :: es => do
    let c ← generateExpression p st raw fuel e
    let l ← generateAll fuel es
    if e.isFunction then some { l with funcSecs := (e.reference.name, c) :: l.funcSecs }
    else some { l with instrs := c ++ l.instrs }

def generateProgram (fuel : Nat) : Option Listing := generateAll p st raw fuel p.exprs

end L2.SelfHost
