import L2.SelfHost.Generator

/-!
# The arithmetic intrinsics

Invocations of undefined symbols with certain names become inline code.  Five pairs of an
initializer and a generator do this; the initializers are tried in turn and the first that
accepts an invocation decides how its code is generated.  `generateExpression` is whatever
generates the code of the arguments.
-/

namespace L2.SelfHost

open X86 (Word)

def sbyte (val : Word) : Bool := val = val &&& 0x7F ∨ val = val ||| 0xFFFFFFFFFFFFFF80

def sword (val : Word) : Bool := val = val &&& 0x7FFFFFFF ∨ val = val ||| 0xFFFFFFFF80000000

/-! ## Which invocations match -/

/-- The name and the arguments of an invocation of an undefined symbol. -/
def matchUndefinedInvoke : Expr → Option (String × List Expr)
  | .invoke (.symbol reference _) arguments _ =>
    if reference.state = .undefined then some (reference.name, arguments) else none
  | _ => none

def matchUndefinedUnaryInvoke (n : Expr) : Option (String × Expr) :=
  match matchUndefinedInvoke n with
  | some (name, [arg1]) => some (name, arg1)
  | _ => none

def matchUndefinedBinaryInvoke (n : Expr) : Option (String × Expr × Expr) :=
  match matchUndefinedInvoke n with
  | some (name, [arg1, arg2]) => some (name, arg1, arg2)
  | _ => none

def matchUndefinedBinaryRightImmInvoke (n : Expr) : Option (String × Expr × Word) :=
  match matchUndefinedInvoke n with
  | some (name, [arg1, .literal arg2 _]) => some (name, arg1, arg2)
  | _ => none

/-- An address that is the undefined `+` of a literal and something else. -/
def matchBaseOffset (n : Expr) : Option (Expr × Word) :=
  match matchUndefinedInvoke n with
  | some ("+", [.literal offset _, base]) => some (base, offset)
  | some ("+", [base, .literal offset _]) => some (base, offset)
  | _ => none

def matchGetBaseOffset (n : Expr) : Option (String × Expr × Word) :=
  match matchUndefinedInvoke n with
  | some (name, [address]) =>
      (matchBaseOffset address).map fun (base, offset) => (name, base, offset)
  | _ => none

def matchSetBaseOffset (n : Expr) : Option (String × Expr × Word × Expr) :=
  match matchUndefinedInvoke n with
  | some (name, [address, value]) =>
    (matchBaseOffset address).map fun (base, offset) => (name, base, offset, value)
  | _ => none

/-! ## Initializers -/

inductive Generator where
  | getBaseOffset | setBaseOffset | unary | rightImm | binary
  deriving DecidableEq

def getNames : List String := ["get0b", "getb", "get1b", "get2b", "get4b", "get8b", "get"]

def setNames : List String := ["set0b", "setb", "set1b", "set2b", "set4b", "set8b", "set"]

def initializeGetBaseOffset (n : Expr) : Option Generator :=
  match matchGetBaseOffset n with
  | some (name, _, offset) => if sbyte offset ∧ name ∈ getNames then some .getBaseOffset else none
  | none => none

/-- The offset is not looked at. -/
def initializeSetBaseOffset (n : Expr) : Option Generator :=
  match matchSetBaseOffset n with
  | some (name, _, _, _) => if name ∈ setNames then some .setBaseOffset else none
  | none => none

def initializeUnary (n : Expr) : Option Generator :=
  match matchUndefinedUnaryInvoke n with
  | some (name, _) => if name ∈ getNames ∨ name = "bnot" then some .unary else none
  | none => none

def initializeRightImm (n : Expr) : Option Generator :=
  match matchUndefinedBinaryRightImmInvoke n with
  | some (name, _, arg2) =>
    if name ∈ ["set0b", "setb", "set1b", "set2b", "set4b", "<<", ">>"] then some .rightImm
    else if name ∈ ["set8b", "set"] then if sword arg2 then some .rightImm else none
    else if name ∈ ["bor", "bxor", "band", "+", "-", "=", "<", ">"] then
      if sbyte arg2 ∨ sword arg2 then some .rightImm else none
    else none
  | none => none

def initializeBinary (n : Expr) : Option Generator :=
  match matchUndefinedBinaryInvoke n with
  | some (name, _, _) =>
    if name ∈ ["bor", "bxor", "band", "+", "-", "=", "<", ">"] ++ setNames ++
        ["/", "rem", "*", "<<", ">>"] then some .binary
    else none
  | none => none

def initializeArithmeticIntrinsics (n : Expr) : Option Generator :=
  initializeGetBaseOffset n <|> initializeSetBaseOffset n <|> initializeUnary n <|>
    initializeRightImm n <|> initializeBinary n

/-! ## Generators -/

variable (raw : Nat) (generateExpression : Expr → List Instr)

/-- A store of `size` bytes to `disp` bytes after the address that `base` holds. -/
def generateSet (base : Bndg) (size : Nat) (disp : Word) (dispSize : Nat) (value : Operand)
    (scratch : Register) : List Instr :=
  let (reg, move) := generateMoveToRegister raw r10 base
  move ++ [⟨.mov, [makeMemOp size reg noRegister 0 disp dispSize, value, makeRegOp scratch]⟩]

/-- A load of `size` bytes from `disp` bytes after the address that `base` holds. -/
def generateGet (code : InstrCode) (dst base : Bndg) (size : Nat) (disp : Word) (dispSize : Nat) :
    List Instr :=
  let (reg, move) := generateMoveToRegister raw r11 base
  move ++ [⟨code, [bndgToOp raw dst, makeMemOp size reg noRegister 0 disp dispSize, makeRegOp r11]⟩]

def generateGetBaseOffset (n : Expr) : List Instr :=
  match matchGetBaseOffset n with
  | some (name, base, offset) =>
    if sbyte offset then
      let get := fun code size =>
        generateExpression base ++ generateGet raw code n.bindingAug base.bindingAug size offset 1
      match name with
      | "get0b" => generateExpression base
      | "getb" | "get1b" => get .movzx 1
      | "get2b" => get .movzx 2
      | "get4b" => get .movzx 4
      | "get" | "get8b" => get .mov wordSize
      | _ => []
    else []
  | none => []

/-- Nothing at all is generated for an offset that is not a signed byte. -/
def generateSetBaseOffset (n : Expr) : List Instr :=
  match matchSetBaseOffset n with
  | some (name, base, offset, value) =>
    if sbyte offset then
      let set := fun size op => (generateExpression value ++ generateExpression base) ++
        generateSet raw base.bindingAug size offset 1 op r11
      match name with
      | "set0b" => generateExpression value ++ generateExpression base
      | "setb" | "set1b" => set 1 (bndgToPartialOp raw 1 value.bindingAug)
      | "set2b" => set 2 (bndgToPartialOp raw 2 value.bindingAug)
      | "set4b" => set 4 (bndgToPartialOp raw 4 value.bindingAug)
      | "set" | "set8b" => set wordSize (bndgToOp raw value.bindingAug)
      | _ => []
    else []
  | none => []

def generateUnary (n : Expr) : List Instr :=
  match matchUndefinedUnaryInvoke n with
  | some (name, arg1) =>
    let get := fun code size =>
      generateExpression arg1 ++ generateGet raw code n.bindingAug arg1.bindingAug size 0 4
    match name with
    | "get0b" => generateExpression arg1
    | "getb" | "get1b" => get .movzx 1
    | "get2b" => get .movzx 2
    | "get4b" => get .movzx 4
    | "get8b" | "get" => get .mov 8
    | "bnot" => generateExpression arg1 ++
      [⟨.mov, [bndgToOp raw n.bindingAug, bndgToOp raw arg1.bindingAug, makeRegOp r11]⟩,
        ⟨.not, [bndgToOp raw n.bindingAug]⟩]
    | _ => []
  | none => []

/-- The operation in two steps: the first argument is moved to the result, and the second
is applied to it. -/
def generateAccumulate (code : InstrCode) (dst arg1 : Bndg) (arg2 : Operand) : List Instr :=
  generateBndgBndgMove raw dst arg1 r11 ++ [⟨code, [bndgToOp raw dst, arg2, makeRegOp r11]⟩]

/-- A comparison: the result is cleared, the arguments are compared, and the low byte of
the result is set.  Only the comparison is left for a condition. -/
def generateComparison (code : InstrCode) (dst : Bndg) (arg1 arg2 : Operand) : List Instr :=
  (if dst.isCondition then [] else
    [⟨.xor, [bndgToOp raw dst, bndgToOp raw dst, makeRegOp r11]⟩]) ++
  [⟨.cmp, [arg1, arg2, makeRegOp r11]⟩] ++
  (if dst.isCondition then [] else [⟨code, [bndgToPartialOp raw 1 dst]⟩])

def generateShift (code : InstrCode) (dst arg1 : Bndg) (count : Operand) : List Instr :=
  [⟨.mov, [bndgToOp raw dst, bndgToOp raw arg1, makeRegOp r11]⟩, ⟨code, [bndgToOp raw dst, count]⟩]

def generateDivision (dst arg1 arg2 : Bndg) (result : Register) : List Instr :=
  [⟨.xor, [makeRegOp rdx, makeRegOp rdx]⟩, ⟨.mov, [makeRegOp rax, bndgToOp raw arg1]⟩,
    ⟨.div, [bndgToOp raw arg2]⟩, ⟨.mov, [bndgToOp raw dst, makeRegOp result]⟩]

def generateMultiplication (dst arg1 arg2 : Bndg) : List Instr :=
  [⟨.mov, [makeRegOp rax, bndgToOp raw arg1]⟩, ⟨.mul, [bndgToOp raw arg2]⟩,
    ⟨.mov, [bndgToOp raw dst, makeRegOp rax]⟩]

def generateBinary (n : Expr) : List Instr :=
  match matchUndefinedBinaryInvoke n with
  | some (name, arg1, arg2) =>
    let a := arg1.bindingAug
    let b := arg2.bindingAug
    let dst := n.bindingAug
    let operands := generateExpression arg1 ++ generateExpression arg2
    match name with
    | "set0b" => operands
    | "setb" | "set1b" => operands ++ generateSet raw a 1 0 4 (bndgToPartialOp raw 1 b) r11l
    | "set2b" => operands ++ generateSet raw a 2 0 4 (bndgToPartialOp raw 2 b) r11w
    | "set4b" => operands ++ generateSet raw a 4 0 4 (bndgToPartialOp raw 4 b) r11d
    | "set8b" | "set" => operands ++ generateSet raw a 8 0 4 (bndgToPartialOp raw 8 b) r11
    | "+" => operands ++ generateAccumulate raw .add dst a (bndgToOp raw b)
    | "-" => operands ++ generateAccumulate raw .sub dst a (bndgToOp raw b)
    | "*" => operands ++ generateMultiplication raw dst a b
    | "/" => operands ++ generateDivision raw dst a b rax
    | "rem" => operands ++ generateDivision raw dst a b rdx
    | "=" => operands ++ generateComparison raw .setz dst (bndgToOp raw a) (bndgToOp raw b)
    | "<" => operands ++ generateComparison raw .setc dst (bndgToOp raw a) (bndgToOp raw b)
    | ">" => operands ++ generateComparison raw .seta dst (bndgToOp raw a) (bndgToOp raw b)
    | "<<" => operands ++ [⟨.mov, [makeRegOp rcx, bndgToOp raw b]⟩] ++
      generateShift raw .shl dst a (makeRegOp cl)
    | ">>" => operands ++ [⟨.mov, [makeRegOp rcx, bndgToOp raw b]⟩] ++
      generateShift raw .shr dst a (makeRegOp cl)
    | "bor" => operands ++ generateAccumulate raw .or dst a (bndgToOp raw b)
    | "bxor" => operands ++ generateAccumulate raw .xor dst a (bndgToOp raw b)
    | "band" => operands ++ generateAccumulate raw .and dst a (bndgToOp raw b)
    | _ => []
  | none => []

def generateRightImm (n : Expr) : List Instr :=
  match matchUndefinedBinaryRightImmInvoke n with
  | some (name, arg1, arg2) =>
    let a := arg1.bindingAug
    let dst := n.bindingAug
    let immSize := if sbyte arg2 then 1 else if sword arg2 then 4 else 0
    let imm := makeImmOp immSize arg2
    let operands := generateExpression arg1
    match name with
    | "set0b" => operands
    | "setb" | "set1b" => operands ++ generateSet raw a 1 0 4 (makeImmOp 1 arg2) r11l
    | "set2b" => operands ++ generateSet raw a 2 0 4 (makeImmOp 2 arg2) r11w
    | "set4b" => operands ++ generateSet raw a 4 0 4 (makeImmOp 4 arg2) r11d
    | "set8b" | "set" =>
      if sword arg2 then operands ++ generateSet raw a 8 0 4 (makeImmOp 4 arg2) r11 else []
    | "+" => operands ++ generateAccumulate raw .add dst a imm
    | "-" => operands ++ generateAccumulate raw .sub dst a imm
    | "=" => operands ++ generateComparison raw .setz dst (bndgToOp raw a) imm
    | "<" => operands ++ generateComparison raw .setc dst (bndgToOp raw a) imm
    | ">" => operands ++ generateComparison raw .seta dst (bndgToOp raw a) imm
    | "<<" => operands ++ generateShift raw .shl dst a (makeImmOp 1 arg2)
    | ">>" => operands ++ generateShift raw .shr dst a (makeImmOp 1 arg2)
    | "bor" => operands ++ generateAccumulate raw .or dst a imm
    | "bxor" => operands ++ generateAccumulate raw .xor dst a imm
    | "band" => operands ++ generateAccumulate raw .and dst a imm
    | _ => []
  | none => []

def generate : Generator → Expr → List Instr
  | .getBaseOffset => generateGetBaseOffset raw generateExpression
  | .setBaseOffset => generateSetBaseOffset raw generateExpression
  | .unary => generateUnary raw generateExpression
  | .rightImm => generateRightImm raw generateExpression
  | .binary => generateBinary raw generateExpression

/-- The code of an intrinsic. -/
def intrinsicCode (n : Expr) : List Instr :=
  match initializeArithmeticIntrinsics n with
  | some g => generate raw generateExpression g n
  | none => []

/-- The expressions whose code comes first, in the order in which it does. -/
def operandsOf (g : Generator) (n : Expr) : List Expr :=
  match g with
  | .getBaseOffset => ((matchGetBaseOffset n).map fun (_, base, _) => [base]).getD []
  | .setBaseOffset => ((matchSetBaseOffset n).map fun (_, base, _, value) => [value, base]).getD []
  | .unary => ((matchUndefinedUnaryInvoke n).map fun (_, arg1) => [arg1]).getD []
  | .rightImm => ((matchUndefinedBinaryRightImmInvoke n).map fun (_, arg1, _) => [arg1]).getD []
  | .binary => ((matchUndefinedBinaryInvoke n).map fun (_, arg1, arg2) => [arg1, arg2]).getD []

def operandCode (n : Expr) : List Instr :=
  match initializeArithmeticIntrinsics n with
  | some g => (operandsOf g n).flatMap generateExpression
  | none => []

/-! ## Binary invocations -/

theorem matchUndefinedInvoke_of_binary {n a b : Expr} {name : String}
    (h : matchUndefinedBinaryInvoke n = some (name, a, b)) :
    matchUndefinedInvoke n = some (name, [a, b]) := by
  unfold matchUndefinedBinaryInvoke at h
  split at h
  · next hm =>
    rw [hm]
    simp_all
  · cases h

/-- A binary invocation is for the last three initializers to accept, or for the one of
stores with an offset. -/
theorem initialize_binary_eq {n a b : Expr} {name : String}
    (h : matchUndefinedBinaryInvoke n = some (name, a, b)) :
    initializeArithmeticIntrinsics n =
      (initializeSetBaseOffset n <|> initializeRightImm n <|> initializeBinary n) := by
  have hm := matchUndefinedInvoke_of_binary h
  have hget : initializeGetBaseOffset n = none := by
    unfold initializeGetBaseOffset matchGetBaseOffset
    rw [hm]
  have hunary : initializeUnary n = none := by
    unfold initializeUnary matchUndefinedUnaryInvoke
    rw [hm]
  unfold initializeArithmeticIntrinsics
  rw [hget, hunary]
  cases initializeSetBaseOffset n <;> rfl

theorem matchSetBaseOffset_eq {n a b : Expr} {name : String}
    (h : matchUndefinedBinaryInvoke n = some (name, a, b)) : matchSetBaseOffset n =
      (matchBaseOffset a).map fun (base, offset) => (name, base, offset, b) := by
  unfold matchSetBaseOffset
  rw [matchUndefinedInvoke_of_binary h]

theorem matchRightImm_eq {n a b : Expr} {name : String}
    (h : matchUndefinedBinaryInvoke n = some (name, a, b)) :
    matchUndefinedBinaryRightImmInvoke n = b.literalValue.map fun x => (name, a, x) := by
  unfold matchUndefinedBinaryRightImmInvoke
  rw [matchUndefinedInvoke_of_binary h]
  cases b <;> rfl

end L2.SelfHost
