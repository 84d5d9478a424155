import L2.SelfHost.Operand

/-!
# The assembler

`writeInstr` lays out one machine instruction; the `write` functions around it match the
operands of an instruction against one form of the opcode each, and `assemble` tries the
forms in turn.  The displacement of an operand with a relocation is what the linker makes
of it: the address of the binding plus the addend less the address of the field, where the
addend takes the field back to the end of the instruction.
-/

namespace L2.SelfHost

open X86 (Word Byte bytesOf)

variable (address : Bndg → Word) (raw : Nat)

/-- The displacement of an operand, `before` bytes after the start of its instruction at
`pos`, with `after` bytes from there to the end. -/
def dispField (pos : Word) (before after : Nat) (disp : Word) : Option Bndg → Word
  | none => disp
  | some bndg =>
    let addend := BitVec.ofNat 64 before - (BitVec.ofNat 64 before + BitVec.ofNat 64 after)
    address bndg + addend - (pos + BitVec.ofNat 64 before)

/-! ## The bytes before the displacement -/

def rmOpCode : Operand → Nat
  | .register _ reg => reg &&& 7
  | .memory _ base _ _ _ _ _ => base &&& 7
  | _ => 0

def opcodeOf (opcode : Nat) : Operand → Nat
  | .register _ reg => opcode + (reg &&& 7)
  | _ => opcode

def modrmMod : Operand → Nat
  | .register _ _ => 3
  | .memory _ base _ _ _ dispSize _ =>
    if dispSize = 0 ∨ base = noRegister ∨ base = rip then 0
    else if dispSize = 1 then 1
    else if dispSize = 4 then 2
    else 0
  | _ => 0

def hasSib : Operand → Bool
  | .memory _ base index _ _ dispSize _ =>
    index ≠ noRegister ∨ base &&& 7 = rsp &&& 7 ∨ (base &&& 7 = rbp &&& 7 ∧ dispSize = 0)
  | _ => false

def modrmRm (op : Operand) : Nat :=
  match op with
  | .memory _ base _ _ _ _ _ =>
    if hasSib op then 4 else if base = noRegister then 5 else if base = rip then 5 else rmOpCode op
  | _ => rmOpCode op

def modrmByte (modrmRegOp modrmRmOp : Operand) : Byte :=
  BitVec.ofNat 8 (modrmMod modrmRmOp <<< 6 |||
    ((modrmRegOp.opRegister &&& 7) <<< 3 ||| modrmRm modrmRmOp))

/-- For any other scale it is the value of `(~)`. -/
def sibScale (scale : Nat) : Nat :=
  if scale = 1 then 0 else if scale = 2 then 1 else if scale = 4 then 2
  else if scale = 8 then 3 else 0xDEADBEEF

def sibByte : Operand → Byte
  | .memory _ base index scale _ _ _ =>
    BitVec.ofNat 8 (sibScale scale <<< 6 |||
      ((if index = noRegister then 4 else index) <<< 3 |||
        (if base = noRegister then 5 else base &&& 7)))
  | _ => 0

def hasRex (opcodeRegOp modrmRegOp modrmRmOp : Operand) : Bool :=
  decide ((modrmRegOp.opRegister ||| (modrmRmOp.opRegister ||| opcodeRegOp.opRegister)) &&&
    wRex ≠ 0)
  || match modrmRmOp with
    | .memory _ base index _ _ dispSize _ =>
      (base ≠ noRegister ∧ registerSize base = 8) ∨ (index ≠ noRegister ∧ registerSize index = 8) ∨
        dispSize = 8
    | _ => false

def rexW (opcodeRegOp modrmRegOp modrmRmOp : Operand) : Bool :=
  modrmRegOp.size = 8 ∨ modrmRmOp.size = 8 ∨ opcodeRegOp.size = 8

def rexR : Operand → Bool
  | .register _ reg => reg &&& 8 ≠ 0
  | _ => false

def rexX : Operand → Bool
  | .memory _ _ index _ _ _ _ => index ≠ noRegister ∧ index &&& 8 ≠ 0
  | _ => false

def rexB (opcodeRegOp modrmRmOp : Operand) : Bool :=
  (match modrmRmOp with
    | .memory _ reg _ _ _ _ _ | .register _ reg => reg ≠ noRegister ∧ reg &&& 8 ≠ 0
    | _ => false) ||
  match opcodeRegOp with
  | .register _ reg => reg ≠ noRegister ∧ reg &&& 8 ≠ 0
  | _ => false

def rexByte (opcodeRegOp modrmRegOp modrmRmOp : Operand) : Byte :=
  BitVec.ofNat 8 (4 <<< 4 ||| ((rexW opcodeRegOp modrmRegOp modrmRmOp).toNat <<< 3 |||
    ((rexR modrmRegOp).toNat <<< 2 ||| ((rexX modrmRmOp).toNat <<< 1 |||
      (rexB opcodeRegOp modrmRmOp).toNat))))

def hasOso (modrmRegOp modrmRmOp : Operand) : Bool := max modrmRegOp.size modrmRmOp.size = 2

def hasAso : Operand → Bool
  | .memory _ base index _ _ dispSize _ =>
    (base ≠ noRegister ∧ registerSize base = 2) ∨ (index ≠ noRegister ∧ registerSize index = 2) ∨
      dispSize = 2
  | _ => false

def writeHead (opcode opcodeSize : Nat) (opcodeRegOp modrmRegOp modrmRmOp : Operand) :
    List Byte :=
  (if hasOso modrmRegOp modrmRmOp then [0x66#8] else []) ++
  (if hasAso modrmRmOp then [0x67#8] else []) ++
  (if hasRex opcodeRegOp modrmRegOp modrmRmOp then
    [rexByte opcodeRegOp modrmRegOp modrmRmOp] else []) ++
  bytesOf opcodeSize (BitVec.ofNat 64 (opcodeOf opcode opcodeRegOp)) ++
  (if !modrmRegOp.isNone || !modrmRmOp.isNone then
    [modrmByte modrmRegOp modrmRmOp] ++ (if hasSib modrmRmOp then [sibByte modrmRmOp] else [])
  else [])

def writeDisp (pos : Word) (before after : Nat) : Operand → List Byte
  | .memory _ _ _ _ disp dispSize relocation =>
    bytesOf dispSize (dispField address pos before after disp relocation)
  | _ => []

def writeImm : Operand → List Byte
  | .immediate size imm => bytesOf size imm
  | _ => []

def writeInstr (pos : Word) (opcode opcodeSize : Nat)
    (opcodeRegOp modrmRegOp modrmRmOp immOp : Operand) : List Byte :=
  let head := writeHead opcode opcodeSize opcodeRegOp modrmRegOp modrmRmOp
  let imm := writeImm immOp
  head ++ (writeDisp address pos head.length (modrmRmOp.dispSize + imm.length) modrmRmOp ++ imm)

/-- The opcodes of one form for operands of 1, 2, 4 and 8 bytes, the sizes it comes in as
the low bits of `mask`, and the number of opcode bytes above them. -/
structure Form where
  mask : Nat
  opcode8 : Nat
  opcode16 : Nat
  opcode32 : Nat
  opcode64 : Nat

namespace Form

def opcode (f : Form) (size : Nat) : Nat :=
  if size = 1 then f.opcode8 else if size = 2 then f.opcode16
  else if size = 4 then f.opcode32 else f.opcode64

def opcodeSize (f : Form) : Nat := f.mask >>> 4

def has (f : Form) (size : Nat) : Bool := size ∈ [1, 2, 4, 8] ∧ f.mask &&& size ≠ 0

end Form

def writeNmInstr : List Operand → Option (List Byte)
  | op1 :: _ => if op1.isNone then some [] else none
  | [] => none

def writeMrInstr (pos : Word) (f : Form) : List Operand → Option (List Byte)
  | op1 :: op2 :: _ =>
    if (op1.isMemory ∨ op1.isRegister) ∧ op2.isRegister ∧ f.has op1.size ∧ op2.size = op1.size then
      some (writeInstr address pos (f.opcode op1.size) f.opcodeSize (.none raw) op2 op1 (.none raw))
    else none
  | _ => none

def writeRmInstr (pos : Word) (f : Form) : List Operand → Option (List Byte)
  | op1 :: op2 :: _ =>
    if op1.isRegister ∧ (op2.isMemory ∨ op2.isRegister) ∧ f.has op1.size ∧ op2.size = op1.size then
      some (writeInstr address pos (f.opcode op1.size) f.opcodeSize (.none raw) op1 op2 (.none raw))
    else none
  | _ => none

/-- The mask is not looked at, and an operand of 8 bytes takes an immediate of 4. -/
def writeMiInstr (pos : Word) (f : Form) (opcodeRegOp : Operand) :
    List Operand → Option (List Byte)
  | op1 :: op2 :: _ =>
    if (op1.isMemory ∨ op1.isRegister) ∧ op2.isImmediate ∧ op1.size ∈ [1, 2, 4, 8] ∧
        op2.size = min op1.size 4 then
      some (writeInstr address pos (f.opcode op1.size) f.opcodeSize (.none raw) opcodeRegOp op1 op2)
    else none
  | _ => none

def writeMi8Instr (pos : Word) (f : Form) (opcodeRegOp : Operand) :
    List Operand → Option (List Byte)
  | op1 :: op2 :: _ =>
    if (op1.isMemory ∨ op1.isRegister) ∧ op2.isImmediate ∧ f.has op1.size ∧ op2.size = 1 then
      some (writeInstr address pos (f.opcode op1.size) f.opcodeSize (.none raw) opcodeRegOp op1 op2)
    else none
  | _ => none

/-- Two operands in memory go through the third, a register: it is loaded with the second
operand and the instruction is carried out with it. -/
def writeMmInstr (pos : Word) (f : Form) : List Operand → Option (List Byte)
  | op1 :: op2 :: op3 :: _ =>
    if op1.isMemory ∧ op2.isMemory ∧ f.has op1.size ∧ op2.size = op1.size then
      let load := writeInstr address pos (if op1.size = 1 then 0x8A else 0x8B) 1 (.none raw) op3 op2
        (.none raw)
      some (load ++ writeInstr address (pos + BitVec.ofNat 64 load.length) (f.opcode op1.size)
        f.opcodeSize (.none raw) op3 op1 (.none raw))
    else none
  | _ => none

def writeMInstr (pos : Word) (f : Form) (opcodeRegOp : Operand) : List Operand → Option (List Byte)
  | op1 :: _ =>
    if (op1.isMemory ∨ op1.isRegister) ∧ f.has op1.size then
      some (writeInstr address pos (f.opcode op1.size) f.opcodeSize (.none raw) opcodeRegOp op1
        (.none raw))
    else none
  | _ => none

def writeMcInstr (pos : Word) (f : Form) (opcodeRegOp : Operand) :
    List Operand → Option (List Byte)
  | op1 :: op2 :: _ =>
    if (op1.isMemory ∨ op1.isRegister) ∧ op2.isRegister ∧ op2.opRegister = cl ∧ f.has op1.size then
      some (writeInstr address pos (f.opcode op1.size) f.opcodeSize (.none raw) opcodeRegOp op1
        (.none raw))
    else none
  | _ => none

/-- `mov` of a constant of 8 bytes, in memory through the third operand. -/
def writeMovImm64 (pos : Word) : List Operand → Option (List Byte)
  | op1 :: op2 :: ops =>
    if op2.isImmediate ∧ op1.size = 8 ∧ op2.size = 8 then
      if op1.isRegister then
        some (writeInstr address pos 0xB8 1 op1 (.none raw) (.none raw) op2)
      else match ops with
        | op3 :: _ =>
          if op1.isMemory then
            let load := writeInstr address pos 0xB8 1 op3 (.none raw) (.none raw) op2
            some (load ++ writeInstr address (pos + BitVec.ofNat 64 load.length) 0x89 1 (.none raw)
              op3 op1 (.none raw))
          else none
        | [] => none
    else none
  | _ => none

/-- `lea` into a register, and into memory through the third operand. -/
def writeLea (pos : Word) : List Operand → Option (List Byte)
  | op1 :: op2 :: ops =>
    if op2.isMemory ∧ op1.size ∈ [2, 4, 8] then
      if op1.isRegister then
        some (writeInstr address pos 0x8D 1 (.none raw) op1 op2 (.none raw))
      else match ops with
        | op3 :: _ =>
          if op1.isMemory then
            let load := writeInstr address pos 0x8D 1 (.none raw) op3 op2 (.none raw)
            some (load ++ writeInstr address (pos + BitVec.ofNat 64 load.length) 0x89 1 (.none raw)
              op3 op1 (.none raw))
          else none
        | [] => none
    else none
  | _ => none

/-- The opcode of `movzx` with the number of its bytes: from 4 bytes to 8 it is a `mov`
into the lower half. -/
def movzxOpcode (dst src : Nat) : Option (Nat × Nat) :=
  if dst ∈ [2, 4, 8] ∧ src = 1 then some (0xB60F, 2)
  else if dst ∈ [4, 8] ∧ src = 2 then some (0xB70F, 2)
  else if dst = 8 ∧ src = 4 then some (0x8B, 1)
  else none

def movzxRegister (src : Nat) (op : Operand) : Operand :=
  if src = 4 then opLower32 raw op else op

def writeMovzx (pos : Word) : List Operand → Option (List Byte)
  | op1 :: op2 :: ops =>
    if op2.isMemory ∨ op2.isRegister then
      (movzxOpcode op1.size op2.size).bind fun (opcode, opcodeSize) =>
        if op1.isRegister then
          some (writeInstr address pos opcode opcodeSize (.none raw)
            (movzxRegister raw op2.size op1) op2 (.none raw))
        else match ops with
          | op3 :: _ =>
            if op1.isMemory then
              let load := writeInstr address pos opcode opcodeSize (.none raw)
                (movzxRegister raw op2.size op3) op2 (.none raw)
              some (load ++ writeInstr address (pos + BitVec.ofNat 64 load.length) 0x89 1
                (.none raw) op3 op1 (.none raw))
            else none
          | [] => none
    else none
  | _ => none

def movMr : Form := ⟨0x1F, 0x88, 0x89, 0x89, 0x89⟩

def movRm : Form := ⟨0x1F, 0x8A, 0x8B, 0x8B, 0x8B⟩

def movMi : Form := ⟨0x1F, 0xC6, 0xC7, 0xC7, 0xC7⟩

/-- The forms of `add`, `or`, `and`, `sub`, `xor` and `cmp`, whose opcodes follow from the
number of the operation. -/
def aluMr (k : Nat) : Form := ⟨0x1F, 8 * k, 8 * k + 1, 8 * k + 1, 8 * k + 1⟩

def aluRm (k : Nat) : Form := ⟨0x1F, 8 * k + 2, 8 * k + 3, 8 * k + 3, 8 * k + 3⟩

def aluMi : Form := ⟨0x1F, 0x80, 0x81, 0x81, 0x81⟩

/-- The forms without an instruction on bytes have 0 in place of its opcode. -/
def aluMi8 (mask opcode8 : Nat) : Form := ⟨mask, opcode8, 0x83, 0x83, 0x83⟩

def unary : Form := ⟨0x1F, 0xF6, 0xF7, 0xF7, 0xF7⟩

def shiftMc : Form := ⟨0x1F, 0xD2, 0xD3, 0xD3, 0xD3⟩

def shiftMi8 : Form := ⟨0x1F, 0xC0, 0xC1, 0xC1, 0xC1⟩

def setForm (opcode : Nat) : Form := ⟨0x21, opcode, 0, 0, 0⟩

def digitOp (k : Nat) : Operand := makeRegOp (digit k)

/-- The forms of an instruction in the order in which they are tried. -/
def assemble (pos : Word) (n : Instr) : Option (List Byte) :=
  let ops := n.operands
  match n.code with
  | .mov =>
    writeNmInstr ops <|>
    writeMrInstr address raw pos movMr ops <|>
    writeRmInstr address raw pos movRm ops <|>
    writeMmInstr address raw pos movMr ops <|>
    writeMiInstr address raw pos movMi (digitOp 0) ops <|>
    writeMovImm64 address raw pos ops
  | .lea => writeNmInstr ops <|> writeLea address raw pos ops
  | .xor =>
    writeMiInstr address raw pos aluMi (digitOp 6) ops <|>
    writeMrInstr address raw pos (aluMr 6) ops <|>
    writeRmInstr address raw pos (aluRm 6) ops <|>
    writeMmInstr address raw pos (aluMr 6) ops <|>
    writeMi8Instr address raw pos (aluMi8 0x1F 0x80) (digitOp 6) ops
  | .sub =>
    writeRmInstr address raw pos (aluRm 5) ops <|>
    writeMrInstr address raw pos (aluMr 5) ops <|>
    writeMiInstr address raw pos aluMi (digitOp 5) ops <|>
    writeMmInstr address raw pos (aluMr 5) ops <|>
    writeMi8Instr address raw pos (aluMi8 0x1E 0) (digitOp 5) ops
  | .cmp =>
    writeRmInstr address raw pos (aluRm 7) ops <|>
    writeMrInstr address raw pos (aluMr 7) ops <|>
    writeMiInstr address raw pos aluMi (digitOp 7) ops <|>
    writeMmInstr address raw pos (aluMr 7) ops <|>
    writeMi8Instr address raw pos (aluMi8 0x1E 0) (digitOp 7) ops
  | .add =>
    writeRmInstr address raw pos (aluRm 0) ops <|>
    writeMrInstr address raw pos (aluMr 0) ops <|>
    writeMiInstr address raw pos aluMi (digitOp 0) ops <|>
    writeMmInstr address raw pos (aluMr 0) ops <|>
    writeMi8Instr address raw pos (aluMi8 0x1E 0) (digitOp 0) ops
  | .or =>
    writeRmInstr address raw pos (aluRm 1) ops <|>
    writeMrInstr address raw pos (aluMr 1) ops <|>
    writeMmInstr address raw pos (aluMr 1) ops <|>
    writeMiInstr address raw pos aluMi (digitOp 1) ops <|>
    writeMi8Instr address raw pos (aluMi8 0x1F 0x80) (digitOp 1) ops
  | .and =>
    writeRmInstr address raw pos (aluRm 4) ops <|>
    writeMrInstr address raw pos (aluMr 4) ops <|>
    writeMmInstr address raw pos (aluMr 4) ops <|>
    writeMiInstr address raw pos aluMi (digitOp 4) ops <|>
    writeMi8Instr address raw pos (aluMi8 0x1F 0x80) (digitOp 4) ops
  | .not => writeMInstr address raw pos unary (digitOp 2) ops
  | .mul => writeMInstr address raw pos unary (digitOp 4) ops
  | .div => writeMInstr address raw pos unary (digitOp 6) ops
  | .shl =>
    writeMcInstr address raw pos shiftMc (digitOp 4) ops <|>
    writeMi8Instr address raw pos shiftMi8 (digitOp 4) ops
  | .shr =>
    writeMcInstr address raw pos shiftMc (digitOp 5) ops <|>
    writeMi8Instr address raw pos shiftMi8 (digitOp 5) ops
  | .setz => writeMInstr address raw pos (setForm 0x940F) (.none raw) ops
  | .setc => writeMInstr address raw pos (setForm 0x920F) (.none raw) ops
  | .seta => writeMInstr address raw pos (setForm 0x970F) (.none raw) ops
  | .movzx => writeMovzx address raw pos ops

/-- A list of instructions from address `pos` on. -/
def assembleList (pos : Word) : List Instr → Option (List Byte)
  | [] => some []
  | n :: ns => do
    let bs ← assemble address raw pos n
    let rest ← assembleList (pos + BitVec.ofNat 64 bs.length) ns
    some (bs ++ rest)

end L2.SelfHost
