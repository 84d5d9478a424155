import L2.Bootstrap.Instruction

/-!
# The assembler of the bootstrap compiler

`assemble` writes the instructions one after the other.  A field that names a symbol is
written as zero and gets a relocation; a label gives its position to the binding and to
its symbol.
-/

namespace L2.Bootstrap

open X86 (Word Byte Reg bytesOf)

variable {Bndg : Type}

inductive RelaType where
  | x64
  | pc32
  deriving DecidableEq

/-- A relocation.  The index of the symbol stands for the binding that has it as its
context. -/
structure Rela (Bndg : Type) where
  offset : Nat
  symbol : Bndg
  type : RelaType
  addend : Word
  deriving DecidableEq

/-- What `assemble` has written: the code, the relocations, and the positions in the
bindings of labels and in their symbols. -/
structure Output (Bndg : Type) where
  bin : List Byte
  relas : List (Rela Bndg)
  offset : Bndg → Word
  stValue : Bndg → Word

namespace Output

def pos (out : Output Bndg) : Nat := out.bin.length

/-- `mem_write` -/
def memWrite (bytes : List Byte) (out : Output Bndg) : Output Bndg :=
  { out with bin := out.bin ++ bytes }

def addRela (rela : Rela Bndg) (out : Output Bndg) : Output Bndg :=
  { out with relas := out.relas ++ [rela] }

end Output

/-- The REX prefix with the given bits. -/
def rexByte (w r b : Bool) : Byte :=
  4#8 <<< 4 ||| (if w then 1#8 <<< 3 else 0) ||| (if r then 1#8 <<< 2 else 0) |||
    (if b then 1#8 <<< 0 else 0)

/-- `write_mr_instr` -/
def writeMrInstr (opcode : Byte) (reg rm : Reg) (m rexw : Bool) (out : Output Bndg) :
    Output Bndg :=
  let mod : Byte := if m then 2 else 3
  let modrm := mod <<< 6 ||| BitVec.ofNat 8 (reg.val &&& 7) <<< 3 |||
    BitVec.ofNat 8 (rm.val &&& 7) <<< 0
  let hasSib := m && (rm == 4 || rm == 12)
  let sib : Byte := 4#8 <<< 3 ||| BitVec.ofNat 8 (rm.val &&& 7) <<< 0 ||| 0#8 <<< 6
  let rex := rexByte rexw (reg.val &&& 8 != 0) (rm.val &&& 8 != 0)
  let out := ((out.memWrite [rex]).memWrite [opcode]).memWrite [modrm]
  if hasSib then out.memWrite [sib] else out

/-- `write_static_value` -/
def writeStaticValue (expr : StaticValue Bndg) (bytes : Nat) (out : Output Bndg) : Output Bndg :=
  match expr with
  | .literal value => out.memWrite (bytesOf bytes value)
  | .symbol bndg =>
    let out := if bytes = 8 then out.addRela ⟨out.pos, bndg, .x64, 0⟩ else out
    out.memWrite (bytesOf bytes 0)
  | .lnkrAddOffToRef ref offset =>
    let out := if bytes = 8 then out.addRela ⟨out.pos, ref, .x64, offset⟩ else out
    out.memWrite (bytesOf bytes 0)
  | .lnkrSubRipToRef ref =>
    let out := if bytes = 4 then out.addRela ⟨out.pos, ref, .pc32, -BitVec.ofNat 64 bytes⟩ else out
    out.memWrite (bytesOf bytes 0)

/-- `write_o_instr` -/
def writeOInstr (opcode : Byte) (reg : Reg) (out : Output Bndg) : Output Bndg :=
  let rd := BitVec.ofNat 8 (7 &&& reg.val)
  let opcoderd := opcode + rd
  let out := if reg.val &&& 8 ≠ 0 then out.memWrite [rexByte false false true] else out
  out.memWrite [opcoderd]

/-- The body of the loop of `assemble`. -/
def assembleInstruction [DecidableEq Bndg] (out : Output Bndg) : Instruction Bndg → Output Bndg
  | .label bndg =>
    { out with
      offset := Function.update out.offset bndg (BitVec.ofNat 64 out.pos)
      stValue := Function.update out.stValue bndg (BitVec.ofNat 64 out.pos) }
  | .leaqMdbToReg disp base dest =>
    writeStaticValue disp 4 (writeMrInstr 0x8D dest base true true out)
  | .movqRegToMdb src disp base =>
    writeStaticValue disp 4 (writeMrInstr 0x89 src base true true out)
  | .jmpRel target => writeStaticValue target 4 (out.memWrite [0xE9])
  | .movqMdbToReg disp base dest =>
    writeStaticValue disp 4 (writeMrInstr 0x8B dest base true true out)
  | .pushqReg src => writeOInstr 0x50 src out
  | .movqRegToReg src dest => writeMrInstr 0x8B dest src false true out
  | .subqImmToReg imm dest => (writeMrInstr 0x81 5 dest false true out).memWrite (bytesOf 4 imm)
  | .addqImmToReg imm dest => (writeMrInstr 0x81 0 dest false true out).memWrite (bytesOf 4 imm)
  | .popqReg dest => writeOInstr 0x58 dest out
  | .leave => out.memWrite [0xC9]
  | .ret => out.memWrite [0xC3]
  | .jmpToReg target => writeMrInstr 0xFF 4 target false false out
  | .jeRel target => writeStaticValue target 4 ((out.memWrite [0x0F]).memWrite [0x84])
  | .orqRegToReg src dest => writeMrInstr 0x0B dest src false true out
  | .movqImmToReg imm dest =>
    let rd := BitVec.ofNat 8 (7 &&& dest.val)
    let opcoderd := 0xB8#8 + rd
    let rex := rexByte true false (dest.val &&& 8 != 0)
    writeStaticValue imm 8 ((out.memWrite [rex]).memWrite [opcoderd])
  | .callReg target => writeMrInstr 0xFF 2 target false false out

/-- `assemble`, with what the bindings and their symbols held before. -/
def assemble [DecidableEq Bndg] (offset stValue : Bndg → Word)
    (generatedExpressions : List (Instruction Bndg)) : Output Bndg :=
  generatedExpressions.foldl assembleInstruction ⟨[], [], offset, stValue⟩

/-! ## What one instruction adds -/

/-- The byte with the two operand fields. -/
def modrmByte (mod : Byte) (reg rm : Reg) : Byte :=
  mod <<< 6 ||| BitVec.ofNat 8 (reg.val &&& 7) <<< 3 ||| BitVec.ofNat 8 (rm.val &&& 7) <<< 0

def sibByte (rm : Reg) : Byte :=
  4#8 <<< 3 ||| BitVec.ofNat 8 (rm.val &&& 7) <<< 0 ||| 0#8 <<< 6

def operandBytes (reg rm : Reg) (m : Bool) : List Byte :=
  modrmByte (if m then 2 else 3) reg rm ::
    (if m && (rm == 4 || rm == 12) then [sibByte rm] else [])

/-- The prefix, the opcode and the operand bytes. -/
def mrBytes (opcode : Byte) (reg rm : Reg) (m rexw : Bool) : List Byte :=
  rexByte rexw (reg.val &&& 8 != 0) (rm.val &&& 8 != 0) :: opcode :: operandBytes reg rm m

def oBytes (opcode : Byte) (reg : Reg) : List Byte :=
  (if reg.val &&& 8 ≠ 0 then [rexByte false false true] else []) ++
    [opcode + BitVec.ofNat 8 (7 &&& reg.val)]

theorem writeMrInstr_eq (opcode : Byte) (reg rm : Reg) (m rexw : Bool) (out : Output Bndg) :
    writeMrInstr opcode reg rm m rexw out = out.memWrite (mrBytes opcode reg rm m rexw) := by
  unfold writeMrInstr mrBytes operandBytes modrmByte sibByte
  by_cases hsib : (m && (rm == 4 || rm == 12)) = true
  · simp [hsib, Output.memWrite]
  · simp [hsib, Output.memWrite]

theorem writeOInstr_eq (opcode : Byte) (reg : Reg) (out : Output Bndg) :
    writeOInstr opcode reg out = out.memWrite (oBytes opcode reg) := by
  unfold writeOInstr oBytes
  by_cases hreg : reg.val &&& 8 ≠ 0
  · simp [hreg, Output.memWrite]
  · simp [hreg, Output.memWrite]

namespace Instruction

/-- The bytes of an instruction before its field. -/
def head : Instruction Bndg → List Byte
  | leaqMdbToReg _ base dest => mrBytes 0x8D dest base true true
  | movqRegToMdb src _ base => mrBytes 0x89 src base true true
  | jmpRel _ => [0xE9]
  | movqMdbToReg _ base dest => mrBytes 0x8B dest base true true
  | pushqReg src => oBytes 0x50 src
  | movqRegToReg src dest => mrBytes 0x8B dest src false true
  | subqImmToReg _ dest => mrBytes 0x81 5 dest false true
  | addqImmToReg _ dest => mrBytes 0x81 0 dest false true
  | popqReg dest => oBytes 0x58 dest
  | leave => [0xC9]
  | ret => [0xC3]
  | jmpToReg target => mrBytes 0xFF 4 target false false
  | jeRel _ => [0x0F, 0x84]
  | orqRegToReg src dest => mrBytes 0x0B dest src false true
  | movqImmToReg _ dest =>
    [rexByte true false (dest.val &&& 8 != 0), 0xB8 + BitVec.ofNat 8 (7 &&& dest.val)]
  | callReg target => mrBytes 0xFF 2 target false false
  | label _ => []

/-- The field at the end of an instruction, and its size. -/
def field : Instruction Bndg → Option (StaticValue Bndg × Nat)
  | leaqMdbToReg disp _ _ | movqRegToMdb _ disp _ | movqMdbToReg disp _ _ => some (disp, 4)
  | jmpRel target | jeRel target => some (target, 4)
  | subqImmToReg imm _ | addqImmToReg imm _ => some (.literal imm, 4)
  | movqImmToReg imm _ => some (imm, 8)
  | _ => none

end Instruction

namespace StaticValue

/-- What is written for a value before it is known. -/
def placeholder : StaticValue Bndg → Word
  | literal value => value
  | _ => 0

/-- The relocation of a field at a position. -/
def rela (pos bytes : Nat) : StaticValue Bndg → Option (Rela Bndg)
  | literal _ => none
  | symbol bndg => if bytes = 8 then some ⟨pos, bndg, .x64, 0⟩ else none
  | lnkrAddOffToRef ref offset => if bytes = 8 then some ⟨pos, ref, .x64, offset⟩ else none
  | lnkrSubRipToRef ref =>
    if bytes = 4 then some ⟨pos, ref, .pc32, -BitVec.ofNat 64 bytes⟩ else none

end StaticValue

/-- The bytes of an instruction as they are written. -/
def Instruction.bytes (i : Instruction Bndg) : List Byte :=
  i.head ++ i.field.elim [] fun f => bytesOf f.2 f.1.placeholder

/-- The relocations of an instruction that is written at a position. -/
def Instruction.relas (pos : Nat) (i : Instruction Bndg) : List (Rela Bndg) :=
  (i.field.bind fun f => f.1.rela (pos + i.head.length) f.2).toList

theorem writeStaticValue_eq (expr : StaticValue Bndg) (bytes : Nat) (out : Output Bndg) :
    writeStaticValue expr bytes out =
      { out with
        bin := out.bin ++ bytesOf bytes expr.placeholder
        relas := out.relas ++ (expr.rela out.pos bytes).toList } := by
  cases expr with
  | literal value => simp [writeStaticValue, StaticValue.rela, StaticValue.placeholder,
      Output.memWrite]
  | symbol bndg | lnkrAddOffToRef ref offset =>
    by_cases h : bytes = 8 <;> simp [writeStaticValue, StaticValue.rela,
      StaticValue.placeholder, Output.memWrite, Output.addRela, h]
  | lnkrSubRipToRef ref =>
    by_cases h : bytes = 4 <;> simp [writeStaticValue, StaticValue.rela,
      StaticValue.placeholder, Output.memWrite, Output.addRela, h]

/-- One instruction adds its bytes and its relocations. -/
theorem assembleInstruction_bin [DecidableEq Bndg] (out : Output Bndg) (i : Instruction Bndg) :
    (assembleInstruction out i).bin = out.bin ++ i.bytes ∧
      (assembleInstruction out i).relas = out.relas ++ i.relas out.pos := by
  unfold Instruction.bytes Instruction.relas
  cases i <;>
    simp [assembleInstruction, Instruction.head, Instruction.field, writeMrInstr_eq,
      writeOInstr_eq, writeStaticValue_eq, Output.memWrite, Output.pos, StaticValue.rela,
      StaticValue.placeholder]

theorem assembleInstruction_label [DecidableEq Bndg] (out : Output Bndg) (bndg : Bndg) :
    assembleInstruction out (.label bndg) =
      { out with
        offset := Function.update out.offset bndg (BitVec.ofNat 64 out.pos)
        stValue := Function.update out.stValue bndg (BitVec.ofNat 64 out.pos) } := rfl

theorem assembleInstruction_offset [DecidableEq Bndg] (out : Output Bndg) (i : Instruction Bndg)
    (h : ∀ bndg, i ≠ .label bndg) :
    (assembleInstruction out i).offset = out.offset ∧
      (assembleInstruction out i).stValue = out.stValue := by
  cases i with
  | label bndg => exact absurd rfl (h bndg)
  | _ =>
    simp [assembleInstruction, writeMrInstr_eq, writeOInstr_eq, writeStaticValue_eq,
      Output.memWrite]

end L2.Bootstrap
