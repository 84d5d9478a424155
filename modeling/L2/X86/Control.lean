import L2.X86.Decode

/-!
# Control flow and the stack

Decoding of whole programs: the instructions that the straight-line decoder refuses, and
the sequence of instructions that some bytes are.
-/

namespace X86

inductive Instr where
  | inst (i : Inst)
  | push (r : Reg)
  | pop (r : Reg)
  | leave
  | ret
  /-- A jump, and one taken if the last result was zero, relative to the next instruction. -/
  | jmp (disp : Word)
  | je (disp : Word)
  | jmpTo (target : Operand)
  | callTo (target : Operand)
  deriving DecidableEq

/-- An instruction and what follows it.  An operand size prefix is only covered by the
straight-line decoder. -/
def decodeInstr (bs : List Byte) : Option (Instr × List Byte) :=
  let (p, tail) := takePrefixes bs
  match tail with
  | [] => none
  | op :: tail =>
    if p.half then (decode bs).map fun (i, rest) => (.inst i, rest)
    else if op.extractLsb' 3 5 = 0x0A#5 then some (.push (extend p.bits.b (rmField op)), tail)
    else if op.extractLsb' 3 5 = 0x0B#5 then some (.pop (extend p.bits.b (rmField op)), tail)
    else if op = 0xC9#8 then some (.leave, tail)
    else if op = 0xC3#8 then some (.ret, tail)
    else if op = 0xE9#8 then (takeBytes 4 tail).map fun (v, rest) => (.jmp (signed 4 v), rest)
    else if op = 0x0F#8 ∧ tail.head? = some 0x84#8 then
      (takeBytes 4 tail.tail).map fun (v, rest) => (.je (signed 4 v), rest)
    else if op = 0xFF#8 then
      (takeOperands p.bits tail).bind fun (reg, rm, rest) =>
        match reg.val % 8 with
        | 2 => some (.callTo rm, rest)
        | 4 => some (.jmpTo rm, rest)
        | _ => none
    else (decode bs).map fun (i, rest) => (.inst i, rest)

/-- The bytes are these instructions and nothing else. -/
inductive Decodes : List Byte → List Instr → Prop
  | nil : Decodes [] []
  | cons {bs rest : List Byte} {i : Instr} {is : List Instr} :
    decodeInstr bs = some (i, rest) → Decodes rest is → Decodes bs (i :: is)

end X86
