import L2.X86.Machine

/-!
# Decoding

An instruction is prefixes, an opcode of one or two bytes, a byte with the two operand
fields, an index byte where the fields ask for one, a displacement and an immediate.  The
decoder covers the instructions of `Inst` and refuses everything else.  Running code
consumes the list of its bytes, so a run from `code` to `rest` is a run of what `code` has
in front of `rest`.
-/

namespace X86

/-- The bits of a REX prefix. -/
structure Rex where
  w : Bool
  r : Bool
  x : Bool
  b : Bool
  deriving DecidableEq

def Rex.ofByte (p : Byte) : Rex := ⟨p.getLsbD 3, p.getLsbD 2, p.getLsbD 1, p.getLsbD 0⟩

/-- What stands before the opcode: the operand size prefix and REX. -/
structure Prefixes where
  half : Bool
  rex : Option Rex

namespace Prefixes

def bits (p : Prefixes) : Rex := p.rex.getD ⟨false, false, false, false⟩

def operandSize (p : Prefixes) : Nat := if p.bits.w then 8 else if p.half then 2 else 4

end Prefixes

def takeHalf : List Byte → Bool × List Byte
  | p :: bs => if p = 0x66#8 then (true, bs) else (false, p :: bs)
  | [] => (false, [])

def takeRex : List Byte → Option Rex × List Byte
  | p :: bs => if p &&& 0xF0#8 = 0x40#8 then (some (.ofByte p), bs) else (none, p :: bs)
  | [] => (none, [])

def takePrefixes (bs : List Byte) : Prefixes × List Byte :=
  let (half, bs) := takeHalf bs
  let (rex, bs) := takeRex bs
  (⟨half, rex⟩, bs)

/-- A register number from a field of three bits and the bit that extends it. -/
def extend (e : Bool) (field : BitVec 3) : Reg :=
  ⟨field.toNat + 8 * e.toNat, by cases e <;> simp <;> omega⟩

def modField (m : Byte) : BitVec 2 := m.extractLsb' 6 2

def regField (m : Byte) : BitVec 3 := m.extractLsb' 3 3

def rmField (m : Byte) : BitVec 3 := m.extractLsb' 0 3

/-- A displacement after the operand byte, by the mode of the latter. -/
def takeDisp (mod : BitVec 2) (bs : List Byte) : Option (Word × List Byte) :=
  if mod = 0 then some (0, bs)
  else if mod = 1 then (takeBytes 1 bs).map fun (v, rest) => (signed 1 v, rest)
  else (takeBytes 4 bs).map fun (v, rest) => (signed 4 v, rest)

/-- The operand of the `rm` field; index registers are not covered. -/
def takeRm (rex : Rex) (m : Byte) (bs : List Byte) : Option (Operand × List Byte) :=
  if modField m = 3 then some (.reg (extend rex.b (rmField m)), bs)
  else if rmField m = 4 then
    match bs with
    | [] => none
    | sib :: bs =>
      if regField sib = 4 ∧ ¬ rex.x ∧ ¬ (rmField sib = 5 ∧ modField m = 0) then
        (takeDisp (modField m) bs).map fun (d, rest) =>
          (.mem (extend rex.b (rmField sib)) d, rest)
      else none
  else if modField m = 0 ∧ rmField m = 5 then
    (takeBytes 4 bs).map fun (v, rest) => (.rip (signed 4 v), rest)
  else (takeDisp (modField m) bs).map fun (d, rest) => (.mem (extend rex.b (rmField m)) d, rest)

/-- Both operands: the register field, the operand of the other field, and the rest. -/
def takeOperands (rex : Rex) : List Byte → Option (Reg × Operand × List Byte)
  | [] => none
  | m :: bs => (takeRm rex m bs).map fun (rm, rest) => (extend rex.r (regField m), rm, rest)

/-- Without REX the numbers 4 to 7 name the second byte of a register, which is not
covered. -/
def byteRegister (p : Prefixes) (r : Reg) : Bool := p.rex.isSome || decide (r.val < 4)

def byteOperand (p : Prefixes) : Operand → Bool
  | .reg r => byteRegister p r
  | _ => true

def aluOf : Nat → Option Alu
  | 0 => some .add
  | 1 => some .or
  | 4 => some .and
  | 5 => some .sub
  | 6 => some .xor
  | 7 => some .cmp
  | _ => none

def condOf : Nat → Option Cond
  | 2 => some .b
  | 3 => some .ae
  | 4 => some .e
  | 5 => some .ne
  | 6 => some .be
  | 7 => some .a
  | _ => none

/-- An immediate of `n` bytes, extended with its sign. -/
def takeImm (n : Nat) (f : Word → Inst) (bs : List Byte) : Option (Inst × List Byte) :=
  (takeBytes n bs).map fun (v, rest) => (f (signed n v), rest)

/-- An instruction with both operands, by its one-byte opcode. -/
def decodeRm (p : Prefixes) (op : Nat) (reg : Reg) (rm : Operand) (bs : List Byte) :
    Option (Inst × List Byte) :=
  let n := p.operandSize
  match op with
  | 0x88 => if byteRegister p reg ∧ byteOperand p rm then some (.mov 1 rm (.reg reg), bs) else none
  | 0x89 => some (.mov n rm (.reg reg), bs)
  | 0x8A => if byteRegister p reg ∧ byteOperand p rm then some (.mov 1 (.reg reg) rm, bs) else none
  | 0x8B => some (.mov n (.reg reg) rm, bs)
  | 0x8D => if n = 8 then some (.lea reg rm, bs) else none
  | 0xC6 => if reg.val % 8 = 0 ∧ byteOperand p rm then takeImm 1 (fun v => .mov 1 rm (.imm v)) bs
    else none
  | 0xC7 => if reg.val % 8 = 0 then takeImm (min n 4) (fun v => .mov n rm (.imm v)) bs else none
  | 0x81 => if n = 8 then (aluOf (reg.val % 8)).bind fun op =>
      takeImm 4 (fun v => .alu op rm (.imm v)) bs else none
  | 0x83 => if n = 8 then (aluOf (reg.val % 8)).bind fun op =>
      takeImm 1 (fun v => .alu op rm (.imm v)) bs else none
  | 0xF7 => if n = 8 then match reg.val % 8 with
      | 2 => some (.not rm, bs)
      | 4 => some (.mul rm, bs)
      | 6 => some (.div rm, bs)
      | _ => none
    else none
  | 0xD3 => if n = 8 then match reg.val % 8 with
      | 4 => some (.shl rm (.reg rcx), bs)
      | 5 => some (.shr rm (.reg rcx), bs)
      | _ => none
    else none
  | 0xC1 => if n = 8 then match reg.val % 8 with
      | 4 => takeImm 1 (fun v => .shl rm (.imm v)) bs
      | 5 => takeImm 1 (fun v => .shr rm (.imm v)) bs
      | _ => none
    else none
  | _ => if op < 0x40 ∧ n = 8 then (aluOf (op / 8)).bind fun alu =>
      match op % 8 with
      | 1 => some (.alu alu rm (.reg reg), bs)
      | 3 => some (.alu alu (.reg reg) rm, bs)
      | _ => none
    else none

/-- A constant takes as many bytes as the operand, but at most four. -/
theorem decodeRm_movImm (p : Prefixes) {reg : Reg} (h : reg.val % 8 = 0) (rm : Operand)
    (bs : List Byte) : decodeRm p 0xC7 reg rm bs =
      takeImm (min p.operandSize 4) (fun v => .mov p.operandSize rm (.imm v)) bs := if_pos h

/-- An instruction with both operands, by the second byte of its opcode. -/
def decodeRm2 (p : Prefixes) (op : Nat) (reg : Reg) (rm : Operand) (bs : List Byte) :
    Option (Inst × List Byte) :=
  match op with
  | 0xB6 => if byteOperand p rm then some (.movzx 1 reg rm, bs) else none
  | 0xB7 => some (.movzx 2 reg rm, bs)
  | _ => if op / 16 = 9 ∧ byteOperand p rm then
      (condOf (op % 16)).map fun c => (.set c rm, bs)
    else none

def decode (bs : List Byte) : Option (Inst × List Byte) :=
  let (p, bs) := takePrefixes bs
  match bs with
  | [] => none
  | op :: bs =>
    if op = 0x0F#8 then
      match bs with
      | [] => none
      | op2 :: bs => (takeOperands p.bits bs).bind fun (reg, rm, rest) =>
        decodeRm2 p op2.toNat reg rm rest
    else if op.extractLsb' 3 5 = 0x17#5 then
      if p.bits.w then
        (takeBytes 8 bs).map fun (v, rest) =>
          (.mov 8 (.reg (extend p.bits.b (rmField op))) (.imm v), rest)
      else none
    else (takeOperands p.bits bs).bind fun (reg, rm, rest) => decodeRm p op.toNat reg rm rest

/-! ## Runs -/

/-- The processor before some code: where the code is in memory, its bytes, the state. -/
structure Config where
  ip : Word
  code : List Byte
  state : State

def step (c : Config) : Option Config := do
  let (i, rest) ← decode c.code
  let next := c.ip + BitVec.ofNat 64 (c.code.length - rest.length)
  let s ← exec next c.state i
  some ⟨next, rest, s⟩

def Runs : Config → Config → Prop := Relation.ReflTransGen fun c d => step c = some d

theorem Runs.refl (c : Config) : Runs c c := Relation.ReflTransGen.refl

theorem Runs.trans {c d e : Config} (h : Runs c d) (h' : Runs d e) : Runs c e :=
  Relation.ReflTransGen.trans h h'

theorem Runs.head {c d e : Config} (h : step c = some d) (h' : Runs d e) : Runs c e :=
  Relation.ReflTransGen.head h h'

theorem Runs.stuck {c e : Config} (h : step c = none) (h' : Runs c e) : e = c := by
  rcases Relation.ReflTransGen.cases_head h' with heq | ⟨d, hd, _⟩
  · exact heq.symm
  · rw [h] at hd
    cases hd

end X86
