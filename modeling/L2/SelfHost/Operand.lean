import L2.X86.Memory

/-!
# Registers, bindings and operands

A register is its number together with bits for its width and for whether naming it takes
a REX prefix.  A binding says where a value is at run time.  An operand is what an
instruction is given; an operand in static memory carries the binding that its
displacement is to be relocated to.
-/

namespace L2.SelfHost

open X86 (Word)

abbrev Register := Nat

def rm8 : Nat := 1 <<< 5
def rm16 : Nat := 1 <<< 6
def rm32 : Nat := 1 <<< 7
def rm64 : Nat := 1 <<< 8
def wRex : Nat := 1 <<< 9

def noRegister : Register := 17

/-- `al`, `cl`, `dl`, `bl`, `spl` to `dil` and `r8l` to `r15l`. -/
def reg8 (i : Nat) : Register := if i < 4 then i ||| rm8 else i ||| rm8 ||| wRex

/-- `ax` to `di` and `r8w` to `r15w`. -/
def reg16 (i : Nat) : Register := if i < 8 then i ||| rm16 else i ||| rm16 ||| wRex

/-- `eax` to `edi` and `r8d` to `r15d`. -/
def reg32 (i : Nat) : Register := if i < 8 then i ||| rm32 else i ||| rm32 ||| wRex

/-- `rax` to `r15`, and `rip` for 16. -/
def reg64 (i : Nat) : Register := i ||| rm64 ||| wRex

/-- `/0` to `/7`. -/
def digit (i : Nat) : Register := i ||| rm32

def rax : Register := reg64 0
def rcx : Register := reg64 1
def rdx : Register := reg64 2
def rsp : Register := reg64 4
def rbp : Register := reg64 5
def r10 : Register := reg64 10
def r11 : Register := reg64 11
def rip : Register := reg64 16
def r11l : Register := reg8 11
def r11w : Register := reg16 11
def r11d : Register := reg32 11
def cl : Register := reg8 1
def dl : Register := reg8 2
def edi : Register := reg32 7

def ah : Register := 4 ||| rm8
def ch : Register := 5 ||| rm8
def dh : Register := 6 ||| rm8
def bh : Register := 7 ||| rm8

def registerSize (reg : Register) : Nat :=
  if reg &&& rm8 ≠ 0 then 1
  else if reg &&& rm16 ≠ 0 then 2
  else if reg &&& rm32 ≠ 0 then 4
  else if reg &&& rm64 ≠ 0 then 8
  else 0

/-- The register of the target family with the number that `reg` has in one of the others. -/
def lower (target : Nat → Register) (families : List (Nat → Register)) (reg : Register) :
    Register :=
  ((List.range 16).find? fun i => families.any fun family => family i == reg).elim 0 target

def regLower8 (reg : Register) : Register :=
  if reg ∈ [ah, bh, ch, dh] then reg
  else if reg = edi then dl -- not `dil`
  else lower reg8 [reg8, reg16, reg32, reg64] reg

def regLower16 : Register → Register := lower reg16 [reg16, reg32, reg64]

def regLower32 : Register → Register := lower reg32 [reg32, reg64]

def regLower64 : Register → Register := lower reg64 [reg64]

inductive InstrCode where
  | lea | mov | movzx | sub | add | or | mul | shl | shr | and | not | xor | div | setz | setc
  | cmp | seta
  deriving DecidableEq

/-- The jumps on a condition, and `nop` where there is none. -/
inductive JumpCode where
  | nop | je | jnz | jae | jbe | jb | ja
  deriving DecidableEq

/-- `bndg-storage` together with the `bndg-offset` that goes with it. -/
inductive Storage where
  | nil
  | register (reg : Register)
  | frameRelative (offset : Word)
  | absolute (offset : Word)
  deriving DecidableEq

inductive BndgState where
  | undefined | defined
  deriving DecidableEq

inductive BndgMode where
  | value | reference
  deriving DecidableEq

structure Bndg where
  name : String
  state : BndgState
  mode : BndgMode
  storage : Storage
  size : Nat
  conditionJump : JumpCode
  isCondition : Bool
  deriving DecidableEq

/-- The word at the place of `op-register`, `op-immediate` and `op-base` is not set in a
`none` operand: `raw` is what happens to be there. -/
inductive Operand where
  | register (size : Nat) (reg : Register)
  | immediate (size : Nat) (imm : Word)
  | memory (size : Nat) (base index : Register) (scale : Nat) (disp : Word) (dispSize : Nat)
      (relocation : Option Bndg)
  | none (raw : Nat)
  deriving DecidableEq

namespace Operand

def size : Operand → Nat
  | register size _ | immediate size _ | memory size _ _ _ _ _ _ => size
  | none _ => 0

/-- The word that `op-register` reads, whatever the type. -/
def opRegister : Operand → Nat
  | register _ reg => reg
  | immediate _ imm => imm.toNat
  | memory _ base _ _ _ _ _ => base
  | none raw => raw

def dispSize : Operand → Nat
  | memory _ _ _ _ _ dispSize _ => dispSize
  | _ => 0

def isRegister : Operand → Bool
  | register _ _ => true
  | _ => false

def isImmediate : Operand → Bool
  | immediate _ _ => true
  | _ => false

def isMemory : Operand → Bool
  | memory _ _ _ _ _ _ _ => true
  | _ => false

def isNone : Operand → Bool
  | none _ => true
  | _ => false

end Operand

def makeRegOp (reg : Register) : Operand := .register (registerSize reg) reg

def makeImmOp (size : Nat) (imm : Word) : Operand := .immediate size imm

def makeMemOp (size : Nat) (base index : Register) (scale : Nat) (disp : Word) (dispSize : Nat) :
    Operand := .memory size base index scale disp dispSize Option.none

def opLower32 (raw : Nat) : Operand → Operand
  | .register _ reg => makeRegOp (regLower32 reg)
  | .immediate _ imm => makeImmOp 4 imm
  | .memory _ base index scale disp dispSize relocation =>
    .memory 4 base index scale disp dispSize relocation
  | .none _ => .none raw

structure Instr where
  code : InstrCode
  operands : List Operand
  deriving DecidableEq

/-! ## Registers by width and number -/

/-- The register of `n` bytes with number `i`. -/
def regN (n i : Nat) : Register :=
  if n = 1 then reg8 i else if n = 2 then reg16 i else if n = 4 then reg32 i else reg64 i

end L2.SelfHost
