import L2.SelfHost.Operand

/-!
# Bindings as operands, and moves between them

How the generator turns a binding into an operand, and the moves it makes between the
places of two bindings.  A move within one place is left out.
-/

namespace L2.SelfHost

open X86 (Word)

def wordSize : Nat := 8

/-- An expression with the binding of its value.  The kinds that no function here looks
into are `other`. -/
inductive Expr where
  | literal (value : Word) (bindingAug : Bndg)
  | symbol (reference : Bndg) (bindingAug : Bndg)
  | invoke (target : Expr) (arguments : List Expr) (bindingAug : Bndg)
  | other (bindingAug : Bndg)

namespace Expr

def bindingAug : Expr → Bndg
  | literal _ b | symbol _ b | invoke _ _ b | other b => b

def literalValue : Expr → Option Word
  | literal value _ => some value
  | _ => none

end Expr

variable (raw : Nat)

def regLower (size : Nat) : Register → Register :=
  if size = 1 then regLower8 else if size = 2 then regLower16
  else if size = 4 then regLower32 else if size = 8 then regLower64 else fun _ => 0

def bndgToPartialOp (opSize : Nat) (bndg : Bndg) : Operand :=
  match bndg.storage with
  | .nil => .none raw
  | .absolute _ => .memory opSize rip noRegister 0 0 4 (some bndg)
  | .frameRelative offset =>
    -- the operand is null for an undefined binding, and those are not in the frame
    if bndg.state = .defined then makeMemOp opSize rbp noRegister 0 offset 4 else .none raw
  | .register reg => makeRegOp (regLower opSize reg)

def bndgToOp (bndg : Bndg) : Operand := bndgToPartialOp raw bndg.size bndg

def bndgEq (a b : Bndg) : Bool := a.storage = b.storage ∧ a.size = b.size

def generateBndgBndgMove (dst src : Bndg) (tmp : Register) : List Instr :=
  if bndgEq dst src then []
  else [⟨.mov, [bndgToOp raw dst, bndgToOp raw src, makeRegOp tmp]⟩]

/-- The register that holds the value, and the move that brings it there if it is not in
one already. -/
def generateMoveToRegister (reg : Register) (bndg : Bndg) : Register × List Instr :=
  match bndg.storage with
  | .register r => (r, [])
  | _ => (reg, [⟨.mov, [makeRegOp reg, bndgToOp raw bndg]⟩])

def generateLiteral (value : Word) (bndg : Bndg) : List Instr :=
  [⟨.mov, [bndgToOp raw bndg, makeImmOp 8 value, makeRegOp r11]⟩]

def generateSymbol (reference bndg : Bndg) : List Instr :=
  match reference.mode with
  | .value => generateBndgBndgMove raw bndg reference r11
  | .reference => [⟨.lea, [bndgToOp raw bndg, bndgToOp raw reference, makeRegOp r11]⟩]

end L2.SelfHost
