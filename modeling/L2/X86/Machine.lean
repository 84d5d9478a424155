import L2.X86.Memory

/-!
# The processor

The part of the instruction set that straight-line integer code uses: moves of 1, 2, 4 and
8 bytes, 64-bit arithmetic, shifts, and the instructions that turn a condition into a
byte.  Instructions here are what the decoder makes of bytes, with their operands resolved
to registers, addresses and constants.
-/

namespace X86

abbrev Reg := Fin 16

instance neZero_regs : NeZero 16 := ⟨by decide⟩

abbrev rax : Reg := 0
abbrev rcx : Reg := 1
abbrev rdx : Reg := 2
abbrev rsp : Reg := 4
abbrev rbp : Reg := 5
abbrev r10 : Reg := 10
abbrev r11 : Reg := 11

structure State where
  regs : Reg → Word
  mem : Memory
  zf : Bool
  cf : Bool

inductive Operand where
  | reg (r : Reg)
  | mem (base : Reg) (disp : Word)
  | rip (disp : Word)
  | imm (v : Word)
  deriving DecidableEq

inductive Alu where
  | add | or | and | sub | xor | cmp
  deriving DecidableEq

inductive Cond where
  | b | ae | e | ne | be | a
  deriving DecidableEq

inductive Inst where
  | mov (size : Nat) (dst src : Operand)
  | movzx (size : Nat) (dst : Reg) (src : Operand)
  | lea (dst : Reg) (src : Operand)
  | alu (op : Alu) (dst src : Operand)
  | not (dst : Operand)
  | mul (src : Operand)
  | div (src : Operand)
  | shl (dst count : Operand)
  | shr (dst count : Operand)
  | set (c : Cond) (dst : Operand)
  deriving DecidableEq

/-- The register after a write of its low `n` bytes: writing four clears the upper half,
writing fewer keeps the rest. -/
def merge (n : Nat) (old v : Word) : Word :=
  if n < 4 then (old &&& ~~~ low n (BitVec.allOnes 64)) ||| low n v else low n v

namespace State

def setReg (s : State) (r : Reg) (v : Word) : State :=
  { s with regs := fun q => if q = r then v else s.regs q }

def setMem (s : State) (m : Memory) : State := { s with mem := m }

def setFlags (s : State) (zf cf : Bool) : State := { s with zf, cf }

@[simp] theorem setReg_mem (s : State) (r : Reg) (v : Word) : (s.setReg r v).mem = s.mem := rfl
@[simp] theorem setReg_zf (s : State) (r : Reg) (v : Word) : (s.setReg r v).zf = s.zf := rfl
@[simp] theorem setReg_cf (s : State) (r : Reg) (v : Word) : (s.setReg r v).cf = s.cf := rfl
@[simp] theorem setMem_regs (s : State) (m : Memory) : (s.setMem m).regs = s.regs := rfl
@[simp] theorem setMem_mem (s : State) (m : Memory) : (s.setMem m).mem = m := rfl
@[simp] theorem setMem_zf (s : State) (m : Memory) : (s.setMem m).zf = s.zf := rfl
@[simp] theorem setMem_cf (s : State) (m : Memory) : (s.setMem m).cf = s.cf := rfl
@[simp] theorem setFlags_regs (s : State) (z c : Bool) : (s.setFlags z c).regs = s.regs := rfl
@[simp] theorem setFlags_mem (s : State) (z c : Bool) : (s.setFlags z c).mem = s.mem := rfl
@[simp] theorem setFlags_zf (s : State) (z c : Bool) : (s.setFlags z c).zf = z := rfl
@[simp] theorem setFlags_cf (s : State) (z c : Bool) : (s.setFlags z c).cf = c := rfl

@[simp] theorem setReg_same (s : State) (r : Reg) (v : Word) : (s.setReg r v).regs r = v :=
  if_pos rfl

theorem setReg_of_ne (s : State) {r q : Reg} (v : Word) (h : q ≠ r) :
    (s.setReg r v).regs q = s.regs q := if_neg h

end State

/-- The address of a memory operand of an instruction that is followed by the one at
`next`. -/
def Operand.addr (s : State) (next : Word) : Operand → Word
  | .mem base disp => s.regs base + disp
  | .rip disp => next + disp
  | .reg _ | .imm _ => 0

def Operand.read (s : State) (next : Word) (n : Nat) : Operand → Word
  | .reg r => low n (s.regs r)
  | .imm v => low n v
  | o => load s.mem (o.addr s next) n

def Operand.write (s : State) (next : Word) (n : Nat) (v : Word) : Operand → State
  | .reg r => s.setReg r (merge n (s.regs r) v)
  | .imm _ => s
  | o => s.setMem (store s.mem (o.addr s next) n v)

def Alu.eval : Alu → Word → Word → Word
  | .add, x, y => x + y
  | .or, x, y => x ||| y
  | .and, x, y => x &&& y
  | .sub, x, y | .cmp, x, y => x - y
  | .xor, x, y => x ^^^ y

/-- The carry flag after the operation: set by an addition that overflows and by a
subtraction that borrows. -/
def Alu.carry : Alu → Word → Word → Bool
  | .add, x, y => decide ((x + y).toNat < x.toNat)
  | .sub, x, y | .cmp, x, y => decide (x.toNat < y.toNat)
  | .or, _, _ | .and, _, _ | .xor, _, _ => false

def Cond.holds (s : State) : Cond → Bool
  | .b => s.cf
  | .ae => !s.cf
  | .e => s.zf
  | .ne => !s.zf
  | .be => s.cf || s.zf
  | .a => !(s.cf || s.zf)

/-- A shift count is taken modulo 64, and a count of zero leaves the flags. -/
def shiftFlags (s : State) (count : Nat) (r : Word) (out : Bool) : State :=
  if count = 0 then s else s.setFlags (r == 0) out

/-- One instruction.  A division by zero, or one whose quotient does not fit, has no next
state. -/
def exec (next : Word) (s : State) : Inst → Option State
  | .mov n dst src => some (dst.write s next n (src.read s next n))
  | .movzx n dst src => some (s.setReg dst (src.read s next n))
  | .lea dst src => some (s.setReg dst (src.addr s next))
  | .alu op dst src =>
    let x := dst.read s next 8
    let y := src.read s next 8
    let s' := if op = .cmp then s else dst.write s next 8 (op.eval x y)
    some (s'.setFlags (op.eval x y == 0) (op.carry x y))
  | .not dst => some (dst.write s next 8 (~~~ dst.read s next 8))
  | .mul src =>
    let p := (s.regs rax).toNat * (src.read s next 8).toNat
    let s' := (s.setReg rax (BitVec.ofNat 64 p)).setReg rdx (BitVec.ofNat 64 (p / 2 ^ 64))
    some (s'.setFlags s.zf (decide (2 ^ 64 ≤ p)))
  | .div src =>
    let x := (s.regs rdx).toNat * 2 ^ 64 + (s.regs rax).toNat
    let y := (src.read s next 8).toNat
    if y = 0 ∨ 2 ^ 64 ≤ x / y then none
    else some ((s.setReg rax (BitVec.ofNat 64 (x / y))).setReg rdx (BitVec.ofNat 64 (x % y)))
  | .shl dst count =>
    let k := (count.read s next 1).toNat % 64
    let x := dst.read s next 8
    some (shiftFlags (dst.write s next 8 (x <<< k)) k (x <<< k) (x.getLsbD (64 - k)))
  | .shr dst count =>
    let k := (count.read s next 1).toNat % 64
    let x := dst.read s next 8
    some (shiftFlags (dst.write s next 8 (x >>> k)) k (x >>> k) (x.getLsbD (k - 1)))
  | .set c dst => some (dst.write s next 1 (if c.holds s then 1 else 0))

/-! ## Writes -/

@[simp] theorem merge_eight (old v : Word) : merge 8 old v = v := by
  unfold merge
  simp

theorem low_merge {n : Nat} (old v : Word) : low n (merge n old v) = low n v := by
  unfold merge
  by_cases h : n < 4
  · rw [if_pos h]
    apply BitVec.eq_of_getLsbD_eq
    intro j hj
    simp only [getLsbD_low, BitVec.getLsbD_or, BitVec.getLsbD_and, BitVec.getLsbD_not,
      BitVec.getLsbD_allOnes]
    by_cases hn : j < 8 * n
    · simp [hn, hj]
    · simp [hn]
  · rw [if_neg h, low_low (Nat.le_refl n)]

theorem Operand.read_reg (s : State) (next : Word) (r : Reg) :
    (Operand.reg r).read s next 8 = s.regs r := low_eight _

end X86
