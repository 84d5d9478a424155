import L2.SelfHost.Places

/-!
# The routines of the runtime

The names of the arithmetic intrinsics are also names of routines in the runtime of the
bootstrap compiler, and these are what the inline code has to agree with.  An
`Operation` says in closed form what the routine of that name returns.
-/

namespace L2.SelfHost

open X86 (Word Reg State Alu Cond low signed)

/-! ## The routines -/

/-- The routines of `x86_64.s` under the names of `x86_64_sym_pairs`, without their `ret`. -/
def routine (name : String) : List X86.Inst :=
  let rax := X86.Operand.reg 0
  let rcx := X86.Operand.reg 1
  let rdx := X86.Operand.reg 2
  let rsi := X86.Operand.reg 6
  let rdi := X86.Operand.reg 7
  match name with
  | "+" => [.mov 8 rax rdi, .alu .add rax rsi]
  | "-" => [.mov 8 rax rdi, .alu .sub rax rsi]
  | "*" => [.mov 8 rax rdi, .mul rsi]
  | "/" => [.alu .xor rdx rdx, .mov 8 rax rdi, .div rsi]
  | "rem" => [.alu .xor rdx rdx, .mov 8 rax rdi, .div rsi, .mov 8 rax rdx]
  | "=" => [.alu .xor rax rax, .alu .sub rdi rsi, .set .e rax]
  | ">" => [.alu .xor rax rax, .alu .sub rsi rdi, .set .b rax]
  | "<" => [.alu .xor rax rax, .alu .sub rdi rsi, .set .b rax]
  | "<<" => [.mov 8 rax rdi, .mov 8 rcx rsi, .shl rax rcx]
  | ">>" => [.mov 8 rax rdi, .mov 8 rcx rsi, .shr rax rcx]
  | "band" => [.mov 8 rax rdi, .alu .and rax rsi]
  | "bor" => [.mov 8 rax rdi, .alu .or rax rsi]
  | "bxor" => [.mov 8 rax rdi, .alu .xor rax rsi]
  | "bnot" => [.mov 8 rax rdi, .not rax]
  | _ => []

/-- The arguments in `rdi` and `rsi`. -/
def argumentState (arguments : List Word) : State where
  regs r := if r = 7 then arguments.getD 0 0 else if r = 6 then arguments.getD 1 0 else 0
  mem _ := 0
  zf := false
  cf := false

/-- What a routine returns, if it does not divide by zero. -/
def routineValue (name : String) (arguments : List Word) : Option Word :=
  ((routine name).foldlM (X86.exec 0) (argumentState arguments)).map (·.regs X86.rax)

/-! ## Operations -/

inductive Comparison where
  | equals | lesserthan | greaterthan
  deriving DecidableEq

/-- The condition after a comparison of the first operand with the second. -/
def Comparison.cond : Comparison → Cond
  | equals => .e
  | lesserthan => .b
  | greaterthan => .a

def Comparison.holds : Comparison → Word → Word → Bool
  | equals, x, y => x = y
  | lesserthan, x, y => x.toNat < y.toNat
  | greaterthan, x, y => y.toNat < x.toNat

inductive Operation where
  | accumulate (alu : Alu) (h : alu ≠ .cmp)
  | multiply
  | divide
  | rem
  | compare (c : Comparison)
  | shift (left : Bool)
  | bnot

def operationOf : String → Option Operation
  | "+" => some (.accumulate .add (by decide))
  | "-" => some (.accumulate .sub (by decide))
  | "bor" => some (.accumulate .or (by decide))
  | "bxor" => some (.accumulate .xor (by decide))
  | "band" => some (.accumulate .and (by decide))
  | "*" => some .multiply
  | "/" => some .divide
  | "rem" => some .rem
  | "=" => some (.compare .equals)
  | "<" => some (.compare .lesserthan)
  | ">" => some (.compare .greaterthan)
  | "<<" => some (.shift true)
  | ">>" => some (.shift false)
  | "bnot" => some .bnot
  | _ => none

def truth (b : Bool) : Word := if b then 1 else 0

def shifted (left : Bool) (x : Word) (k : Nat) : Word := if left then x <<< k else x >>> k

/-- What the operations compute. -/
def Operation.value : Operation → Word → Word → Option Word
  | accumulate alu _, x, y => some (alu.eval x y)
  | multiply, x, y => some (x * y)
  | divide, x, y => if y = 0 then none else some (x / y)
  | rem, x, y => if y = 0 then none else some (x % y)
  | compare c, x, y => some (truth (c.holds x y))
  | shift left, x, y => some (shifted left x (y.toNat % 64))
  | bnot, x, _ => some (~~~x)

theorem merge_byte (c : Bool) : X86.merge 1 0 (truth c) = truth c := by
  cases c <;> decide

theorem sub_beq_zero (x y : Word) : (x - y == 0) = decide (x = y) := by
  by_cases h : x = y
  · rw [h]
    simp
  · have hne : (x - y == 0) = false := by
      apply beq_false_of_ne
      intro h0
      exact h (sub_eq_zero.mp h0)
    rw [hne]
    exact (decide_eq_false h).symm

/-- The condition that the flags of a comparison show. -/
theorem Comparison.holds_flags (c : Comparison) {s : State} {x y : Word}
    (hz : s.zf = (x - y == 0)) (hc : s.cf = decide (x.toNat < y.toNat)) :
    c.cond.holds s = c.holds x y := by
  rw [sub_beq_zero] at hz
  have heq : x = y ↔ x.toNat = y.toNat := BitVec.toNat_inj.symm
  cases c with
  | equals => exact hz
  | lesserthan => exact hc
  | greaterthan =>
    show (!(s.cf || s.zf)) = decide (y.toNat < x.toNat)
    rw [hz, hc]
    have hle : (x.toNat < y.toNat ∨ x = y) ↔ ¬ y.toNat < x.toNat := by
      rw [heq]
      omega
    rw [← Bool.decide_or, decide_eq_decide.mpr hle, decide_not, Bool.not_not]

/-! ## What the routines compute -/

theorem exec_mov_reg (next : Word) (s : State) (dst src : Reg) :
    X86.exec next s (.mov 8 (.reg dst) (.reg src)) = some (s.setReg dst (s.regs src)) := by
  show some (s.setReg dst (X86.merge 8 _ (low 8 _))) = _
  rw [X86.merge_eight, X86.low_eight]

theorem exec_alu_reg (next : Word) {alu : Alu} (h : alu ≠ .cmp) (s : State) (dst src : Reg) :
    X86.exec next s (.alu alu (.reg dst) (.reg src)) =
      some ((s.setReg dst (alu.eval (s.regs dst) (s.regs src))).setFlags
        (alu.eval (s.regs dst) (s.regs src) == 0) (alu.carry (s.regs dst) (s.regs src))) := by
  show some ((if alu = .cmp then s
    else s.setReg dst (X86.merge 8 _ (alu.eval (low 8 _) (low 8 _)))).setFlags
      (alu.eval (low 8 _) (low 8 _) == 0) (alu.carry (low 8 _) (low 8 _))) = _
  rw [if_neg h, X86.merge_eight, X86.low_eight, X86.low_eight]

theorem exec_set_reg (next : Word) (s : State) (c : Cond) (r : Reg) :
    X86.exec next s (.set c (.reg r)) =
      some (s.setReg r (X86.merge 1 (s.regs r) (truth (c.holds s)))) := rfl

theorem agrees_reg (next : Word) (r : Reg) : Agrees next (.reg r) (.reg r) :=
  ⟨fun _ _ => rfl, fun _ _ _ => rfl, fun _ => rfl⟩

theorem exec_not_reg (next : Word) (s : State) (r : Reg) :
    X86.exec next s (.not (.reg r)) = some (s.setReg r (~~~ s.regs r)) := by
  show some (s.setReg r (X86.merge 8 _ (~~~ low 8 _))) = _
  rw [X86.merge_eight, X86.low_eight]

theorem exec_mul_reg (next : Word) (s : State) (r : Reg) :
    X86.exec next s (.mul (.reg r)) = some (mulState s (s.regs r)) := by
  have hread : (X86.Operand.reg r).read s next 8 = s.regs r := X86.low_eight _
  show some _ = _
  rw [hread]
  rfl

theorem exec_div_reg (next : Word) {s : State} (hdx : s.regs X86.rdx = 0) (r : Reg) :
    X86.exec next s (.div (.reg r)) =
      if s.regs r = 0 then none else some (divState s (s.regs r)) := by
  have hread : (Loc.reg r).read s 8 = s.regs r := read_reg s r
  by_cases hy : s.regs r = 0
  · rw [if_pos hy]
    exact exec_div_zero (agrees_reg next r) (hread.trans hy)
  · have hdiv := exec_div_of_zero (agrees_reg next r) hdx (fun h => hy (hread.symm.trans h))
    rw [hread] at hdiv
    rw [if_neg hy, hdiv]

theorem exec_shl_reg (next : Word) (s : State) (r : Reg) :
    X86.exec next s (.shl (.reg r) (.reg X86.rcx)) =
      some (shiftState true s (.reg r) ((s.regs X86.rcx).toNat % 64)) := by
  have hcount : ((X86.Operand.reg X86.rcx).read s next 1).toNat % 64 =
      (s.regs X86.rcx).toNat % 64 := toNat_low_one _
  rw [exec_shl, hcount]
  rfl

theorem exec_shr_reg (next : Word) (s : State) (r : Reg) :
    X86.exec next s (.shr (.reg r) (.reg X86.rcx)) =
      some (shiftState false s (.reg r) ((s.regs X86.rcx).toNat % 64)) := by
  have hcount : ((X86.Operand.reg X86.rcx).read s next 1).toNat % 64 =
      (s.regs X86.rcx).toNat % 64 := toNat_low_one _
  rw [exec_shr, hcount]
  rfl

theorem read_shiftState (left : Bool) (s : State) (l : Loc) (k : Nat) :
    l.read (shiftState left s l k) 8 = shifted left (l.read s 8) k := by
  have hflags : ∀ (t : State) (r : Word) (out : Bool),
      l.read (X86.shiftFlags t k r out) 8 = l.read t 8 := by
    intro t r out
    unfold X86.shiftFlags
    split
    · rfl
    · exact read_setFlags _ _ 8
  cases left with
  | true => exact (hflags _ _ _).trans (read_write s l _)
  | false => exact (hflags _ _ _).trans (read_write s l _)

theorem shiftState_reg (left : Bool) (s : State) (r : Reg) (k : Nat) :
    (shiftState left s (.reg r) k).regs r = shifted left (s.regs r) k := by
  rw [← read_reg, read_shiftState, read_reg]

theorem mulState_rax (s : State) (y : Word) :
    (mulState s y).regs X86.rax = s.regs X86.rax * y := by
  show BitVec.ofNat 64 _ = _
  apply BitVec.eq_of_toNat_eq
  rw [BitVec.toNat_ofNat, BitVec.toNat_mul]

theorem divState_rax (s : State) (y : Word) :
    (divState s y).regs X86.rax = s.regs X86.rax / y := rfl

theorem divState_rdx (s : State) (y : Word) :
    (divState s y).regs X86.rdx = s.regs X86.rax % y := rfl

/-- A routine starts with its arguments in registers. -/
theorem routineValue_eq {name : String} {op : Operation} (h : operationOf name = some op)
    (arguments : List Word) :
    routineValue name arguments = op.value (arguments.getD 0 0) (arguments.getD 1 0) := by
  have hx : (argumentState arguments).regs 7 = arguments.getD 0 0 := rfl
  have hy : (argumentState arguments).regs 6 = arguments.getD 1 0 := rfl
  generalize arguments.getD 0 0 = x at hx
  generalize arguments.getD 1 0 = y at hy
  have hxor : ∀ v : Word, Alu.xor.eval v v = 0 := fun v => BitVec.xor_self
  unfold operationOf at h
  split at h
  case h_15 => cases h
  all_goals
    cases h
    simp [routineValue, routine, exec_mov_reg, exec_alu_reg, exec_set_reg, exec_mul_reg,
      exec_div_reg, exec_not_reg, exec_shl_reg, exec_shr_reg, hx, hy, Operation.value, List.foldlM,
      State.setReg, State.setFlags, hxor, X86.rax, X86.rdx, X86.rcx]
  case h_6 => exact (mulState_rax _ _).trans (by simp)
  case h_7 =>
    by_cases h0 : y = 0#64
    · rw [if_pos h0, if_pos h0]
      rfl
    · rw [if_neg h0, if_neg h0]
      rfl
  case h_8 =>
    by_cases h0 : y = 0#64
    · rw [if_pos h0, if_pos h0]
      rfl
    · rw [if_neg h0, if_neg h0]
      rfl
  case h_9 => exact (merge_byte _).trans (congrArg truth (Comparison.equals.holds_flags rfl rfl))
  case h_10 =>
    exact (merge_byte _).trans (congrArg truth (Comparison.lesserthan.holds_flags rfl rfl))
  case h_11 => exact merge_byte _
  case h_12 => exact shiftState_reg true _ _ _
  case h_13 => exact shiftState_reg false _ _ _

end L2.SelfHost
