import L2.SelfHost.Execution

/-!
# Arithmetic instructions

What the arithmetic instructions do to the places of their operands, all of them eight
bytes wide.  Where both operands are in memory the second one goes through the third, a
register.
-/

namespace L2.SelfHost

open X86 (Word Byte Reg State Alu Cond signed low load store merge bytesOf)

variable {address : Bndg → Word} (raw : Nat)

/-! ## Operations of two operands -/

/-- The number of an operation in its opcodes. -/
def aluNumber : Alu → Nat
  | .add => 0
  | .or => 1
  | .and => 4
  | .sub => 5
  | .xor => 6
  | .cmp => 7

def aluCode : Alu → InstrCode
  | .add => .add
  | .or => .or
  | .and => .and
  | .sub => .sub
  | .xor => .xor
  | .cmp => .cmp

/-- The operation applied to the place `l` and the value `y`: a comparison only leaves the
flags. -/
def Loc.apply (alu : Alu) (s : State) (l : Loc) (y : Word) : State :=
  let x := l.read s 8
  (if alu = .cmp then s else l.write s 8 (alu.eval x y)).setFlags (alu.eval x y == 0)
    (alu.carry x y)

section
variable {op : Operand} {l : Loc} (h : Names address 8 op l)
include h

theorem operandSize_prefixes (g : Operand) :
    (prefixesOf (.none raw) g op).operandSize = 8 := by
  rw [operandSize_prefixesOf (h.hasRex (.inl rfl) (.none raw) g), h.size]
  unfold operandSize
  rw [if_pos (.inr rfl)]

theorem executes_alu_mr (raw : Nat) (alu : Alu) (pos : Word) (r : Reg) (s : State) :
    Executes address pos (writeInstr address pos (8 * aluNumber alu + 1) 1 (.none raw)
      (.register 8 (regN 8 r)) op (.none raw)) s (l.apply alu s (s.regs r)) := by
  have hrex := h.hasRex (.inl rfl) (.none raw) (.register 8 (regN 8 r))
  have hsize := operandSize_prefixes raw h (.register 8 (regN 8 r))
  apply executes_write (by decide) (by cases alu <;> decide) h hrex
    (i := fun m => .alu alu m (.reg r))
  · intro m bs
    rw [extend_regN (by decide)]
    cases alu <;> simp [X86.decodeRm, X86.aluOf, aluNumber, hsize, writeImm]
  · intro next m ha
    show some _ = some _
    rw [ha.read, ha.write, X86.Operand.read_reg]
    rfl

theorem executes_alu_rm (raw : Nat) (alu : Alu) (pos : Word) (r : Reg) (s : State) :
    Executes address pos (writeInstr address pos (8 * aluNumber alu + 3) 1 (.none raw)
      (.register 8 (regN 8 r)) op (.none raw)) s ((Loc.reg r).apply alu s (l.read s 8)) := by
  have hrex := h.hasRex (.inl rfl) (.none raw) (.register 8 (regN 8 r))
  have hsize := operandSize_prefixes raw h (.register 8 (regN 8 r))
  apply executes_write (by decide) (by cases alu <;> decide) h hrex
    (i := fun m => .alu alu (.reg r) m)
  · intro m bs
    rw [extend_regN (by decide)]
    cases alu <;> simp [X86.decodeRm, X86.aluOf, aluNumber, hsize, writeImm]
  · intro next m ha
    show some _ = some _
    rw [ha.read]
    rfl

omit h in
/-- The field that extends the opcode is the number of the operation. -/
theorem extend_digit {k : Nat} (hk : k < 8) : (X86.extend (rexR (digitOp k))
    (BitVec.ofNat 3 ((digitOp k).opRegister &&& 7))).val = k := by
  revert k
  decide

omit h in
theorem takeImm_write {n : Nat} (v : Word) (f : Word → X86.Inst) (bs : List Byte) :
    X86.takeImm n f (writeImm (.immediate n v) ++ bs) = some (f (signed n v), bs) := by
  simp [X86.takeImm, writeImm, X86.takeBytes_bytesOf, X86.signed_low]

/-- A constant is written with one byte or with four, and extended with its sign. -/
theorem executes_alu_imm (raw : Nat) (alu : Alu) {n : Nat} (hn : n = 1 ∨ n = 4) (pos v : Word)
    (s : State) : Executes address pos (writeInstr address pos (if n = 1 then 0x83 else 0x81) 1
      (.none raw) (digitOp (aluNumber alu)) op (.immediate n v)) s
        (l.apply alu s (signed n v)) := by
  have hrex := h.hasRex (.inl rfl) (.none raw) (digitOp (aluNumber alu))
  have hsize := operandSize_prefixes raw h (digitOp (aluNumber alu))
  have hlt : aluNumber alu < 8 := by cases alu <;> decide
  have hreg := extend_digit hlt
  have halu : X86.aluOf (aluNumber alu % 8) = some alu := by cases alu <;> rfl
  have he : ∀ next m, Agrees next m l →
      X86.exec next s (.alu alu m (.imm (signed n v))) = some (l.apply alu s (signed n v)) := by
    intro next m ha
    show some _ = some _
    rw [ha.read, ha.write]
    have himm : (X86.Operand.imm (signed n v)).read s next 8 = signed n v := X86.low_eight _
    rw [himm]
    rfl
  rcases hn with rfl | rfl
  · apply executes_write (by decide) (by decide) h hrex _ he
    intro m bs
    show (if _ then _ else _) = _
    rw [if_pos hsize, hreg, halu, Option.bind_some]
    exact takeImm_write v _ bs
  · apply executes_write (by decide) (by decide) h hrex _ he
    intro m bs
    show (if _ then _ else _) = _
    rw [if_pos hsize, hreg, halu, Option.bind_some]
    exact takeImm_write v _ bs

end

/-! ## Operations of one operand -/

/-- What `mul` leaves: the product in `rdx` and `rax`, whatever the flags become. -/
def mulState (s : State) (y : Word) : State :=
  let p := (s.regs X86.rax).toNat * y.toNat
  ((s.setReg X86.rax (BitVec.ofNat 64 p)).setReg X86.rdx (BitVec.ofNat 64 (p / 2 ^ 64))).setFlags
    s.zf (decide (2 ^ 64 ≤ p))

/-- What `div` leaves with a zero in `rdx`. -/
def divState (s : State) (y : Word) : State :=
  (s.setReg X86.rax (s.regs X86.rax / y)).setReg X86.rdx (s.regs X86.rax % y)

theorem exec_div (next : Word) (s : State) (src : X86.Operand) :
    X86.exec next s (.div src) =
      if (src.read s next 8).toNat = 0 ∨ 2 ^ 64 ≤ ((s.regs X86.rdx).toNat * 2 ^ 64 +
          (s.regs X86.rax).toNat) / (src.read s next 8).toNat then none
      else some ((s.setReg X86.rax (BitVec.ofNat 64 (((s.regs X86.rdx).toNat * 2 ^ 64 +
          (s.regs X86.rax).toNat) / (src.read s next 8).toNat))).setReg X86.rdx
            (BitVec.ofNat 64 (((s.regs X86.rdx).toNat * 2 ^ 64 +
              (s.regs X86.rax).toNat) % (src.read s next 8).toNat))) := rfl

/-- What a shift leaves in the place and in the flags. -/
def shiftState (left : Bool) (s : State) (l : Loc) (k : Nat) : State :=
  let x := l.read s 8
  if left then
    X86.shiftFlags (l.write s 8 (x <<< k)) k (x <<< k) (x.getLsbD (64 - k))
  else X86.shiftFlags (l.write s 8 (x >>> k)) k (x >>> k) (x.getLsbD (k - 1))

theorem exec_shl (next : Word) (s : State) (dst count : X86.Operand) :
    X86.exec next s (.shl dst count) = some (X86.shiftFlags
      (dst.write s next 8 (dst.read s next 8 <<< ((count.read s next 1).toNat % 64)))
      ((count.read s next 1).toNat % 64)
      (dst.read s next 8 <<< ((count.read s next 1).toNat % 64))
      ((dst.read s next 8).getLsbD (64 - (count.read s next 1).toNat % 64))) := rfl

theorem exec_shr (next : Word) (s : State) (dst count : X86.Operand) :
    X86.exec next s (.shr dst count) = some (X86.shiftFlags
      (dst.write s next 8 (dst.read s next 8 >>> ((count.read s next 1).toNat % 64)))
      ((count.read s next 1).toNat % 64)
      (dst.read s next 8 >>> ((count.read s next 1).toNat % 64))
      ((dst.read s next 8).getLsbD ((count.read s next 1).toNat % 64 - 1))) := rfl

/-- The low byte of a word is enough for what is taken modulo 64. -/
theorem toNat_low_one (v : Word) : (low 1 v).toNat % 64 = v.toNat % 64 := by
  unfold low
  rw [BitVec.toNat_setWidth, BitVec.toNat_setWidth]
  omega

section
variable {op : Operand} {l : Loc} (h : Names address 8 op l)
include h

theorem executes_unary (raw : Nat) {opcode k : Nat} (ho : PlainOpcode opcode) (hk : k < 8)
    {imm : Operand} {i : X86.Operand → X86.Inst} {s s' : State} (pos : Word)
    (hd : ∀ (p : X86.Prefixes) (reg : Reg) m bs, p.operandSize = 8 → reg.val = k →
      X86.decodeRm p opcode reg m (writeImm imm ++ bs) = some (i m, bs))
    (he : ∀ next m, Agrees next m l → X86.exec next s (i m) = some s') :
    Executes address pos (writeInstr address pos opcode 1 (.none raw) (digitOp k) op imm) s s' := by
  have hrex := h.hasRex (.inl rfl) (.none raw) (digitOp k)
  apply executes_write (by decide) ho h hrex _ he
  intro m bs
  exact hd _ _ m bs (operandSize_prefixes raw h _) (extend_digit hk)

theorem executes_not (raw : Nat) (pos : Word) (s : State) :
    Executes address pos (writeInstr address pos 0xF7 1 (.none raw) (digitOp 2) op (.none raw)) s
      (l.write s 8 (~~~ l.read s 8)) := by
  apply executes_unary h raw (by decide) (by decide) pos (i := fun m => .not m)
  · intro p reg m bs hp hreg
    simp [X86.decodeRm, hp, hreg, writeImm]
  · intro next m ha
    show some _ = some _
    rw [ha.read, ha.write]

theorem executes_mul (raw : Nat) (pos : Word) (s : State) :
    Executes address pos (writeInstr address pos 0xF7 1 (.none raw) (digitOp 4) op (.none raw)) s
      (mulState s (l.read s 8)) := by
  apply executes_unary h raw (by decide) (by decide) pos (i := fun m => .mul m)
  · intro p reg m bs hp hreg
    simp [X86.decodeRm, hp, hreg, writeImm]
  · intro next m ha
    show some _ = some _
    rw [ha.read]
    rfl

omit h in
/-- With a zero in `rdx` the quotient fits. -/
theorem exec_div_of_zero {next : Word} {m : X86.Operand} (ha : Agrees next m l) {s : State}
    (hdx : s.regs X86.rdx = 0) (hy : l.read s 8 ≠ 0) :
    X86.exec next s (.div m) = some (divState s (l.read s 8)) := by
  have hzero : (l.read s 8).toNat ≠ 0 := fun hz => hy (BitVec.eq_of_toNat_eq hz)
  have hlt : (s.regs X86.rax).toNat / (l.read s 8).toNat < 2 ^ 64 :=
    Nat.lt_of_le_of_lt (Nat.div_le_self _ _) (s.regs X86.rax).isLt
  have hq : BitVec.ofNat 64 ((s.regs X86.rax).toNat / (l.read s 8).toNat) =
      s.regs X86.rax / l.read s 8 := by
    apply BitVec.eq_of_toNat_eq
    rw [BitVec.toNat_ofNat, Nat.mod_eq_of_lt hlt]
    exact (BitVec.toNat_udiv ..).symm
  have hr : BitVec.ofNat 64 ((s.regs X86.rax).toNat % (l.read s 8).toNat) =
      s.regs X86.rax % l.read s 8 := by
    apply BitVec.eq_of_toNat_eq
    rw [BitVec.toNat_ofNat, Nat.mod_eq_of_lt (Nat.lt_of_le_of_lt (Nat.mod_le _ _)
      (s.regs X86.rax).isLt)]
    exact (BitVec.toNat_umod ..).symm
  have hdividend : (s.regs X86.rdx).toNat * 2 ^ 64 + (s.regs X86.rax).toNat =
      (s.regs X86.rax).toNat := by
    rw [hdx]
    exact Nat.zero_add _
  rw [exec_div, ha.read, hdividend, if_neg (by omega), hq, hr]
  rfl

omit h in
/-- A division by zero has no next state. -/
theorem exec_div_zero {next : Word} {m : X86.Operand} (ha : Agrees next m l) {s : State}
    (hy : l.read s 8 = 0) : X86.exec next s (.div m) = none := by
  rw [exec_div, ha.read, hy]
  exact if_pos (.inl rfl)

theorem executes_div (raw : Nat) (pos : Word) {s : State} (hdx : s.regs X86.rdx = 0)
    (hy : l.read s 8 ≠ 0) :
    Executes address pos (writeInstr address pos 0xF7 1 (.none raw) (digitOp 6) op (.none raw)) s
      (divState s (l.read s 8)) := by
  apply executes_unary h raw (by decide) (by decide) pos (i := fun m => .div m)
  · intro p reg m bs hp hreg
    simp [X86.decodeRm, hp, hreg, writeImm]
  · intro next m ha
    exact exec_div_of_zero ha hdx hy

/-- The instruction of a division by zero. -/
theorem step_div_zero (raw : Nat) {pos : Word} {s : State} (hy : l.read s 8 = 0)
    (hw : Within address pos (writeInstr address pos 0xF7 1 (.none raw) (digitOp 6) op
      (.none raw)).length) (rest : List Byte) :
    X86.step ⟨pos, writeInstr address pos 0xF7 1 (.none raw) (digitOp 6) op (.none raw) ++ rest,
      s⟩ = none := by
  have hrex := h.hasRex (.inl rfl) (.none raw) (digitOp 6)
  have hsize := operandSize_prefixes raw h (digitOp 6)
  have hreg := extend_digit (k := 6) (by decide)
  obtain ⟨m, hm, ha⟩ := h.exists_isRm hw
  have hd : X86.decode (writeInstr address pos 0xF7 1 (.none raw) (digitOp 6) op (.none raw) ++
      rest) = some (.div m, rest) := by
    rw [decode_write (by decide) (by decide) hm hrex]
    have hread : ∀ reg : Reg, reg.val = 6 →
        X86.decodeRm (prefixesOf (.none raw) (digitOp 6) op) 0xF7 reg m
          (writeImm (.none raw) ++ rest) = some (.div m, rest) := by
      intro reg hr
      simp [X86.decodeRm, hsize, hr, writeImm]
    exact hread _ hreg
  unfold X86.step
  simp [hd, exec_div_zero ha hy]

/-- A shift by the low byte of `rcx`, which is taken modulo 64. -/
theorem executes_shift_cl (raw : Nat) (left : Bool) (pos : Word) (s : State) :
    Executes address pos (writeInstr address pos 0xD3 1 (.none raw)
      (digitOp (if left then 4 else 5)) op (.none raw)) s
        (shiftState left s l ((s.regs X86.rcx).toNat % 64)) := by
  have hcount : ∀ next, ((X86.Operand.reg X86.rcx).read s next 1).toNat % 64 =
      (s.regs X86.rcx).toNat % 64 := by
    intro next
    exact toNat_low_one _
  cases left with
  | true =>
    apply executes_unary h raw (by decide) (by decide) pos (i := fun m => .shl m (.reg X86.rcx))
    · intro p reg m bs hp hreg
      simp [X86.decodeRm, hp, hreg, writeImm]
    · intro next m ha
      rw [exec_shl, hcount, ha.read, ha.write]
      rfl
  | false =>
    apply executes_unary h raw (by decide) (by decide) pos (i := fun m => .shr m (.reg X86.rcx))
    · intro p reg m bs hp hreg
      simp [X86.decodeRm, hp, hreg, writeImm]
    · intro next m ha
      rw [exec_shr, hcount, ha.read, ha.write]
      rfl

/-- A shift by a constant of one byte. -/
theorem executes_shift_imm (raw : Nat) (left : Bool) (pos v : Word) (s : State) :
    Executes address pos (writeInstr address pos 0xC1 1 (.none raw)
      (digitOp (if left then 4 else 5)) op (.immediate 1 v)) s
        (shiftState left s l (v.toNat % 64)) := by
  have hcount : ∀ next, ((X86.Operand.imm (signed 1 v)).read s next 1).toNat % 64 =
      v.toNat % 64 := by
    intro next
    show (low 1 (signed 1 v)).toNat % 64 = _
    rw [low_signed (by decide)]
    exact toNat_low_one _
  cases left with
  | true =>
    apply executes_unary h raw (by decide) (by decide) pos
      (i := fun m => .shl m (.imm (signed 1 v)))
    · intro p reg m bs hp hreg
      simp [X86.decodeRm, hp, hreg, takeImm_write]
    · intro next m ha
      rw [exec_shl, hcount, ha.read, ha.write]
      rfl
  | false =>
    apply executes_unary h raw (by decide) (by decide) pos
      (i := fun m => .shr m (.imm (signed 1 v)))
    · intro p reg m bs hp hreg
      simp [X86.decodeRm, hp, hreg, takeImm_write]
    · intro next m ha
      rw [exec_shr, hcount, ha.read, ha.write]
      rfl

end

/-! ## Conditions as bytes -/

/-- A register that is marked so takes the prefix. -/
theorem hasRex_of_marked {op : Operand} (h : op.opRegister.testBit 9 = true) (e g : Operand) :
    hasRex e g op = true := by
  have hone : wRex.testBit 9 = true := by decide
  have hne : (g.opRegister ||| (op.opRegister ||| e.opRegister)) &&& wRex ≠ 0 := by
    intro h0
    have hbit : ((g.opRegister ||| (op.opRegister ||| e.opRegister)) &&& wRex).testBit 9 =
        false := by
      rw [h0, Nat.zero_testBit]
    simp [Nat.testBit_and, Nat.testBit_or, h, hone] at hbit
  unfold hasRex
  simp [hne]

theorem marked_of_high : ∀ n ∈ sizes, ∀ r : Reg, regN n r &&& 8 ≠ 0 →
    (regN n r).testBit 9 = true := by decide

theorem hasRex_of_marked_reg {n : Nat} {r : Reg} (h : (regN n r).testBit 9 = true)
    (e g : Operand) : hasRex e g (.register n (regN n r)) = true := by
  apply hasRex_of_marked
  exact h

/-- Where the prefix is left out, its bits would all be zero. -/
theorem bits_of_isRm {next : Word} {n : Nat} (hn : n ∈ sizes) {op : Operand} {m : X86.Operand}
    (h : IsRm address next n op m) (g : Operand) :
    (prefixesOf (.none raw) g op).bits.x = false ∧
      (prefixesOf (.none raw) g op).bits.b = rexB (.none raw) op := by
  by_cases hrex : hasRex (.none raw) g op = true
  · rw [bits_prefixesOf hrex]
    exact ⟨rexX_of_isRm h, rfl⟩
  · have hbits : (prefixesOf (.none raw) g op).bits = ⟨false, false, false, false⟩ := by
      unfold X86.Prefixes.bits prefixesOf
      rw [if_neg hrex]
      rfl
    rw [hbits]
    refine ⟨rfl, ?_⟩
    cases h with
    | reg r =>
      show false = _
      by_contra hb
      have hb : rexB (.none raw) (.register n (regN n r)) = true :=
        Bool.eq_true_of_not_eq_false fun h => hb h.symm
      have h8 : regN n r &&& 8 ≠ 0 := by
        simp [rexB] at hb
        exact hb.2
      exact hrex (hasRex_of_marked_reg (marked_of_high n hn r h8) _ _)
    | mem b disp dispSize hd =>
      have hm : IsRm address next n _ _ := .mem b disp dispSize hd
      exact absurd (hasRex_of_isRm hm (.inr rfl) _ _) hrex
    | rip bndg => rfl

/-- An instruction with an opcode of two bytes is read back. -/
theorem decode_write_two {n opcode : Nat} (hn : n ∈ sizes) (ho : opcode < 256) {pos : Word}
    {g op imm : Operand} {m : X86.Operand}
    (h : IsRm address (pos + BitVec.ofNat 64
      (writeInstr address pos (opcode * 256 + 0x0F) 2 (.none raw) g op imm).length) n op m)
    (rest : List Byte) :
    X86.decode (writeInstr address pos (opcode * 256 + 0x0F) 2 (.none raw) g op imm ++ rest) =
      X86.decodeRm2 (prefixesOf (.none raw) g op) opcode
        (X86.extend (prefixesOf (.none raw) g op).bits.r (BitVec.ofNat 3 (g.opRegister &&& 7))) m
          (writeImm imm ++ rest) := by
  rw [length_writeInstr] at h
  have hnone : op.isNone = false := by cases h <;> rfl
  have hbytes : bytesOf 2 (BitVec.ofNat 64 (opcode * 256 + 0x0F)) =
      [0x0F#8, BitVec.ofNat 8 opcode] := by
    have h0 : (BitVec.ofNat 64 (opcode * 256 + 0x0F)).setWidth 8 = 0x0F#8 := by
      apply BitVec.eq_of_toNat_eq
      rw [BitVec.toNat_setWidth, BitVec.toNat_ofNat]
      show (opcode * 256 + 0x0F) % 2 ^ 64 % 2 ^ 8 = 0x0F
      omega
    have h1 : (BitVec.ofNat 64 (opcode * 256 + 0x0F) >>> 8).setWidth 8 = BitVec.ofNat 8 opcode := by
      apply BitVec.eq_of_toNat_eq
      rw [BitVec.toNat_setWidth, BitVec.toNat_ushiftRight, BitVec.toNat_ofNat, BitVec.toNat_ofNat,
        Nat.shiftRight_eq_div_pow]
      omega
    show [_, _] = _
    rw [h0, h1]
  have hhead : writeHead (opcode * 256 + 0x0F) 2 (.none raw) g op =
      (if hasOso g op then [0x66#8] else []) ++
        ((if hasRex (.none raw) g op then [rexByte (.none raw) g op] else []) ++
          0x0F#8 :: BitVec.ofNat 8 opcode ::
            (modrmByte g op :: (if hasSib op then [sibByte op] else []))) := by
    unfold writeHead
    rw [hasAso_of_isRm h]
    simp [opcodeOf, hnone, hbytes]
  have hsplit : writeInstr address pos (opcode * 256 + 0x0F) 2 (.none raw) g op imm ++ rest =
      (if hasOso g op then [0x66#8] else []) ++
        ((if hasRex (.none raw) g op then [rexByte (.none raw) g op] else []) ++
          0x0F#8 :: (BitVec.ofNat 8 opcode ::
            (modrmByte g op :: ((if hasSib op then [sibByte op] else []) ++
            (writeDisp address pos (writeHead (opcode * 256 + 0x0F) 2 (.none raw) g op).length
              (op.dispSize + (writeImm imm).length) op ++ (writeImm imm ++ rest)))))) := by
    unfold writeInstr
    rw [hhead]
    simp
  have hnat : (BitVec.ofNat 8 opcode).toNat = opcode := by
    rw [BitVec.toNat_ofNat, Nat.mod_eq_of_lt ho]
  obtain ⟨hx, hb⟩ := bits_of_isRm raw hn h g
  rw [hsplit]
  unfold X86.decode
  rw [takePrefixes_writeHead (by decide)]
  simp only [if_true]
  rw [takeOperands_write raw hn h g hx hb]
  simp only [Option.bind_some, hnat]

/-- The second byte of the opcode for a condition. -/
def condOpcode : Cond → Nat
  | .b => 0x92
  | .ae => 0x93
  | .e => 0x94
  | .ne => 0x95
  | .be => 0x96
  | .a => 0x97

theorem byteOperand_of_isRm {next : Word} {op : Operand} {m : X86.Operand}
    (h : IsRm address next 1 op m) (g : Operand) :
    X86.byteOperand (prefixesOf (.none raw) g op) m = true := by
  cases h with
  | reg r =>
    show ((prefixesOf (.none raw) g (.register 1 (regN 1 r))).rex.isSome || decide (r.val < 4)) = _
    by_cases hr : r.val < 4
    · simp [hr]
    · have hmark : (regN 1 r).testBit 9 = true := by
        revert r
        decide
      have hrex : hasRex (.none raw) g (.register 1 (regN 1 r)) = true :=
        hasRex_of_marked_reg hmark _ _
      rw [rex_isSome hrex]
      rfl
  | mem b disp dispSize hd => rfl
  | rip bndg => rfl

/-- A condition becomes the low byte of the place. -/
theorem executes_set {op : Operand} {l : Loc} (h : Names address 1 op l) (raw : Nat) (c : Cond)
    (pos : Word) (s : State) :
    Executes address pos (writeInstr address pos (condOpcode c * 256 + 0x0F) 2 (.none raw)
      (.none raw) op (.none raw)) s (l.write s 1 (if c.holds s then 1 else 0)) := by
  intro hw rest
  obtain ⟨m, hm, ha⟩ := h.exists_isRm hw
  apply X86.Runs.head _ (X86.Runs.refl _)
  apply step_of_decode (i := .set c m)
  · rw [decode_write_two raw (by decide) (by cases c <;> decide) hm]
    have hbyte := byteOperand_of_isRm raw hm (.none raw)
    cases c <;> simp [X86.decodeRm2, condOpcode, X86.condOf, hbyte, writeImm]
  · show some _ = some _
    rw [ha.write]

/-! ## Listed instructions -/

/-- An operand of 8 bytes in a register. -/
abbrev regOp (r : Reg) : Operand := .register 8 (regN 8 r)

theorem names_regOp (address : Bndg → Word) (r : Reg) : Names address 8 (regOp r) (.reg r) :=
  .reg r

theorem opcode_alu (k : Nat) : (aluMr k).opcode 8 = 8 * k + 1 ∧ (aluRm k).opcode 8 = 8 * k + 3 := by
  simp [Form.opcode, aluMr, aluRm]

theorem opcodeSize_alu (k : Nat) : (aluMr k).opcodeSize = 1 ∧ (aluRm k).opcodeSize = 1 := by
  simp [Form.opcodeSize, aluMr, aluRm]

section
variable {op : Operand} {l : Loc} (h : Names address 8 op l)
include h

theorem writeRm_alu (k : Nat) (pos : Word) (r : Reg) (ops : List Operand) :
    writeRmInstr address raw pos (aluRm k) (regOp r :: op :: ops) =
      some (writeInstr address pos (8 * k + 3) 1 (.none raw) (regOp r) op (.none raw)) := by
  have hside : op.isMemory ∨ op.isRegister := by
    rw [h.isMemory, h.isRegister]
    cases l.isMemory <;> simp
  have hhas : (aluRm k).has 8 = true := Form.has_of_mask rfl (by decide)
  show (if _ then _ else _) = _
  rw [if_pos]
  · show some (writeInstr address pos ((aluRm k).opcode 8) _ _ _ _ _) = _
    rw [(opcode_alu k).2, (opcodeSize_alu k).2]
  · exact And.intro rfl ⟨hside, hhas, h.size⟩

theorem writeMr_alu (k : Nat) (pos : Word) (r : Reg) (ops : List Operand) :
    writeMrInstr address raw pos (aluMr k) (op :: regOp r :: ops) =
      some (writeInstr address pos (8 * k + 1) 1 (.none raw) (regOp r) op (.none raw)) := by
  have hside : op.isMemory ∨ op.isRegister := by
    rw [h.isMemory, h.isRegister]
    cases l.isMemory <;> simp
  have hhas : (aluMr k).has op.size = true := by
    rw [h.size]
    exact Form.has_of_mask rfl (by decide)
  show (if _ then _ else _) = _
  rw [if_pos]
  · rw [h.size, (opcode_alu k).1, (opcodeSize_alu k).1]
  · exact And.intro hside ⟨rfl, hhas, h.size.symm⟩

theorem writeMr_memory (hm : l.isMemory = true) (pos : Word) (f : Form) (dst : Operand)
    (ops : List Operand) : writeMrInstr address raw pos f (dst :: op :: ops) = none := by
  have hr : op.isRegister = false := by
    rw [h.isRegister, hm]
    rfl
  show (if _ then _ else _) = _
  rw [if_neg]
  rw [hr]
  simp

theorem writeRm_memory (hm : l.isMemory = true) (pos : Word) (f : Form) (src : Operand)
    (ops : List Operand) : writeRmInstr address raw pos f (op :: src :: ops) = none := by
  have hr : op.isRegister = false := by
    rw [h.isRegister, hm]
    rfl
  show (if _ then _ else _) = _
  rw [if_neg]
  rw [hr]
  simp

theorem writeMi_place (pos : Word) (f : Form) (d dst : Operand) (ops : List Operand) :
    writeMiInstr address raw pos f d (dst :: op :: ops) = none := by
  show (if _ then _ else _) = _
  rw [if_neg]
  rw [h.isImmediate]
  simp

theorem writeMm_alu (hm : l.isMemory = true) (k : Nat) {src : Operand} {ls : Loc}
    (hs : Names address 8 src ls) (hms : ls.isMemory = true) (pos : Word) (t : Reg)
    (ops : List Operand) :
    writeMmInstr address raw pos (aluMr k) (op :: src :: regOp t :: ops) =
      some (writeInstr address pos 0x8B 1 (.none raw) (regOp t) src (.none raw) ++
        writeInstr address (pos + BitVec.ofNat 64
          (writeInstr address pos 0x8B 1 (.none raw) (regOp t) src (.none raw)).length)
          (8 * k + 1) 1 (.none raw) (regOp t) op (.none raw)) := by
  have hhas : (aluMr k).has op.size = true := by
    rw [h.size]
    exact Form.has_of_mask rfl (by decide)
  show (if _ then _ else _) = _
  rw [if_pos]
  · rw [h.size, (opcode_alu k).1, (opcodeSize_alu k).1, if_neg (by decide)]
  · exact And.intro (h.isMemory.trans hm) ⟨hs.isMemory.trans hms, hhas, hs.size.trans h.size.symm⟩

/-- The first operand is a register. -/
theorem does_alu_reg (raw : Nat) (alu : Alu) (r : Reg) (ops : List Operand) (s : State) :
    Does address raw [⟨aluCode alu, regOp r :: op :: ops⟩] s
      ((Loc.reg r).apply alu s (l.read s 8)) := by
  apply Does.single
  intro pos
  have hrm := executes_alu_rm h raw alu pos r s
  have hform := fun k => writeRm_alu raw h k pos r ops
  have hmi := fun f d => writeMi_place raw h pos f d (regOp r) ops
  cases alu with
  | xor =>
    cases hl : l.isMemory with
    | true =>
      have hmr := fun f => writeMr_memory raw h hl pos f (regOp r) ops
      exact ⟨_, by simp [assemble, aluCode, aluNumber, hmi, hmr, hform], hrm⟩
    | false =>
      -- between registers the other direction comes first
      cases h with
      | reg r' =>
        have hread : (Loc.reg r').read s 8 = s.regs r' := X86.low_eight _
        have hmr := executes_alu_mr (names_regOp address r) raw .xor pos r' s
        have hform' := fun k => writeMr_alu raw (names_regOp address r) k
          pos r' ops
        rw [hread]
        exact ⟨_, by simp [assemble, aluCode, aluNumber, hmi, hform'], hmr⟩
      | mem b disp dispSize hd => cases hl
      | static bndg offset hb => cases hl
  | _ => exact ⟨_, by simp [assemble, aluCode, aluNumber, hform], hrm⟩

/-- The second operand is a register, and the first one is in memory. -/
theorem does_alu_memory (raw : Nat) (hm : l.isMemory = true) (alu : Alu) (r : Reg)
    (ops : List Operand) (s : State) :
    Does address raw [⟨aluCode alu, op :: regOp r :: ops⟩] s (l.apply alu s (s.regs r)) := by
  apply Does.single
  intro pos
  have hmr := executes_alu_mr h raw alu pos r s
  have hform := fun k => writeMr_alu raw h k pos r ops
  have hrm := fun f => writeRm_memory raw h hm pos f (regOp r) ops
  have hmi := fun f d => writeMi_place raw (names_regOp address r) pos f d op
    ops
  cases alu <;> exact ⟨_, by simp [assemble, aluCode, aluNumber, hmi, hrm, hform], hmr⟩

/-- Both operands are in memory: the second one goes through the register `t`. -/
theorem does_alu_through (raw : Nat) (hm : l.isMemory = true) (alu : Alu) {src : Operand}
    {ls : Loc} (hs : Names address 8 src ls) (hms : ls.isMemory = true) (t : Reg)
    (ops : List Operand) (s : State) :
    Does address raw [⟨aluCode alu, op :: src :: regOp t :: ops⟩] s
      (l.apply alu (s.setReg t (ls.read s 8)) (ls.read s 8)) := by
  apply Does.single
  intro pos
  have hload := executes_mov_load raw (by decide : 8 ∈ sizes) (by decide) hs (.inl rfl) pos t s
  have hmerge : merge (transfer 8 8) (s.regs t) (ls.read s (transfer 8 8)) = ls.read s 8 :=
    X86.merge_eight _ _
  rw [hmerge] at hload
  have hrun := hload.append (executes_alu_mr h raw alu _ t (s.setReg t (ls.read s 8)))
  rw [X86.State.setReg_same] at hrun
  have hrm := fun f => writeRm_memory raw h hm pos f src (regOp t :: ops)
  have hmr := fun f => writeMr_memory raw hs hms pos f op (regOp t :: ops)
  have hmi := fun f d => writeMi_place raw hs pos f d op (regOp t :: ops)
  have hform := fun k => writeMm_alu raw h hm k hs hms pos t ops
  cases alu <;> exact ⟨_, by simp [assemble, aluCode, aluNumber, hmi, hmr, hrm, hform], hrun⟩

/-- The second operand is a constant of one byte or of four. -/
theorem does_alu_imm (raw : Nat) (alu : Alu) {n : Nat} (hn : n = 1 ∨ n = 4) (v : Word)
    (ops : List Operand) (s : State) :
    Does address raw [⟨aluCode alu, op :: makeImmOp n v :: ops⟩] s
      (l.apply alu s (signed n v)) := by
  apply Does.single
  intro pos
  refine ⟨_, ?_, executes_alu_imm h raw alu hn pos v s⟩
  show assemble address raw pos ⟨aluCode alu, op :: .immediate n v :: ops⟩ = _
  have hside : op.isMemory = true ∨ op.isRegister = true := by
    rw [h.isMemory, h.isRegister]
    cases l.isMemory <;> simp
  have hrm : ∀ f, writeRmInstr address raw pos f (op :: .immediate n v :: ops) = none :=
    fun _ => if_neg fun hc => hc.2.1.elim Bool.false_ne_true Bool.false_ne_true
  have hmr : ∀ f, writeMrInstr address raw pos f (op :: .immediate n v :: ops) = none :=
    fun _ => if_neg fun hc => Bool.false_ne_true hc.2.1
  have hmm : ∀ f, writeMmInstr address raw pos f (op :: .immediate n v :: ops) = none := by
    intro f
    cases ops with
    | nil => rfl
    | cons op3 ops => exact if_neg fun hc => Bool.false_ne_true hc.2.1
  have hmi : ∀ k, writeMiInstr address raw pos aluMi (digitOp k) (op :: .immediate n v :: ops) =
      if n = 4 then some (writeInstr address pos 0x81 1 (.none raw) (digitOp k) op
        (.immediate n v)) else none := by
    intro k
    show (if _ then _ else _) = _
    have himm : (Operand.immediate n v).isImmediate = true := rfl
    have hsize : (Operand.immediate n v).size = n := rfl
    rw [h.size, hsize]
    simp [hside, himm, Form.opcode, Form.opcodeSize, aluMi]
  have hmi8 : ∀ k mask c, (aluMi8 mask c).has 8 = true → mask >>> 4 = 1 → n = 1 →
      writeMi8Instr address raw pos (aluMi8 mask c) (digitOp k) (op :: .immediate n v :: ops) =
        some (writeInstr address pos 0x83 1 (.none raw) (digitOp k) op (.immediate n v)) := by
    intro k mask c hf hmask h1
    show (if _ then _ else _) = _
    rw [if_pos]
    · rw [h.size]
      simp [Form.opcode, Form.opcodeSize, aluMi8, hmask]
    · rw [h.size]
      exact And.intro hside ⟨rfl, hf, h1⟩
  have hhas : (aluMi8 0x1F 0x80).has 8 = true ∧ (aluMi8 0x1E 0).has 8 = true := by decide
  rcases hn with rfl | rfl
  · cases alu <;> simp [assemble, aluCode, aluNumber, hrm, hmr, hmm, hmi, hmi8, hhas]
  · cases alu <;> simp [assemble, aluCode, aluNumber, hrm, hmr, hmm, hmi]

theorem writeM_place (pos : Word) {f : Form} (hf : f.has 8 = true) (d : Operand)
    (ops : List Operand) : writeMInstr address raw pos f d (op :: ops) =
      some (writeInstr address pos (f.opcode 8) f.opcodeSize (.none raw) d op (.none raw)) := by
  have hside : op.isMemory = true ∨ op.isRegister = true := by
    rw [h.isMemory, h.isRegister]
    cases l.isMemory <;> simp
  show (if _ then _ else _) = _
  rw [if_pos]
  · rw [h.size]
  · rw [h.size]
    exact ⟨hside, hf⟩

theorem does_not (raw : Nat) (s : State) :
    Does address raw [⟨.not, [op]⟩] s (l.write s 8 (~~~ l.read s 8)) := by
  apply Does.single
  intro pos
  exact ⟨_, writeM_place raw h pos rfl _ [], executes_not h raw pos s⟩

theorem does_mul (raw : Nat) (s : State) :
    Does address raw [⟨.mul, [op]⟩] s (mulState s (l.read s 8)) := by
  apply Does.single
  intro pos
  exact ⟨_, writeM_place raw h pos rfl _ [], executes_mul h raw pos s⟩

theorem does_div (raw : Nat) {s : State} (hdx : s.regs X86.rdx = 0) (hy : l.read s 8 ≠ 0) :
    Does address raw [⟨.div, [op]⟩] s (divState s (l.read s 8)) := by
  apply Does.single
  intro pos
  exact ⟨_, writeM_place raw h pos rfl _ [], executes_div h raw pos hdx hy⟩

def shiftCode (left : Bool) : InstrCode := if left then .shl else .shr

theorem does_shift_cl (raw : Nat) (left : Bool) (s : State) :
    Does address raw [⟨shiftCode left, [op, makeRegOp cl]⟩] s
      (shiftState left s l ((s.regs X86.rcx).toNat % 64)) := by
  apply Does.single
  intro pos
  refine ⟨_, ?_, executes_shift_cl h raw left pos s⟩
  have hside : op.isMemory = true ∨ op.isRegister = true := by
    rw [h.isMemory, h.isRegister]
    cases l.isMemory <;> simp
  have hmc : ∀ d, writeMcInstr address raw pos shiftMc d [op, makeRegOp cl] =
      some (writeInstr address pos 0xD3 1 (.none raw) d op (.none raw)) := by
    intro d
    show (if _ then _ else _) = _
    rw [if_pos]
    · rw [h.size]
      rfl
    · rw [h.size]
      exact And.intro hside ⟨rfl, rfl, rfl⟩
  cases left <;> simp [assemble, shiftCode, hmc]

theorem does_shift_imm (raw : Nat) (left : Bool) (v : Word) (s : State) :
    Does address raw [⟨shiftCode left, [op, makeImmOp 1 v]⟩] s
      (shiftState left s l (v.toNat % 64)) := by
  apply Does.single
  intro pos
  refine ⟨_, ?_, executes_shift_imm h raw left pos v s⟩
  have hside : op.isMemory = true ∨ op.isRegister = true := by
    rw [h.isMemory, h.isRegister]
    cases l.isMemory <;> simp
  have hmc : ∀ d, writeMcInstr address raw pos shiftMc d [op, makeImmOp 1 v] = none :=
    fun _ => if_neg fun hc => Bool.false_ne_true hc.2.1
  have hmi8 : ∀ d, writeMi8Instr address raw pos shiftMi8 d [op, makeImmOp 1 v] =
      some (writeInstr address pos 0xC1 1 (.none raw) d op (.immediate 1 v)) := by
    intro d
    show (if _ then _ else _) = _
    rw [if_pos]
    · rw [h.size]
      rfl
    · rw [h.size]
      exact And.intro hside ⟨rfl, rfl, rfl⟩
  cases left <;> simp [assemble, shiftCode, hmc, hmi8]

end

/-- The instruction that makes a byte of a condition. -/
def setCode : Cond → InstrCode
  | .e => .setz
  | .b => .setc
  | _ => .seta

theorem does_set {op : Operand} {l : Loc} (h : Names address 1 op l) (raw : Nat) {c : Cond}
    (hc : c = .e ∨ c = .b ∨ c = .a) (s : State) :
    Does address raw [⟨setCode c, [op]⟩] s (l.write s 1 (if c.holds s then 1 else 0)) := by
  apply Does.single
  intro pos
  refine ⟨_, ?_, executes_set h raw c pos s⟩
  have hside : op.isMemory = true ∨ op.isRegister = true := by
    rw [h.isMemory, h.isRegister]
    cases l.isMemory <;> simp
  have hm : ∀ opcode, writeMInstr address raw pos (setForm opcode) (.none raw) [op] =
      some (writeInstr address pos opcode 2 (.none raw) (.none raw) op (.none raw)) := by
    intro opcode
    have hhas : (setForm opcode).has 1 = true := by simp [Form.has, setForm]
    show (if _ then _ else _) = _
    rw [if_pos]
    · rw [h.size]
      simp [Form.opcode, Form.opcodeSize, setForm]
    · rw [h.size]
      exact ⟨hside, hhas⟩
  rcases hc with rfl | rfl | rfl <;> simp [assemble, setCode, hm, condOpcode]

end L2.SelfHost
