import L2.SelfHost.Layouts
import L2.SelfHost.RuntimeRoutines
import L2.SelfHost.Stores

/-!
# The code of the arithmetic intrinsics

What the code of `+`, `=`, `<<` and the others leaves in the place of the result, for every
three places of the operands and the result: also where an operand is overwritten before it
is used, by the move of the other one or by the register that this goes through.
-/

namespace L2.SelfHost

open X86 (Word Reg State Alu Cond low signed)

variable {address : Bndg → Word} {raw : Nat} {s : State}

/-! ## What the code leaves -/

/-- The register that goes between two operands in memory. -/
def scratch (dst src : Bndg) : List Reg :=
  if dst.inRegister ∨ src.inRegister then [] else [X86.r11]

/-- The same for a move, which is left out within one place. -/
def moveScratch (dst src : Bndg) : List Reg :=
  if dst.storage = src.storage then [] else scratch dst src

theorem through_eq (dst src : Bndg) :
    through (locOf address dst) (locOf address src) = scratch dst src := by
  unfold through scratch
  rw [inRegister_iff address dst, inRegister_iff address src]
  cases (locOf address dst).isMemory <;> cases (locOf address src).isMemory <;> rfl

theorem makeRegOp_reg64 (r : Reg) : makeRegOp (reg64 r) = regOp r :=
  makeRegOp_regN (n := 8) (by decide) r

/-- What a binding that held `v` holds after the result, which held `z`, has been cleared. -/
def clearedValue (dst b : Bndg) (z v : Word) : Word :=
  if b.storage = dst.storage then 0 else if b.isIn (scratch dst dst) then z else v

/-! ### Single instructions -/

section
variable {dst a b : Bndg}

section
variable (hd : Placed stackRegisters dst)
include hd

theorem does_clear (raw : Nat) (address : Bndg → Word) (s : State) :
    ∃ s', Does address raw [⟨.xor, [bndgToOp raw dst, bndgToOp raw dst, makeRegOp r11]⟩] s s' ∧
      Sets (scratch dst dst) (valueAt address s dst) (locOf address dst) 0 s s' := by
  have hnames := hd.names_word address raw
  have hxor : Alu.xor ≠ .cmp := by decide
  have hsets := sets_alu (d := locOf address dst) (a := locOf address dst) hxor hd.usable s
  have hzero : Alu.xor.eval ((locOf address dst).read s 8) ((locOf address dst).read s 8) = 0 :=
    BitVec.xor_self
  rw [through_eq, hzero] at hsets
  exact ⟨_, does_alu hnames hnames raw .xor s, hsets⟩

/-- The low byte of the result is set. -/
theorem does_set_result (raw : Nat) (c : Comparison) {x y : Word}
    (hz : s.zf = (x - y == 0)) (hc : s.cf = decide (x.toNat < y.toNat)) :
    ∃ s', Does address raw [⟨setCode c.cond, [bndgToPartialOp raw 1 dst]⟩] s s' ∧
      valueAt address s' dst = X86.merge 1 (valueAt address s dst) (truth (c.holds x y)) := by
  have hcond : c.cond = .e ∨ c.cond = .b ∨ c.cond = .a := by cases c <;> decide
  refine ⟨_, does_set (hd.names address raw (by decide)) raw hcond s, ?_⟩
  rw [c.holds_flags hz hc]
  exact read_write_byte s _ _

end

section
variable (ha : Placed stackRegisters a)
include ha

theorem does_compare_constant (raw : Nat) (address : Bndg → Word) (s : State) {n : Nat}
    (hn : n = 1 ∨ n = 4) {v : Word} (hv : signed n v = v) :
    ∃ s', Does address raw [⟨.cmp, [bndgToOp raw a, makeImmOp n v, makeRegOp r11]⟩] s s' ∧
      s'.zf = (valueAt address s a - v == 0) ∧
      s'.cf = decide ((valueAt address s a).toNat < v.toNat) ∧
      ∀ d, valueAt address s' d = valueAt address s d := by
  have hdoes := does_alu_imm (ha.names_word address raw) raw .cmp hn v [makeRegOp r11] s
  rw [hv] at hdoes
  exact ⟨_, hdoes, rfl, rfl, fun d => read_setFlags _ _ 8⟩

theorem read_load_register {r : Reg} (hr : r ∉ stackRegisters) (v : Word) :
    valueAt address (s.setReg r v) a =
      if a.storage = .register (reg64 r) then v else valueAt address s a := by
  have hbp : r ≠ X86.rbp := (usable_reg hr).2
  by_cases h : a.storage = .register (reg64 r)
  · rw [if_pos h]
    unfold valueAt
    rw [(ha.eq_reg_iff r).mpr h, read_reg, State.setReg_same]
  · rw [if_neg h]
    exact read_setReg ha.usable hbp (fun heq => h ((ha.eq_reg_iff r).mp heq)) 8

end

theorem does_compare (raw : Nat) (address : Bndg → Word) (s : State)
    (ha : Placed stackRegisters a) (hb : Placed stackRegisters b) :
    ∃ s', Does address raw [⟨.cmp, [bndgToOp raw a, bndgToOp raw b, makeRegOp r11]⟩] s s' ∧
      s'.zf = (valueAt address s a - valueAt address s b == 0) ∧
      s'.cf = decide ((valueAt address s a).toNat < (valueAt address s b).toNat) ∧
      ∀ d, Placed stackRegisters d → valueAt address s' d =
        if d.isIn (scratch a b) then valueAt address s b else valueAt address s d := by
  obtain ⟨hz, hc⟩ := flags_cmp ha.usable (locOf address b) s
  refine ⟨_, does_alu (ha.names_word address raw) (hb.names_word address raw) raw .cmp s, hz, hc,
    ?_⟩
  intro d hpd
  have hread := read_cmp (l := locOf address d) (locOf address a) (locOf address b) hpd.usable s
  rw [through_eq] at hread
  simp only [isIn_iff hpd] at hread
  exact hread

end

/-! ### Sums and comparisons -/

section
variable {dst a b : Bndg} (hl : Laid address s [dst, a, b]) (hd : Placed stackRegisters dst)
  (ha : Placed stackRegisters a)

section
include hl hd ha

theorem does_bndgMove (raw : Nat) :
    ∃ s', Does address raw (generateBndgBndgMove raw dst a r11) s s' ∧
      Sets (moveScratch dst a) (valueAt address s a) (locOf address dst) (valueAt address s a)
        s s' := by
  unfold generateBndgBndgMove bndgEq moveScratch
  rw [hd.1, ha.1]
  by_cases hs : dst.storage = a.storage
  · have heq : locOf address dst = locOf address a :=
      (hl.eq_iff (by simp) (by simp)).mpr hs
    simp only [hs, and_self, decide_true, if_true]
    refine ⟨s, Does.nil s, ?_, fun _ _ _ _ => rfl, fun _ hr => absurd hr List.not_mem_nil, rfl⟩
    rw [heq]
    rfl
  · obtain ⟨s', hdoes, hsets⟩ :=
      does_move (hd.names_word address raw) (ha.names_word address raw) hd.usable raw s
    simp only [hs, false_and, decide_false, Bool.false_eq_true, if_false]
    rw [through_eq] at hsets
    exact ⟨s', hdoes, hsets⟩

theorem accumulate_constant_value (raw : Nat) {alu : Alu} (halu : alu ≠ .cmp) {n : Nat}
    (hn : n = 1 ∨ n = 4) {v : Word} (hv : signed n v = v) :
    ∃ s', Does address raw (generateAccumulate raw (aluCode alu) dst a (makeImmOp n v)) s s' ∧
      valueAt address s' dst = alu.eval (valueAt address s a) v := by
  obtain ⟨s₁, hmove, hsets⟩ := does_bndgMove hl hd ha raw
  have hdoes := does_alu_imm (hd.names_word address raw) raw alu hn v [makeRegOp r11] s₁
  have hdst : (locOf address dst).read s₁ 8 = valueAt address s a := hsets.value
  refine ⟨_, hmove.append hdoes, ?_⟩
  rw [hv, apply_eq halu, hdst]
  exact (read_setFlags _ _ 8).trans (read_write s₁ _ _)

theorem compare_constant_value (raw : Nat) (c : Comparison) (hcond : dst.isCondition = false)
    {n : Nat} (hn : n = 1 ∨ n = 4) {v : Word} (hv : signed n v = v) :
    ∃ s', Does address raw (generateComparison raw (setCode c.cond) dst (bndgToOp raw a)
        (makeImmOp n v)) s s' ∧
      valueAt address s' dst = truth (c.holds
        (clearedValue dst a (valueAt address s dst) (valueAt address s a)) v) := by
  obtain ⟨s₁, hclear, hsets⟩ := does_clear hd raw address s
  have hvalue : valueAt address s₁ a =
      clearedValue dst a (valueAt address s dst) (valueAt address s a) :=
    hsets.valueAt hl (by simp) (by simp) ha
  have hdst : valueAt address s₁ dst = 0 := hsets.value
  obtain ⟨s₂, hcmp, hz, hc, hkept⟩ :=
    does_compare_constant ha raw address s₁ hn hv
  obtain ⟨s₃, hset, hresult⟩ := does_set_result hd raw c hz hc
  unfold generateComparison
  rw [hcond]
  refine ⟨s₃, (hclear.append hcmp).append hset, ?_⟩
  rw [hresult, hkept dst, hvalue, hdst, merge_byte]

end

section
variable (hb : Placed stackRegisters b)
include hl hd ha hb

/-- The second operand may have been overwritten by the first one. -/
theorem accumulate_value (raw : Nat) {alu : Alu} (halu : alu ≠ .cmp) :
    ∃ s', Does address raw (generateAccumulate raw (aluCode alu) dst a (bndgToOp raw b)) s s' ∧
      valueAt address s' dst = alu.eval (valueAt address s a)
        (if b.storage = dst.storage ∨ b.isIn (moveScratch dst a) then valueAt address s a
          else valueAt address s b) := by
  obtain ⟨s₁, hmove, hsets⟩ := does_bndgMove hl hd ha raw
  have hdoes := does_alu (hd.names_word address raw) (hb.names_word address raw) raw alu s₁
  have hvalue : valueAt address s₁ b = _ := hsets.valueAt hl (by simp) (by simp) hb
  have hdst : valueAt address s₁ dst = valueAt address s a := hsets.value
  refine ⟨_, hmove.append hdoes, ?_⟩
  have hresult : valueAt address (aluState alu (locOf address dst) (locOf address b) s₁) dst =
      alu.eval (valueAt address s₁ dst) (valueAt address s₁ b) :=
    (sets_alu halu hd.usable s₁).value
  rw [hresult, hdst, hvalue]
  by_cases h1 : b.storage = dst.storage
  · simp [h1]
  · simp [h1]

/-- The operands are compared after the result has been cleared. -/
theorem compare_value (raw : Nat) (c : Comparison) (hcond : dst.isCondition = false) :
    ∃ s', Does address raw (generateComparison raw (setCode c.cond) dst (bndgToOp raw a)
        (bndgToOp raw b)) s s' ∧
      valueAt address s' dst = X86.merge 1
        (if dst.isIn (scratch a b) then
          clearedValue dst b (valueAt address s dst) (valueAt address s b) else 0)
        (truth (c.holds (clearedValue dst a (valueAt address s dst) (valueAt address s a))
          (clearedValue dst b (valueAt address s dst) (valueAt address s b)))) := by
  obtain ⟨s₁, hclear, hsets⟩ := does_clear hd raw address s
  have hvalue : ∀ e ∈ [dst, a, b], Placed stackRegisters e →
      valueAt address s₁ e = clearedValue dst e (valueAt address s dst) (valueAt address s e) :=
    fun e he hp => hsets.valueAt hl (by simp) he hp
  have hdst : valueAt address s₁ dst = 0 := hsets.value
  obtain ⟨s₂, hcmp, hz, hc, hkept⟩ := does_compare raw address s₁ ha hb
  obtain ⟨s₃, hset, hresult⟩ := does_set_result hd raw c hz hc
  unfold generateComparison
  rw [hcond]
  refine ⟨s₃, (hclear.append hcmp).append hset, ?_⟩
  rw [hresult, hkept dst hd, hvalue a (by simp) ha, hvalue b (by simp) hb, hdst]

end

include ha

theorem compare_constant_flags (raw : Nat) (address : Bndg → Word) (s : State) (c : Comparison)
    (hcond : dst.isCondition = true) {n : Nat} (hn : n = 1 ∨ n = 4) {v : Word}
    (hv : signed n v = v) :
    ∃ s', Does address raw (generateComparison raw (setCode c.cond) dst (bndgToOp raw a)
        (makeImmOp n v)) s s' ∧ c.cond.holds s' = c.holds (valueAt address s a) v := by
  obtain ⟨s', hcmp, hz, hc, _⟩ := does_compare_constant ha raw address s hn hv
  unfold generateComparison
  rw [hcond]
  exact ⟨s', hcmp, c.holds_flags hz hc⟩

/-- For a condition only the flags are left. -/
theorem compare_flags (raw : Nat) (address : Bndg → Word) (s : State)
    (hb : Placed stackRegisters b) (c : Comparison) (hcond : dst.isCondition = true) :
    ∃ s', Does address raw (generateComparison raw (setCode c.cond) dst (bndgToOp raw a)
        (bndgToOp raw b)) s s' ∧
      c.cond.holds s' = c.holds (valueAt address s a) (valueAt address s b) := by
  obtain ⟨s', hcmp, hz, hc, _⟩ := does_compare raw address s ha hb
  unfold generateComparison
  rw [hcond]
  exact ⟨s', hcmp, c.holds_flags hz hc⟩

end

/-! ### Shifts -/

section
variable {dst a b : Bndg} (hd : Placed stackRegisters dst) (ha : Placed stackRegisters a)
include hd ha

/-- A shift of the first operand, when the count is in `rcx` unless it has been overwritten. -/
theorem does_shift (raw : Nat) (address : Bndg → Word) (s : State) (left : Bool) :
    ∃ s', Does address raw (generateShift raw (shiftCode left) dst a (makeRegOp cl)) s s' ∧
      valueAt address s' dst = shifted left (valueAt address s a)
        ((if dst.storage = .register rcx then valueAt address s a
          else s.regs X86.rcx).toNat % 64) := by
  obtain ⟨s₁, hmove, hsets⟩ :=
    does_move (hd.names_word address raw) (ha.names_word address raw) hd.usable raw s
  have hshift := does_shift_cl (hd.names_word address raw) raw left s₁
  have hdst : (locOf address dst).read s₁ 8 = valueAt address s a := hsets.value
  have hcount := hsets.read (usable_reg (r := X86.rcx) (by decide)) (reg_eq_or_apart _ _)
  have hscratch : Loc.reg X86.rcx ∉
      (through (locOf address dst) (locOf address a)).map Loc.reg := by
    intro h
    cases (mem_through.mp h).2.2
  have hstorage : Loc.reg X86.rcx = locOf address dst ↔ dst.storage = .register rcx :=
    eq_comm.trans (hd.eq_reg_iff X86.rcx)
  rw [read_reg, read_reg, if_neg hscratch] at hcount
  simp only [hstorage] at hcount
  refine ⟨_, hmove.append hshift, ?_⟩
  show (locOf address dst).read _ 8 = _
  rw [read_shiftState, hdst, hcount]
  rfl

theorem shift_constant_value (raw : Nat) (left : Bool) (v : Word) :
    ∃ s', Does address raw (generateShift raw (shiftCode left) dst a (makeImmOp 1 v)) s s' ∧
      valueAt address s' dst = shifted left (valueAt address s a) (v.toNat % 64) := by
  obtain ⟨s₁, hmove, hsets⟩ :=
    does_move (hd.names_word address raw) (ha.names_word address raw) hd.usable raw s
  have hshift := does_shift_imm (hd.names_word address raw) raw left v s₁
  have hdst : (locOf address dst).read s₁ 8 = valueAt address s a := hsets.value
  refine ⟨_, hmove.append hshift, ?_⟩
  show (locOf address dst).read _ 8 = _
  rw [read_shiftState, hdst]

/-- The count is loaded into `rcx` before the first operand is moved. -/
theorem shift_value (raw : Nat) (left : Bool) (hb : Placed stackRegisters b) :
    ∃ s', Does address raw ([⟨.mov, [makeRegOp rcx, bndgToOp raw b]⟩] ++
        generateShift raw (shiftCode left) dst a (makeRegOp cl)) s s' ∧
      valueAt address s' dst =
        (let x := if a.storage = .register rcx then valueAt address s b else valueAt address s a
        shifted left x
          ((if dst.storage = .register rcx then x else valueAt address s b).toNat % 64)) := by
  have hload := does_load (hb.names_word address raw) raw X86.rcx [] s
  rw [← makeRegOp_reg64] at hload
  set s₁ := s.setReg X86.rcx ((locOf address b).read s 8) with hs₁
  obtain ⟨s', hdoes, hvalue⟩ := does_shift hd ha raw address s₁ left
  refine ⟨s', hload.append hdoes, ?_⟩
  have hcount : s₁.regs X86.rcx = valueAt address s b := State.setReg_same s _ _
  have hfirst : valueAt address s₁ a =
      if a.storage = .register rcx then valueAt address s b else valueAt address s a :=
    read_load_register ha (by decide) _
  rw [hvalue, hcount, hfirst]

theorem complement_value (raw : Nat) :
    ∃ s', Does address raw [⟨.mov, [bndgToOp raw dst, bndgToOp raw a, makeRegOp r11]⟩,
        ⟨.not, [bndgToOp raw dst]⟩] s s' ∧
      valueAt address s' dst = ~~~ valueAt address s a := by
  obtain ⟨s₁, hmove, hsets⟩ :=
    does_move (hd.names_word address raw) (ha.names_word address raw) hd.usable raw s
  have hnot := does_not (hd.names_word address raw) raw s₁
  have hdst : (locOf address dst).read s₁ 8 = valueAt address s a := hsets.value
  refine ⟨_, hmove.append hnot, ?_⟩
  show (locOf address dst).read _ 8 = _
  rw [read_write, hdst]

end

/-! ### Products and quotients -/

section
variable {dst a b : Bndg} (hd : Placed stackRegisters dst) (ha : Placed stackRegisters a)
  (hb : Placed stackRegisters b)
include ha hb

include hd in
/-- The first operand is loaded into `rax` before the second one is used. -/
theorem multiply_value (raw : Nat) :
    ∃ s', Does address raw (generateMultiplication raw dst a b) s s' ∧
      valueAt address s' dst = valueAt address s a *
        (if b.storage = .register rax then valueAt address s a else valueAt address s b) := by
  have hload := does_load (ha.names_word address raw) raw X86.rax [] s
  set s₁ := s.setReg X86.rax ((locOf address a).read s 8) with hs₁
  have hmul := does_mul (hb.names_word address raw) raw s₁
  have hstore := does_store (hd.names_word address raw) raw X86.rax []
    (mulState s₁ ((locOf address b).read s₁ 8))
  have hsecond : (locOf address b).read s₁ 8 =
      if b.storage = .register rax then valueAt address s a else valueAt address s b :=
    read_load_register hb (by decide) _
  have hfirst : s₁.regs X86.rax = valueAt address s a := State.setReg_same s _ _
  refine ⟨_, (hload.append hmul).append hstore, ?_⟩
  show (locOf address dst).read _ 8 = _
  rw [read_write, mulState_rax, hsecond, hfirst]

/-- The operands of a division, after `rdx` has been cleared and the first one has been
loaded into `rax`. -/
def dividend (a : Bndg) (x : Word) : Word := if a.storage = .register rdx then 0 else x

def divisor (a b : Bndg) (x y : Word) : Word :=
  if b.storage = .register rax then dividend a x
  else if b.storage = .register rdx then 0
  else y

/-- The part before the division. -/
theorem does_dividend (raw : Nat) (address : Bndg → Word) (s : State) :
    ∃ s', Does address raw [⟨.xor, [makeRegOp rdx, makeRegOp rdx]⟩,
        ⟨.mov, [makeRegOp rax, bndgToOp raw a]⟩] s s' ∧
      s'.regs X86.rdx = 0 ∧ s'.regs X86.rax = dividend a (valueAt address s a) ∧
      valueAt address s' b = divisor a b (valueAt address s a) (valueAt address s b) := by
  have hclear := does_alu_reg (names_regOp address X86.rdx) raw .xor X86.rdx [] s
  have hzero : Alu.xor.eval (s.regs X86.rdx) (s.regs X86.rdx) = 0 := BitVec.xor_self
  rw [apply_eq (by decide), write_reg, read_reg, hzero] at hclear
  set s₁ := (s.setReg X86.rdx 0).setFlags (0 == (0 : Word))
    (Alu.xor.carry (s.regs X86.rdx) (s.regs X86.rdx)) with hs₁
  have hread : ∀ e, Placed stackRegisters e → valueAt address s₁ e =
      if e.storage = .register rdx then 0 else valueAt address s e :=
    fun e he => (read_setFlags _ _ 8).trans (read_load_register he (by decide) 0)
  have hload := does_load (ha.names_word address raw) raw X86.rax [] s₁
  have hsecond : valueAt address (s₁.setReg X86.rax (valueAt address s₁ a)) b =
      if b.storage = .register rax then valueAt address s₁ a else valueAt address s₁ b :=
    read_load_register hb (by decide) _
  refine ⟨_, hclear.append hload, ?_, ?_, ?_⟩
  · exact State.setReg_of_ne _ _ (by decide)
  · exact (State.setReg_same s₁ _ _).trans (hread a ha)
  · exact hsecond.trans (by rw [hread a ha, hread b hb]; rfl)

def divided (remainder : Bool) (x y : Word) : Word := if remainder then x % y else x / y

include hd in
theorem divide_value (raw : Nat) (remainder : Bool)
    (hy : divisor a b (valueAt address s a) (valueAt address s b) ≠ 0) :
    ∃ s', Does address raw (generateDivision raw dst a b (if remainder then rdx else rax)) s s' ∧
      valueAt address s' dst =
        divided remainder (dividend a (valueAt address s a))
          (divisor a b (valueAt address s a) (valueAt address s b)) := by
  obtain ⟨s₁, hbefore, hdx, hax, hsecond⟩ := does_dividend ha hb raw address s
  have hdiv := does_div (hb.names_word address raw) raw hdx (fun h => hy (hsecond.symm.trans h))
  cases remainder with
  | true =>
    have hstore := does_store (hd.names_word address raw) raw X86.rdx []
      (divState s₁ ((locOf address b).read s₁ 8))
    refine ⟨_, (hbefore.append hdiv).append hstore, ?_⟩
    show (locOf address dst).read _ 8 = _
    rw [read_write, divState_rdx, hax]
    exact congrArg _ hsecond
  | false =>
    have hstore := does_store (hd.names_word address raw) raw X86.rax []
      (divState s₁ ((locOf address b).read s₁ 8))
    refine ⟨_, (hbefore.append hdiv).append hstore, ?_⟩
    show (locOf address dst).read _ 8 = _
    rw [read_write, divState_rax, hax]
    exact congrArg _ hsecond

end

end L2.SelfHost
