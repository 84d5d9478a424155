import L2.SelfHost.ArithmeticIntrinsics
import L2.SelfHost.StoreFaults

/-!
# Results of the arithmetic intrinsics

Which code is generated for an operation, and the value that it leaves as a function of the
values of the result and of the operands before.  A division ends only if the divisor, which
may have been overwritten, is not zero.
-/

namespace L2.SelfHost

open X86 (Word Reg State Alu Cond low signed)

variable {address : Bndg → Word} {raw : Nat} {s : State}

/-! ## The code of an operation -/

/-- The general form. -/
def Operation.code (raw : Nat) (dst a b : Bndg) : Operation → List Instr
  | accumulate alu _ => generateAccumulate raw (aluCode alu) dst a (bndgToOp raw b)
  | multiply => generateMultiplication raw dst a b
  | divide => generateDivision raw dst a b rax
  | rem => generateDivision raw dst a b rdx
  | compare c => generateComparison raw (setCode c.cond) dst (bndgToOp raw a) (bndgToOp raw b)
  | shift left => [⟨.mov, [makeRegOp rcx, bndgToOp raw b]⟩] ++
    generateShift raw (shiftCode left) dst a (makeRegOp cl)
  | bnot => [⟨.mov, [bndgToOp raw dst, bndgToOp raw a, makeRegOp r11]⟩,
    ⟨.not, [bndgToOp raw dst]⟩]

/-- The form with a constant for the second operand. -/
def Operation.constantCode (raw : Nat) (dst a : Bndg) (v : Word) : Operation → List Instr
  | accumulate alu _ =>
    generateAccumulate raw (aluCode alu) dst a (makeImmOp (if sbyte v then 1 else 4) v)
  | compare c => generateComparison raw (setCode c.cond) dst (bndgToOp raw a)
    (makeImmOp (if sbyte v then 1 else 4) v)
  | shift left => generateShift raw (shiftCode left) dst a (makeImmOp 1 v)
  | multiply | divide | rem | bnot => []

/-- The constants that an operation takes. -/
def Operation.takes (v : Word) : Operation → Bool
  | accumulate _ _ | compare _ => sbyte v || sword v
  | shift _ => true
  | multiply | divide | rem | bnot => false

def Operation.arity : Operation → Nat
  | bnot => 1
  | _ => 2

section
variable {n a b : Expr} {name : String} {op : Operation} (hop : operationOf name = some op)
include hop

theorem not_setName : name ∉ setNames ∧ name ∉ getNames := by
  unfold operationOf at hop
  split at hop <;> first | decide | cases hop

section
variable (hn : matchUndefinedBinaryInvoke n = some (name, a, b)) (h2 : op.arity = 2)
include hn h2

theorem initializeBinary_operation : initializeBinary n = some .binary := by
  unfold initializeBinary
  rw [hn]
  unfold operationOf at hop
  split at hop <;> cases hop <;> first | rfl | cases h2

theorem initializeRightImm_operation : initializeRightImm n =
    if b.literalValue.elim false op.takes then some .rightImm else none := by
  unfold initializeRightImm
  rw [matchRightImm_eq hn]
  cases b.literalValue with
  | none => rfl
  | some v =>
    unfold operationOf at hop
    split at hop <;> cases hop <;> simp [Operation.takes]

/-- A literal for the second operand is a constant of the code where it can be. -/
theorem initialize_operation : initializeArithmeticIntrinsics n =
    if b.literalValue.elim false op.takes then some .rightImm else some .binary := by
  have hset : initializeSetBaseOffset n = none := by
    unfold initializeSetBaseOffset
    rw [matchSetBaseOffset_eq hn]
    cases matchBaseOffset a with
    | none => rfl
    | some p => exact if_neg (not_setName hop).1
  rw [initialize_binary_eq hn, hset, initializeRightImm_operation hop hn h2,
    initializeBinary_operation hop hn h2]
  split <;> rfl

theorem generateBinary_operation (raw : Nat) (gen : Expr → List Instr) :
    generateBinary raw gen n = [a, b].flatMap gen ++
      op.code raw n.bindingAug a.bindingAug b.bindingAug := by
  unfold generateBinary
  rw [hn]
  unfold operationOf at hop
  split at hop <;> cases hop <;> first
    | exact absurd h2 (by decide)
    | simp [Operation.code, aluCode, shiftCode, setCode, Comparison.cond]

theorem generateRightImm_operation (raw : Nat) (gen : Expr → List Instr) {v : Word}
    (hv : b.literalValue = some v) (ht : op.takes v) :
    generateRightImm raw gen n = [a].flatMap gen ++
      op.constantCode raw n.bindingAug a.bindingAug v := by
  have himm : (sbyte v || sword v) = true →
      (if sbyte v then 1 else if sword v then 4 else 0) = if sbyte v then 1 else 4 := by
    cases sbyte v <;> cases sword v <;> decide
  unfold generateRightImm
  rw [matchRightImm_eq hn, hv]
  unfold operationOf at hop
  split at hop <;> cases hop <;> first
    | exact absurd h2 (by decide)
    | exact absurd ht Bool.false_ne_true
    | simp [Operation.constantCode, aluCode, setCode, Comparison.cond, himm ht]
    | simp [Operation.constantCode, shiftCode]

end

end

/-! ## What the code leaves, and when it is the value -/

/-- The value of the result from the values `z`, `x` and `y` of the result and the operands
before, if the code ends. -/
def Operation.outcome (dst a b : Bndg) (z x y : Word) : Operation → Option Word
  | accumulate alu _ => some (alu.eval x
    (if b.storage = dst.storage ∨ b.isIn (moveScratch dst a) then x else y))
  | multiply => some (x * (if b.storage = .register rax then x else y))
  | divide => if divisor a b x y = 0 then none else some (dividend a x / divisor a b x y)
  | rem => if divisor a b x y = 0 then none else some (dividend a x % divisor a b x y)
  | compare c =>
    if dst.isCondition then some (truth (c.holds x y))
    else some (X86.merge 1 (if dst.isIn (scratch a b) then clearedValue dst b z y else 0)
      (truth (c.holds (clearedValue dst a z x) (clearedValue dst b z y))))
  | shift left =>
    let x := if a.storage = .register rcx then y else x
    some (shifted left x ((if dst.storage = .register rcx then x else y).toNat % 64))
  | bnot => some (~~~x)

/-- The same for the form with the constant `v`. -/
def Operation.constantOutcome (dst a : Bndg) (v z x : Word) : Operation → Option Word
  | compare c =>
    if dst.isCondition then some (truth (c.holds x v))
    else some (truth (c.holds (clearedValue dst a z x) v))
  | op => op.value x v

/-- The value `w` is where the result is expected: the result of a comparison that is a
condition is in the flags, and all others are in their places. -/
def Operation.Result (op : Operation) (address : Bndg → Word) (s : State) (dst : Bndg) (w : Word) :
    Prop :=
  match op with
  | compare c =>
    if dst.isCondition then (c.cond.holds s = true ↔ w ≠ 0) else valueAt address s dst = w
  | _ => valueAt address s dst = w

theorem truth_ne_zero (b : Bool) : truth b ≠ 0 ↔ b = true := by
  cases b <;> decide

section
variable {dst a b : Bndg} (hd : Placed stackRegisters dst) (ha : Placed stackRegisters a)
include hd ha

section
variable (hb : Placed stackRegisters b)
include hb

theorem code_outcome (hl : Laid address s [dst, a, b]) (raw : Nat) (op : Operation) {w : Word}
    (h : op.outcome dst a b (valueAt address s dst) (valueAt address s a) (valueAt address s b) =
      some w) :
    ∃ s', Does address raw (op.code raw dst a b) s s' ∧ op.Result address s' dst w := by
  cases op with
  | accumulate alu halu =>
    rw [← Option.some.inj h]
    exact accumulate_value hl hd ha hb raw halu
  | multiply =>
    rw [← Option.some.inj h]
    exact multiply_value hd ha hb raw
  | divide =>
    obtain ⟨hy, hw⟩ := Option.ite_none_left_eq_some.mp h
    rw [← Option.some.inj hw]
    exact divide_value hd ha hb raw false hy
  | rem =>
    obtain ⟨hy, hw⟩ := Option.ite_none_left_eq_some.mp h
    rw [← Option.some.inj hw]
    exact divide_value hd ha hb raw true hy
  | compare c =>
    cases hcond : dst.isCondition with
    | true =>
      have hw : truth (c.holds (valueAt address s a) (valueAt address s b)) = w := by
        simpa [Operation.outcome, hcond] using h
      obtain ⟨s', hdoes, hflags⟩ := compare_flags ha raw address s hb c hcond
      refine ⟨s', hdoes, ?_⟩
      show if dst.isCondition then _ else _
      rw [if_pos hcond, ← hw, truth_ne_zero, hflags]
    | false =>
      obtain ⟨s', hdoes, hvalue⟩ := compare_value hl hd ha hb raw c hcond
      refine ⟨s', hdoes, ?_⟩
      show if dst.isCondition then _ else _
      rw [if_neg (by simp [hcond]), hvalue]
      exact Option.some.inj (by simpa [Operation.outcome, hcond] using h)
  | shift left =>
    rw [← Option.some.inj h]
    exact shift_value hd ha raw left hb
  | bnot =>
    rw [← Option.some.inj h]
    exact complement_value hd ha raw

end

theorem constantCode_outcome (hl : Laid address s [dst, a]) (raw : Nat) {op : Operation} {v : Word}
    (ht : op.takes v) {w : Word}
    (h : op.constantOutcome dst a v (valueAt address s dst) (valueAt address s a) = some w) :
    ∃ s', Does address raw (op.constantCode raw dst a v) s s' ∧ op.Result address s' dst w := by
  have hl' : Laid address s [dst, a, a] := by
    intro e he e' he'
    exact hl e (by simpa using he) e' (by simpa using he')
  have hn : (if sbyte v then 1 else 4) = 1 ∨ (if sbyte v then 1 else 4) = 4 := by
    cases sbyte v <;> simp
  have hv : (sbyte v || sword v) = true → signed (if sbyte v then 1 else 4) v = v := by
    intro hsize
    cases hs : sbyte v with
    | true => exact signed_of_sbyte hs
    | false =>
      rw [hs, Bool.false_or] at hsize
      exact signed_of_sword hsize
  cases op with
  | accumulate alu halu =>
    rw [← Option.some.inj h]
    exact accumulate_constant_value hl' hd ha raw halu hn (hv ht)
  | compare c =>
    cases hcond : dst.isCondition with
    | true =>
      have hw : truth (c.holds (valueAt address s a) v) = w := by
        simpa [Operation.constantOutcome, hcond] using h
      obtain ⟨s', hdoes, hflags⟩ := compare_constant_flags ha raw address s c hcond hn
        (hv ht)
      refine ⟨s', hdoes, ?_⟩
      show if dst.isCondition then _ else _
      rw [if_pos hcond, ← hw, truth_ne_zero, hflags]
    | false =>
      obtain ⟨s', hdoes, hvalue⟩ := compare_constant_value hl' hd ha raw c hcond hn (hv ht)
      refine ⟨s', hdoes, ?_⟩
      show if dst.isCondition then _ else _
      rw [if_neg (by simp [hcond]), hvalue]
      exact Option.some.inj (by simpa [Operation.constantOutcome, hcond] using h)
  | shift left =>
    rw [← Option.some.inj h]
    exact shift_constant_value hd ha raw left v
  | _ => cases ht

end

/-! ## What the code cannot do -/

theorem fitting_cons (op : Operand) (ops : List Operand) :
    Fitting (op :: ops) ↔ op.span ≤ 8 ∧ Fitting ops := List.forall_mem_cons

theorem fitting_nil : Fitting [] := fun _ h => absurd h List.not_mem_nil

theorem span_regOp (r : Register) : (makeRegOp r).span ≤ 8 := Nat.zero_le 8

theorem span_immOp {n : Nat} (hn : n ≤ 8) (v : Word) : (makeImmOp n v).span ≤ 8 := by
  show 0 + (X86.bytesOf n v).length ≤ 8
  rw [X86.length_bytesOf]
  omega

theorem span_op (raw : Nat) (b : Bndg) : (bndgToOp raw b).span ≤ 8 := span_partialOp raw b.size b

/-- The instructions of the arithmetic intrinsics are short ones. -/
theorem fitting_code (raw : Nat) (dst a b : Bndg) (op : Operation) :
    (∀ n ∈ op.code raw dst a b, Fitting n.operands) ∧ (op.code raw dst a b).length < 2 ^ 20 := by
  have hmove : ∀ n ∈ generateBndgBndgMove raw dst a r11, Fitting n.operands := by
    unfold generateBndgBndgMove
    split <;> simp [fitting_cons, fitting_nil, span_op, span_regOp]
  have hlen : (generateBndgBndgMove raw dst a r11).length ≤ 1 := by
    unfold generateBndgBndgMove
    split <;> simp
  cases op with
  | accumulate alu h =>
    refine ⟨List.forall_mem_append.mpr ⟨hmove, ?_⟩, ?_⟩
    · simp [fitting_cons, fitting_nil, span_op, span_regOp]
    · show (generateBndgBndgMove raw dst a r11 ++ [_]).length < _
      rw [List.length_append, List.length_singleton]
      omega
  | compare c =>
    cases hc : dst.isCondition <;>
      simp [Operation.code, generateComparison, hc, fitting_cons, fitting_nil, span_op,
        span_regOp, span_partialOp]
  | _ =>
    simp [Operation.code, generateMultiplication, generateDivision, generateShift, fitting_cons,
      fitting_nil, span_op, span_regOp]

theorem fitting_constantCode (raw : Nat) (dst a : Bndg) (v : Word) (op : Operation) :
    (∀ n ∈ op.constantCode raw dst a v, Fitting n.operands) ∧
      (op.constantCode raw dst a v).length < 2 ^ 20 := by
  have himm : ∀ b : Bool, (makeImmOp (if b then 1 else 4) v).span ≤ 8 := by
    intro b
    cases b
    · exact span_immOp (by decide) v
    · exact span_immOp (by decide) v
  have himm' : (makeImmOp 1 v).span ≤ 8 := span_immOp (by decide) v
  have hmove : ∀ n ∈ generateBndgBndgMove raw dst a r11, Fitting n.operands := by
    unfold generateBndgBndgMove
    split <;> simp [fitting_cons, fitting_nil, span_op, span_regOp]
  have hlen : (generateBndgBndgMove raw dst a r11).length ≤ 1 := by
    unfold generateBndgBndgMove
    split <;> simp
  cases op with
  | accumulate alu h =>
    refine ⟨List.forall_mem_append.mpr ⟨hmove, ?_⟩, ?_⟩
    · simp [fitting_cons, fitting_nil, span_op, span_regOp, himm]
    · show (generateBndgBndgMove raw dst a r11 ++ [_]).length < _
      rw [List.length_append, List.length_singleton]
      omega
  | compare c =>
    cases hc : dst.isCondition <;>
      simp [Operation.constantCode, generateComparison, hc, fitting_cons, fitting_nil, span_op,
        span_regOp, span_partialOp, himm]
  | _ =>
    simp [Operation.constantCode, generateShift, fitting_cons, fitting_nil, span_op, span_regOp,
      himm']

/-- A division by zero does not end. -/
theorem not_does_division (hlow : Low address) {dst a b : Bndg} (ha : Placed stackRegisters a)
    (hb : Placed stackRegisters b) {result : Register}
    (hy : divisor a b (valueAt address s a) (valueAt address s b) = 0) (s' : State)
    (ho : (∀ n ∈ generateDivision raw dst a b result, Fitting n.operands)) :
    ¬ Does address raw (generateDivision raw dst a b result) s s' := by
  obtain ⟨s₁, hbefore, _, _, hsecond⟩ := does_dividend ha hb raw address s
  have hnames : Names address 8 (bndgToOp raw b) (locOf address b) := hb.names_word address raw
  refine @not_does_of_stuck _ _ hlow _
    [⟨.mov, [bndgToOp raw dst, makeRegOp result]⟩] _ _ _ hbefore ?_ ho (by simp) s'
  intro pos bs es hbs _ hw
  have hwrite : writeInstr address pos 0xF7 1 (.none raw) (digitOp 6) (bndgToOp raw b)
      (.none raw) = bs := Option.some.inj ((writeM_place raw hnames pos rfl _ []).symm.trans hbs)
  subst hwrite
  constructor
  · intro h
    have hhead := (List.append_eq_nil_iff.mp h).1
    unfold writeHead at hhead
    simp [X86.bytesOf] at hhead
  · exact step_div_zero hnames raw (hsecond.trans hy) hw es

end L2.SelfHost
