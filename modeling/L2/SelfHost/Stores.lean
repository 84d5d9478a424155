import L2.SelfHost.Intrinsics
import L2.SelfHost.Placement

/-!
# The store intrinsics

What the code of `setNb` does to memory.  The base of the address is brought into a
register and the value is stored from a register, from memory through a scratch register,
or as a constant.  The number of bytes that are stored is the one in the name unless the
scratch register is wider, or the constant is of two bytes.
-/

namespace L2.SelfHost

open X86 (Word Reg State low load store merge signed)

/-- The registers that no operand of a store is placed in. -/
def storeReserved : List Reg := [X86.rsp, X86.rbp, X86.r10, X86.r11]

/-- How many bytes an intrinsic stores. -/
def setWidth (name : String) : Option Nat :=
  match name with
  | "setb" | "set1b" => some 1
  | "set2b" => some 2
  | "set4b" => some 4
  | "set8b" | "set" => some 8
  | _ => none

variable {address : Bndg → Word} {raw : Nat}

/-! ## The base of the address -/

theorem exists_moveToRegister (raw : Nat) {base : Bndg} (hb : Placed storeReserved base)
    (s : State) :
    ∃ (i : Reg) (s₁ : State), (generateMoveToRegister raw r10 base).1 = reg64 i ∧ i ≠ X86.r11 ∧
      Does address raw (generateMoveToRegister raw r10 base).2 s s₁ ∧ s₁.mem = s.mem ∧
      s₁.regs i = (locOf address base).read s 8 ∧ ∀ q, q ≠ X86.r10 → s₁.regs q = s.regs q := by
  by_cases hreg : ∃ r, base.storage = .register r
  · obtain ⟨r, hr⟩ := hreg
    have hp := hb.2
    rw [hr] at hp
    obtain ⟨i, rfl, hi⟩ := hp
    have hmove : generateMoveToRegister raw r10 base = (reg64 i, []) := by
      unfold generateMoveToRegister
      rw [hr]
    have hloc : locOf address base = .reg i := by
      unfold locOf
      rw [hr]
      exact congrArg Loc.reg (regNumber_reg64 i)
    refine ⟨i, s, congrArg Prod.fst hmove, fun h => hi (by simp [h, storeReserved]), ?_, rfl, ?_,
      fun _ _ => rfl⟩
    · rw [hmove]
      exact Does.nil s
    · rw [hloc]
      exact (X86.low_eight _).symm
  · have hmem : (locOf address base).isMemory = true := by
      unfold locOf
      cases hs : base.storage with
      | register r => exact absurd ⟨r, hs⟩ hreg
      | _ => rfl
    have hmove : generateMoveToRegister raw r10 base =
        (r10, [⟨.mov, [makeRegOp r10, bndgToOp raw base]⟩]) := by
      unfold generateMoveToRegister
      cases hs : base.storage with
      | register r => exact absurd ⟨r, hs⟩ hreg
      | _ => rfl
    refine ⟨X86.r10, s.setReg X86.r10 (merge 8 (s.regs X86.r10) ((locOf address base).read s 8)),
      congrArg Prod.fst hmove, by decide, ?_, rfl, ?_, ?_⟩
    · rw [hmove]
      exact does_mov_to_reg (by decide) (hb.names_word address raw) hmem X86.r10 [] s
    · rw [State.setReg_same, X86.merge_eight]
    · intro q hq
      exact State.setReg_of_ne _ _ hq

/-! ## The store -/

/-- The operand at the address: a displacement from a register. -/
theorem names_target {n : Nat} (i : Reg) (disp : Word) {dispSize : Nat}
    (hd : dispSize = 1 ∨ dispSize = 4) :
    Names address n (makeMemOp n (reg64 i) noRegister 0 disp dispSize)
      (.mem i (signed dispSize disp)) := .mem i disp dispSize hd

/-- A store is decided by what the move does once the base is in a register. -/
theorem does_generateSet {base : Bndg} (hb : Placed storeReserved base) {size dispSize e : Nat}
    {disp w : Word} {value : Operand} {scratch : Register} {s : State}
    (hmove : ∀ (i : Reg) (s₁ : State), i ≠ X86.r11 → s₁.mem = s.mem →
      (∀ q, q ≠ X86.r10 → s₁.regs q = s.regs q) → ∃ s', Does address raw
        [⟨.mov, [makeMemOp size (reg64 i) noRegister 0 disp dispSize, value, makeRegOp scratch]⟩]
        s₁ s' ∧ s'.mem = store s₁.mem (s₁.regs i + signed dispSize disp) e w) :
    ∃ s', Does address raw (generateSet raw base size disp dispSize value scratch) s s' ∧
      s'.mem = store s.mem ((locOf address base).read s 8 + signed dispSize disp) e w := by
  obtain ⟨i, s₁, hi, h11, hdoes, hmem, hbase, hregs⟩ :=
    exists_moveToRegister raw hb s
  obtain ⟨s', hdoes', hmem'⟩ := hmove i s₁ h11 hmem hregs
  refine ⟨s', ?_, ?_⟩
  · unfold generateSet
    rw [← hi] at hdoes'
    exact hdoes.append hdoes'
  · rw [hmem', hmem, hbase]

/-- Bringing the base into a register leaves the value. -/
theorem read_after_base {value : Bndg} (hv : Placed storeReserved value) {s s₁ : State}
    (hmem : s₁.mem = s.mem) (hregs : ∀ q, q ≠ X86.r10 → s₁.regs q = s.regs q) :
    (locOf address value).read s₁ 8 = (locOf address value).read s 8 := by
  have hbp : X86.rbp ∉ [X86.r10] := by decide
  exact hv.read_congr address hbp (by decide) hmem (fun q hq => hregs q (by simpa using hq)) 8

/-- The value is in a register. -/
theorem does_set_register (raw : Nat) {base value : Bndg} (hb : Placed storeReserved base)
    (hv : Placed storeReserved value) {size : Nat} (hn : size ∈ sizes)
    (hreg : (locOf address value).isMemory = false) {disp : Word} {dispSize : Nat}
    (hd : dispSize = 1 ∨ dispSize = 4) (scratch : Register) (s : State) :
    ∃ s', Does address raw (generateSet raw base size disp dispSize
        (bndgToPartialOp raw size value) scratch) s s' ∧
      s'.mem = store s.mem ((locOf address base).read s 8 + signed dispSize disp) size
        ((locOf address value).read s 8) := by
  apply does_generateSet hb
  intro i s₁ _ hmem hregs
  have hread : (locOf address value).read s₁ 8 = (locOf address value).read s 8 :=
    read_after_base hv hmem hregs
  have hnames := hv.names address raw hn
  rw [← hread]
  cases hl : locOf address value with
  | reg j =>
    rw [hl] at hnames
    generalize bndgToPartialOp raw size value = op at hnames
    cases hnames with
    | reg j =>
      refine ⟨_, does_mov_of_reg hn (names_target i disp hd) (.inr rfl) j _ s₁, ?_⟩
      show store s₁.mem _ size _ = store s₁.mem _ size (low 8 _)
      rw [X86.low_eight]
      rfl
  | mem b d => rw [hl] at hreg; cases hreg
  | fixed a => rw [hl] at hreg; cases hreg

/-- The value is in memory and goes through the scratch register, which is `k` bytes
wide. -/
theorem does_set_memory (raw : Nat) {base value : Bndg} (hb : Placed storeReserved base)
    (hv : Placed storeReserved value) {size k : Nat} (hn : size ∈ sizes) (hk : k ∈ sizes)
    (hmem : (locOf address value).isMemory = true) (disp : Word) {dispSize : Nat}
    (hd : dispSize = 1 ∨ dispSize = 4) (s : State) :
    ∃ s', Does address raw (generateSet raw base size disp dispSize
        (bndgToPartialOp raw size value) (regN k X86.r11)) s s' ∧
      s'.mem = store s.mem ((locOf address base).read s 8 + signed dispSize disp) (transfer k size)
        ((locOf address value).read s 8) := by
  apply does_generateSet hb
  intro i s₁ h11 hm hregs
  have hread : (locOf address value).read s₁ 8 = (locOf address value).read s 8 :=
    read_after_base hv hm hregs
  have he : transfer k size ≤ 8 :=
    (by decide : ∀ k ∈ sizes, ∀ n ∈ sizes, transfer k n ≤ 8) k hk size hn
  rw [makeRegOp_regN hk]
  refine ⟨_, does_mov_through hn (hv.names address raw hn) (names_target i disp hd) rfl hmem hk
    X86.r11 [] s₁, ?_⟩
  generalize transfer k size = e at he
  show store s₁.mem ((s₁.setReg X86.r11 _).regs i + _) e _ = _
  rw [State.setReg_of_ne _ _ h11, State.setReg_same, X86.low_merge, ← Loc.low_read he, ← hread]
  rw [X86.low_low (Nat.le_refl e), X86.store_low]

/-- The value is a constant. -/
theorem does_set_constant (raw : Nat) {base : Bndg} (hb : Placed storeReserved base) {size : Nat}
    (hn : size ∈ [1, 4, 8]) {v : Word} (hv : low size (signed (min size 4) v) = low size v)
    {disp : Word} {dispSize : Nat} (hd : dispSize = 1 ∨ dispSize = 4) (scratch : Register)
    (s : State) :
    ∃ s', Does address raw (generateSet raw base size disp dispSize
        (makeImmOp (min size 4) v) scratch) s s' ∧
      s'.mem = store s.mem ((locOf address base).read s 8 + signed dispSize disp) size v := by
  apply does_generateSet hb
  intro i s₁ _ _ _
  refine ⟨_, does_mov_imm hn (names_target i disp hd) (.inr rfl) v _ s₁, ?_⟩
  rw [hv]
  exact X86.store_low _ _ _ _

/-! ## Which code is generated -/

theorem setWidth_cases {name : String} {width : Nat} (h : setWidth name = some width) :
    (width = 1 ∧ (name = "setb" ∨ name = "set1b")) ∨ (width = 2 ∧ name = "set2b") ∨
      (width = 4 ∧ name = "set4b") ∨ (width = 8 ∧ (name = "set8b" ∨ name = "set")) := by
  unfold setWidth at h
  split at h <;> simp_all

theorem setWidth_sizes {name : String} {width : Nat} (h : setWidth name = some width) :
    width ∈ sizes := by
  rcases setWidth_cases h with ⟨rfl, _⟩ | ⟨rfl, _⟩ | ⟨rfl, _⟩ | ⟨rfl, _⟩ <;> decide

section
variable {gen : Expr → List Instr} {n a base value : Expr} {name : String} {width : Nat}
  (hN : setWidth name = some width)
include hN

theorem generateSetBaseOffset_eq {offset : Word}
    (h : matchSetBaseOffset n = some (name, base, offset, value)) (ho : sbyte offset)
    (hs : value.bindingAug.size = wordSize) :
    generateSetBaseOffset raw gen n = (gen value ++ gen base) ++
      generateSet raw base.bindingAug width offset 1
        (bndgToPartialOp raw width value.bindingAug) (regN 8 X86.r11) := by
  unfold generateSetBaseOffset
  rw [h]
  simp only [ho, if_true]
  rcases setWidth_cases hN with ⟨rfl, rfl | rfl⟩ | ⟨rfl, rfl⟩ | ⟨rfl, rfl⟩ | ⟨rfl, rfl | rfl⟩
  all_goals first | rfl | (unfold bndgToOp; rw [hs]; rfl)

theorem generateBinary_set (h : matchUndefinedBinaryInvoke n = some (name, a, value)) :
    generateBinary raw gen n = (gen a ++ gen value) ++
      generateSet raw a.bindingAug width 0 4
        (bndgToPartialOp raw width value.bindingAug) (regN width X86.r11) := by
  unfold generateBinary
  rw [h]
  rcases setWidth_cases hN with ⟨rfl, rfl | rfl⟩ | ⟨rfl, rfl⟩ | ⟨rfl, rfl⟩
    | ⟨rfl, rfl | rfl⟩ <;> rfl

theorem generateRightImm_set {x : Word}
    (h : matchUndefinedBinaryRightImmInvoke n = some (name, a, x)) (hx : width = 8 → sword x) :
    generateRightImm raw gen n = gen a ++ generateSet raw a.bindingAug width 0 4
      (makeImmOp (min width 4) x) (regN width X86.r11) := by
  unfold generateRightImm
  rw [h]
  rcases setWidth_cases hN with ⟨rfl, rfl | rfl⟩ | ⟨rfl, rfl⟩ | ⟨rfl, rfl⟩ | ⟨rfl, rfl | rfl⟩
  all_goals first | rfl | (simp only [hx rfl, if_true]; rfl)

end

/-- The base of an address, and the literal that is added to it where there is one. -/
def splitAddress (a : Expr) : Expr × Option Word :=
  match matchBaseOffset a with
  | some (base, offset) => (base, some offset)
  | none => (a, none)

theorem setNames_of_width {name : String} {width : Nat} (h : setWidth name = some width) :
    name ∈ setNames := by
  rcases setWidth_cases h with ⟨_, rfl | rfl⟩ | ⟨_, rfl⟩ | ⟨_, rfl⟩ | ⟨_, rfl | rfl⟩ <;> decide

section
variable {n a value : Expr} {name : String} {width : Nat}
  (hn : matchUndefinedBinaryInvoke n = some (name, a, value)) (hN : setWidth name = some width)
include hn hN

theorem initialize_offset {base : Expr} {offset : Word}
    (h : matchBaseOffset a = some (base, offset)) :
    initializeArithmeticIntrinsics n = some .setBaseOffset := by
  have hset : initializeSetBaseOffset n = some .setBaseOffset := by
    unfold initializeSetBaseOffset
    rw [matchSetBaseOffset_eq hn, h]
    exact if_pos (setNames_of_width hN)
  rw [initialize_binary_eq hn, hset]
  rfl

theorem initialize_plain (h : matchBaseOffset a = none) :
    initializeArithmeticIntrinsics n =
      match value.literalValue with
      | some x => if width = 8 ∧ ¬ sword x then some .binary else some .rightImm
      | none => some .binary := by
  have hset : initializeSetBaseOffset n = none := by
    unfold initializeSetBaseOffset
    rw [matchSetBaseOffset_eq hn, h]
    rfl
  have hbin : initializeBinary n = some .binary := by
    unfold initializeBinary
    rw [hn]
    rcases setWidth_cases hN with ⟨_, rfl | rfl⟩ | ⟨_, rfl⟩ | ⟨_, rfl⟩ | ⟨_, rfl | rfl⟩ <;> rfl
  rw [initialize_binary_eq hn, hset, hbin]
  unfold initializeRightImm
  rw [matchRightImm_eq hn]
  cases value.literalValue with
  | none => rfl
  | some x =>
    rcases setWidth_cases hN with ⟨rfl, rfl | rfl⟩ | ⟨rfl, rfl⟩ | ⟨rfl, rfl⟩ | ⟨rfl, rfl | rfl⟩
    all_goals first | rfl | (cases hx : sword x <;> simp [hx])

end

/-! ## What is stored -/

/-- The address that the operands hold. -/
def storeAddress (address : Bndg → Word) (s : State) (a : Expr) : Word :=
  (locOf address (splitAddress a).1.bindingAug).read s 8 + (splitAddress a).2.getD 0

/-- The value to be stored: a constant of the instruction or what the binding holds. -/
def storedValue (address : Bndg → Word) (s : State) (n value : Expr) : Word :=
  match initializeArithmeticIntrinsics n, value.literalValue with
  | some .rightImm, some x => x
  | _, _ => (locOf address value.bindingAug).read s 8

/-- After its operands have been evaluated the intrinsic changes exactly `width` bytes from
the address on to the low bytes of the value. -/
def StoresExactly (n a value : Expr) (width : Nat) : Prop :=
  ∀ (address : Bndg → Word) (raw : Nat) (gen : Expr → List Instr) (s s₁ : State),
    Does address raw (operandCode gen n) s s₁ →
      ∃ s', Does address raw (intrinsicCode raw gen n) s s' ∧
        s'.mem = store s₁.mem (storeAddress address s₁ a) width (storedValue address s₁ n value)

def Bndg.inRegister (bndg : Bndg) : Bool :=
  match bndg.storage with
  | .register _ => true
  | _ => false

/-- With a literal offset, the offset is a signed byte and the value is in a register
unless one or eight bytes are stored; otherwise the value is not a literal of two bytes. -/
def StoreSupported (a value : Expr) (width : Nat) : Prop :=
  match (splitAddress a).2 with
  | some offset => sbyte offset ∧ (width = 1 ∨ width = 8 ∨ value.bindingAug.inRegister)
  | none => ¬ (width = 2 ∧ value.literalValue.isSome)

theorem inRegister_iff (address : Bndg → Word) (bndg : Bndg) :
    bndg.inRegister = !(locOf address bndg).isMemory := by
  unfold Bndg.inRegister locOf
  cases bndg.storage <;> rfl

/-- A value that a mask of its low bits leaves as it is, or that already has all bits above
them, is the signed number in its low bytes. -/
theorem signed_of_masks {n : Nat} (hn : 0 < n ∧ n ≤ 8) {v clear fill : Word}
    (hclear : ∀ j, 8 * n - 1 ≤ j → j < 64 → clear.getLsbD j = false)
    (hfill : ∀ j, 8 * n - 1 ≤ j → j < 64 → fill.getLsbD j = true)
    (h : v = v &&& clear ∨ v = v ||| fill) : signed n v = v := by
  rcases h with h | h
  · refine X86.signed_of_bits hn.1 false (fun j hj hlt => ?_) hn.2
    rw [h, BitVec.getLsbD_and, hclear j hj hlt, Bool.and_false]
  · refine X86.signed_of_bits hn.1 true (fun j hj hlt => ?_) hn.2
    rw [h, BitVec.getLsbD_or, hfill j hj hlt, Bool.or_true]

theorem signed_of_sbyte {v : Word} (h : sbyte v) : signed 1 v = v := by
  have hc : ∀ j < 64, 7 ≤ j → (0x7F : Word).getLsbD j = false := by decide
  have hf : ∀ j < 64, 7 ≤ j → (0xFFFFFFFFFFFFFF80 : Word).getLsbD j = true := by decide
  exact signed_of_masks (by decide) (fun j hj hlt => hc j hlt hj) (fun j hj hlt => hf j hlt hj)
    (of_decide_eq_true h)

theorem signed_of_sword {v : Word} (h : sword v) : signed 4 v = v := by
  have hc : ∀ j < 64, 31 ≤ j → (0x7FFFFFFF : Word).getLsbD j = false := by decide
  have hf : ∀ j < 64, 31 ≤ j → (0xFFFFFFFF80000000 : Word).getLsbD j = true := by decide
  exact signed_of_masks (by decide) (fun j hj hlt => hc j hlt hj) (fun j hj hlt => hf j hlt hj)
    (of_decide_eq_true h)

theorem splitAddress_some {a base : Expr} {offset : Word}
    (h : matchBaseOffset a = some (base, offset)) : splitAddress a = (base, some offset) := by
  unfold splitAddress
  rw [h]

theorem splitAddress_none {a : Expr} (h : matchBaseOffset a = none) :
    splitAddress a = (a, none) := by
  unfold splitAddress
  rw [h]

section
variable {n a value : Expr} {name : String} {width : Nat}
  (hn : matchUndefinedBinaryInvoke n = some (name, a, value)) (hN : setWidth name = some width)
include hn hN

/-- With an offset: the operands and the store, or nothing. -/
theorem intrinsicCode_offset {base : Expr} {offset : Word} (raw : Nat) (gen : Expr → List Instr)
    (hm : matchBaseOffset a = some (base, offset)) (hs : value.bindingAug.size = wordSize) :
    intrinsicCode raw gen n = if sbyte offset then operandCode gen n ++
      generateSet raw base.bindingAug width offset 1
        (bndgToPartialOp raw width value.bindingAug) (regN 8 X86.r11) else [] := by
  have hinit := initialize_offset hn hN hm
  have hset : matchSetBaseOffset n = some (name, base, offset, value) := by
    rw [matchSetBaseOffset_eq hn, hm]
    rfl
  have hops : operandCode gen n = gen value ++ gen base := by
    simp [operandCode, hinit, operandsOf, hset]
  have hcode : intrinsicCode raw gen n = generateSetBaseOffset raw gen n := by
    simp [intrinsicCode, hinit, generate]
  rw [hcode, hops]
  by_cases ho : sbyte offset
  · rw [if_pos ho, generateSetBaseOffset_eq hN hset ho hs]
  · rw [if_neg ho]
    unfold generateSetBaseOffset
    rw [hset]
    exact if_neg ho

theorem intrinsicCode_plain (raw : Nat) (gen : Expr → List Instr)
    (hinit : initializeArithmeticIntrinsics n = some .binary) :
    intrinsicCode raw gen n = operandCode gen n ++
      generateSet raw a.bindingAug width 0 4
        (bndgToPartialOp raw width value.bindingAug) (regN width X86.r11) := by
  have hops : operandCode gen n = gen a ++ gen value := by
    simp [operandCode, hinit, operandsOf, hn]
  rw [hops, ← generateBinary_set hN hn]
  simp [intrinsicCode, hinit, generate]

theorem intrinsicCode_constant {x : Word} (raw : Nat) (gen : Expr → List Instr)
    (hval : value.literalValue = some x) (hx : width = 8 → sword x)
    (hinit : initializeArithmeticIntrinsics n = some .rightImm) :
    intrinsicCode raw gen n = operandCode gen n ++
      generateSet raw a.bindingAug width 0 4 (makeImmOp (min width 4) x) (regN width X86.r11) := by
  have himm : matchUndefinedBinaryRightImmInvoke n = some (name, a, x) := by
    rw [matchRightImm_eq hn, hval]
    rfl
  have hops : operandCode gen n = gen a := by
    simp [operandCode, hinit, operandsOf, himm]
  rw [hops, ← generateRightImm_set hN himm hx]
  simp [intrinsicCode, hinit, generate]

variable (hb : Placed storeReserved (splitAddress a).1.bindingAug)
  (hv : initializeArithmeticIntrinsics n ≠ some .rightImm → Placed storeReserved value.bindingAug)
include hb hv

theorem storesExactly_of_offset {base : Expr} {offset : Word}
    (hm : matchBaseOffset a = some (base, offset)) (hs : sbyte offset)
    (h : width = 1 ∨ width = 8 ∨ value.bindingAug.inRegister) : StoresExactly n a value width := by
  intro address raw gen s s₁ hrun
  have hinit := initialize_offset hn hN hm
  have hpv := hv (by rw [hinit]; decide)
  have hsize := setWidth_sizes hN
  rw [splitAddress_some hm] at hb
  have haddr : storeAddress address s₁ a =
      (locOf address base.bindingAug).read s₁ 8 + signed 1 offset := by
    rw [signed_of_sbyte hs]
    simp [storeAddress, splitAddress_some hm]
  have hval : storedValue address s₁ n value = (locOf address value.bindingAug).read s₁ 8 := by
    simp [storedValue, hinit]
  rw [haddr, hval, intrinsicCode_offset hn hN raw gen hm hpv.1, if_pos hs]
  cases hreg : (locOf address value.bindingAug).isMemory with
  | false =>
    obtain ⟨s', hdoes, hmem⟩ := does_set_register raw hb hpv hsize hreg (.inl rfl)
      (regN 8 X86.r11) s₁
    exact ⟨s', hrun.append hdoes, hmem⟩
  | true =>
    have htr : transfer 8 width = width := by
      have hr : value.bindingAug.inRegister = false := by
        rw [inRegister_iff address, hreg]
        rfl
      rcases h with rfl | rfl | h
      · rfl
      · rfl
      · rw [hr] at h
        cases h
    obtain ⟨s', hdoes, hmem⟩ := does_set_memory raw hb hpv hsize (k := 8) (by decide) hreg
      _ (.inl rfl) s₁
    rw [htr] at hmem
    exact ⟨s', hrun.append hdoes, hmem⟩

theorem storesExactly_of_binary (hm : matchBaseOffset a = none)
    (hinit : initializeArithmeticIntrinsics n = some .binary) : StoresExactly n a value width := by
  intro address raw gen s s₁ hrun
  have hpv := hv (by rw [hinit]; decide)
  have hsize := setWidth_sizes hN
  rw [splitAddress_none hm] at hb
  have haddr : storeAddress address s₁ a =
      (locOf address a.bindingAug).read s₁ 8 + signed 4 0 := by
    simp [storeAddress, splitAddress_none hm]
  have hval : storedValue address s₁ n value = (locOf address value.bindingAug).read s₁ 8 := by
    simp [storedValue, hinit]
  rw [haddr, hval, intrinsicCode_plain hn hN raw gen hinit]
  cases hreg : (locOf address value.bindingAug).isMemory with
  | false =>
    obtain ⟨s', hdoes, hmem⟩ := does_set_register raw hb hpv hsize hreg (.inr rfl)
      (regN width X86.r11) s₁
    exact ⟨s', hrun.append hdoes, hmem⟩
  | true =>
    obtain ⟨s', hdoes, hmem⟩ := does_set_memory raw hb hpv hsize hsize hreg _ (.inr rfl) s₁
    rw [transfer_self hsize] at hmem
    exact ⟨s', hrun.append hdoes, hmem⟩

omit hv in
theorem storesExactly_of_constant {x : Word} (hm : matchBaseOffset a = none)
    (hval : value.literalValue = some x) (hx : width = 8 → sword x) (h2 : width ≠ 2)
    (hinit : initializeArithmeticIntrinsics n = some .rightImm) :
    StoresExactly n a value width := by
  intro address raw gen s s₁ hrun
  rw [splitAddress_none hm] at hb
  have hmem : width ∈ [1, 4, 8] := by
    rcases setWidth_cases hN with ⟨rfl, _⟩ | ⟨rfl, _⟩ | ⟨rfl, _⟩ | ⟨rfl, _⟩
    · decide
    · exact absurd rfl h2
    · decide
    · decide
  have hlow : low width (signed (min width 4) x) = low width x := by
    rcases setWidth_cases hN with ⟨rfl, _⟩ | ⟨rfl, _⟩ | ⟨rfl, _⟩ | ⟨rfl, _⟩
    · exact low_signed (by decide) x
    · exact absurd rfl h2
    · exact low_signed (by decide) x
    · exact congrArg (low 8) (signed_of_sword (hx rfl))
  have haddr : storeAddress address s₁ a =
      (locOf address a.bindingAug).read s₁ 8 + signed 4 0 := by
    simp [storeAddress, splitAddress_none hm]
  have hst : storedValue address s₁ n value = x := by
    simp [storedValue, hinit, hval]
  rw [haddr, hst, intrinsicCode_constant hn hN raw gen hval hx hinit]
  obtain ⟨s', hdoes, hs'⟩ := does_set_constant raw hb hmem hlow (.inr rfl)
    (regN width X86.r11) s₁
  exact ⟨s', hrun.append hdoes, hs'⟩

theorem storesExactly_of_supported (h : StoreSupported a value width) :
    StoresExactly n a value width := by
  unfold StoreSupported at h
  cases hm : matchBaseOffset a with
  | some p =>
    obtain ⟨base, offset⟩ := p
    rw [splitAddress_some hm] at h
    exact storesExactly_of_offset hn hN hb hv hm h.1 h.2
  | none =>
    rw [splitAddress_none hm] at h
    have hinit := initialize_plain hn hN hm
    cases hval : value.literalValue with
    | none =>
      rw [hval] at hinit
      exact storesExactly_of_binary hn hN hb hv hm hinit
    | some x =>
      rw [hval] at hinit
      by_cases hx : width = 8 ∧ ¬ sword x
      · exact storesExactly_of_binary hn hN hb hv hm (hinit.trans (if_pos hx))
      · have hx' : width = 8 → sword x := fun h8 => by
          by_contra hs
          exact hx ⟨h8, hs⟩
        exact storesExactly_of_constant hn hN hb hm hval hx'
          (fun h2 => h ⟨h2, by rw [hval]; rfl⟩) (hinit.trans (if_neg hx))

end

end L2.SelfHost
