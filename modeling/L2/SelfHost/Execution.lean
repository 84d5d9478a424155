import L2.SelfHost.Encoding

/-!
# Running what the assembler writes

A `Loc` is where an operand is at run time.  `Does` says that the code of a list of
instructions assembles and takes one state to another, wherever it is put, as long as
displacements of 32 bits reach the static bindings from there.
-/

namespace L2.SelfHost

open X86 (Word Byte Reg State Config Runs signed low load store merge)

inductive Loc where
  | reg (r : Reg)
  | mem (base : Reg) (disp : Word)
  | fixed (a : Word)
  deriving DecidableEq

namespace Loc

def addr (s : State) : Loc → Word
  | reg _ => 0
  | mem base disp => s.regs base + disp
  | fixed a => a

def read (s : State) (n : Nat) : Loc → Word
  | reg r => low n (s.regs r)
  | l => load s.mem (l.addr s) n

def write (s : State) (n : Nat) (v : Word) : Loc → State
  | reg r => s.setReg r (merge n (s.regs r) v)
  | l => s.setMem (store s.mem (l.addr s) n v)

def isMemory : Loc → Bool
  | reg _ => false
  | _ => true

end Loc

variable (address : Bndg → Word) (raw : Nat)

/-- An operand of `n` bytes and where it is. -/
inductive Names (n : Nat) : Operand → Loc → Prop
  | reg (r : Reg) : Names n (.register n (regN n r)) (.reg r)
  | mem (b : Reg) (disp : Word) (dispSize : Nat) (h : dispSize = 1 ∨ dispSize = 4) :
    Names n (.memory n (reg64 b) noRegister 0 disp dispSize none) (.mem b (signed dispSize disp))
  | static (bndg : Bndg) (offset : Word) (h : bndg.storage = .absolute offset) :
    Names n (.memory n rip noRegister 0 0 4 (some bndg)) (.fixed (address bndg))

/-- Displacements of 32 bits reach the static bindings from everywhere in the `len` bytes
from `pos` on. -/
def Within (pos : Word) (len : Nat) : Prop :=
  ∀ k ≤ len, ∀ bndg offset, bndg.storage = .absolute offset →
    signed 4 (address bndg - (pos + BitVec.ofNat 64 k)) = address bndg - (pos + BitVec.ofNat 64 k)

/-- The bytes at `pos` take one state to another, whatever comes after them. -/
def Executes (pos : Word) (bs : List Byte) (s s' : State) : Prop :=
  Within address pos bs.length →
    ∀ rest, Runs ⟨pos, bs ++ rest, s⟩ ⟨pos + BitVec.ofNat 64 bs.length, rest, s'⟩

def Does (ns : List Instr) (s s' : State) : Prop :=
  ∀ pos, ∃ bs, assembleList address raw pos ns = some bs ∧ Executes address pos bs s s'

variable {address raw}

/-! ## Sequences -/

theorem add_ofNat (pos : Word) (k l : Nat) :
    pos + BitVec.ofNat 64 k + BitVec.ofNat 64 l = pos + BitVec.ofNat 64 (k + l) := by
  rw [BitVec.ofNat_add, BitVec.add_assoc]

theorem Within.left {pos : Word} {k l : Nat} (h : Within address pos (k + l)) :
    Within address pos k :=
  fun j hj => h j (by omega)

theorem Within.right {pos : Word} {k l : Nat} (h : Within address pos (k + l)) :
    Within address (pos + BitVec.ofNat 64 k) l := by
  intro j hj bndg offset hb
  rw [add_ofNat]
  exact h (k + j) (by omega) bndg offset hb

theorem Executes.nil (pos : Word) (s : State) : Executes address pos [] s s := by
  intro _ rest
  show Runs ⟨pos, rest, s⟩ ⟨pos + 0, rest, s⟩
  rw [show pos + 0 = pos from BitVec.add_zero pos]
  exact Runs.refl _

theorem Executes.append {pos : Word} {bs cs : List Byte} {s s₁ s' : State}
    (h : Executes address pos bs s s₁)
    (h' : Executes address (pos + BitVec.ofNat 64 bs.length) cs s₁ s') :
    Executes address pos (bs ++ cs) s s' := by
  intro hw rest
  rw [List.length_append] at hw
  have hr := h hw.left (cs ++ rest)
  have hr' := h' hw.right rest
  rw [add_ofNat, ← List.length_append] at hr'
  rw [List.append_assoc]
  exact hr.trans hr'

theorem assembleList_append (ns ms : List Instr) : ∀ pos, assembleList address raw pos (ns ++ ms) =
    (assembleList address raw pos ns).bind fun bs =>
      (assembleList address raw (pos + BitVec.ofNat 64 bs.length) ms).map fun cs => bs ++ cs := by
  induction ns with
  | nil =>
    intro pos
    show assembleList address raw pos ms =
      (assembleList address raw (pos + 0) ms).map fun cs => cs
    rw [show pos + 0 = pos from BitVec.add_zero pos]
    simp
  | cons n ns ih =>
    intro pos
    simp only [List.cons_append, assembleList, ih]
    cases assemble address raw pos n with
    | none => rfl
    | some b =>
      cases hbs : assembleList address raw (pos + BitVec.ofNat 64 b.length) ns with
      | none => simp [hbs]
      | some bs =>
        simp only [Option.bind_eq_bind, Option.bind_some, hbs, List.length_append, add_ofNat]
        cases assembleList address raw (pos + BitVec.ofNat 64 (b.length + bs.length)) ms <;> simp

theorem Does.nil (s : State) : Does address raw [] s s :=
  fun pos => ⟨[], rfl, Executes.nil pos s⟩

theorem Does.append {ns ms : List Instr} {s s₁ s' : State} (h : Does address raw ns s s₁)
    (h' : Does address raw ms s₁ s') : Does address raw (ns ++ ms) s s' := by
  intro pos
  obtain ⟨bs, hbs, hrun⟩ := h pos
  obtain ⟨cs, hcs, hrun'⟩ := h' (pos + BitVec.ofNat 64 bs.length)
  exact ⟨bs ++ cs, by simp [assembleList_append, hbs, hcs], hrun.append hrun'⟩

theorem Does.single {n : Instr} {s s' : State}
    (h : ∀ pos, ∃ bs, assemble address raw pos n = some bs ∧ Executes address pos bs s s') :
    Does address raw [n] s s' := by
  intro pos
  obtain ⟨bs, hbs, hrun⟩ := h pos
  exact ⟨bs, by simp [assembleList, hbs], hrun⟩

/-! ## One machine instruction -/

/-- The operand of the processor behaves as the place does. -/
structure Agrees (next : Word) (m : X86.Operand) (l : Loc) : Prop where
  read : ∀ s k, m.read s next k = l.read s k
  write : ∀ s k v, m.write s next k v = l.write s k v
  addr : ∀ s, m.addr s next = l.addr s

theorem Names.exists_isRm {n : Nat} {op : Operand} {l : Loc} (h : Names address n op l)
    {pos : Word} {len : Nat} (hw : Within address pos len) :
    ∃ m, IsRm address (pos + BitVec.ofNat 64 len) n op m ∧
      Agrees (pos + BitVec.ofNat 64 len) m l := by
  cases h with
  | reg r => exact ⟨_, .reg r, ⟨fun _ _ => rfl, fun _ _ _ => rfl, fun _ => rfl⟩⟩
  | mem b disp dispSize hd =>
    exact ⟨_, .mem b disp dispSize hd, ⟨fun _ _ => rfl, fun _ _ _ => rfl, fun _ => rfl⟩⟩
  | static bndg offset hb =>
    have haddr : ∀ s, (X86.Operand.rip (signed 4 (address bndg -
        (pos + BitVec.ofNat 64 len)))).addr s (pos + BitVec.ofNat 64 len) = address bndg := by
      intro s
      show pos + BitVec.ofNat 64 len + signed 4 (address bndg - (pos + BitVec.ofNat 64 len)) = _
      rw [hw len (Nat.le_refl len) bndg offset hb]
      ring
    refine ⟨_, .rip bndg, ⟨fun s k => ?_, fun s k v => ?_, haddr⟩⟩
    · show load s.mem _ k = load s.mem _ k
      rw [haddr]
      rfl
    · show s.setMem (store s.mem _ k v) = s.setMem (store s.mem _ k v)
      rw [haddr]
      rfl

theorem step_of_decode {pos : Word} {bs rest : List Byte} {s s' : State} {i : X86.Inst}
    (hd : X86.decode (bs ++ rest) = some (i, rest))
    (he : X86.exec (pos + BitVec.ofNat 64 bs.length) s i = some s') :
    X86.step ⟨pos, bs ++ rest, s⟩ = some ⟨pos + BitVec.ofNat 64 bs.length, rest, s'⟩ := by
  simp [X86.step, hd, he]

/-- One instruction with a one-byte opcode, from what the decoder makes of the opcode and
what the processor does with the operand. -/
theorem executes_write {n opcode : Nat} (hn : n ∈ sizes) (ho : PlainOpcode opcode) {pos : Word}
    {g op imm : Operand} {l : Loc} (h : Names address n op l)
    (hrex : hasRex (.none raw) g op = true) {i : X86.Operand → X86.Inst} {s s' : State}
    (hd : ∀ m bs, X86.decodeRm (prefixesOf (.none raw) g op) opcode
      (X86.extend (rexR g) (BitVec.ofNat 3 (g.opRegister &&& 7))) m (writeImm imm ++ bs) =
        some (i m, bs))
    (he : ∀ next m, Agrees next m l → X86.exec next s (i m) = some s') :
    Executes address pos (writeInstr address pos opcode 1 (.none raw) g op imm) s s' := by
  intro hw rest
  obtain ⟨m, hm, ha⟩ := h.exists_isRm hw
  apply Runs.head _ (Runs.refl _)
  apply step_of_decode (i := i m)
  · rw [decode_write hn ho hm hrex, hd]
  · exact he _ m ha

/-! ## Operands -/

theorem Names.size {n : Nat} {op : Operand} {l : Loc} (h : Names address n op l) : op.size = n := by
  cases h <;> rfl

theorem Names.isNone {n : Nat} {op : Operand} {l : Loc} (h : Names address n op l) :
    op.isNone = false := by
  cases h <;> rfl

theorem Names.isImmediate {n : Nat} {op : Operand} {l : Loc} (h : Names address n op l) :
    op.isImmediate = false := by
  cases h <;> rfl

theorem Names.isMemory {n : Nat} {op : Operand} {l : Loc} (h : Names address n op l) :
    op.isMemory = l.isMemory := by
  cases h <;> rfl

theorem Names.isRegister {n : Nat} {op : Operand} {l : Loc} (h : Names address n op l) :
    op.isRegister = !l.isMemory := by
  cases h <;> rfl

theorem Names.hasRex {n : Nat} {op : Operand} {l : Loc} (h : Names address n op l)
    (hn : n = 8 ∨ l.isMemory) (e g : Operand) : hasRex e g op = true := by
  have hm : ∃ m, IsRm address 0 n op m := by
    cases h with
    | reg r => exact ⟨_, .reg r⟩
    | mem b disp dispSize hd => exact ⟨_, .mem b disp dispSize hd⟩
    | static bndg _ _ => exact ⟨_, .rip bndg⟩
  obtain ⟨m, hm⟩ := hm
  exact hasRex_of_isRm hm (h.isMemory ▸ hn) e g

theorem extend_regN {k : Nat} (hk : k ∈ sizes) (r : Reg) :
    X86.extend (rexR (.register k (regN k r)))
      (BitVec.ofNat 3 ((Operand.register k (regN k r)).opRegister &&& 7)) = r := by
  obtain ⟨h7, h8, _, _⟩ := regN_fields k hk r
  have hr : rexR (.register k (regN k r)) = decide (8 ≤ r.val) := by
    simp [rexR, h8]
  rw [hr]
  show X86.extend _ (BitVec.ofNat 3 (regN k r &&& 7)) = r
  rw [h7, extend_number]

/-- The operand size of an instruction with operands of `k` and `n` bytes. -/
def operandSize (k n : Nat) : Nat := if k = 8 ∨ n = 8 then 8 else if max k n = 2 then 2 else 4

theorem operandSize_prefixesOf {g op : Operand} (h : hasRex (.none raw) g op = true) :
    (prefixesOf (.none raw) g op).operandSize = operandSize g.size op.size := by
  unfold X86.Prefixes.operandSize
  rw [bits_prefixesOf h]
  have h0 : (Operand.none raw).size = 0 := rfl
  simp [prefixesOf, hasOso, rexW, operandSize, h0]

theorem rex_isSome {g op : Operand} (h : hasRex (.none raw) g op = true) :
    (prefixesOf (.none raw) g op).rex.isSome = true := by
  simp [prefixesOf, h]

theorem byteOperand_of_rex {g op : Operand} (h : hasRex (.none raw) g op = true)
    (m : X86.Operand) : X86.byteOperand (prefixesOf (.none raw) g op) m = true := by
  cases m <;> simp [X86.byteOperand, X86.byteRegister, rex_isSome h]

/-! ## Moves -/

/-- How many bytes a move between an operand of `n` bytes and a register operand of `k`
transfers: the opcode says that it is one, and otherwise the prefixes decide. -/
def transfer (k n : Nat) : Nat := if n = 1 then 1 else operandSize k n

theorem executes_mov_store (raw : Nat) {k n : Nat} (hk : k ∈ sizes) (hn : n ∈ sizes) {op : Operand}
    {l : Loc}
    (h : Names address n op l) (hm : n = 8 ∨ l.isMemory) (pos : Word) (r : Reg) (s : State) :
    Executes address pos (writeInstr address pos (if n = 1 then 0x88 else 0x89) 1 (.none raw)
      (.register k (regN k r)) op (.none raw)) s
        (l.write s (transfer k n) (low (transfer k n) (s.regs r))) := by
  have hrex := h.hasRex hm (.none raw) (.register k (regN k r))
  have hsize := operandSize_prefixesOf hrex
  unfold transfer
  by_cases h1 : n = 1
  · rw [if_pos h1, if_pos h1]
    apply executes_write hn (by decide) h hrex (i := fun m => .mov 1 m (.reg r))
    · intro m bs
      rw [extend_regN hk]
      show (if _ then _ else _) = _
      rw [if_pos ⟨by simp [X86.byteRegister, rex_isSome hrex], byteOperand_of_rex hrex m⟩]
      rfl
    · intro next m ha
      exact congrArg some (ha.write s 1 _)
  · rw [if_neg h1, if_neg h1]
    apply executes_write hn (by decide) h hrex (i := fun m => .mov (operandSize k n) m (.reg r))
    · intro m bs
      rw [extend_regN hk]
      show some (X86.Inst.mov (prefixesOf _ _ _).operandSize m (.reg r), bs) = _
      rw [hsize, h.size]
      rfl
    · intro next m ha
      exact congrArg some (ha.write s _ _)

theorem executes_mov_load (raw : Nat) {k n : Nat} (hk : k ∈ sizes) (hn : n ∈ sizes) {op : Operand}
    {l : Loc}
    (h : Names address n op l) (hm : n = 8 ∨ l.isMemory) (pos : Word) (r : Reg) (s : State) :
    Executes address pos (writeInstr address pos (if n = 1 then 0x8A else 0x8B) 1 (.none raw)
      (.register k (regN k r)) op (.none raw)) s
        (s.setReg r (merge (transfer k n) (s.regs r) (l.read s (transfer k n)))) := by
  have hrex := h.hasRex hm (.none raw) (.register k (regN k r))
  have hsize := operandSize_prefixesOf hrex
  unfold transfer
  by_cases h1 : n = 1
  · rw [if_pos h1, if_pos h1]
    apply executes_write hn (by decide) h hrex (i := fun m => .mov 1 (.reg r) m)
    · intro m bs
      rw [extend_regN hk]
      show (if _ then _ else _) = _
      rw [if_pos ⟨by simp [X86.byteRegister, rex_isSome hrex], byteOperand_of_rex hrex m⟩]
      rfl
    · intro next m ha
      show some (s.setReg r (merge 1 (s.regs r) (m.read s next 1))) = _
      rw [ha.read]
  · rw [if_neg h1, if_neg h1]
    apply executes_write hn (by decide) h hrex (i := fun m => .mov (operandSize k n) (.reg r) m)
    · intro m bs
      rw [extend_regN hk]
      show some (X86.Inst.mov (prefixesOf _ _ _).operandSize (.reg r) m, bs) = _
      rw [hsize, h.size]
      rfl
    · intro next m ha
      show some (s.setReg r (merge _ (s.regs r) (m.read s next _))) = _
      rw [ha.read]

theorem low_signed {n : Nat} (hn : n ∈ sizes) (v : Word) : low n (signed n v) = low n v := by
  apply BitVec.eq_of_getLsbD_eq
  intro j hj
  have h8 : n ≤ 8 := by
    revert n
    decide
  simp only [X86.getLsbD_low, signed, BitVec.getLsbD_signExtend, BitVec.getLsbD_setWidth]
  by_cases h : j < 8 * n <;> simp [h, hj]

theorem Loc.write_congr {n : Nat} {v w : Word} (h : low n v = low n w) (s : State) (l : Loc) :
    l.write s n v = l.write s n w := by
  have hreg : ∀ old, merge n old v = merge n old w := by
    intro old
    unfold X86.merge
    rw [h]
  cases l with
  | reg r => exact congrArg (s.setReg r) (hreg _)
  | mem base disp => exact congrArg s.setMem (X86.store_congr h _ _)
  | fixed a => exact congrArg s.setMem (X86.store_congr h _ _)

theorem transfer_self {n : Nat} (hn : n ∈ sizes) : transfer n n = n := by
  revert n
  decide

theorem digitOp_eq {k : Nat} (hk : k < 8) : digitOp k = .register 4 (regN 4 k) := by
  revert k
  decide

/-- A move of a constant of `n` bytes.  The field that extends the opcode counts as an
operand of 4 bytes, so the prefix for 2 bytes is left out, and the form is right for the
other sizes only. -/
theorem executes_mov_imm (raw : Nat) {n : Nat} (hn : n ∈ [1, 4, 8]) {op : Operand} {l : Loc}
    (h : Names address n op l) (hm : n = 8 ∨ l.isMemory) (pos : Word) (v : Word) (s : State) :
    Executes address pos (writeInstr address pos (if n = 1 then 0xC6 else 0xC7) 1 (.none raw)
      (digitOp 0) op (.immediate (min n 4) v)) s (l.write s n (low n (signed (min n 4) v))) := by
  have hsizes : n ∈ sizes := (by decide : ∀ n ∈ [1, 4, 8], n ∈ sizes) n hn
  have hrex := h.hasRex hm (.none raw) (digitOp 0)
  have hsize := operandSize_prefixesOf hrex
  have hreg : X86.extend (rexR (digitOp 0))
      (BitVec.ofNat 3 ((digitOp 0).opRegister &&& 7)) = 0 := by decide
  have himm : ∀ (k : Nat) (f : Word → X86.Inst) (bs : List Byte),
      X86.takeImm k f (X86.bytesOf k v ++ bs) = some (f (signed k v), bs) := by
    intro k f bs
    simp [X86.takeImm, X86.takeBytes_bytesOf, X86.signed_low]
  by_cases h1 : n = 1
  · subst h1
    apply executes_write hsizes (by decide) h hrex (i := fun m => .mov 1 m (.imm (signed 1 v)))
    · intro m bs
      rw [hreg]
      show (if _ then _ else _) = _
      rw [if_pos ⟨rfl, byteOperand_of_rex hrex m⟩]
      exact himm 1 _ bs
    · intro next m ha
      exact congrArg some (ha.write s 1 _)
  · have hos : operandSize 4 n = n := by
      simp only [List.mem_cons, List.not_mem_nil, or_false] at hn
      rcases hn with rfl | rfl | rfl <;> first | rfl | exact absurd rfl h1
    rw [if_neg h1]
    apply executes_write hsizes (by decide) h hrex
      (i := fun m => .mov n m (.imm (signed (min n 4) v)))
    · intro m bs
      have hp : (prefixesOf (.none raw) (digitOp 0) op).operandSize = n := by
        rw [hsize, h.size, digitOp_eq (by decide)]
        exact hos
      rw [hreg, X86.decodeRm_movImm _ rfl, hp]
      exact himm _ _ bs
    · intro next m ha
      exact congrArg some (ha.write s n _)

/-! ## Move instructions -/

theorem Form.opcode_eq (f : Form) (h : f.opcode16 = f.opcode64 ∧ f.opcode32 = f.opcode64)
    (n : Nat) :
    f.opcode n = if n = 1 then f.opcode8 else f.opcode64 := by
  unfold Form.opcode
  split
  · rfl
  · rw [h.1, h.2]
    simp

/-- The forms for all sizes. -/
theorem Form.has_of_mask {f : Form} (hf : f.mask = 0x1F) {n : Nat} (hn : n ∈ sizes) :
    f.has n = true := by
  unfold Form.has
  rw [hf]
  exact (by decide : ∀ n ∈ sizes, decide (n ∈ [1, 2, 4, 8] ∧ 0x1F &&& n ≠ 0) = true) n hn

@[simp] theorem has_movMr {n : Nat} (hn : n ∈ sizes) : movMr.has n = true := Form.has_of_mask rfl hn

@[simp] theorem has_movRm {n : Nat} (hn : n ∈ sizes) : movRm.has n = true := Form.has_of_mask rfl hn

@[simp] theorem opcode_movMr (n : Nat) : movMr.opcode n = if n = 1 then 0x88 else 0x89 :=
  Form.opcode_eq _ ⟨rfl, rfl⟩ n

@[simp] theorem opcode_movRm (n : Nat) : movRm.opcode n = if n = 1 then 0x8A else 0x8B :=
  Form.opcode_eq _ ⟨rfl, rfl⟩ n

@[simp] theorem opcode_movMi (n : Nat) : movMi.opcode n = if n = 1 then 0xC6 else 0xC7 :=
  Form.opcode_eq _ ⟨rfl, rfl⟩ n

@[simp] theorem opcodeSize_mov :
    movMr.opcodeSize = 1 ∧ movRm.opcodeSize = 1 ∧ movMi.opcodeSize = 1 := ⟨rfl, rfl, rfl⟩

section
variable {n : Nat} (hn : n ∈ sizes) {op : Operand} {l : Loc} (h : Names address n op l)
include hn h

theorem does_mov_of_reg (hm : n = 8 ∨ l.isMemory) (r : Reg) (ops : List Operand) (s : State) :
    Does address raw [⟨.mov, op :: .register n (regN n r) :: ops⟩] s (l.write s n (s.regs r)) := by
  apply Does.single
  intro pos
  have he := executes_mov_store raw hn hn h hm pos r s
  rw [transfer_self hn, Loc.write_congr (X86.low_low (Nat.le_refl n) _)] at he
  refine ⟨_, ?_, he⟩
  have hreg : (Operand.register n (regN n r)).isRegister = true := rfl
  have hsize : (Operand.register n (regN n r)).size = n := rfl
  simp [assemble, writeNmInstr, writeMrInstr, h.isNone, h.isMemory, h.isRegister, h.size, hreg,
    hsize, hn]

theorem does_mov_to_reg (hm : l.isMemory) (r : Reg) (ops : List Operand) (s : State) :
    Does address raw [⟨.mov, .register n (regN n r) :: op :: ops⟩] s
      (s.setReg r (merge n (s.regs r) (l.read s n))) := by
  apply Does.single
  intro pos
  have he := executes_mov_load raw hn hn h (.inr hm) pos r s
  rw [transfer_self hn] at he
  refine ⟨_, ?_, he⟩
  have hreg : (Operand.register n (regN n r)).isRegister = true := rfl
  have hmem : (Operand.register n (regN n r)).isMemory = false := rfl
  have hnone : (Operand.register n (regN n r)).isNone = false := rfl
  have hsize : (Operand.register n (regN n r)).size = n := rfl
  simp [assemble, writeNmInstr, writeMrInstr, writeRmInstr, hnone, h.isMemory, h.isRegister, h.size,
    hreg, hmem, hsize, hn, hm]

/-- Both operands are in memory: the bytes go through the third one, a register of `k`
bytes. -/
theorem does_mov_through {dst : Operand} {ld : Loc} (hd : Names address n dst ld)
    (hmd : ld.isMemory) (hm : l.isMemory) {k : Nat} (hk : k ∈ sizes) (t : Reg)
    (ops : List Operand) (s : State) :
    Does address raw [⟨.mov, dst :: op :: .register k (regN k t) :: ops⟩] s
      (let s₁ := s.setReg t (merge (transfer k n) (s.regs t) (l.read s (transfer k n)))
      ld.write s₁ (transfer k n) (low (transfer k n) (s₁.regs t))) := by
  apply Does.single
  intro pos
  have he := (executes_mov_load raw hk hn h (.inr hm) pos t s).append
    (executes_mov_store raw hk hn hd (.inr hmd) _ t _)
  refine ⟨_, ?_, he⟩
  simp [assemble, writeNmInstr, writeMrInstr, writeRmInstr, writeMmInstr, hd.isNone, hd.isMemory,
    hd.isRegister, hd.size, h.isMemory, h.isRegister, h.size, hn, hm, hmd]

end

theorem does_mov_imm {n : Nat} (hn : n ∈ [1, 4, 8]) {op : Operand} {l : Loc}
    (h : Names address n op l) (hm : n = 8 ∨ l.isMemory) (v : Word) (ops : List Operand)
    (s : State) : Does address raw [⟨.mov, op :: .immediate (min n 4) v :: ops⟩] s
      (l.write s n (low n (signed (min n 4) v))) := by
  have hsizes : n ∈ sizes := (by decide : ∀ n ∈ [1, 4, 8], n ∈ sizes) n hn
  apply Does.single
  intro pos
  refine ⟨_, ?_, executes_mov_imm raw hn h hm pos v s⟩
  have hreg : (Operand.immediate (min n 4) v).isRegister = false := rfl
  have hmem : (Operand.immediate (min n 4) v).isMemory = false := rfl
  have himm : (Operand.immediate (min n 4) v).isImmediate = true := rfl
  have hsize : (Operand.immediate (min n 4) v).size = min n 4 := rfl
  have hin : n ∈ [1, 2, 4, 8] := hsizes
  cases ops with
  | nil =>
    simp [assemble, writeNmInstr, writeMrInstr, writeRmInstr, writeMmInstr, writeMiInstr, h.isNone,
      h.isMemory, h.isRegister, h.size, hreg, hmem, himm, hsize, hin]
  | cons op3 ops =>
    simp [assemble, writeNmInstr, writeMrInstr, writeRmInstr, writeMmInstr, writeMiInstr, h.isNone,
      h.isMemory, h.isRegister, h.size, hreg, hmem, himm, hsize, hin]

end L2.SelfHost
